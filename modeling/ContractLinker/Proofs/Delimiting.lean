import ContractLinker.Proofs.Spelling

namespace ContractLinker

/-- When the last of `bytes` are missing, `read` asks for some of them and for nothing else. -/
def Starves {α : Type} (read : Read α) (bytes : Bytes) : Prop :=
  ∀ position short missing, bytes = short ++ missing → missing ≠ [] → ∃ offset needed c,
    read ⟨position, short⟩ = .error (.unexpectedEnd offset needed) c ∧
      offset ≤ position + short.length ∧ 0 < needed ∧ needed ≤ missing.length

/-- Whatever `read` accepts, it takes the same bytes at any other place, and starves on less. -/
def Delimited {α : Type} (read : Read α) : Prop :=
  ∀ c a c', read c = .ok a c' →
    ∃ taken, c.rest = taken ++ c'.rest ∧ Reads read taken a ∧ Starves read taken

section Laws

variable {α β : Type} {m m' : Read α} {f : α → Read β} {data more : Bytes} {a : α}

theorem starves_nil : Starves m [] := by
  intro position short missing hcut hmissing
  exact absurd (List.append_eq_nil_iff.1 hcut.symm).2 hmissing

/-- A cut falls into what the first reader takes, or behind it. -/
theorem Starves.bind (h : Starves m data) (hreads : Reads m data a) (hf : Starves (f a) more) :
    Starves (m >>= f) (data ++ more) := by
  intro position short missing hcut hmissing
  have hbehind (beyond : Bytes) (hshort : short = data ++ beyond)
      (hmore : more = beyond ++ missing) :
      ∃ offset needed c, (m >>= f) ⟨position, short⟩ = .error (.unexpectedEnd offset needed) c ∧
        offset ≤ position + short.length ∧ 0 < needed ∧ needed ≤ missing.length := by
    obtain ⟨offset, needed, c, hread, hoffset, hneeded⟩ :=
      hf (position + data.length) beyond missing hmore hmissing
    refine ⟨offset, needed, c, ?_, ?_, hneeded⟩
    · rw [hshort, bind_of_ok (hreads position beyond)]
      exact hread
    · rw [hshort, List.length_append]
      omega
  -- The cut falls behind what the first reader takes, or into it. A cut right at its end is left to
  -- the second reader.
  rcases List.append_eq_append_iff.1 hcut with ⟨beyond, hshort, hmore⟩ | ⟨gap, hdata, hgap⟩
  · exact hbehind beyond hshort hmore
  · by_cases hnil : gap = []
    · subst hnil
      apply hbehind []
      · simpa using hdata.symm
      · simpa using hgap.symm
    · obtain ⟨offset, needed, c, hread, hoffset, hpos, hneeded⟩ := h position short gap hdata hnil
      refine ⟨offset, needed, c, ?_, hoffset, hpos, ?_⟩
      · rw [bind_apply, hread]
      · rw [hgap, List.length_append]
        omega

namespace Delimited

theorem starves (h : Delimited m) (hreads : Reads m data a) : Starves m data := by
  obtain ⟨taken, hrest, -, hstarves⟩ := h _ _ _ (hreads 0 [])
  rw [List.append_nil, List.append_nil] at hrest
  rwa [← hrest] at hstarves

theorem pure : Delimited (pure a : Read α) := by
  intro c b c' hrun
  cases hrun
  exact ⟨[], rfl, .pure, starves_nil⟩

theorem refuse {e : CodecError} : Delimited (throw e : Read α) := by
  intro c a c' hrun
  cases hrun

theorem bytes {size : Nat} : Delimited (Read.bytes size) := by
  intro c b c' hrun
  obtain ⟨hrest, hsize, -⟩ := Read.bytes_eq_ok_iff.1 hrun
  refine ⟨b, hrest, .bytes hsize, ?_⟩
  intro position short missing hcut hmissing
  have hlen : short.length + missing.length = size := by rw [← hsize, hcut, List.length_append]
  have hpos : 0 < missing.length := List.length_pos_iff.2 hmissing
  have htake : short.take size = short := List.take_of_length_le (by omega)
  refine ⟨position, size - short.length, ⟨position, short⟩, ?_, by omega, by omega, by omega⟩
  simp only [Read.bytes, htake]
  rw [if_neg (by omega)]

theorem bind (h : Delimited m) (hf : ∀ a, Delimited (f a)) : Delimited (m >>= f) := by
  intro c b c' hrun
  obtain ⟨a, t, hm, hrest⟩ := bind_eq_ok_iff.1 hrun
  obtain ⟨taken, hdata, hreads, hstarves⟩ := h c a t hm
  obtain ⟨taken', hdata', hreads', hstarves'⟩ := hf a t b c' hrest
  refine ⟨taken ++ taken', ?_, hreads.bind hreads', hstarves.bind hreads hstarves'⟩
  rw [hdata, hdata', List.append_assoc]

theorem ite {p : Prop} [Decidable p] (h : Delimited m) (h' : Delimited m') :
    Delimited (if p then m else m') := by
  by_cases hp : p
  · rwa [if_pos hp]
  · rwa [if_neg hp]

theorem guard {p : Prop} [Decidable p] {e : CodecError} {k : PUnit → Read β}
    (h : Delimited (k ⟨⟩)) : Delimited (if p then throw e >>= k else k ⟨⟩) := by
  apply ite _ h
  intro c b c' hrun
  cases hrun

theorem natLE {width : Nat} : Delimited (Read.natLE width) := bytes.bind fun _ => pure

theorem byte : Delimited Read.byte := natLE.bind fun _ => pure

theorem varInt {max : Nat} : Delimited (Read.varInt max) := by
  have hpayload (first : UInt8) : Delimited (Read.payload first) :=
    natLE.ite (natLE.ite (natLE.ite pure))
  rw [Read.varInt_eq]
  apply byte.bind
  intro first
  apply (hpayload first).bind
  intro value
  exact refuse.ite pure

theorem varBytes {max : Nat} : Delimited (Read.varBytes max) := varInt.bind fun _ => bytes

theorem varText {max : Nat} : Delimited (Read.varText max) := by
  apply varBytes.bind
  intro b
  cases Utf8.decode b with
  | ok text => exact pure
  | error cause => exact refuse

end Delimited
end Laws

theorem Token.delimited_read : Delimited read := by
  have hbool (b : UInt8) : Delimited (if b = 0 then return false
      else if b = 1 then return true else Read.refuse (.tokenBoolean b) : Read Bool) :=
    Delimited.pure.ite (Delimited.pure.ite Delimited.refuse)
  unfold read readHash readBool
  apply (Delimited.bytes.bind fun _ => .pure).bind
  intro hash
  apply Delimited.varText.bind
  intro method
  apply Delimited.natLE.bind
  intro count
  apply (Delimited.byte.bind hbool).bind
  intro returns
  apply Delimited.byte.bind
  intro flagBits
  -- All fields are read before any of them is judged.
  dsimp only
  cases validate ⟨hash, method, UInt16.ofNat count, returns, {}⟩ with
  | error e => exact .refuse
  | ok =>
    cases CallFlags.ofBits flagBits with
    | error e => exact .refuse
    | ok flags => exact .pure

namespace Executable

theorem delimited_tokens (n : Nat) : Delimited (readTokens n) := by
  induction n with
  | zero => exact .pure
  | succ n ih => exact Token.delimited_read.bind fun _ => ih.bind fun _ => .pure

theorem delimited_compiler : Delimited readCompiler := by
  apply Delimited.bytes.bind
  intro raw
  apply Delimited.refuse.ite
  cases Utf8.decode (raw.takeWhile (· ≠ 0)) with
  | ok text => exact .pure
  | error cause => exact .refuse

theorem delimited_body : Delimited readBody := by
  unfold readBody
  refine Delimited.natLE.bind fun found => .guard ?_
  refine delimited_compiler.bind fun compiler => ?_
  refine Delimited.varText.bind fun source => ?_
  refine Delimited.byte.bind fun reserved => .guard ?_
  refine Delimited.varInt.bind fun count => ?_
  refine (delimited_tokens count).bind fun tokens => ?_
  refine Delimited.natLE.bind fun field => .guard ?_
  exact Delimited.varBytes.bind fun script => .guard .pure

/-- All of a container, with no look at what follows and none at the checksum. -/
def readSealed : Read ((String × String × List Token × Bytes) × Nat) := do
  let parts ← readBody
  let stored ← Read.natLE 4
  return (parts, stored)

theorem delimited_sealed : Delimited readSealed :=
  delimited_body.bind fun _ => Delimited.natLE.bind fun _ => .pure

variable {data : Bytes} {c c' : Cursor}

theorem readFrom_of_error {e : CodecError} (h : readSealed c = .error e c') :
    readFrom data c = .error e c' := by
  unfold readSealed at h
  unfold readFrom
  rw [bind_apply] at h ⊢
  cases hbody : readBody c with
  | error cause t =>
    rw [hbody] at h
    cases h
    rfl
  | ok parts t =>
    rw [hbody] at h
    dsimp only at h ⊢
    rw [bind_of_ok get_apply]
    rw [bind_apply] at h ⊢
    cases hsum : Read.natLE 4 t with
    | error cause u =>
      rw [hsum] at h
      cases h
      rfl
    | ok stored u =>
      rw [hsum] at h
      cases h

theorem readFrom_of_rest {parts : (String × String × List Token × Bytes) × Nat}
    (h : readSealed c = .ok parts c') (hrest : c'.rest ≠ []) :
    readFrom data c = .error (.invalidFormat (.trailingBytes c'.rest.length)) c' := by
  obtain ⟨found, t, hbody, htail⟩ := bind_eq_ok_iff.1 h
  obtain ⟨stored, u, hsum, hpure⟩ := bind_eq_ok_iff.1 htail
  cases hpure
  unfold readFrom
  rw [bind_of_ok hbody]
  dsimp only
  rw [bind_of_ok get_apply, bind_of_ok hsum, bind_of_ok get_apply]
  have hmore : (!c'.rest.isEmpty) = true := by simpa using hrest
  rw [if_pos hmore]
  rfl

theorem readSealed_of_readFrom {x : Executable} (h : readFrom data c = .ok x c') :
    readSealed c = .ok ((x.compiler, x.source, x.tokens, x.script), x.checksum.toNat) c' ∧
      c'.rest = [] := by
  obtain ⟨t, hbody, hsum, hrest, -⟩ := readFrom_eq_ok_iff.1 h
  refine ⟨?_, hrest⟩
  unfold readSealed
  rw [bind_of_ok hbody, bind_of_ok hsum]
  rfl

/-- A file ends where its content says. What is cut short anywhere is refused for want of bytes, of
which no more are asked for than are missing, and what goes on is refused for exactly the bytes that
are too many. -/
theorem ofBytes_self_delimiting {x : Executable} (h : ofBytes data = .ok x) :
    (∀ short missing, data = short ++ missing → missing ≠ [] → ∃ offset needed,
      ofBytes short = .error (.unexpectedEnd offset needed) ∧
        offset ≤ short.length ∧ 0 < needed ∧ needed ≤ missing.length) ∧
    ∀ extra, extra ≠ [] →
      ofBytes (data ++ extra) = .error (.invalidFormat (.trailingBytes extra.length)) := by
  obtain ⟨c, hread⟩ := ofBytes_eq_ok_iff.1 h
  obtain ⟨hsealed, hend⟩ := readSealed_of_readFrom hread
  obtain ⟨taken, hdata, hreads, hstarves⟩ := delimited_sealed _ _ _ hsealed
  rw [hend, List.append_nil, Cursor.start] at hdata
  subst hdata
  constructor
  · intro short missing hcut hmissing
    obtain ⟨offset, needed, t, hshort, hoffset, hpos, hneeded⟩ :=
      hstarves 0 short missing hcut hmissing
    refine ⟨offset, needed, ?_, by omega, hpos, hneeded⟩
    unfold ofBytes
    rw [Cursor.start, readFrom_of_error hshort]
  · intro extra hextra
    unfold ofBytes
    rw [Cursor.start, readFrom_of_rest (hreads 0 extra) hextra]

def calling : Bytes :=
  [0x4E, 0x45, 0x46, 0x33, 0x61, 0x62] ++ List.replicate 62 0 ++ [0, 0, 1] ++ List.replicate 20 7 ++
    [1, 0x66, 2, 0, 1, 1, 0, 0, 1, 0x40]

/-- The file is cut behind the length of the name in its token, or goes on by two bytes. -/
theorem ofBytes_self_delimiting_calling : ∃ sum x, ofBytes (calling ++ sum) = .ok x ∧
    (∃ offset needed, ofBytes (calling.take 92) = .error (.unexpectedEnd offset needed)) ∧
    ofBytes (calling ++ sum ++ [0, 0]) = .error (.invalidFormat (.trailingBytes 2)) := by
  have hread (tail : Bytes) : readBody ⟨0, calling ++ tail⟩ = .ok ("ab", "",
      [⟨⟨List.replicate 20 7, rfl⟩, "f", 2, true, { readStates := true }⟩], [0x40])
        ⟨calling.length, tail⟩ := by cbv
  have hload := ofBytes_of_readBody hread
  obtain ⟨hshort, hlong⟩ := ofBytes_self_delimiting hload
  have hcut : calling ++ Bytes.ofNatLE 4 (checksumOf calling).toNat =
      calling.take 92 ++ (calling.drop 92 ++ Bytes.ofNatLE 4 (checksumOf calling).toNat) := by
    rw [← List.append_assoc, List.take_append_drop]
  have hmissing : calling.drop 92 ++ Bytes.ofNatLE 4 (checksumOf calling).toNat ≠ [] := by
    rw [Ne, List.append_eq_nil_iff]
    exact fun hand => absurd hand.1 (by decide)
  obtain ⟨offset, needed, herror, -⟩ := hshort _ _ hcut hmissing
  exact ⟨_, _, hload, ⟨offset, needed, herror⟩, hlong [0, 0] (by simp)⟩

end Executable
end ContractLinker
