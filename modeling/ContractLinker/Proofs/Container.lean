import ContractLinker.Executable
import ContractLinker.Proofs.Fields

namespace ContractLinker

namespace Token

variable {t : Token}

theorem reads_hash (h : Hash160) : Reads readHash h.bytes h := by
  refine (Reads.bytes h.length_eq).map ?_
  rw [Hash160.ofBytes_bytes]
  exact .pure

theorem reads_bool (b : Bool) : Reads readBool [if b then 1 else 0] b := by
  cases b <;> exact Reads.byte.map .pure

theorem validate_eq_ok_iff :
    t.validate = .ok () ↔
      (Utf8.encode t.method).length ≤ maxMethodName ∧ t.method.toList.head? ≠ some '_' := by
  unfold validate
  dsimp only
  split
  · simp; omega
  · split <;> simp_all

theorem reads_fields (h : t.validate = .ok ()) : Reads read t.fields t := by
  have hsize := (validate_eq_ok_iff.1 h).1
  have hshort : (Utf8.encode t.method).length < Bytes.bound 8 :=
    Nat.lt_of_le_of_lt hsize (by decide)
  have hcount : t.parameterCount.toNat < Bytes.bound 2 := t.parameterCount.toNat_lt
  unfold read
  simp only [fields, List.append_assoc]
  refine (reads_hash t.hash).bind ?_
  refine (Reads.varText hsize hshort).bind ?_
  refine (Reads.natLE hcount).bind ?_
  refine (reads_bool t.returnsValue).bind ?_
  refine Reads.byte.map ?_
  have hvalid : validate ⟨t.hash, t.method, t.parameterCount, t.returnsValue, {}⟩ = .ok () := h
  have hflags : CallFlags.ofBits t.callFlags.bits = .ok t.callFlags := by
    rw [CallFlags.ofBits, CallFlags.ofBits?_bits]
  simp only [UInt16.ofNat_toNat, hvalid, hflags]
  exact .pure

theorem encode_eq_ok_iff {data : Bytes} :
    t.encode = .ok data ↔ t.validate = .ok () ∧ data = t.fields := by
  unfold encode
  cases h : t.validate <;> simp [Bind.bind, Except.bind, Pure.pure, Except.pure, eq_comm]

end Token

namespace Executable

theorem reads_tokens {tokens : List Token} {chunks : List Bytes}
    (h : tokens.mapM Token.encode = .ok chunks) :
    Reads (readTokens tokens.length) chunks.flatten tokens := by
  induction tokens generalizing chunks with
  | nil =>
    cases h
    exact .pure
  | cons t rest ih =>
    rw [List.mapM_cons] at h
    cases ht : t.encode with
    | error e =>
      rw [ht] at h
      cases h
    | ok first =>
      cases hrest : rest.mapM Token.encode with
      | error e =>
        rw [ht, hrest] at h
        cases h
      | ok others =>
        rw [ht, hrest] at h
        cases h
        obtain ⟨hvalid, rfl⟩ := Token.encode_eq_ok_iff.1 ht
        exact (Token.reads_fields hvalid).bind ((ih hrest).map .pure)

theorem reads_compiler {compiler : String} (hsize : (Utf8.encode compiler).length ≤ compilerField)
    (hnul : '\x00' ∉ compiler.toList) :
    Reads readCompiler (Bytes.resize compilerField (Utf8.encode compiler)) compiler := by
  refine (Reads.bytes (Bytes.length_resize _ _)).map ?_
  have hzero : ∀ b ∈ Utf8.encode compiler, decide (b ≠ 0) = true := by
    intro b hb
    simp only [decide_eq_true_eq]
    intro hb0
    exact hnul (Utf8.zero_mem_encode_iff.1 (hb0 ▸ hb))
  have hname : (Bytes.resize compilerField (Utf8.encode compiler)).takeWhile (· ≠ 0) =
      Utf8.encode compiler := by
    rw [Bytes.resize, List.take_of_length_le hsize, List.takeWhile_append_of_pos hzero]
    simp
  have hfill : ((Bytes.resize compilerField (Utf8.encode compiler)).dropWhile (· ≠ 0)).any (· ≠ 0) =
      false := by
    rw [Bytes.resize, List.take_of_length_le hsize, List.dropWhile_append_of_pos hzero]
    simp
  simp only [hname, hfill, Utf8.decode_eq_ok_iff.2 rfl]
  exact .pure

theorem checkSizes_eq_ok_iff {compiler source script : Bytes} {tokens : Nat} :
    checkSizes compiler source tokens script = .ok () ↔
      compiler.length ≤ compilerField ∧ source.length ≤ maxSource ∧ tokens ≤ maxTokens ∧
        script ≠ [] ∧ script.length ≤ maxScript := by
  unfold checkSizes
  grind [List.isEmpty_iff]

theorem body_eq_ok {x : Executable} {data : Bytes} (h : x.body = .ok data) :
    checkSizes (Utf8.encode x.compiler) (Utf8.encode x.source) x.tokens.length x.script = .ok () ∧
      ∃ chunks, x.tokens.mapM Token.encode = .ok chunks ∧
        data = Bytes.ofNatLE 4 magic.toNat ++ (Bytes.resize compilerField (Utf8.encode x.compiler) ++
          (VarInt.encodeBytes (Utf8.encode x.source) ++ ([0] ++ (VarInt.encode x.tokens.length ++
            (chunks.flatten ++ ([0, 0] ++ VarInt.encodeBytes x.script)))))) := by
  unfold body at h
  dsimp only at h
  split at h
  · cases h
  · rename_i hsizes
    cases hchunks : x.tokens.mapM Token.encode with
    | error e =>
      rw [hchunks] at h
      cases h
    | ok chunks =>
      rw [hchunks] at h
      cases h
      exact ⟨hsizes, chunks, rfl, by simp only [List.append_assoc]⟩

theorem reads_body {x : Executable} {data : Bytes} (h : x.body = .ok data)
    (hnul : '\x00' ∉ x.compiler.toList) :
    Reads readBody data (x.compiler, x.source, x.tokens, x.script) := by
  obtain ⟨hsizes, chunks, hchunks, rfl⟩ := body_eq_ok h
  obtain ⟨hcompiler, hsource, htokens, hne, hscript⟩ := checkSizes_eq_ok_iff.1 hsizes
  unfold readBody
  refine (Reads.natLE (show magic.toNat < Bytes.bound 4 from magic.toNat_lt)).bind ?_
  rw [if_neg (by simp)]
  refine (reads_compiler hcompiler hnul).bind ?_
  refine (Reads.varText hsource (Nat.lt_of_le_of_lt hsource (by decide))).bind ?_
  refine Reads.byte.bind ?_
  rw [if_neg (by simp)]
  refine (Reads.varInt htokens (Nat.lt_of_le_of_lt htokens (by decide))).bind ?_
  refine (reads_tokens hchunks).bind ?_
  refine (show Reads (Read.natLE 2) [0, 0] 0 from Reads.natLE (by decide)).bind ?_
  rw [if_neg (by simp)]
  refine (Reads.varBytes hscript (Nat.lt_of_le_of_lt hscript (by decide))).map ?_
  rw [if_neg (by simpa using hne)]
  exact .pure

theorem readFrom_eq_ok_iff {data : Bytes} {c c' : Cursor} {x : Executable} :
    readFrom data c = .ok x c' ↔
      ∃ t, readBody c = .ok (x.compiler, x.source, x.tokens, x.script) t ∧
        Read.natLE 4 t = .ok x.checksum.toNat c' ∧ c'.rest = [] ∧
        x.checksum = checksumOf (data.take t.position) := by
  unfold readFrom
  constructor
  · intro h
    obtain ⟨⟨compiler, source, tokens, script⟩, t, hbody, hget⟩ := bind_eq_ok_iff.1 h
    dsimp only at hget
    rw [bind_of_ok get_apply] at hget
    obtain ⟨n, u, hsum, hget'⟩ := bind_eq_ok_iff.1 hget
    rw [bind_of_ok get_apply] at hget'
    obtain ⟨hrest, hcheck⟩ := unless_throw_eq_ok_iff.1 hget'
    obtain ⟨hequal, hpure⟩ := unless_throw_eq_ok_iff.1 hcheck
    cases hpure
    obtain ⟨-, hn, -⟩ := Read.natLE_eq_ok_iff.1 hsum
    -- The sum was read from four bytes, so nothing of it is cut off.
    have hstored : (UInt32.ofNat n).toNat = n := UInt32.toNat_ofNat_of_lt hn
    refine ⟨t, hbody, ?_, by simpa using hrest, Decidable.not_not.1 hequal⟩
    rw [hsum, hstored]
  · intro h
    obtain ⟨t, hbody, hsum, hrest, hequal⟩ := h
    rw [bind_of_ok hbody]
    dsimp only
    rw [bind_of_ok get_apply, bind_of_ok hsum, bind_of_ok get_apply]
    refine unless_throw_eq_ok_iff.2 ⟨by simp [hrest], unless_throw_eq_ok_iff.2 ⟨?_, ?_⟩⟩
    · rw [UInt32.ofNat_toNat]
      exact Decidable.not_not.2 hequal
    · rw [UInt32.ofNat_toNat]
      rfl

/-- What is read as the name of the compiler ends in front of the first zero. -/
theorem nul_not_mem_of_readCompiler {compiler : String} {c c' : Cursor}
    (h : readCompiler c = .ok compiler c') : '\x00' ∉ compiler.toList := by
  unfold readCompiler at h
  obtain ⟨raw, t, -, hname⟩ := bind_eq_ok_iff.1 h
  split at hname
  · cases hname
  · cases hdecode : Utf8.decode (raw.takeWhile (· ≠ 0)) with
    | error cause =>
      simp only [hdecode] at hname
      cases hname
    | ok text =>
      simp only [hdecode] at hname
      cases hname
      rw [← Utf8.zero_mem_encode_iff, ← Utf8.decode_eq_ok_iff.1 hdecode]
      intro hmem
      have hne := List.all_eq_true.1 List.all_takeWhile _ hmem
      simp at hne

theorem readBody_ok {c c' : Cursor} {compiler source : String} {tokens : List Token}
    {script : Bytes} (h : readBody c = .ok (compiler, source, tokens, script) c') :
    ∃ c₁ c₂ c₃ c₄ c₅ c₆ c₇ count, Read.natLE 4 c = .ok magic.toNat c₁ ∧
      readCompiler c₁ = .ok compiler c₂ ∧ Read.varText maxSource c₂ = .ok source c₃ ∧
      Read.byte c₃ = .ok 0 c₄ ∧ Read.varInt maxTokens c₄ = .ok count c₅ ∧
      readTokens count c₅ = .ok tokens c₆ ∧ Read.natLE 2 c₆ = .ok 0 c₇ ∧
      Read.varBytes maxScript c₇ = .ok script c' ∧ script ≠ [] := by
  unfold readBody at h
  obtain ⟨found, c₁, hfound, h₁⟩ := bind_eq_ok_iff.1 h
  obtain ⟨hmagic, h₁'⟩ := unless_throw_eq_ok_iff.1 h₁
  obtain ⟨name, c₂, hname, h₂⟩ := bind_eq_ok_iff.1 h₁'
  obtain ⟨text, c₃, htext, h₃⟩ := bind_eq_ok_iff.1 h₂
  obtain ⟨byte, c₄, hbyte, h₄⟩ := bind_eq_ok_iff.1 h₃
  obtain ⟨hzero, h₄'⟩ := unless_throw_eq_ok_iff.1 h₄
  obtain ⟨count, c₅, hcount, h₅⟩ := bind_eq_ok_iff.1 h₄'
  obtain ⟨list, c₆, hlist, h₆⟩ := bind_eq_ok_iff.1 h₅
  obtain ⟨field, c₇, hfield, h₇⟩ := bind_eq_ok_iff.1 h₆
  obtain ⟨hzero', h₇'⟩ := unless_throw_eq_ok_iff.1 h₇
  obtain ⟨code, c₈, hcode, h₈⟩ := bind_eq_ok_iff.1 h₇'
  obtain ⟨hne, hpure⟩ := unless_throw_eq_ok_iff.1 h₈
  cases hpure
  rw [Decidable.not_not.1 hmagic] at hfound
  rw [Decidable.not_not.1 hzero] at hbyte
  rw [Decidable.not_not.1 hzero'] at hfield
  exact ⟨c₁, c₂, c₃, c₄, c₅, c₆, c₇, count, hfound, hname, htext, hbyte, hcount, hlist, hfield,
    hcode, by simpa using hne⟩

theorem ofBytes_eq_ok_iff {data : Bytes} {x : Executable} :
    ofBytes data = .ok x ↔ ∃ c, readFrom data (.start data) = .ok x c := by
  unfold ofBytes
  cases readFrom data (.start data) <;> simp

theorem toBytes_eq_ok_iff {x : Executable} {data : Bytes} :
    x.toBytes = .ok data ↔
      ∃ body, x.body = .ok body ∧ data = body ++ Bytes.ofNatLE 4 x.checksum.toNat := by
  unfold toBytes
  cases x.body <;> simp [bind, Except.bind, pure, Except.pure, eq_comm]

theorem computeChecksum_of_body {x : Executable} {data : Bytes} (h : x.body = .ok data) :
    x.computeChecksum = .ok (checksumOf data) := by
  rw [computeChecksum, h]
  rfl

/-- Saving and loading gives the same value back exactly when the stored checksum is that of the
content and the name of the compiler holds no NUL. -/
theorem ofBytes_toBytes_iff {x : Executable} {data : Bytes} (h : x.toBytes = .ok data) :
    ofBytes data = .ok x ↔
      x.computeChecksum = .ok x.checksum ∧ '\x00' ∉ x.compiler.toList := by
  obtain ⟨body, hbody, rfl⟩ := toBytes_eq_ok_iff.1 h
  have htake : (body ++ Bytes.ofNatLE 4 x.checksum.toNat).take (0 + body.length) = body := by
    rw [Nat.zero_add, List.take_left]
  rw [computeChecksum_of_body hbody, Except.ok.injEq, ofBytes_eq_ok_iff]
  constructor
  · intro hload
    obtain ⟨c, hread⟩ := hload
    obtain ⟨t, hparts, -, -, hsum⟩ := readFrom_eq_ok_iff.1 hread
    obtain ⟨_, _, _, _, _, _, _, _, -, hcompiler, -⟩ := readBody_ok hparts
    have hnul := nul_not_mem_of_readCompiler hcompiler
    -- Without a NUL the body is read as it was written, so the checksum is taken over all of it.
    rw [Cursor.start, reads_body hbody hnul] at hparts
    cases hparts
    rw [htake] at hsum
    exact ⟨hsum.symm, hnul⟩
  · intro hand
    obtain ⟨hsum, hnul⟩ := hand
    have hstored := Reads.natLE (show x.checksum.toNat < Bytes.bound 4 from x.checksum.toNat_lt)
      (0 + body.length) []
    rw [List.append_nil] at hstored
    refine ⟨_, readFrom_eq_ok_iff.2 ⟨_, reads_body hbody hnul 0 _, hstored, rfl, ?_⟩⟩
    rw [htake, hsum]

theorem ofBytes_toBytes_iff_ret :
    (∃ sum : UInt32, ofBytes ([0x4E, 0x45, 0x46, 0x33, 0x61, 0x62] ++ List.replicate 62 0 ++
      [0, 0, 0, 0, 0, 1, 0x40] ++ Bytes.ofNatLE 4 sum.toNat) = .ok ⟨"ab", "", [], [0x40], sum⟩) ∧
    ofBytes ([0x4E, 0x45, 0x46, 0x33, 0x61, 0] ++ List.replicate 62 0 ++
      [0, 0, 0, 0, 0, 1, 0x40] ++ Bytes.ofNatLE 4 7) ≠ .ok ⟨"a\x00", "", [], [0x40], 7⟩ := by
  have hbody (sum : UInt32) : body ⟨"ab", "", [], [0x40], sum⟩ =
      .ok ([0x4E, 0x45, 0x46, 0x33, 0x61, 0x62] ++ List.replicate 62 0 ++
        [0, 0, 0, 0, 0, 1, 0x40]) := by cbv
  have hbody' : body ⟨"a\x00", "", [], [0x40], 7⟩ =
      .ok ([0x4E, 0x45, 0x46, 0x33, 0x61, 0] ++ List.replicate 62 0 ++
        [0, 0, 0, 0, 0, 1, 0x40]) := by cbv
  have hnul : '\x00' ∉ "ab".toList := by decide
  constructor
  · have hsave (sum : UInt32) := toBytes_eq_ok_iff.2 ⟨_, hbody sum, rfl⟩
    exact ⟨_, (ofBytes_toBytes_iff (hsave _)).2 ⟨computeChecksum_of_body (hbody _), hnul⟩⟩
  · intro hload
    have hsave := toBytes_eq_ok_iff.2 ⟨_, hbody', rfl⟩
    exact ((ofBytes_toBytes_iff hsave).1 hload).2 (by decide)

end Executable

end ContractLinker
