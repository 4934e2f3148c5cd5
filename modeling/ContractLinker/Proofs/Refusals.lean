import ContractLinker.Proofs.Diagnosis
import ContractLinker.Proofs.LiveCode
import ContractLinker.Proofs.Retargeting

namespace ContractLinker

def CodecError.Undecodable (e : CodecError) : Prop :=
  (∃ byte offset, e = .invalidOpcode byte offset) ∨ ∃ offset needed, e = .unexpectedEnd offset needed

namespace Read

variable {α β : Type} {kind : CodecError → Prop}

def Raises (kind : CodecError → Prop) (r : Read α) : Prop := ∀ c e c', r c = .error e c' → kind e

theorem raises_pure (a : α) : Raises kind (pure a) := by
  intro c e c' h
  cases h

theorem Raises.bind {r : Read α} {f : α → Read β} (hr : Raises kind r)
    (hf : ∀ a, Raises kind (f a)) : Raises kind (r >>= f) := by
  intro c e c' h
  rw [bind_apply] at h
  cases hread : r c with
  | ok a next =>
    rw [hread] at h
    exact hf a next e c' h
  | error cause next =>
    rw [hread] at h
    cases h
    exact hr c e c' hread

theorem raises_bytes (size : Nat) : Raises CodecError.Undecodable (bytes size) := by
  intro c e c' h
  unfold bytes at h
  by_cases hlen : (c.rest.take size).length = size
  · rw [if_pos hlen] at h
    cases h
  · rw [if_neg hlen] at h
    cases h
    exact .inr ⟨_, _, rfl⟩

end Read

theorem Instruction.raises_readOperand (start : Nat) (opcode : Opcode) :
    Read.Raises CodecError.Undecodable (readOperand start opcode) := by
  have hlength : Read.Raises CodecError.Undecodable (readLength opcode) := by
    unfold readLength
    cases opcode.framing with
    | fixed size => exact Read.raises_pure size
    | counted width => exact (Read.raises_bytes _).bind fun _ => Read.raises_pure _
  apply hlength.bind
  intro n
  exact (Read.raises_bytes n).bind fun _ => Read.raises_pure _

theorem Instruction.raises_read : Read.Raises CodecError.Undecodable read := by
  intro c e c' h
  cases hrest : c.rest with
  | nil =>
    rw [read_of_rest_nil hrest] at h
    cases h
  | cons byte rest =>
    rw [read_cons hrest] at h
    cases hop : Opcode.ofByte? byte with
    | none =>
      rw [hop] at h
      cases h
      exact .inl ⟨_, _, rfl⟩
    | some opcode =>
      rw [hop] at h
      exact raises_readOperand _ _ _ _ _ h

namespace Script

theorem decodeFrom_error {fuel : Nat} {cursor : Cursor} {done : List Instruction} {e : CodecError}
    (h : decodeFrom fuel cursor done = .error e) : e.Undecodable := by
  induction fuel generalizing cursor done with
  | zero => cases h
  | succ fuel ih =>
    unfold decodeFrom at h
    cases hread : Instruction.read cursor with
    | error cause next =>
      rw [hread] at h
      cases h
      exact Instruction.raises_read _ _ _ hread
    | ok found next =>
      rw [hread] at h
      cases found with
      | none => cases h
      | some ins => exact ih h

theorem decode_error {bytes : Bytes} {e : CodecError} (h : decode bytes = .error e) :
    e.Undecodable := by
  rcases Except.bind_eq_error_iff.1 h with hcode | ⟨code, -, hpure⟩
  · exact decodeFrom_error hcode
  · cases hpure

/-- The addresses of the code in their order: the offset of the instruction, and the offset that it
points at. -/
def addresses (code : List Instruction) : List (Nat × Int) :=
  code.flatMap fun ins => ins.displacements.map fun d => (ins.offset, (ins.offset : Int) + d)

def IsBoundary (script : Script) (place : Int) : Prop :=
  place = script.byteLength ∨ ∃ ins ∈ script.instructions, (ins.offset : Int) = place

instance (script : Script) (place : Int) : Decidable (script.IsBoundary place) :=
  inferInstanceAs (Decidable (_ ∨ _))

/-- The first address of what is kept that points at no boundary. -/
def strayAddress? (entries : List Nat) (script : Script) : Option (Nat × Int) :=
  (addresses (live entries script.instructions)).find? fun a => ¬ script.IsBoundary a.2

theorem strayAddress?_eq_none_iff {entries : List Nat} {script : Script} :
    strayAddress? entries script = none ↔
      ∀ a ∈ addresses (live entries script.instructions), script.IsBoundary a.2 := by
  simp [strayAddress?, List.find?_eq_none]

theorem mem_addresses {code : List Instruction} {a : Nat × Int} (ha : a ∈ addresses code) :
    ∃ ins ∈ code, ∃ index d, ins.readAddress index = .ok d ∧
      a = (ins.offset, (ins.offset : Int) + d) := by
  obtain ⟨ins, hmem, hword⟩ := List.mem_flatMap.1 ha
  obtain ⟨d, hd, rfl⟩ := List.mem_map.1 hword
  obtain ⟨index, hindex⟩ := List.getElem?_of_mem hd
  exact ⟨ins, hmem, index, d, Instruction.getElem?_displacements.1 hindex, rfl⟩

theorem signed64_address {ins : Instruction} {index : Nat} {d : Int} (hoffset : ins.offset < 2 ^ 62)
    (hread : ins.readAddress index = .ok d) :
    Instruction.signed64 (ins.offset + d) = ins.offset + d := by
  have hbound : Bytes.bound 4 = 4294967296 := rfl
  have hfits := Instruction.fitsSigned_readAddress hread
  have hplace := Instruction.place_bounds (by omega) hread
  rw [Bytes.FitsSigned, hbound] at hfits
  rcases Instruction.signed64_cases hplace.1 hplace.2 with hself | ⟨hlarge, -⟩
  · exact hself
  · omega

theorem words_eq {code : List Instruction} (h : ∀ ins ∈ code, ins.offset < 2 ^ 62) :
    Move.words code = addresses code := by
  apply List.flatMap_congr
  intro ins hmem
  rw [Instruction.targets, List.map_map]
  apply List.map_congr_left
  intro d hd
  obtain ⟨index, hindex⟩ := List.getElem?_of_mem hd
  have hread := Instruction.getElem?_displacements.1 hindex
  show (ins.offset, Instruction.signed64 (ins.offset + d)) = (ins.offset, (ins.offset : Int) + d)
  rw [signed64_address (h ins hmem) hread]

namespace Decoded

open Eliminated

variable {script : Script} (h : Decoded script)
include h

/-- The layout has a place for every boundary that a kept address points at, and for nothing else. -/
theorem misses_iff {entries : List Nat} {ins : Instruction} {index : Nat} {d : Int}
    (hlive : ins ∈ live entries script.instructions) (hread : ins.readAddress index = .ok d) :
    (compaction { script with instructions := live entries script.instructions }).misses
      (Instruction.signed64 (ins.offset + d)) = true ↔ ¬ script.IsBoundary (ins.offset + d) := by
  obtain ⟨hmem, hkeep⟩ := List.mem_filter.1 hlive
  constructor
  · intro hmiss hboundary
    have hlands : ∃ old : Nat, (ins.offset : Int) + d = old ∧
        (old = script.byteLength ∨ ∃ target ∈ script.instructions, target.offset = old) := by
      rcases hboundary with hend | ⟨target, htarget, hoffset⟩
      · exact ⟨_, hend, .inl rfl⟩
      · exact ⟨_, hoffset.symm, .inr ⟨target, htarget, rfl⟩⟩
    obtain ⟨new, hnew, -⟩ := h.exists_target hmem hkeep hread hlands
    rw [Move.misses, hnew] at hmiss
    cases hmiss
  · intro hstray
    rw [Move.misses, Option.isNone_iff_eq_none]
    by_contra hsome
    obtain ⟨new, hnew⟩ := Option.ne_none_iff_exists'.1 hsome
    -- What the layout accepts is an offset of the script, although it was given as a word.
    obtain ⟨old, hold, hplace⟩ := h.place_of_target? hmem hread hnew
    apply hstray
    rw [hold]
    rcases hplace with ⟨hend, -⟩ | hget
    · left
      omega
    · right
      obtain ⟨before, target, behind, hsplit, rfl, -⟩ :=
        (compaction_get?_eq_some_iff h.distinct_live).1 hget
      have htarget : target ∈ live entries script.instructions :=
        List.mem_iff_append.2 ⟨before, behind, hsplit⟩
      exact ⟨target, (List.mem_filter.1 htarget).1, rfl⟩

theorem eliminateDead_fst (hsmall : script.byteLength ≤ 2 ^ 62) (entries : List Nat) :
    (script.eliminateDead entries).1 = (strayAddress? entries script).elim
      (.ok (compaction { script with instructions := live entries script.instructions }).map)
      fun a => .error (.invalidAddress a.1 a.2) := by
  have hoffset : ∀ ins ∈ live entries script.instructions, ins.offset < 2 ^ 62 := by
    intro ins hlive
    have hbounds := h.laidOut.bounds (List.mem_filter.1 hlive).1
    have hsize := ins.size_pos
    have hlen := h.byteLength
    omega
  have hfind : (addresses (live entries script.instructions)).find? (fun a => (compaction
      { script with instructions := live entries script.instructions }).misses a.2) =
        strayAddress? entries script := by
    apply List.find?_congr
    intro a ha
    obtain ⟨ins, hlive, index, d, hread, rfl⟩ := mem_addresses ha
    have hmisses := h.misses_iff hlive hread
    rw [signed64_address (hoffset ins hlive) hread] at hmisses
    rw [Bool.eq_iff_iff, decide_eq_true_iff]
    exact hmisses
  rw [h.eliminateDead_outcome, words_eq hoffset, hfind]

end Decoded

/-- Every address goes the same way as before, and no further. -/
def Tightens (ins image : Instruction) : Prop :=
  image.opcode = ins.opcode ∧ ∀ index d, ins.readAddress index = .ok d →
    ∃ d', image.readAddress index = .ok d' ∧ Contracts d d'

theorem Eliminated.tightens {entries : List Nat} {script result : Script}
    (h : Eliminated entries script result) :
    List.Forall₂ Tightens (live entries script.instructions) result.instructions := by
  apply h.forall₂_of_moves
  intro ins image hmem hkeep hmoves
  refine ⟨hmoves.opcode, ?_⟩
  intro index d hread
  obtain ⟨d', _, _, hread', hcontracts, -⟩ := h.address_of_moves hmem hkeep hmoves hread
  exact ⟨d', hread', hcontracts⟩

end Script

namespace Executable

/-- Why an executable is refused: its code does not decode, an address that is kept is stray, or
nothing is kept. -/
inductive Refuses (x : Executable) (entries : List Nat) : CompileError → Prop
  | undecodable {e : CodecError} (hdecode : Script.decode x.script = .error e) :
    Refuses x entries (.codec e)
  | stray {script : Script} {offset : Nat} {target : Int}
    (hdecode : Script.decode x.script = .ok script)
    (hstray : script.strayAddress? entries = some (offset, target)) :
    Refuses x entries (.invalidAddress offset target)
  | empty {script : Script} (hdecode : Script.decode x.script = .ok script)
    (hnil : Script.live entries script.instructions = []) :
    Refuses x entries (.codec (.invalidFormat (.scriptLength 0)))

theorem build_nil {compiler source : String} {tokens : List Token} {script : Bytes}
    (hsizes : checkSizes (Utf8.encode compiler) (Utf8.encode source) tokens.length script = .ok ()) :
    build compiler source tokens [] = .error (.invalidFormat (.scriptLength 0)) := by
  obtain ⟨hcompiler, hsource, htokens, -⟩ := checkSizes_eq_ok_iff.1 hsizes
  have hrefused : checkSizes (Utf8.encode compiler) (Utf8.encode source) tokens.length [] =
      .error (.scriptLength 0) := by
    rw [checkSizes, if_neg (by omega), if_neg (by omega), if_neg (by omega), if_pos (.inl rfl)]
    rfl
  simp only [build, updateChecksum, computeChecksum, body, hrefused]
  rfl

section

variable {x : Executable} {data : Bytes} {script : Script} {entries : List Nat}
  (hbody : x.body = .ok data) (hdecode : Script.decode x.script = .ok script)
include hbody hdecode

theorem decoded_of_body : script.Decoded ∧ script.byteLength ≤ 2 ^ 62 := by
  obtain ⟨-, -, -, -, hlength⟩ := checkSizes_eq_ok_iff.1 (body_eq_ok hbody).1
  have hlimit : maxScript = 524288 := rfl
  refine ⟨Script.decoded_of_decode (by omega) hdecode, ?_⟩
  rw [(Script.decode_eq_ok_iff.1 hdecode).2]
  omega

theorem optimize_of_stray {offset : Nat} {target : Int}
    (hstray : script.strayAddress? entries = some (offset, target)) :
    x.optimize entries = .error (.invalidAddress offset target) := by
  obtain ⟨hdecoded, hsmall⟩ := decoded_of_body hbody hdecode
  have hfails := hdecoded.eliminateDead_fst hsmall entries
  rw [hstray] at hfails
  rw [optimize, hdecode]
  rcases hrun : script.eliminateDead entries with ⟨outcome, result⟩
  rw [hrun] at hfails
  cases hfails
  simp only [CompileError.lift, bind, Except.bind, hrun]

theorem exists_run (hstray : script.strayAddress? entries = none) :
    ∃ map result, script.eliminateDead entries = (.ok map, result) := by
  obtain ⟨hdecoded, hsmall⟩ := decoded_of_body hbody hdecode
  have hsucceeds := hdecoded.eliminateDead_fst hsmall entries
  rw [hstray] at hsucceeds
  exact ⟨_, _, Prod.ext hsucceeds rfl⟩

theorem optimize_of_nil (hnil : Script.live entries script.instructions = []) :
    x.optimize entries = .error (.codec (.invalidFormat (.scriptLength 0))) := by
  have hnone : script.strayAddress? entries = none := by
    rw [Script.strayAddress?, hnil]
    rfl
  obtain ⟨map, result, hrun⟩ := exists_run hbody hdecode hnone
  obtain ⟨helim, -⟩ := (decoded_of_body hbody hdecode).1.eliminated hrun
  have hempty := Script.encode_eq_nil_iff.2 (helim.result_eq_nil_iff.2 hnil)
  rw [optimize_of_run hdecode hrun, hempty, build_nil (body_eq_ok hbody).1]
  rfl

theorem exists_optimize (hstray : script.strayAddress? entries = none)
    (hkept : Script.live entries script.instructions ≠ []) : ∃ o, x.optimize entries = .ok o := by
  obtain ⟨map, result, hrun⟩ := exists_run hbody hdecode hstray
  have hdecoded := (decoded_of_body hbody hdecode).1
  obtain ⟨helim, -⟩ := hdecoded.eliminated hrun
  cases hoptimize : x.optimize entries with
  | ok o => exact ⟨o, rfl⟩
  | error e =>
    have hnil := (optimize_fails_iff hdecode hrun hdecoded (body_eq_ok hbody).1
      (validate_of_body hbody)).1 ⟨e, hoptimize⟩
    exact absurd (helim.result_eq_nil_iff.1 hnil) hkept

end

theorem refuses_or_keeps (x : Executable) (entries : List Nat) :
    (∃ e, x.Refuses entries e) ∨
      ∃ script, Script.decode x.script = .ok script ∧ script.strayAddress? entries = none ∧
        Script.live entries script.instructions ≠ [] := by
  cases hdecode : Script.decode x.script with
  | error e => exact .inl ⟨_, .undecodable hdecode⟩
  | ok script =>
    cases hstray : script.strayAddress? entries with
    | some a => exact .inl ⟨_, .stray hdecode hstray⟩
    | none =>
      by_cases hnil : Script.live entries script.instructions = []
      · exact .inl ⟨_, .empty hdecode hnil⟩
      · exact .inr ⟨script, rfl, hstray, hnil⟩

theorem Refuses.optimize_eq {x : Executable} {data : Bytes} {entries : List Nat} {e : CompileError}
    (h : x.Refuses entries e) (hbody : x.body = .ok data) : x.optimize entries = .error e := by
  cases h with
  | undecodable hdecode =>
    rw [optimize, hdecode]
    rfl
  | stray hdecode hstray => exact optimize_of_stray hbody hdecode hstray
  | empty hdecode hnil => exact optimize_of_nil hbody hdecode hnil

theorem Refuses.not_range {x : Executable} {entries : List Nat} {e : CompileError}
    (h : x.Refuses entries e) :
    (∀ opcode width value, e ≠ .codec (.addressRange opcode width value)) ∧
      ∀ size, e ≠ .scriptTooLarge size := by
  cases h with
  | undecodable hdecode =>
    refine ⟨?_, by simp⟩
    rcases Script.decode_error hdecode with ⟨byte, offset, rfl⟩ | ⟨offset, needed, rfl⟩ <;> simp
  | stray => simp
  | empty => simp

/-- What a file holds that can be saved is optimized exactly if its code decodes, every address that
is kept points at a boundary, and something is kept. The first stray address is reported with the
offset of its instruction. No displacement gets too large, as each keeps its sign and none grows. -/
theorem optimize_outcome {x : Executable} {saved : Bytes} (hsave : x.toBytes = .ok saved)
    (entries : List Nat) :
    ((∃ o, x.optimize entries = .ok o) ↔ ∃ script, Script.decode x.script = .ok script ∧
      (∀ a ∈ Script.addresses (Script.live entries script.instructions), script.IsBoundary a.2) ∧
      Script.live entries script.instructions ≠ []) ∧
    (∀ e, x.optimize entries = .error e ↔ x.Refuses entries e) ∧
    (∀ e, x.optimize entries = .error e →
      (∀ opcode width value, e ≠ .codec (.addressRange opcode width value)) ∧
        ∀ size, e ≠ .scriptTooLarge size) ∧
    ∀ o, x.optimize entries = .ok o → ∃ old new : Script, Script.decode x.script = .ok old ∧
      Script.decode o.executable.script = .ok new ∧
      List.Forall₂ Script.Tightens (Script.live entries old.instructions) new.instructions := by
  obtain ⟨data, hbody, -⟩ := toBytes_eq_ok_iff.1 hsave
  -- Each cause gives its own error, and without any cause there is a result.
  have hrefuses : ∀ e, x.optimize entries = .error e → x.Refuses entries e := by
    intro e he
    rcases x.refuses_or_keeps entries with ⟨cause, hcause⟩ | ⟨script, hdecode, hstray, hkept⟩
    · have heq := hcause.optimize_eq hbody
      rw [he] at heq
      cases heq
      exact hcause
    · obtain ⟨o, ho⟩ := exists_optimize hbody hdecode hstray hkept
      rw [he] at ho
      cases ho
  refine ⟨⟨?_, ?_⟩, fun e => ⟨hrefuses e, fun h => h.optimize_eq hbody⟩,
    fun e he => (hrefuses e he).not_range, ?_⟩
  · rintro ⟨o, ho⟩
    rcases x.refuses_or_keeps entries with ⟨e, he⟩ | ⟨script, hdecode, hstray, hkept⟩
    · rw [he.optimize_eq hbody] at ho
      cases ho
    · exact ⟨script, hdecode, Script.strayAddress?_eq_none_iff.1 hstray, hkept⟩
  · rintro ⟨script, hdecode, hboundary, hkept⟩
    exact exists_optimize hbody hdecode (Script.strayAddress?_eq_none_iff.2 hboundary) hkept
  · intro o ho
    obtain ⟨code, result, hdecode, hrun, hbuild, -⟩ := optimize_eq_ok ho
    obtain ⟨helim, -⟩ := (decoded_of_body hbody hdecode).1.eliminated hrun
    refine ⟨code, result, hdecode, ?_, helim.tightens⟩
    rw [(build_ok hbuild).1]
    exact helim.decoded_result.decode_encode

/-- A jump over a jump that leads nowhere. -/
def jumpAstray : Bytes := [0x22, 4, 0x22, 99, 0x40]

/-- The second jump does no harm unless it is an entry point. -/
theorem optimize_outcome_jump_astray : ∃ (x : Executable) (saved : Bytes),
    x.script = jumpAstray ∧ x.toBytes = .ok saved ∧ (∃ o, x.optimize [] = .ok o) ∧
    x.optimize [2] = .error (.invalidAddress 2 101) := by
  have hsizes : checkSizes (Utf8.encode "linker") (Utf8.encode "") 0 jumpAstray = .ok () := by cbv
  obtain ⟨x, hx⟩ := exists_build hsizes (show ∀ t ∈ [], Token.validate t = .ok () by simp)
  obtain ⟨data, hbody, -⟩ := build_eq hx
  have hsave := toBytes_eq_ok_iff.2 ⟨data, hbody, rfl⟩
  have hscript : x.script = jumpAstray := (build_ok hx).1
  have hdecode : Script.decode x.script =
      .ok ⟨[⟨.jmp, [4], 0⟩, ⟨.jmp, [99], 2⟩, ⟨.ret, [], 4⟩], 5⟩ := by
    rw [hscript]
    rfl
  have hskipped : Script.live [] [⟨.jmp, [4], 0⟩, ⟨.jmp, [99], 2⟩, ⟨.ret, [], 4⟩] =
      [⟨.jmp, [4], 0⟩, ⟨.ret, [], 4⟩] := by cbv
  have hentered : Script.live [2] [⟨.jmp, [4], 0⟩, ⟨.jmp, [99], 2⟩, ⟨.ret, [], 4⟩] =
      [⟨.jmp, [4], 0⟩, ⟨.jmp, [99], 2⟩, ⟨.ret, [], 4⟩] := by cbv
  refine ⟨x, _, hscript, hsave, ?_, ?_⟩
  · apply (optimize_outcome hsave []).1.2
    refine ⟨_, hdecode, ?_, ?_⟩
    · rw [hskipped]
      decide
    · rw [hskipped]
      simp
  · apply ((optimize_outcome hsave [2]).2.1 _).2
    apply Refuses.stray hdecode
    rw [Script.strayAddress?, hentered]
    decide

end Executable
end ContractLinker
