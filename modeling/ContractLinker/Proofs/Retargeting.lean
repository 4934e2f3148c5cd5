import ContractLinker.Proofs.Reloading

namespace ContractLinker.Script

/-- The second displacement goes the same way as the first, and no further. -/
def Contracts (d d' : Int) : Prop := d'.sign = d.sign ∧ d'.natAbs ≤ d.natAbs

theorem Contracts.zero_iff {d d' : Int} (h : Contracts d d') : d' = 0 ↔ d = 0 := by
  rw [← Int.sign_eq_zero_iff_zero, h.1, Int.sign_eq_zero_iff_zero]

theorem Contracts.pos_iff {d d' : Int} (h : Contracts d d') : 0 < d' ↔ 0 < d := by
  rw [← Int.sign_eq_one_iff_pos, h.1, Int.sign_eq_one_iff_pos]

theorem Shrinks.contracts {d d' : Int} (h : Shrinks d d') (hzero : d' = 0 → d = 0) :
    Contracts d d' := by
  unfold Shrinks at h
  refine ⟨?_, by omega⟩
  rcases Int.lt_trichotomy d 0 with hneg | hnull | hpos
  · rw [Int.sign_eq_neg_one_of_neg hneg, Int.sign_eq_neg_one_of_neg (by omega)]
  · rw [hnull, show d' = 0 by omega]
  · rw [Int.sign_eq_one_of_pos hpos, Int.sign_eq_one_of_pos (by omega)]

theorem extent_filter_pos {keep : Instruction → Bool} {ins : Instruction}
    (rest : List Instruction) (hkeep : keep ins = true) :
    0 < extent ((ins :: rest).filter keep) := by
  have hsize := ins.size_pos
  rw [List.filter_cons_of_pos hkeep, extent]
  omega

namespace Eliminated

variable {entries : List Nat} {script result : Script}

theorem Anchored.eq_of_new_eq {a a' b b' : Nat} (ha : Anchored entries script a a')
    (hb : Anchored entries script b b') (hsame : a' = b') : a = b := by
  obtain ⟨before, behind, hsplit, hfirst, rfl, rfl⟩ := ha
  obtain ⟨before', behind', hsplit', hfirst', rfl, rfl⟩ := hb
  rcases List.append_eq_append_iff.1 (hsplit.symm.trans hsplit') with
    ⟨between, rfl, rfl⟩ | ⟨between, rfl, rfl⟩
  · cases between with
    | nil => rw [List.append_nil]
    | cons ins rest =>
      -- The first instruction between the two is kept and takes its room.
      have hpos := extent_filter_pos rest (hfirst ins _ rfl)
      rw [List.filter_append, extent_append] at hsame
      omega
  · cases between with
    | nil => rw [List.append_nil]
    | cons ins rest =>
      have hpos := extent_filter_pos rest (hfirst' ins _ rfl)
      rw [List.filter_append, extent_append] at hsame
      omega

theorem Anchored.contracts {a a' b b' : Nat} (ha : Anchored entries script a a')
    (hb : Anchored entries script b b') : Contracts ((b : Int) - a) ((b' : Int) - a') := by
  apply (ha.shrinks hb).contracts
  intro hzero
  have heq := Anchored.eq_of_new_eq ha hb (by omega)
  omega

end Eliminated

/-- `image` is what `ins` has become. Every address that pointed at an instruction points at its new
place, and every address that pointed at the end at the new end. -/
structure Becomes (map : OffsetMap) (script result : Script) (ins image : Instruction) : Prop where
  offset : map.get? ins.offset = some image.offset
  opcode : image.opcode = ins.opcode
  length : image.operand.length = ins.operand.length
  operand : ins.opcode.addressClass = none → image.operand = ins.operand
  address : ∀ index d, ins.readAddress index = .ok d → ∃ d', image.readAddress index = .ok d' ∧
    (d' = 0 ↔ d = 0) ∧
    ((ins.offset : Int) + d = script.byteLength ∧ (image.offset : Int) + d' = result.byteLength ∨
      ∃ old new : Nat, (ins.offset : Int) + d = old ∧ map.get? old = some new ∧
        (image.offset : Int) + d' = new)

namespace Eliminated

variable {entries : List Nat} {script result : Script} (h : Eliminated entries script result)
include h

theorem address_of_moves {ins image : Instruction} {index : Nat} {d : Int}
    (hmem : ins ∈ script.instructions) (hkeep : keeps entries script ins = true)
    (hmoves : Move.Moves
      (compaction { script with instructions := live entries script.instructions }) ins image)
    (hread : ins.readAddress index = .ok d) :
    ∃ (d' : Int) (old new : Nat), image.readAddress index = .ok d' ∧ Contracts d d' ∧
      (ins.offset : Int) + d = old ∧ (image.offset : Int) + d' = new ∧
      (old = script.byteLength ∧ new = extent (live entries script.instructions) ∨
        (compaction { script with instructions := live entries script.instructions }).map.get? old =
          some new) := by
  have hget := (h.survives_of_moves hmem hkeep hmoves).offset
  obtain ⟨new, hnew, hread'⟩ := hmoves.address index _
    (Instruction.getElem?_targets.2 ⟨d, hread, rfl⟩)
  obtain ⟨old, hold, hplace⟩ := h.place_of_target? hmem hread hnew
  have hcontracts := (h.anchored_target (.inr hget)).contracts (h.anchored_target hplace)
  rw [show (old : Int) - ins.offset = d by omega] at hcontracts
  exact ⟨_, old, new, hread', hcontracts, hold, by omega, hplace⟩

theorem becomes_of_moves {ins image : Instruction} (hmem : ins ∈ script.instructions)
    (hkeep : keeps entries script ins = true)
    (hmoves : Move.Moves
      (compaction { script with instructions := live entries script.instructions }) ins image) :
    Becomes (compaction { script with instructions := live entries script.instructions }).map
      script result ins image := by
  have hget := (h.survives_of_moves hmem hkeep hmoves).offset
  refine ⟨hget, hmoves.opcode, hmoves.length, hmoves.operand, ?_⟩
  intro index d hread
  obtain ⟨d', old, new, hread', hcontracts, hold, hnew, hplace⟩ :=
    h.address_of_moves hmem hkeep hmoves hread
  refine ⟨d', hread', hcontracts.zero_iff, ?_⟩
  rcases hplace with ⟨hend, hend'⟩ | hfound
  · left
    have hlength : new = result.byteLength := hend'.trans h.newLength.symm
    omega
  · right
    exact ⟨old, new, hold, hfound, hnew⟩

theorem becomes : List.Forall₂
    (Becomes (compaction { script with instructions := live entries script.instructions }).map
      script result) (live entries script.instructions) result.instructions := by
  apply h.forall₂_of_moves
  intro ins image hmem hkeep hmoves
  exact h.becomes_of_moves hmem hkeep hmoves

theorem exists_get?_iff {old : Nat} :
    (∃ new, (compaction { script with instructions := live entries script.instructions }).map.get?
      old = some new) ↔ ∃ ins ∈ live entries script.instructions, ins.offset = old := by
  constructor
  · rintro ⟨new, hget⟩
    obtain ⟨before, ins, behind, hlive, hoffset, -⟩ :=
      (compaction_get?_eq_some_iff h.distinct_live).1 hget
    exact ⟨ins, List.mem_iff_append.2 ⟨before, behind, hlive⟩, hoffset⟩
  · rintro ⟨ins, hlive, rfl⟩
    obtain ⟨before, behind, hsplit⟩ := List.append_of_mem hlive
    exact ⟨_, compaction_get?_of_split h.distinct_live hsplit⟩

theorem exists_get?_eq_iff {new : Nat} :
    (∃ old, (compaction { script with instructions := live entries script.instructions }).map.get?
      old = some new) ↔ ∃ image ∈ result.instructions, image.offset = new := by
  constructor
  · rintro ⟨old, hget⟩
    obtain ⟨before, ins, behind, hlive, -, rfl⟩ :=
      (compaction_get?_eq_some_iff h.distinct_live).1 hget
    obtain ⟨image, himage, -, hoffset⟩ := exists_moved h.distinct_live h.moved hlive
    exact ⟨image, himage, hoffset⟩
  · rintro ⟨image, himage, rfl⟩
    obtain ⟨before, ins, behind, hsplit, hkeep, hmoves, -⟩ := h.exists_preimage himage
    have hmem : ins ∈ script.instructions := List.mem_iff_append.2 ⟨before, behind, hsplit⟩
    exact ⟨ins.offset, (h.survives_of_moves hmem hkeep hmoves).offset⟩

end Eliminated

/-- After a run that succeeded the map takes the offsets of what was kept to the offsets of the
result, in their order. The result is as its own encoding decodes, and each instruction of it is what
became of the kept one in its place. -/
theorem eliminateDead_retargets {bytes : Bytes} {entries : List Nat} {script result : Script}
    {map : OffsetMap} (hlen : bytes.length < 2 ^ 63) (hdecode : decode bytes = .ok script)
    (hrun : script.eliminateDead entries = (.ok map, result)) :
    (∀ old, (∃ new, map.get? old = some new) ↔
        ∃ ins ∈ live entries script.instructions, ins.offset = old) ∧
      (∀ a b a' b', map.get? a = some a' → map.get? b = some b' → (a < b ↔ a' < b')) ∧
      (∀ new, (∃ old, map.get? old = some new) ↔
        ∃ image ∈ result.instructions, image.offset = new) ∧
      decode result.encode = .ok result ∧
      List.Forall₂ (Becomes map script result) (live entries script.instructions)
        result.instructions := by
  obtain ⟨helim, rfl⟩ := eliminated_of_decode hlen hdecode hrun
  refine ⟨fun old => helim.exists_get?_iff, ?_, fun new => helim.exists_get?_eq_iff,
    helim.decoded_result.decode_encode, helim.becomes⟩
  intro a b a' b' ha hb
  have hcontracts := (helim.anchored_target (.inr ha)).contracts (helim.anchored_target (.inr hb))
  have hpos := hcontracts.pos_iff
  omega

/-- A scope without a second handler, a `NOP` to remove, and an address that leads to the end. -/
def oneHandler : Script :=
  ⟨[⟨.tryScope, [5, 0], 0⟩, ⟨.nop, [], 3⟩, ⟨.ret, [], 4⟩, ⟨.pushA, [6, 0, 0, 0], 5⟩,
    ⟨.ret, [], 10⟩], 11⟩

theorem eliminateDead_retargets_one_handler : ∃ map result,
    oneHandler.eliminateDead [] = (.ok map, result) ∧ decode result.encode = .ok result ∧
      ∃ scope ret push last, result.instructions = [scope, ret, push, last] ∧
        scope.readAddress 1 = .ok 0 ∧
        ∃ d, push.readAddress 0 = .ok d ∧ (push.offset : Int) + d = result.byteLength := by
  have hdecode : decode [0x3B, 5, 0, 0x21, 0x40, 0x0A, 6, 0, 0, 0, 0x40] = .ok oneHandler := rfl
  have hdecoded := decoded_of_decode (by decide) hdecode
  have hlands : ∀ ins ∈ oneHandler.instructions, Lands oneHandler ins := by
    intro ins hmem index d hread
    obtain ⟨cls, hcls, hlt, rfl⟩ := Instruction.readAddress_eq_ok_iff.1 hread
    simp only [oneHandler, List.mem_cons, List.not_mem_nil, or_false] at hmem
    rcases hmem with rfl | rfl | rfl | rfl | rfl <;> cases hcls
    · have hindex : index = 0 ∨ index = 1 := by
        have hcount : index < 2 := hlt
        omega
      rcases hindex with rfl | rfl
      · exact ⟨5, by decide, .inr ⟨⟨.pushA, [6, 0, 0, 0], 5⟩, by decide, rfl⟩⟩
      · exact ⟨0, by decide, .inr ⟨⟨.tryScope, [5, 0], 0⟩, by decide, rfl⟩⟩
    · have hindex : index = 0 := Nat.lt_one_iff.1 hlt
      rw [hindex]
      exact ⟨11, by decide, .inl rfl⟩
  obtain ⟨map, result, hrun⟩ : ∃ map result, oneHandler.eliminateDead [] = (.ok map, result) :=
    hdecoded.eliminateDead_succeeds fun ins hmem _ => hlands ins hmem
  have hlive : live [] oneHandler.instructions = [⟨.tryScope, [5, 0], 0⟩, ⟨.ret, [], 4⟩,
      ⟨.pushA, [6, 0, 0, 0], 5⟩, ⟨.ret, [], 10⟩] := by cbv
  obtain ⟨hdomain, -, -, hencode, hbecomes⟩ := eliminateDead_retargets (by decide) hdecode hrun
  rw [hlive] at hdomain hbecomes
  simp only [List.forall₂_cons_left_iff, List.forall₂_nil_left_iff] at hbecomes
  obtain ⟨scope, _, hscope, ⟨ret, _, -, ⟨push, _, hpush, ⟨last, _, -, rfl, rfl⟩, rfl⟩, rfl⟩, heq⟩ :=
    hbecomes
  refine ⟨map, result, hrun, hencode, scope, ret, push, last, heq, ?_, ?_⟩
  · obtain ⟨d, hread, hzero, -⟩ := hscope.address 1 0 (by cbv)
    rw [hread, hzero.2 rfl]
  · obtain ⟨d, hread, -, ⟨-, hend⟩ | ⟨old, new, hold, hget, -⟩⟩ :=
      hpush.address 0 6 (by cbv)
    · exact ⟨d, hread, hend⟩
    · -- No instruction starts at the end.
      have hplace : (5 : Int) + 6 = old := hold
      obtain ⟨ins, hmem, hoffset⟩ := (hdomain old).1 ⟨new, hget⟩
      have hnone : ∀ ins ∈ [(⟨.tryScope, [5, 0], 0⟩ : Instruction), ⟨.ret, [], 4⟩,
          ⟨.pushA, [6, 0, 0, 0], 5⟩, ⟨.ret, [], 10⟩], ins.offset < 11 := by decide
      have hlt := hnone ins hmem
      omega

end ContractLinker.Script
