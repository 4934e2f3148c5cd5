import ContractLinker.Proofs.Addresses
import ContractLinker.Proofs.Lists
import ContractLinker.Script.Layout

namespace ContractLinker

namespace Script

def placements (cursor : Nat) : List Instruction → List (Nat × Nat)
  | [] => []
  | ins :: rest => (ins.offset, cursor) :: placements (cursor + ins.size) rest

theorem positions_eq (cursor : Nat) (done : List (Nat × Nat)) (instructions : List Instruction) :
    positions cursor done instructions =
      (done.reverse ++ placements cursor instructions, cursor + extent instructions) := by
  induction instructions generalizing cursor done with
  | nil => simp [positions, placements, extent]
  | cons ins rest ih => simp [positions, placements, extent, ih, Nat.add_assoc]

theorem map_fst_placements (cursor : Nat) (instructions : List Instruction) :
    (placements cursor instructions).map Prod.fst = instructions.map Instruction.offset := by
  induction instructions generalizing cursor with
  | nil => rfl
  | cons ins rest ih => simp only [placements, List.map_cons, ih]

theorem mem_placements {cursor : Nat} {instructions : List Instruction} {old new : Nat} :
    (old, new) ∈ placements cursor instructions ↔
      ∃ before ins behind, instructions = before ++ ins :: behind ∧ ins.offset = old ∧
        new = cursor + extent before := by
  induction instructions generalizing cursor with
  | nil => simp [placements]
  | cons first rest ih =>
    rw [placements, List.mem_cons, ih]
    constructor
    · rintro (hfirst | ⟨before, ins, behind, rfl, hold, rfl⟩)
      · cases hfirst
        exact ⟨[], first, rest, rfl, rfl, rfl⟩
      · exact ⟨first :: before, ins, behind, rfl, hold, by simp only [extent]; omega⟩
    · rintro ⟨before, ins, behind, hsplit, hold, rfl⟩
      cases before with
      | nil =>
        cases hsplit
        exact .inl (by rw [hold]; rfl)
      | cons head before =>
        cases hsplit
        exact .inr ⟨before, ins, behind, rfl, hold, by simp only [extent]; omega⟩

section Compaction

variable {script : Script}
  (hdistinct : script.instructions.Pairwise fun a b => a.offset ≠ b.offset)

theorem compaction_newLength : script.compaction.newLength = extent script.instructions := by
  simp [compaction, positions_eq]

theorem compaction_oldLength : script.compaction.oldLength = script.byteLength := rfl

include hdistinct

theorem compaction_get?_of_split {before behind : List Instruction} {ins : Instruction}
    (hsplit : script.instructions = before ++ ins :: behind) :
    script.compaction.map.get? ins.offset = some (extent before) := by
  have hmem : (ins.offset, extent before) ∈ placements 0 script.instructions :=
    mem_placements.2 ⟨before, ins, behind, hsplit, rfl, (Nat.zero_add _).symm⟩
  -- No offset stands in the list twice, so the map gives back what the list says.
  have hkeys : (placements 0 script.instructions).Pairwise fun a b => (a.1 == b.1) = false := by
    rw [← List.pairwise_map (f := Prod.fst) (R := fun a b : Nat => (a == b) = false),
      map_fst_placements, List.pairwise_map]
    exact hdistinct.imp fun hne => beq_eq_false_iff_ne.2 hne
  simp only [compaction, positions_eq, List.reverse_nil, List.nil_append, OffsetMap.get?,
    OffsetMap.ofEntries]
  exact Std.HashMap.getElem?_ofList_of_mem (beq_self_eq_true _) hkeys hmem

theorem compaction_get?_eq_some_iff {old new : Nat} :
    script.compaction.map.get? old = some new ↔
      ∃ before ins behind, script.instructions = before ++ ins :: behind ∧ ins.offset = old ∧
        new = extent before := by
  constructor
  · intro h
    have hkey : old ∈ script.instructions.map Instruction.offset := by
      rw [← map_fst_placements 0]
      by_contra hnot
      have hnone : script.compaction.map.get? old = none := by
        simp only [compaction, positions_eq, List.reverse_nil, List.nil_append, OffsetMap.get?,
          OffsetMap.ofEntries]
        apply Std.HashMap.getElem?_ofList_of_contains_eq_false
        simpa using hnot
      rw [hnone] at h
      cases h
    obtain ⟨ins, hins, rfl⟩ := List.mem_map.1 hkey
    obtain ⟨before, behind, hsplit⟩ := List.append_of_mem hins
    rw [compaction_get?_of_split hdistinct hsplit] at h
    cases h
    exact ⟨before, ins, behind, hsplit, rfl, rfl⟩
  · rintro ⟨before, ins, behind, hsplit, rfl, rfl⟩
    exact compaction_get?_of_split hdistinct hsplit

end Compaction

namespace Move

variable {m : Move} {ins moved : Instruction}

theorem target?_eq_some {t : Int} {new : Nat} (h : m.target? t = some new) :
    ∃ old : Nat, t = old ∧
      (old = m.oldLength ∧ new = m.newLength ∨ m.map.get? old = some new) := by
  unfold target? at h
  split at h
  · cases h
  · rename_i hnonneg
    refine ⟨t.toNat, by omega, ?_⟩
    split at h
    · rename_i hend
      exact .inl ⟨hend, (Option.some.inj h).symm⟩
    · exact .inr h

theorem retarget_ok {origin index : Nat} {targets : List Int} (hframed : ins.WellFramed)
    (h : m.retarget origin index ins targets = (.ok (), moved)) :
    ∃ news : List Nat, targets.map m.target? = news.map some ∧
      Instruction.Rewrites index (news.map fun new : Nat => (new - origin : Int)) ins moved := by
  -- Every write keeps the framing, which the next one needs.
  induction targets generalizing index ins with
  | nil =>
    cases h
    exact ⟨[], rfl, .nil hframed⟩
  | cons target targets ih =>
    unfold retarget at h
    split at h
    · cases h
    · rename_i new hnew
      dsimp only at h
      split at h
      · cases h
      · split at h
        · cases h
        · rename_i written hwrite
          obtain ⟨news, hnews, hrest⟩ := ih (Instruction.writeAddress_wellFramed hframed hwrite) h
          refine ⟨new :: news, ?_, .cons hframed hwrite hrest⟩
          rw [List.map_cons, List.map_cons, hnew, hnews]

/-- `moved` is `ins` at its new place. -/
structure Moves (m : Move) (ins moved : Instruction) : Prop where
  opcode : moved.opcode = ins.opcode
  length : moved.operand.length = ins.operand.length
  framed : moved.WellFramed
  operand : ins.opcode.addressClass = none → moved.operand = ins.operand
  offset : moved.offset = (m.map.get? ins.offset).getD 0
  address : ∀ index t, ins.targets[index]? = some t →
    ∃ new, m.target? t = some new ∧ moved.readAddress index = .ok (new - moved.offset : Int)

theorem Moves.size (h : Moves m ins moved) : moved.size = ins.size := by
  simp only [Instruction.size, h.opcode, h.length]

theorem Moves.append {a b result : List Instruction}
    (h : List.Forall₂ (Moves m) (a ++ b) result) :
    ∃ a' b', result = a' ++ b' ∧ extent a' = extent a ∧ List.Forall₂ (Moves m) b b' := by
  induction a generalizing result with
  | nil => exact ⟨[], result, rfl, rfl, h⟩
  | cons ins a ih =>
    cases h with
    | @cons _ first _ result hfirst hrest =>
      obtain ⟨a', b', rfl, hroom, hback⟩ := ih hrest
      exact ⟨first :: a', b', rfl, by simp only [extent, hfirst.size, hroom], hback⟩

theorem apply_ok (hframed : ins.WellFramed) (h : m.apply ins = (.ok (), moved)) :
    Moves m ins moved := by
  unfold apply at h
  dsimp only at h
  split at h
  · rename_i written hwritten
    cases h
    obtain ⟨news, hnews, hmove⟩ := retarget_ok hframed hwritten
    refine ⟨hmove.opcode, hmove.length, hmove.framed, ?_, rfl, ?_⟩
    · intro hcls
      have hnone : ins.targets = [] := by
        simp [Instruction.targets, Instruction.displacements, Instruction.addressCount, hcls]
      rw [hnone] at hwritten
      cases hwritten
      rfl
    · intro index t ht
      obtain ⟨new, hnew, hindex⟩ := exists_of_map_eq_map_some hnews ht
      have hread := hmove.address index _
        (List.getElem?_map.trans (congrArg (Option.map _) hindex))
      rw [Nat.zero_add, Instruction.readAddress_eq_ok_iff] at hread
      -- An address that can be read does not depend on where its instruction stands.
      exact ⟨new, hnew, Instruction.readAddress_eq_ok_iff.2 hread⟩
  · rename_i failed hfailed
    rw [h] at hfailed
    exact absurd rfl (hfailed moved)

theorem applyAll_ok {done instructions result : List Instruction}
    (hframed : ∀ ins ∈ instructions, ins.WellFramed)
    (h : m.applyAll done instructions = (.ok (), result)) :
    ∃ moved, result = done.reverse ++ moved ∧ List.Forall₂ (Moves m) instructions moved := by
  induction instructions generalizing done with
  | nil =>
    cases h
    exact ⟨[], by simp, .nil⟩
  | cons ins rest ih =>
    rw [List.forall_mem_cons] at hframed
    unfold applyAll at h
    split at h
    · rename_i first hfirst
      obtain ⟨moved, rfl, hall⟩ := ih hframed.2 h
      exact ⟨first :: moved, by simp, .cons (apply_ok hframed.1 hfirst) hall⟩
    · cases h

end Move

section Relayout

variable {script result : Script} {map : OffsetMap}

theorem relayout_ok (hframed : ∀ ins ∈ script.instructions, ins.WellFramed)
    (h : script.relayout = (.ok map, result)) :
    map = script.compaction.map ∧ result.byteLength = extent script.instructions ∧
      List.Forall₂ (Move.Moves script.compaction) script.instructions result.instructions := by
  unfold relayout at h
  dsimp only at h
  split at h
  · rename_i instructions hall
    cases h
    obtain ⟨moved, hmoved, hforall⟩ := Move.applyAll_ok hframed hall
    exact ⟨rfl, compaction_newLength, by simpa [hmoved] using hforall⟩
  · cases h

variable (hdistinct : script.instructions.Pairwise fun a b => a.offset ≠ b.offset)
include hdistinct

theorem Move.Moves.offset_of_split {before behind : List Instruction} {ins moved : Instruction}
    (h : Move.Moves script.compaction ins moved)
    (hsplit : script.instructions = before ++ ins :: behind) : moved.offset = extent before := by
  rw [h.offset, compaction_get?_of_split hdistinct hsplit]
  rfl

theorem laidOut_of_moves {before behind moved : List Instruction}
    (hsplit : script.instructions = before ++ behind)
    (h : List.Forall₂ (Move.Moves script.compaction) behind moved) :
    LaidOut (extent before) moved ∧ extent moved = extent behind := by
  induction h generalizing before with
  | nil => exact ⟨trivial, rfl⟩
  | @cons ins first behind moved hfirst hrest ih =>
    have hsplit' : script.instructions = (before ++ [ins]) ++ behind :=
      hsplit.trans (List.append_cons before ins behind)
    obtain ⟨hlaid, hextent⟩ := ih hsplit'
    have hnext : extent (before ++ [ins]) = extent before + first.size := by
      rw [extent_append, hfirst.size]
      rfl
    rw [hnext] at hlaid
    refine ⟨⟨hfirst.offset_of_split hdistinct hsplit, hlaid⟩, ?_⟩
    simp only [extent, hfirst.size, hextent]

theorem exists_moved {before behind : List Instruction} {ins : Instruction}
    (hall : List.Forall₂ (Move.Moves script.compaction) script.instructions result.instructions)
    (hsplit : script.instructions = before ++ ins :: behind) :
    ∃ moved ∈ result.instructions, Move.Moves script.compaction ins moved ∧
      moved.offset = extent before := by
  have hlen := hall.length_eq
  have hlt : before.length < script.instructions.length := by
    rw [hsplit, List.length_append, List.length_cons]
    omega
  have hmoves := hall.get hlt (hlen ▸ hlt)
  have hins : script.instructions[before.length] = ins := by
    simp [hsplit]
  rw [List.get_eq_getElem, List.get_eq_getElem, hins] at hmoves
  exact ⟨_, List.getElem_mem _, hmoves, hmoves.offset_of_split hdistinct hsplit⟩

end Relayout

end Script
end ContractLinker
