import ContractLinker.Proofs.LinkDefects
namespace ContractLinker

def CompileError.Foreseen : CompileError → Prop
  | .unknownInstruction _ | .duplicatePlacement _ _ | .scriptTooLarge _ | .unboundBranch _ _
  | .danglingTarget _ _ _ | .displacementRange _ _ _ _ | .codec (.operandTooLong _ _ _) => True
  | _ => False

theorem Unlinked.Shaped.foreseen_checkOperand {ins : Unlinked} {e : CodecError}
    (hshaped : ins.Shaped) (h : Instruction.checkOperand ins.opcode ins.operand = .error e) :
    (CompileError.codec e).Foreseen := by
  unfold Instruction.checkOperand at h
  cases hframing : ins.opcode.framing with
  | fixed size =>
    simp only [hframing, if_pos (hshaped.operand size hframing)] at h
    cases h
  | counted width =>
    simp only [hframing] at h
    split at h
    · cases h
    · cases h
      trivial

/-- What a link may report, with what it has found in the instructions or in their order. -/
inductive Arena.Blames (arena : Arena) (order : List InstructionId) : CompileError → Prop
  | unknown {id : InstructionId} (hget : arena.get id = .error (.unknownInstruction id))
      (hnamed : id ∈ order ∨ ∃ other ∈ order, ∃ ins, arena.get other = .ok ins ∧
        some id ∈ ins.targets.slots) : Blames arena order (.unknownInstruction id)
  | duplicate {id : InstructionId} {opcode : Opcode} (htwice : ¬ order.Nodup) :
      Blames arena order (.duplicatePlacement id opcode)
  | tooLarge {size : Nat} (hsize : Bytes.bound 4 ≤ size) : Blames arena order (.scriptTooLarge size)
  | unbound {id : InstructionId} {ins : Unlinked} (hplaced : id ∈ order)
      (hget : arena.get id = .ok ins) (hcls : ins.opcode.addressClass ≠ none)
      (hnone : ∀ slot ∈ ins.targets.slots, slot = none) :
      Blames arena order (.unboundBranch id ins.opcode)
  | dangling {id target : InstructionId} {ins : Unlinked} (hplaced : id ∈ order)
      (hget : arena.get id = .ok ins) (hslot : some target ∈ ins.targets.slots)
      (hmissing : target ∉ order) : Blames arena order (.danglingTarget id ins.opcode target)
  | displacement {id : InstructionId} {ins : Unlinked} {cls : AddressClass} {offset : Nat} {d : Int}
      (hplaced : id ∈ order) (hget : arena.get id = .ok ins)
      (hcls : ins.opcode.addressClass = some cls) (hrange : ¬ Bytes.FitsSigned cls.width d) :
      Blames arena order (.displacementRange id ins.opcode offset d)
  | operand {id : InstructionId} {ins : Unlinked} {cause : CodecError} (hplaced : id ∈ order)
      (hget : arena.get id = .ok ins)
      (hcheck : Instruction.checkOperand ins.opcode ins.operand = .error cause) :
      Blames arena order (.codec cause)

theorem Arena.Blames.foreseen {arena : Arena} {order : List InstructionId} {e : CompileError}
    (h : arena.Blames order e) (hshaped : ∀ id ins, arena.get id = .ok ins → ins.Shaped) :
    e.Foreseen := by
  cases h with
  | operand _ hget hcheck => exact (hshaped _ _ hget).foreseen_checkOperand hcheck
  | _ => trivial

namespace Arena

variable {arena : Arena} {order before rest : List InstructionId} {e : CompileError}

theorem blames_layoutDefects (horder : order = before ++ rest)
    (h : e ∈ arena.layoutDefects before rest) : arena.Blames order e := by
  -- The list is built along the order, with what is placed before each id.
  induction rest generalizing before with
  | nil => cases h
  | cons id rest ih =>
    have hplaced : id ∈ order := by
      rw [horder]
      exact List.mem_append_right before List.mem_cons_self
    rw [layoutDefects, List.mem_append] at h
    rcases h with h | h
    · unfold placingDefects at h
      split at h
      · rename_i hget
        obtain ⟨-, rfl⟩ := get_eq_error hget
        cases List.mem_singleton.1 h
        exact .unknown hget (.inl hplaced)
      · rcases List.mem_append.1 h with h | h
        · obtain ⟨hbefore, h⟩ := List.mem_ite_nil_right.1 h
          cases List.mem_singleton.1 h
          refine .duplicate fun hnodup => ?_
          rw [horder, List.nodup_append] at hnodup
          exact hnodup.2.2 id hbefore id List.mem_cons_self rfl
        · obtain ⟨hlarge, h⟩ := List.mem_ite_nil_right.1 h
          cases List.mem_singleton.1 h
          exact .tooLarge hlarge
    · refine ih ?_ h
      rw [horder, List.append_assoc, List.singleton_append]

theorem blames_codingDefects {id : InstructionId} (hplaced : id ∈ order)
    (h : e ∈ arena.codingDefects order id) : arena.Blames order e := by
  unfold codingDefects at h
  split at h
  · cases h
  · rename_i ins hget
    rcases List.mem_append.1 h with h | h
    · rcases List.mem_append.1 h with h | h
      · obtain ⟨⟨hcls, hnone⟩, h⟩ := List.mem_ite_nil_right.1 h
        cases List.mem_singleton.1 h
        refine .unbound hplaced hget hcls fun slot hslot => ?_
        exact Option.isNone_iff_eq_none.1 (List.all_eq_true.1 hnone slot hslot)
      · unfold operandDefects at h
        split at h
        · cases h
        · rename_i hcheck
          cases List.mem_singleton.1 h
          exact .operand hplaced hget hcheck
    · unfold addressDefects at h
      split at h
      · cases h
      · rename_i cls hcls
        obtain ⟨slot, hslot, h⟩ := List.mem_flatMap.1 h
        cases slot with
        | none => cases h
        | some target =>
          rw [slotDefects] at h
          by_cases hsize : arena.size ≤ target
          · rw [if_pos hsize] at h
            cases List.mem_singleton.1 h
            exact .unknown (get_of_size_le hsize) (.inr ⟨id, hplaced, ins, hget, hslot⟩)
          · rw [if_neg hsize] at h
            by_cases hmissing : target ∉ order
            · rw [if_pos hmissing] at h
              cases List.mem_singleton.1 h
              exact .dangling hplaced hget hslot hmissing
            · rw [if_neg hmissing] at h
              obtain ⟨hrange, h⟩ := List.mem_ite_nil_left.1 h
              cases List.mem_singleton.1 h
              exact .displacement hplaced hget hcls hrange

theorem blames_defects (h : e ∈ arena.defects order) : arena.Blames order e := by
  rcases List.mem_append.1 h with h | h
  · exact blames_layoutDefects (List.nil_append order).symm h
  · obtain ⟨id, hid, h⟩ := List.mem_flatMap.1 h
    exact blames_codingDefects hid h

/-- An error of a link is about the order or the instructions in it, never about the linker. -/
theorem link_blames (hshaped : ∀ id ins, arena.get id = .ok ins → ins.Shaped)
    (h : (arena.link order).1 = .error e) : arena.Blames order e := by
  have hfault := fault_link hshaped order
  rw [h] at hfault
  exact blames_defects (List.mem_of_head? hfault.symm)

end Arena

/-- Every instruction that can be met is shaped as its opcode asks for, and linking such
instructions never fails for a reason inside the linker: it reports no internal error, no missing
branch, and of the operands only that one is too long. -/
theorem Arena.link_error_of_obtained :
    (∀ ins : Unlinked, ins.Obtained → ins.Shaped) ∧
    ∀ arena : Arena, (∀ id ins, arena.get id = .ok ins → ins.Obtained) →
      ∀ order e, (arena.link order).1 = .error e →
        (∀ cause, e ≠ .internal cause) ∧ (∀ opcode, e ≠ .notABranch opcode) ∧
        ∀ cause, e = .codec cause →
          ∃ opcode width size, cause = .operandTooLong opcode width size := by
  refine ⟨fun ins => Unlinked.Obtained.shaped, ?_⟩
  intro arena hall order e herror
  have hshaped (id : InstructionId) (ins : Unlinked) (hget : arena.get id = .ok ins) :
      ins.Shaped := (hall id ins hget).shaped
  have hforeseen : e.Foreseen := (link_blames hshaped herror).foreseen hshaped
  refine ⟨?_, ?_, ?_⟩
  · rintro cause rfl
    exact hforeseen
  · rintro opcode rfl
    exact hforeseen
  · rintro cause rfl
    cases cause with
    | operandTooLong opcode width size => exact ⟨opcode, width, size, rfl⟩
    | _ => exact hforeseen.elim

/-- A jump is linked and then made into a scope with two handlers. It keeps its target, and that the
target is not placed is all that can be said against it. -/
theorem Arena.link_error_of_linked_jump :
    (Unlinked.mk .tryScope [2, 0] (.dual (some 0) none) (some 1)).Shaped ∧
    (link ⟨#[.new .ret, ⟨.tryScope, [2, 0], .dual (some 0) none, some 1⟩]⟩ [1]).1 =
      .error (.danglingTarget 1 .tryScope 0) ∧
    ∀ cause, CompileError.danglingTarget 1 .tryScope 0 ≠ .internal cause := by
  have hbefore (id : InstructionId) (ins : Unlinked)
      (hget : get ⟨#[.new .ret, ⟨.jmp, [0], .single (some 0), none⟩, .new .nop]⟩ id = .ok ins) :
      ins.Obtained := by
    rcases id with _ | _ | _ | id
    · cases hget
      exact .new .ret
    · cases hget
      exact .branch (show Unlinked.branch .jmp 0 = .ok _ from rfl)
    · cases hget
      exact .new .nop
    · cases hget
  have hlinked : (link ⟨#[.new .ret, ⟨.jmp, [0], .single (some 0), none⟩, .new .nop]⟩
      [2, 1, 0]).2.get 1 = .ok ⟨.jmp, [2], .single (some 0), some 1⟩ := by cbv
  have hscope : (Unlinked.mk .tryScope [2, 0] (.dual (some 0) none) (some 1)).Obtained :=
    (Unlinked.Obtained.link hbefore hlinked).edit (.setOpcode .tryScope)
  have hafter (id : InstructionId) (ins : Unlinked)
      (hget : get ⟨#[.new .ret, ⟨.tryScope, [2, 0], .dual (some 0) none, some 1⟩]⟩ id = .ok ins) :
      ins.Obtained := by
    rcases id with _ | _ | id
    · cases hget
      exact .new .ret
    · cases hget
      exact hscope
    · cases hget
  have herror : (link ⟨#[.new .ret, ⟨.tryScope, [2, 0], .dual (some 0) none, some 1⟩]⟩ [1]).1 =
      .error (.danglingTarget 1 .tryScope 0) := by cbv
  obtain ⟨hshaped, hlink⟩ := link_error_of_obtained
  exact ⟨hshaped _ hscope, herror, (hlink _ hafter [1] _ herror).1⟩

end ContractLinker
