import ContractLinker.Proofs.Binding
import ContractLinker.Proofs.Relinking
namespace ContractLinker

namespace Unlinked

inductive Edit where
  | setOpcode (opcode : Opcode)
  | setOperand (operand : Bytes)
  | setTarget (target : InstructionId)
  | setTarget2 (target : InstructionId)
  deriving DecidableEq, Repr

/-- What one change leaves, also where it is refused. -/
def edit (ins : Unlinked) : Edit → Unlinked
  | .setOpcode opcode => ins.setOpcode opcode
  | .setOperand operand => (ins.setOperand operand).2
  | .setTarget target => (ins.setTarget target).2
  | .setTarget2 target => (ins.setTarget2 target).2

/-- Instructions that can be met: those that were made, changed, or linked together with others. -/
inductive Obtained : Unlinked → Prop
  | new (opcode : Opcode) : Obtained (.new opcode)
  | withOperand {opcode : Opcode} {operand : Bytes} {ins : Unlinked}
      (h : withOperand opcode operand = .ok ins) : Obtained ins
  | branch {opcode : Opcode} {target : InstructionId} {ins : Unlinked}
      (h : branch opcode target = .ok ins) : Obtained ins
  | tryScope {opcode : Opcode} {handler finalizer : Option InstructionId} {ins : Unlinked}
      (h : tryScope opcode handler finalizer = .ok ins) : Obtained ins
  | pushInt (value : Int) : Obtained (pushInt value)
  | pushData {data : Bytes} {ins : Unlinked} (h : pushData data = .ok ins) : Obtained ins
  | edit {ins : Unlinked} (h : Obtained ins) (e : Edit) : Obtained (ins.edit e)
  | link {arena : Arena} {order : List InstructionId} {id : InstructionId} {ins : Unlinked}
      (hall : ∀ other old, arena.get other = .ok old → Obtained old)
      (hget : (arena.link order).2.get id = .ok ins) : Obtained ins

/-- There are as many slots as the opcode has addresses, and a fixed operand has its size. This is all
that a link relies on. -/
structure Shaped (ins : Unlinked) : Prop where
  slots : ins.targets.slots.length = ins.opcode.addressClass.elim 0 AddressClass.count
  operand : ∀ size, ins.opcode.framing = .fixed size → ins.operand.length = size

namespace Shaped

variable {ins ins' : Unlinked}

theorem setOpcode (ins : Unlinked) (opcode : Opcode) : (ins.setOpcode opcode).Shaped := by
  have hslots := ins.targets.slots_reshape opcode
  unfold Unlinked.setOpcode
  cases hframing : opcode.framing with
  | fixed size =>
    refine ⟨hslots, ?_⟩
    intro size' hfixed
    rw [hframing] at hfixed
    cases hfixed
    exact Bytes.length_resize size ins.operand
  | counted width =>
    refine ⟨hslots, ?_⟩
    intro size hfixed
    rw [hframing] at hfixed
    cases hfixed

theorem new (opcode : Opcode) : (new opcode).Shaped := setOpcode _ opcode

theorem setOperand (h : ins.Shaped) (operand : Bytes) : (ins.setOperand operand).2.Shaped := by
  unfold Unlinked.setOperand
  cases hcheck : Instruction.checkOperand ins.opcode operand with
  | error e => exact h
  | ok => exact ⟨h.slots, fun size hfixed => (Instruction.checkOperand_fixed hfixed).1 hcheck⟩

theorem withOperand {opcode : Opcode} {operand : Bytes}
    (hmake : withOperand opcode operand = .ok ins) : ins.Shaped := by
  obtain ⟨_, -, hpure⟩ := Except.bind_eq_ok_iff.1 hmake
  cases hpure
  exact (new opcode).setOperand operand

theorem retarget (h : ins.Shaped) (hrest : ins' = { ins with targets := ins'.targets })
    (hslots : ins'.targets.slots.length = ins.targets.slots.length) : ins'.Shaped := by
  have hopcode : ins'.opcode = ins.opcode := by rw [hrest]
  have hoperand : ins'.operand = ins.operand := by rw [hrest]
  constructor
  · rw [hslots, hopcode]
    exact h.slots
  · rw [hopcode, hoperand]
    exact h.operand

theorem setTarget (h : ins.Shaped) (target : InstructionId) : (ins.setTarget target).2.Shaped := by
  unfold Unlinked.setTarget
  split
  · exact h
  · rename_i hsingle
    exact h.retarget rfl (by rw [hsingle]; rfl)
  · rename_i hdual
    exact h.retarget rfl (by rw [hdual]; rfl)

theorem branch {opcode : Opcode} {target : InstructionId}
    (hmake : branch opcode target = .ok ins) : ins.Shaped := by
  obtain ⟨_, -, hpure⟩ := Except.bind_eq_ok_iff.1 hmake
  cases hpure
  exact (new opcode).setTarget target

theorem setTarget2 (h : ins.Shaped) (target : InstructionId) :
    (ins.setTarget2 target).2.Shaped := by
  unfold Unlinked.setTarget2
  split
  · rename_i hdual
    exact h.retarget rfl (by rw [hdual]; rfl)
  · exact h

theorem tryScope {opcode : Opcode} {handler finalizer : Option InstructionId}
    (hmake : tryScope opcode handler finalizer = .ok ins) : ins.Shaped := by
  unfold Unlinked.tryScope at hmake
  dsimp only at hmake
  split at hmake
  · rename_i hdual
    cases hmake
    refine (new opcode).retarget rfl ?_
    rw [hdual]
    rfl
  · cases hmake

theorem pushInt (value : Int) : (pushInt value).Shaped := by
  have hwide {opcode : Opcode} {width : Nat} (hclass : opcode.addressClass = none)
      (hframing : opcode.framing = .fixed width) :
      Shaped ⟨opcode, Bytes.ofIntLE width value, .none, none⟩ := by
    refine ⟨by rw [hclass]; rfl, ?_⟩
    intro size hfixed
    rw [hframing] at hfixed
    cases hfixed
    exact Bytes.length_ofIntLE width value
  unfold Unlinked.pushInt
  split
  · exact new _
  · split
    · exact new _
    · dsimp only
      split
      · exact hwide rfl rfl
      · split
        · exact hwide rfl rfl
        · split
          · exact hwide rfl rfl
          · exact hwide rfl rfl

theorem edit (h : ins.Shaped) (e : Edit) : (ins.edit e).Shaped := by
  cases e with
  | setOpcode opcode => exact setOpcode ins opcode
  | setOperand operand => exact h.setOperand operand
  | setTarget target => exact h.setTarget target
  | setTarget2 target => exact h.setTarget2 target

theorem slots_ne_nil {cls : AddressClass} (h : ins.Shaped)
    (hcls : ins.opcode.addressClass = some cls) : ins.targets.slots ≠ [] := by
  intro hnil
  have hslots := h.slots
  rw [hnil, hcls] at hslots
  cases cls <;> cases hslots

theorem relinked (h : ins.Shaped) (hrelinked : ins.Relinked ins') : ins'.Shaped := by
  constructor
  · rw [hrelinked.targets, hrelinked.opcode]
    exact h.slots
  · rw [hrelinked.opcode, hrelinked.length]
    exact h.operand

end Shaped

theorem Obtained.shaped {ins : Unlinked} (h : ins.Obtained) : ins.Shaped := by
  induction h with
  | new opcode => exact .new opcode
  | withOperand h => exact .withOperand h
  | branch h => exact .branch h
  | tryScope h => exact .tryScope h
  | pushInt value => exact .pushInt value
  | pushData h => exact .withOperand h
  | edit _ e ih => exact ih.edit e
  | @link arena order id ins _ hget ih =>
    obtain ⟨old, hold, hrelinked⟩ := (arena.link_relinks order).exists_old hget
    exact (ih id old hold).relinked hrelinked

end Unlinked
end ContractLinker
