import Mathlib.Data.Set.Basic
import ContractLinker.Proofs.Addresses

namespace ContractLinker

namespace Script

inductive Exit where
  | next
  | address (index : Nat)
  deriving DecidableEq, Repr

/-- What is seen of a step; addresses in the operand are not. -/
structure Label where
  opcode : Opcode
  operand : Bytes
  exit : Exit
  deriving DecidableEq, Repr

/-- How a trace ends: the observer stopped looking, control came to the end of the script, or it
stands at an instruction without successors. -/
inductive Ending where
  | cut
  | scriptEnd
  | stopped (opcode : Opcode) (operand : Bytes)
  deriving DecidableEq, Repr

end Script

namespace Instruction

open Script (Exit Label)

/-- The operand without its addresses. -/
def plainOperand (ins : Instruction) : Bytes :=
  ins.operand.drop (ins.addressSize * ins.addressCount)

/-- The offset that control goes to through an exit, if the instruction has this exit. -/
def successor? (ins : Instruction) : Exit → Option Int
  | .next => if ins.opcode.isTerminator then none else some (ins.offset + ins.size)
  | .address index =>
    match ins.readAddress index with
    | .ok displacement => some (ins.offset + displacement)
    | .error _ => none

/-- The label of a step through an exit; `NOP` is silent. -/
def label? (ins : Instruction) (exit : Exit) : Option Label :=
  if ins.opcode = .nop then none else some ⟨ins.opcode, ins.plainOperand, exit⟩

theorem plainOperand_of_addressClass {ins : Instruction} {cls : AddressClass}
    (hframed : ins.WellFramed) (hcls : ins.opcode.addressClass = some cls) :
    ins.plainOperand = [] := by
  simp only [plainOperand, addressSize, addressCount, hcls]
  exact List.drop_eq_nil_of_le (Nat.le_of_eq (length_operand_of_addressClass hframed hcls))

theorem plainOperand_of_no_address {ins : Instruction} (hcls : ins.opcode.addressClass = none) :
    ins.plainOperand = ins.operand := by
  simp [plainOperand, addressSize, addressCount, hcls]

theorem successor?_address {ins : Instruction} {index : Nat} {o : Int} :
    ins.successor? (.address index) = some o ↔
      ∃ d, ins.readAddress index = .ok d ∧ ins.offset + d = o := by
  simp only [successor?]
  cases ins.readAddress index <;> simp

theorem successor?_nop {ins : Instruction} (hnop : ins.opcode = .nop) {exit : Exit} {o : Int} :
    ins.successor? exit = some o ↔ exit = .next ∧ o = ins.offset + ins.size := by
  cases exit with
  | next =>
    simp only [successor?, hnop, Opcode.isTerminator, Bool.false_eq_true, if_false,
      Option.some.injEq, true_and]
    exact eq_comm
  | address index =>
    simp only [successor?_address, readAddress_eq_ok_iff, hnop, reduceCtorEq, false_and, iff_false]
    rintro ⟨d, ⟨cls, hcls, -⟩, -⟩
    cases hcls

end Instruction

namespace Script

/-- One step of control; a silent one has no label. -/
inductive Step (s : Script) : Int → Option Label → Int → Prop
  | leave {ins : Instruction} {exit : Exit} {o : Int} (hmem : ins ∈ s.instructions)
      (hsucc : ins.successor? exit = some o) : Step s ins.offset (ins.label? exit) o

/-- What can be said of control that stands at an offset, without another step. -/
inductive Ends (s : Script) : Int → Ending → Prop
  | cut (o : Int) : Ends s o .cut
  | scriptEnd : Ends s s.byteLength .scriptEnd
  | stopped {ins : Instruction} (hmem : ins ∈ s.instructions)
      (hsucc : ∀ exit, ins.successor? exit = none) :
      Ends s ins.offset (.stopped ins.opcode ins.plainOperand)

inductive Shows (s : Script) : Int → List Label → Ending → Prop
  | done {o : Int} {e : Ending} (hend : Ends s o e) : Shows s o [] e
  | step {o o' : Int} {label : Option Label} {trace : List Label} {e : Ending}
      (hstep : Step s o label o') (hrest : Shows s o' trace e) :
      Shows s o (label.toList ++ trace) e

/-- All finite observable traces from an offset, each with its ending. -/
def traces (s : Script) (o : Int) : Set (List Label × Ending) := {t | Shows s o t.1 t.2}

end Script
end ContractLinker
