import Std.Data.HashMap
import ContractLinker.Contract.Compilation
import ContractLinker.Failure
import ContractLinker.Program

namespace ContractLinker

/-- A branch that waits for its targets. -/
structure PendingBranch where
  id : InstructionId
  target : Option String
  target2 : Option String

structure Lowering where
  compilation : Compilation
  labels : Std.HashMap String InstructionId := ∅
  entries : Std.HashMap String InstructionId := ∅
  /-- The latest first. -/
  pending : List PendingBranch := []

namespace Lowering

def lowerOperand (c : Compilation) (ins : Unlinked) (d : InstructionDef) :
    Except Failure (Unlinked × Compilation) :=
  match d.token, d.staticField, d.operand with
  | some token, _, _ => do
    let (i, c) ← orFail .compile (c.addToken token).onSuccess
    let ((), ins) ← orFail .compile (ins.setOperand (Bytes.ofNatLE 2 i)).onSuccess
    return (ins, c)
  | none, some name, _ => do
    let (slot, c) ← orFail .compile (c.addStatic name).onSuccess
    let ((), ins) ← orFail .compile (ins.setOperand [UInt8.ofNat slot]).onSuccess
    return (ins, c)
  | none, none, some digits => do
    let bytes ← withContext "Operand is not valid hex"
      (orFail (fun e => .text e.message) (Hex.decode (Utf8.encode digits)))
    let ((), ins) ← orFail .compile (ins.setOperand bytes).onSuccess
    return (ins, c)
  | none, none, none => .ok (ins, c)

def lowerInstruction (c : Compilation) (d : InstructionDef) :
    Except Failure (Unlinked × Compilation) := do
  let some opcode := Opcode.ofMnemonic? d.opcode
    | throw (.of (.text s!"Unknown opcode '{d.opcode}'"))
  let given := [d.operand.isSome, d.token.isSome, d.staticField.isSome].count true
  if given > 1 then throw (.of (.text "Only one of operand, token and static may be given"))
  lowerOperand c (.new opcode) d

def lowerBody (s : Lowering) (name : String) (method : MethodId) (index : Nat) :
    List InstructionDef → Except Failure Lowering
  | [] => .ok s
  | d :: body => do
    let ⟨c, labels, entries, pending⟩ := s
    let (ins, c) ← withContext s!"{name}[{index}] ({d.opcode})" (lowerInstruction c d)
    let (id, c) := c.alloc ins
    let ((), c) ← orFail .compile (c.place method id).onSuccess
    let entries := if index = 0 then entries.insert name id else entries
    let labels ← match d.label with
      | none => pure labels
      | some label =>
        if labels.contains label then
          throw (.of (.text s!"Label '{label}' is defined more than once"))
        else pure (labels.insert label id)
    let pending :=
      if d.target.isSome || d.target2.isSome then ⟨id, d.target, d.target2⟩ :: pending
      else pending
    lowerBody ⟨c, labels, entries, pending⟩ name method (index + 1) body

def lowerMethod (s : Lowering) (m : MethodDef) : Except Failure Lowering := do
  let (method, compilation) := s.compilation.defineMethod m.name
  let s ← lowerBody { s with compilation } m.name method 0 m.body
  match m.exported with
  | none => return s
  | some e =>
    let exported := ⟨method, e.name.getD m.name, e.safe, e.parameters, e.returnType⟩
    return { s with compilation := s.compilation.exportMethod exported }

/-- Labels are known in all methods, and go before the names of methods. -/
def resolve (s : Lowering) (name : String) : Except Failure InstructionId :=
  match s.labels[name]?, s.entries[name]? with
  | some id, _ => .ok id
  | none, some id => .ok id
  | none, none => .error (.of (.text s!"Unknown label or method '{name}'"))

/-- Binds one target slot, if the branch names a target for it. -/
def bindSlot (s : Lowering) (id : InstructionId) (target : Option String)
    (set : Unlinked → InstructionId → Outcome CompileError Unlinked Unit) (c : Compilation) :
    Except Failure Compilation := do
  match target with
  | none => return c
  | some name =>
    let target ← s.resolve name
    let ((), c) ← orFail .compile (c.modifyInstruction id (set · target)).onSuccess
    return c

def bindBranch (s : Lowering) (c : Compilation) (b : PendingBranch) :
    Except Failure Compilation := do
  let c ← s.bindSlot b.id b.target Unlinked.setTarget c
  s.bindSlot b.id b.target2 Unlinked.setTarget2 c

end Lowering

namespace Program

/-- The compilation before any method: everything the manifest says. -/
def header (p : Program) : Compilation :=
  let c : Compilation := { name := p.name }
  let c := p.standards.foldl Compilation.addStandard c
  let c := p.events.foldl Compilation.exportEvent c
  let c := p.permissions.foldl (fun c q =>
    match q.methods with
    | .all => c.addPermission q.contract [NameSet.wildcard]
    | .only methods => c.addPermission q.contract methods) c
  p.extra.foldl (fun c (key, value) => c.setExtra key value) c

def lower (p : Program) : Except Failure Compilation := do
  let s ← p.methods.foldlM Lowering.lowerMethod { compilation := p.header }
  let c ← s.pending.reverse.foldlM s.bindBranch s.compilation
  let (_, c) ← orFail .compile c.emitInitializer.onSuccess
  return c

end Program
end ContractLinker
