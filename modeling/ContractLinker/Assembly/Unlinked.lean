import ContractLinker.Assembly.Error
import ContractLinker.Instruction

namespace ContractLinker

/-- Target slots of an instruction, as many as its opcode has addresses. -/
inductive Targets where
  | none
  | single (target : Option InstructionId)
  | dual (handler finalizer : Option InstructionId)
  deriving DecidableEq, Repr

namespace Targets

def first : Targets → Option InstructionId
  | .none => .none
  | .single t | .dual t _ => t

def second : Targets → Option InstructionId
  | .dual _ t => t
  | _ => .none

def slots : Targets → List (Option InstructionId)
  | .none => []
  | .single t => [t]
  | .dual t u => [t, u]

/-- The slots that `opcode` has, with the targets that were bound before. -/
def reshape (opcode : Opcode) (old : Targets) : Targets :=
  match opcode.addressClass with
  | Option.none => .none
  | some .short | some .long => .single old.first
  | some .shortDual | some .longDual => .dual old.first old.second

end Targets

/-- A branch names the instruction it goes to; its operand is zero until all offsets are known. -/
structure Unlinked where
  opcode : Opcode
  operand : Bytes
  targets : Targets
  offset : Option Nat
  deriving DecidableEq, Repr

namespace Unlinked

/-- A fixed operand is brought to the new size, and the slots to the new opcode's. -/
def setOpcode (ins : Unlinked) (opcode : Opcode) : Unlinked :=
  let targets := ins.targets.reshape opcode
  match opcode.framing with
  | .fixed size => { ins with opcode, targets, operand := Bytes.resize size ins.operand }
  | .counted _ => { ins with opcode, targets }

/-- An instruction with a zero operand of the opcode's fixed size. -/
def new (opcode : Opcode) : Unlinked :=
  setOpcode ⟨.nop, [], .none, none⟩ opcode

def setOperand (ins : Unlinked) (operand : Bytes) : Outcome CompileError Unlinked Unit :=
  match Instruction.checkOperand ins.opcode operand with
  | .error e => (.error (.codec e), ins)
  | .ok () => (.ok (), { ins with operand })

def setTarget (ins : Unlinked) (target : InstructionId) : Outcome CompileError Unlinked Unit :=
  match ins.targets with
  | .none => (.error (.notABranch ins.opcode), ins)
  | .single _ => (.ok (), { ins with targets := .single (some target) })
  | .dual _ second => (.ok (), { ins with targets := .dual (some target) second })

def setTarget2 (ins : Unlinked) (target : InstructionId) : Outcome CompileError Unlinked Unit :=
  match ins.targets with
  | .dual first _ => (.ok (), { ins with targets := .dual first (some target) })
  | _ => (.error (.notABranch ins.opcode), ins)

def withOperand (opcode : Opcode) (operand : Bytes) : Except CompileError Unlinked := do
  let (result, ins) := (new opcode).setOperand operand
  result
  return ins

def branch (opcode : Opcode) (target : InstructionId) : Except CompileError Unlinked := do
  let (result, ins) := (new opcode).setTarget target
  result
  return ins

/-- Entry of an exception scope; either handler may be missing. -/
def tryScope (opcode : Opcode) (handler finalizer : Option InstructionId) :
    Except CompileError Unlinked :=
  let ins := new opcode
  match ins.targets with
  | .dual _ _ => .ok { ins with targets := .dual handler finalizer }
  | _ => .error (.notABranch opcode)

def smallConstants : List Opcode :=
  [.push0, .push1, .push2, .push3, .push4, .push5, .push6, .push7, .push8, .push9, .push10,
    .push11, .push12, .push13, .push14, .push15, .push16]

/-- Pushes a 64-bit integer in its shortest form. -/
def pushInt (value : Int) : Unlinked :=
  if value = -1 then new .pushM1
  else if 0 ≤ value ∧ value ≤ 16 then new (smallConstants.getD value.toNat .push0)
  else
    let wide (opcode : Opcode) (width : Nat) : Unlinked :=
      ⟨opcode, Bytes.ofIntLE width value, .none, none⟩
    if Bytes.FitsSigned 1 value then wide .pushInt8 1
    else if Bytes.FitsSigned 2 value then wide .pushInt16 2
    else if Bytes.FitsSigned 4 value then wide .pushInt32 4
    else wide .pushInt64 8

/-- Pushes a byte string behind the narrowest length that holds its size. -/
def pushData (data : Bytes) : Except CompileError Unlinked :=
  let size := data.length
  let opcode := if size ≤ 0xFF then Opcode.pushData1
    else if size ≤ 0xFFFF then .pushData2 else .pushData4
  withOperand opcode data

def size (ins : Unlinked) : Nat :=
  1 + ins.opcode.framing.lengthBytes + ins.operand.length

end Unlinked
end ContractLinker
