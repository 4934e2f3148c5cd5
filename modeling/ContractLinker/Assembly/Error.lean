import ContractLinker.Codec.Error

namespace ContractLinker

/-- Index of an instruction in its arena. Indices are taken as unbounded: that a machine has no
number for the instruction after `2 ^ 32` others is not modelled. -/
abbrev InstructionId := Nat

/-- Broken promises between the parts of the compiler. -/
inductive InternalError where
  | undefinedMethod (number : Nat)
  | lostMethod (name : String) (offset : Nat)
  | missingOffset (id : InstructionId) (opcode : Opcode)
  | missingSlots (id : InstructionId) (opcode : Opcode)
  | scriptLength (actual assumed : Nat)
  | notLinked (id : InstructionId)
  deriving DecidableEq, Repr

def InternalError.message : InternalError → String
  | .undefinedMethod number => s!"method #{number} is not defined"
  | .lostMethod name offset => s!"method '{name}' at offset {offset} did not survive optimization"
  | .missingOffset id opcode => s!"{opcode.mnemonic} #{id} has no offset"
  | .missingSlots id opcode => s!"{opcode.mnemonic} #{id} has no target slots"
  | .scriptLength actual assumed => s!"script is {actual} bytes, offsets assumed {assumed}"
  | .notLinked id => s!"#{id} was not linked"

inductive CompileError where
  | unboundBranch (id : InstructionId) (opcode : Opcode)
  | danglingTarget (id : InstructionId) (opcode : Opcode) (target : InstructionId)
  | duplicatePlacement (id : InstructionId) (opcode : Opcode)
  | displacementRange (id : InstructionId) (opcode : Opcode) (offset : Nat) (displacement : Int)
  | notABranch (opcode : Opcode)
  | unknownInstruction (id : InstructionId)
  | staticSlotOverflow (name : String)
  | tokenTableOverflow
  | emptyMethod (name : String)
  | unknownMethod (name : String)
  | scriptTooLarge (size : Nat)
  | invalidAddress (offset : Nat) (target : Int)
  | internal (cause : InternalError)
  | codec (cause : CodecError)
  deriving DecidableEq, Repr

def CompileError.message : CompileError → String
  | .unboundBranch id opcode => s!"Unbound branch target on {opcode.mnemonic} #{id}"
  | .danglingTarget id opcode target =>
    s!"{opcode.mnemonic} #{id} targets #{target}, which is not in the program"
  | .duplicatePlacement id opcode => s!"{opcode.mnemonic} #{id} is placed more than once"
  | .displacementRange id opcode offset displacement =>
    s!"{opcode.mnemonic} #{id} at offset {offset}: displacement {displacement} does not fit"
  | .notABranch opcode => s!"{opcode.mnemonic} does not take a branch target"
  | .unknownInstruction id => s!"Unknown instruction #{id}"
  | .staticSlotOverflow name => s!"Too many static fields (max 256), cannot allocate '{name}'"
  | .tokenTableOverflow => "Too many method tokens (max 65536)"
  | .emptyMethod name => s!"Method '{name}' has no instructions"
  | .unknownMethod name => s!"Unknown method '{name}'"
  | .scriptTooLarge size => s!"Script too large: {size} bytes"
  | .invalidAddress offset target =>
    s!"Instruction at offset {offset} points at {target}, which is not an instruction boundary"
  | .internal cause => s!"Internal error: {cause.message}"
  | .codec cause => cause.message

def CompileError.lift : Except CodecError α → Except CompileError α
  | .ok a => .ok a
  | .error e => .error (.codec e)

end ContractLinker
