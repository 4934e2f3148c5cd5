import ContractLinker.Instruction

namespace ContractLinker

/-- Decoded instructions, and the length in bytes they were last laid out in. -/
structure Script where
  instructions : List Instruction
  byteLength : Nat
  deriving DecidableEq, Repr

namespace Script

/-- All instructions from the cursor on. Each takes at least one byte, so as much fuel as there are
bytes is enough. -/
def decodeFrom : Nat → Cursor → List Instruction → Except CodecError (List Instruction)
  | 0, _, done => .ok done.reverse
  | fuel + 1, cursor, done =>
    match Instruction.read cursor with
    | .error e _ => .error e
    | .ok none _ => .ok done.reverse
    | .ok (some ins) next => decodeFrom fuel next (ins :: done)

def instructionsOf (bytes : Bytes) : Except CodecError (List Instruction) :=
  decodeFrom bytes.length (.start bytes) []

def decode (bytes : Bytes) : Except CodecError Script := do
  return ⟨← instructionsOf bytes, bytes.length⟩

def encodeAll (instructions : List Instruction) : Bytes :=
  instructions.flatMap Instruction.encode

def encode (script : Script) : Bytes := encodeAll script.instructions

end Script
end ContractLinker
