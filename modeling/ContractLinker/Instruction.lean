import ContractLinker.Codec.Cursor
import ContractLinker.Outcome

namespace ContractLinker

/-- An instruction as it was read. Addresses in the operand are displacements from the offset. -/
structure Instruction where
  opcode : Opcode
  operand : Bytes
  offset : Nat := 0
  deriving DecidableEq, Repr

namespace Instruction

def checkOperand (opcode : Opcode) (operand : Bytes) : Except CodecError Unit :=
  match opcode.framing with
  | .fixed size =>
    if operand.length = size then .ok () else .error (.operandSize opcode size operand.length)
  | .counted width =>
    if operand.length ≤ width.limit then .ok ()
    else .error (.operandTooLong opcode width operand.length)

def new (opcode : Opcode) (operand : Bytes) : Except CodecError Instruction := do
  checkOperand opcode operand
  return ⟨opcode, operand, 0⟩

def size (ins : Instruction) : Nat :=
  1 + ins.opcode.framing.lengthBytes + ins.operand.length

/-- A fixed operand is brought to the new size; in front of a length the operand stays as it is. -/
def setOpcode (ins : Instruction) (opcode : Opcode) : Instruction :=
  match opcode.framing with
  | .fixed size => { ins with opcode, operand := Bytes.resize size ins.operand }
  | .counted _ => { ins with opcode }

def addressSize (ins : Instruction) : Nat :=
  match ins.opcode.addressClass with
  | some cls => cls.width
  | none => 0

def addressCount (ins : Instruction) : Nat :=
  match ins.opcode.addressClass with
  | some cls => cls.count
  | none => 0

/-- Class of the address at `index`, if there is such an address. -/
def addressSlot (ins : Instruction) (index : Nat) : Except CodecError AddressClass :=
  match ins.opcode.addressClass with
  | none => .error (.noAddress ins.opcode ins.offset)
  | some cls =>
    if index < cls.count then .ok cls else .error (.addressIndex ins.opcode cls.count index)

/-- Displacement in slot `index` of an operand with addresses of `width` bytes. -/
def displacement (operand : Bytes) (width index : Nat) : Int :=
  Bytes.toIntLE ((operand.drop (index * width)).take width)

def readAddress (ins : Instruction) (index : Nat) : Except CodecError Int := do
  let cls ← ins.addressSlot index
  return displacement ins.operand cls.width index

def writeAddress (ins : Instruction) (index : Nat) (value : Int) :
    Outcome CodecError Instruction Unit :=
  match ins.addressSlot index with
  | .error e => (.error e, ins)
  | .ok cls =>
    if Bytes.FitsSigned cls.width value then
      let patch := Bytes.ofIntLE cls.width value
      (.ok (), { ins with operand := Bytes.overwrite ins.operand (index * cls.width) patch })
    else (.error (.addressRange ins.opcode cls.width value), ins)

def displacements (ins : Instruction) : List Int :=
  (List.range ins.addressCount).map (displacement ins.operand ins.addressSize)

/-- The signed number that a 64-bit word stands for. -/
def signed64 (n : Int) : Int := Int.bmod n (Bytes.bound 8)

/-- The offset on the scale that targets are on. -/
def signedOffset (ins : Instruction) : Int := signed64 ins.offset

/-- Absolute offsets that the addresses point at, as signed words of 64 bits. -/
def targets (ins : Instruction) : List Int :=
  ins.displacements.map fun d => signed64 (ins.offset + d)

/-- The next instruction, or `none` at the end of the data. -/
def read : Read (Option Instruction) := do
  let start ← get
  if start.rest.isEmpty then return none
  let byte ← Read.byte
  let some opcode := Opcode.ofByte? byte | throw (.invalidOpcode byte start.position)
  let length ← match opcode.framing with
    | .fixed size => pure size
    | .counted width => Read.natLE width.bytes
  let operand ← Read.bytes length
  return some ⟨opcode, operand, start.position⟩

def encode (ins : Instruction) : Bytes :=
  match ins.opcode.framing with
  | .fixed _ => ins.opcode.byte :: ins.operand
  | .counted width =>
    ins.opcode.byte :: (Bytes.ofNatLE width.bytes ins.operand.length ++ ins.operand)

/-- Offsets in disassembly; one below zero shows as a 64-bit word. -/
def offsetText (offset : Int) : String :=
  Hex.upper 4 (offset % Bytes.bound 8).toNat

def signed (value : Int) : String :=
  if value < 0 then s!"{value}" else s!"+{value}"

def text (ins : Instruction) : String :=
  let head := s!"{offsetText ins.offset}: {ins.opcode.mnemonic}"
  if ins.addressCount > 0 then
    ins.displacements.foldl
      (fun line d => s!"{line} {signed d} (-> {offsetText (ins.offset + d)})") head
  else if ins.operand.isEmpty then head
  else s!"{head} {Hex.encode ins.operand}"

end Instruction
end ContractLinker
