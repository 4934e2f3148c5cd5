import ContractLinker.Codec.Error

namespace ContractLinker

/-- What is left of some data, and how much of it was read. -/
structure Cursor where
  position : Nat
  rest : Bytes
  deriving DecidableEq, Repr

def Cursor.start (bytes : Bytes) : Cursor := ⟨0, bytes⟩

/-- A read that fails leaves the cursor behind what was read before the fault. -/
abbrev Read := EStateM CodecError Cursor

namespace Read

/-- Exactly `size` bytes. -/
def bytes (size : Nat) : Read Bytes := fun c =>
  let head := c.rest.take size
  if head.length = size then .ok head ⟨c.position + size, c.rest.drop size⟩
  else .error (.unexpectedEnd c.position (size - head.length)) c

def natLE (width : Nat) : Read Nat := return Bytes.toNatLE (← bytes width)

def byte : Read UInt8 := return UInt8.ofNat (← natLE 1)

def refuse (cause : FormatError) : Read α := throw (.invalidFormat cause)

/-- A number behind a byte that says how wide it is; longer forms than needed are read too. -/
def varInt (max : Nat) : Read Nat := do
  let first ← byte
  let value ←
    if first = 0xFD then natLE 2
    else if first = 0xFE then natLE 4
    else if first = 0xFF then natLE 8
    else pure first.toNat
  if value > max then refuse (.varIntLimit value max) else pure value

def varBytes (max : Nat) : Read Bytes := do
  let size ← varInt max
  bytes size

def varText (max : Nat) : Read String := do
  match Utf8.decode (← varBytes max) with
  | .ok text => pure text
  | .error cause => refuse (.textField cause)

end Read

namespace VarInt

def size (value : Nat) : Nat :=
  if value < 0xFD then 1 else if value ≤ 0xFFFF then 3 else if value ≤ 0xFFFFFFFF then 5 else 9

def encode (value : Nat) : Bytes :=
  if value < 0xFD then Bytes.ofNatLE 1 value
  else if value ≤ 0xFFFF then 0xFD :: Bytes.ofNatLE 2 value
  else if value ≤ 0xFFFFFFFF then 0xFE :: Bytes.ofNatLE 4 value
  else 0xFF :: Bytes.ofNatLE 8 value

def encodeBytes (bytes : Bytes) : Bytes := encode bytes.length ++ bytes

theorem length_encode (value : Nat) : (encode value).length = size value := by
  unfold encode size
  split <;> (try split) <;> (try split) <;> simp [Bytes.length_ofNatLE]

end VarInt
end ContractLinker
