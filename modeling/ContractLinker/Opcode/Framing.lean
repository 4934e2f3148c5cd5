import ContractLinker.Bytes

namespace ContractLinker

inductive LengthWidth where
  | one
  | two
  | four
  deriving DecidableEq, Repr

def LengthWidth.bytes : LengthWidth → Nat
  | .one => 1
  | .two => 2
  | .four => 4

/-- Longest operand whose length the width can hold. -/
def LengthWidth.limit (width : LengthWidth) : Nat := Bytes.bound width.bytes - 1

/-- An operand has a fixed size, which is zero for opcodes without one, or its length is counted in
front of it. -/
inductive Framing where
  | fixed (size : Nat)
  | counted (width : LengthWidth)
  deriving DecidableEq, Repr

namespace Framing

def lengthBytes : Framing → Nat
  | .fixed _ => 0
  | .counted width => width.bytes

def fixedSize : Framing → Nat
  | .fixed size => size
  | .counted _ => 0

def isCounted : Framing → Bool
  | .fixed _ => false
  | .counted _ => true

end Framing

/-- Signed displacements in an operand: one or, for an exception scope, two, of one or four bytes
each. -/
inductive AddressClass where
  | short
  | long
  | shortDual
  | longDual
  deriving DecidableEq, Repr

namespace AddressClass

def width : AddressClass → Nat
  | .short | .shortDual => 1
  | .long | .longDual => 4

def count : AddressClass → Nat
  | .short | .long => 1
  | .shortDual | .longDual => 2

end AddressClass
end ContractLinker
