import ContractLinker.Bytes

namespace ContractLinker.Hex

def digit (n : Nat) : Char :=
  if n < 10 then Char.ofNat ('0'.toNat + n) else Char.ofNat ('a'.toNat + (n - 10))

def pair (b : UInt8) : List Char :=
  [digit (b.toNat / 16), digit (b.toNat % 16)]

def encode (bytes : Bytes) : String :=
  String.ofList (bytes.flatMap pair)

/-- Value of a digit of either case, given as its ASCII byte. -/
def value? (b : UInt8) : Option Nat :=
  if 0x30 ≤ b ∧ b ≤ 0x39 then some (b.toNat - 0x30)
  else if 0x41 ≤ b ∧ b ≤ 0x46 then some (b.toNat - 0x41 + 10)
  else if 0x61 ≤ b ∧ b ≤ 0x66 then some (b.toNat - 0x61 + 10)
  else none

inductive Error where
  | oddLength
  | wrongLength
  | badDigit (byte : UInt8) (position : Nat)
  deriving DecidableEq, Repr

def lower (n : Nat) : String :=
  String.ofList ((Nat.toDigits 16 n).map Char.toLower)

def upper (width n : Nat) : String :=
  let digits := (Nat.toDigits 16 n).map Char.toUpper
  String.ofList (List.replicate (width - digits.length) '0' ++ digits)

def padded (width n : Nat) : String :=
  let digits := (Nat.toDigits 16 n).map Char.toLower
  String.ofList (List.replicate (width - digits.length) '0' ++ digits)

/-- The character of code `b` between single quotes, written out when it has no printed form. -/
def quote (b : UInt8) : String :=
  let inner :=
    if b = 0x00 then "\\0"
    else if b = 0x09 then "\\t"
    else if b = 0x0A then "\\n"
    else if b = 0x0D then "\\r"
    else if b = 0x27 then "\\'"
    else if b = 0x5C then "\\\\"
    else if b < 0x20 ∨ 0x7F ≤ b ∧ b ≤ 0xA0 ∨ b = 0xAD then "\\u\x7b" ++ lower b.toNat ++ "\x7d"
    else String.singleton (Char.ofNat b.toNat)
  "'" ++ inner ++ "'"

def Error.message : Error → String
  | .oddLength => "Odd number of digits"
  | .wrongLength => "Invalid string length"
  | .badDigit byte position => s!"Invalid character {quote byte} at position {position}"

def digitAt (b : UInt8) (position : Nat) : Except Error Nat :=
  match value? b with
  | some n => .ok n
  | none => .error (.badDigit b position)

def decodePairs (position : Nat) (done : Bytes) : Bytes → Except Error Bytes
  | high :: low :: rest => do
    let h ← digitAt high position
    let l ← digitAt low (position + 1)
    decodePairs (position + 2) (UInt8.ofNat (16 * h + l) :: done) rest
  | _ => .ok done.reverse

/-- Bytes written by the digits `text`, itself given as bytes. -/
def decode (text : Bytes) : Except Error Bytes :=
  if text.length % 2 = 1 then .error .oddLength else decodePairs 0 [] text

def decodeExactly (size : Nat) (text : Bytes) : Except Error Bytes :=
  if text.length % 2 = 1 then .error .oddLength
  else if text.length / 2 ≠ size then .error .wrongLength
  else decodePairs 0 [] text

end ContractLinker.Hex
