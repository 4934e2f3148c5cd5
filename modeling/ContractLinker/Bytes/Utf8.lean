import ContractLinker.Bytes

namespace ContractLinker.Utf8

def encode (text : String) : Bytes :=
  text.toList.flatMap String.utf8EncodeChar

/-- The first fault of a byte string that is no text: where the character starts, and how many of
its bytes cannot belong together, or `none` when the bytes end inside it. -/
structure Error where
  start : Nat
  badBytes : Option Nat
  deriving DecidableEq, Repr

def Error.message (e : Error) : String :=
  match e.badBytes with
  | some n => s!"invalid utf-8 sequence of {n} bytes from index {e.start}"
  | none => s!"incomplete utf-8 byte sequence from index {e.start}"

/-- How many bytes follow the first byte `a` of a longer character, and the range of the next. -/
def lead (a : UInt8) : Option (Nat × UInt8 × UInt8) :=
  if 0xC2 ≤ a ∧ a ≤ 0xDF then some (1, 0x80, 0xBF)
  else if a = 0xE0 then some (2, 0xA0, 0xBF)
  else if a = 0xED then some (2, 0x80, 0x9F)
  else if 0xE1 ≤ a ∧ a ≤ 0xEF then some (2, 0x80, 0xBF)
  else if a = 0xF0 then some (3, 0x90, 0xBF)
  else if 0xF1 ≤ a ∧ a ≤ 0xF3 then some (3, 0x80, 0xBF)
  else if a = 0xF4 then some (3, 0x80, 0x8F)
  else none

def isTail (b : UInt8) : Bool := 0x80 ≤ b && b ≤ 0xBF

def bits (mask : Nat) (b : UInt8) : Nat := b.toNat % mask

def decodeFrom (start : Nat) (done : List Char) : Bytes → Except Error String
  | [] => .ok (String.ofList done.reverse)
  | a :: rest =>
    if a < 0x80 then decodeFrom (start + 1) (Char.ofNat a.toNat :: done) rest
    else
      match lead a with
      | none => .error ⟨start, some 1⟩
      | some (more, low, high) =>
        match rest with
        | [] => .error ⟨start, none⟩
        | b :: rest =>
          if b < low ∨ high < b then .error ⟨start, some 1⟩
          else if more = 1 then
            let c := bits 32 a * 64 + bits 64 b
            decodeFrom (start + 2) (Char.ofNat c :: done) rest
          else
            match rest with
            | [] => .error ⟨start, none⟩
            | c :: rest =>
              if !isTail c then .error ⟨start, some 2⟩
              else if more = 2 then
                let c := (bits 16 a * 64 + bits 64 b) * 64 + bits 64 c
                decodeFrom (start + 3) (Char.ofNat c :: done) rest
              else
                match rest with
                | [] => .error ⟨start, none⟩
                | d :: rest =>
                  if !isTail d then .error ⟨start, some 3⟩
                  else
                    let c := ((bits 8 a * 64 + bits 64 b) * 64 + bits 64 c) * 64 + bits 64 d
                    decodeFrom (start + 4) (Char.ofNat c :: done) rest

def decode (bytes : Bytes) : Except Error String := decodeFrom 0 [] bytes

end ContractLinker.Utf8
