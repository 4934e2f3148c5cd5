import ContractLinker.Bytes
import ContractLinker.Json.Binary64
import ContractLinker.Settings.Toml.Item

namespace ContractLinker.Toml

def hexValue? (c : Char) : Option Nat :=
  if c.isDigit then some (c.toNat - '0'.toNat)
  else if 'a' ≤ c ∧ c ≤ 'f' then some (c.toNat - 'a'.toNat + 10)
  else if 'A' ≤ c ∧ c ≤ 'F' then some (c.toNat - 'A'.toNat + 10)
  else none

def digits (base : Nat) (cs : List Char) : Option Nat :=
  let value? (c : Char) : Option Nat := do
    let d ← hexValue? c
    if d < base then some d else none
  let rec go (n : Nat) (afterDigit : Bool) : List Char → Option Nat
    | [] => if afterDigit then some n else none
    | c :: rest =>
      if c = '_' then if afterDigit then go n false rest else none
      else
        match value? c with
        | some d => go (n * base + d) true rest
        | none => none
  go 0 false cs

def decimal (cs : List Char) : Option Nat :=
  match cs with
  | '0' :: _ :: _ => none
  | cs => digits 10 cs

def signed (cs : List Char) : Bool × List Char :=
  match cs with
  | '+' :: rest => (false, rest)
  | '-' :: rest => (true, rest)
  | cs => (false, cs)

/-- A signed 64-bit integer; other bases than ten have a mark and no sign. -/
def integer (cs : List Char) : Option Int := do
  let n : Int ← match cs with
    | '0' :: 'x' :: rest => (digits 16 rest).map Int.ofNat
    | '0' :: 'o' :: rest => (digits 8 rest).map Int.ofNat
    | '0' :: 'b' :: rest => (digits 2 rest).map Int.ofNat
    | cs =>
      let (negative, cs) := signed cs
      (decimal cs).map fun n => if negative then -(n : Int) else n
  if Bytes.FitsSigned 8 n then some n else none

/-- No floating-point number is as large as `n * 10 ^ exponent`. Only a number of 301 to 310 places
has to be looked at. -/
def isTooLarge (n : Nat) (exponent : Int) : Bool :=
  let places : Int := (Nat.toDigits 10 n).length + exponent
  let quotient :=
    if exponent < 0 then (n, Nat.pow 10 (-exponent).toNat) else (n * Nat.pow 10 exponent.toNat, 1)
  n ≠ 0 && (310 < places ||
    (300 < places && (Json.Binary64.round quotient.1 quotient.2).isNone))

/-- A number with a fraction, an exponent or both. One too large is refused if it is positive. -/
def isFloat (cs : List Char) : Bool :=
  let isMark (c : Char) : Bool := c.isDigit || c = '_'
  let (negative, cs) := signed cs
  let (whole, rest) := cs.span isMark
  let (fraction, tail) := match rest with
    | '.' :: rest => rest.span isMark
    | rest => (['0'], rest)
  let (lowered, exponent) := match tail with
    | [] => (false, ['0'])
    | c :: rest => if c = 'e' || c = 'E' then signed rest else (false, [])
  match decimal whole, digits 10 fraction, digits 10 exponent with
  | some n, some f, some e =>
    let places := (fraction.filter Char.isDigit).length
    let shift : Int := if lowered then -e else e
    !rest.isEmpty && (negative || !isTooLarge (n * Nat.pow 10 places + f) (shift - places))
  | _, _, _ => false

def specialFloats : List String := ["inf", "+inf", "-inf", "nan", "+nan", "-nan"]

def isPair (bound : Nat) (a b : Char) : Bool :=
  a.isDigit && b.isDigit && (digits 10 [a, b]).any (· ≤ bound)

/-- What stands behind a time of day; a minute may have a second more than sixty. -/
def behindTime : List Char → Option (List Char)
  | h :: h' :: ':' :: m :: m' :: ':' :: s :: s' :: rest =>
    if isPair 23 h h' && isPair 59 m m' && isPair 60 s s' then
      match rest with
      | '.' :: rest =>
        match rest.span Char.isDigit with
        | ([], _) => none
        | (_, rest) => some rest
      | rest => some rest
    else none
  | _ => none

def isTime (cs : List Char) : Bool := behindTime cs = some []

def isOffset : List Char → Bool
  | [c] => c = 'Z' || c = 'z'
  | [c, h, h', ':', m, m'] => (c = '+' || c = '-') && isPair 23 h h' && isPair 59 m m'
  | cs => cs.isEmpty

def isZonedTime (cs : List Char) : Bool := (behindTime cs).any isOffset

def daysIn (year month : Nat) : Nat :=
  if month = 2 then if year % 4 = 0 ∧ (year % 100 ≠ 0 ∨ year % 400 = 0) then 29 else 28
  else if month = 4 ∨ month = 6 ∨ month = 9 ∨ month = 11 then 30
  else 31

def isDate : List Char → Bool
  | [y, y', y'', y''', '-', m, m', '-', d, d'] =>
    [y, y', y'', y''', m, m', d, d'].all Char.isDigit &&
      match digits 10 [y, y', y'', y'''], digits 10 [m, m'], digits 10 [d, d'] with
      | some year, some month, some day =>
        1 ≤ month && month ≤ 12 && 1 ≤ day && day ≤ daysIn year month
      | _, _, _ => false
  | _ => false

def isMoment (cs : List Char) : Bool :=
  let (date, rest) := cs.splitAt 10
  let isRest := match rest with
    | [] => true
    | c :: time => (c = 'T' || c = 't') && isZonedTime time
  isTime cs || (isDate date && isRest)

def wordItem? (cs : List Char) : Option Item :=
  if cs = "true".toList then some (.boolean true)
  else if cs = "false".toList then some (.boolean false)
  else if isMoment cs then some .date
  else if isFloat cs || specialFloats.contains (String.ofList cs) then some .float
  else (integer cs).map .integer

end ContractLinker.Toml
