namespace ContractLinker.Json

/-- The number `mantissa * 2 ^ exponent`, with a sign that zero has too. The mantissa is below
`2 ^ 53`, and from `2 ^ 52` on unless the exponent is the least one. -/
structure Binary64 where
  negative : Bool
  mantissa : Nat
  exponent : Int
  deriving DecidableEq, Repr

namespace Binary64

def leadingBit : Nat := 0x10000000000000

def leastExponent : Int := -1074

def greatestExponent : Int := 971

def zero (negative : Bool) : Binary64 := ⟨negative, 0, leastExponent⟩

/-- `num / den` as a quotient of naturals when it is scaled down by `2 ^ exponent`. -/
def scaled (num den : Nat) (exponent : Int) : Nat × Nat :=
  if exponent < 0 then (num * Nat.pow 2 (-exponent).toNat, den)
  else (num, den * Nat.pow 2 exponent.toNat)

/-- The nearest number to `num / den`, of two the even one; `none` when it is too large. -/
def round (num den : Nat) : Option Binary64 :=
  if num = 0 then some (zero false)
  else
    let guess : Int := (Nat.log2 num : Int) - Nat.log2 den - 53
    let (n, d) := scaled num den guess
    let exponent := max leastExponent (if n / d < 2 * leadingBit then guess else guess + 1)
    let (n, d) := scaled num den exponent
    let (q, r) := (n / d, n % d)
    let q := if 2 * r > d ∨ (2 * r = d ∧ q % 2 = 1) then q + 1 else q
    let (q, exponent) := if q = 2 * leadingBit then (leadingBit, exponent + 1) else (q, exponent)
    if exponent > greatestExponent then none else some ⟨false, q, exponent⟩

def quotient (x : Binary64) : Nat × Nat := scaled x.mantissa 1 (-x.exponent)

def mul (x y : Binary64) : Option Binary64 :=
  let (a, b) := x.quotient
  let (c, d) := y.quotient
  round (a * c) (b * d)

def div (x y : Binary64) : Option Binary64 :=
  let (a, b) := x.quotient
  let (c, d) := y.quotient
  round (a * d) (b * c)

def powerOfTen (n : Nat) : Option Binary64 := round (Nat.pow 10 n) 1

def scaleFrom : Nat → Binary64 → Int → Option Binary64
  | 0, x, _ => some x
  | fuel + 1, x, exponent =>
    if exponent.natAbs ≤ 308 then do
      let power ← powerOfTen exponent.natAbs
      if exponent ≥ 0 then x.mul power else x.div power
    else if x.mantissa = 0 then some x
    else if exponent ≥ 0 then none
    else do
      let power ← powerOfTen 308
      scaleFrom fuel (← x.div power) (exponent + 308)

/-- `significand * 10 ^ exponent`, rounded once for the significand and once for each scaling. The
powers of ten go up to `10 ^ 308`; what is still smaller is divided by that first, and is zero
after two such steps. -/
def ofDecimal (negative : Bool) (significand : Nat) (exponent : Int) : Option Binary64 := do
  let x ← round significand 1
  let y ← scaleFrom 4 x exponent
  return { y with negative }

/-- Decimal digits, most significant first, and the power of ten of the first one. -/
structure Digits where
  digits : List Nat
  exponent : Int

/-- Least `k` with `num / den < 10 ^ k`. -/
def decade (num den : Nat) : Int :=
  if num ≥ den then (Nat.toDigits 10 (num / den)).length
  else
    let length := (Nat.toDigits 10 (den / num)).length
    if num * Nat.pow 10 (length - 1) ≥ den then 2 - length else 1 - length

/-- The point of the grid `10 ^ place` that is nearest to `num / den` and lies between the bounds,
which are included if `closed`. -/
def gridPoint (num den lowNum lowDen highNum highDen : Nat) (closed : Bool) (place : Int) :
    Option Nat :=
  let (up, down) :=
    if place < 0 then (Nat.pow 10 (-place).toNat, 1) else (1, Nat.pow 10 place.toNat)
  let within (c : Nat) : Bool :=
    let (a, b) := (c * down * lowDen, lowNum * up)
    let (x, y) := (c * down * highDen, highNum * up)
    if closed then b ≤ a && x ≤ y else b < a && x < y
  let (n, d) := (num * up, den * down)
  let (below, above) := (n / d, n / d + 1)
  let r := n % d
  match within below, within above with
  | false, false => none
  | true, false => some below
  | false, true => some above
  | true, true =>
    if 2 * r < d ∨ (2 * r = d ∧ below % 2 = 0) then some below else some above

def digitsOf (n : Nat) : List Nat :=
  (Nat.toDigits 10 n).map fun c => c.toNat - '0'.toNat

def dropZeros (digits : List Nat) : List Nat :=
  (digits.reverse.dropWhile (· = 0)).reverse

def search (num den lowNum lowDen highNum highDen : Nat) (closed : Bool) (top : Int) :
    (count fuel : Nat) → Digits
  | _, 0 => ⟨[0], 0⟩
  | count, fuel + 1 =>
    let place := top - count
    match gridPoint num den lowNum lowDen highNum highDen closed place with
    | some c => ⟨dropZeros (digitsOf c), place + (digitsOf c).length - 1⟩
    | none => search num den lowNum lowDen highNum highDen closed top (count + 1) fuel

/-- The fewest digits that round to `x`, nearest to it of those. Seventeen are always enough. -/
def shortest (x : Binary64) : Digits :=
  let (num, den) := x.quotient
  let (highNum, highDen) := scaled (2 * x.mantissa + 1) 1 (1 - x.exponent)
  let (lowNum, lowDen) :=
    if x.mantissa = leadingBit ∧ x.exponent > leastExponent then
      scaled (4 * x.mantissa - 1) 1 (2 - x.exponent)
    else scaled (2 * x.mantissa - 1) 1 (1 - x.exponent)
  search num den lowNum lowDen highNum highDen (x.mantissa % 2 = 0) (decade num den) 1 18

def digitText (digits : List Nat) : String :=
  String.ofList (digits.map fun d => Char.ofNat ('0'.toNat + d))

def zeros (n : Nat) : String := String.ofList (List.replicate n '0')

def isPlain (exponent : Int) : Bool := -5 ≤ exponent && exponent ≤ 15

def magnitudeText (d : Digits) : String :=
  let count : Int := d.digits.length
  if isPlain d.exponent then
    if d.exponent < 0 then "0." ++ zeros (-d.exponent - 1).toNat ++ digitText d.digits
    else if d.exponent + 1 < count then
      digitText (d.digits.take (d.exponent + 1).toNat) ++ "." ++
        digitText (d.digits.drop (d.exponent + 1).toNat)
    else digitText d.digits ++ zeros (d.exponent + 1 - count).toNat ++ ".0"
  else
    let fraction := match d.digits.tail with
      | [] => ""
      | rest => "." ++ digitText rest
    let sign := if d.exponent < 0 then "-" else "+"
    digitText (d.digits.take 1) ++ fraction ++ "e" ++ sign ++ toString d.exponent.natAbs

/-- At least one decimal place, or one digit in front of the point and a signed power of ten. -/
def text (x : Binary64) : String :=
  let magnitude := if x.mantissa = 0 then "0.0" else magnitudeText x.shortest
  if x.negative then "-" ++ magnitude else magnitude

end Binary64
end ContractLinker.Json
