import ContractLinker.Json.Binary64
import ContractLinker.Json.Fault

namespace ContractLinker.Json

inductive Number where
  | int (value : Int)
  | float (value : Binary64)
  deriving DecidableEq, Repr

def Number.text : Number → String
  | .int value => toString value
  | .float value => value.text

/-- A number as it is written. -/
structure Literal where
  negative : Bool
  whole : List Char
  fraction : List Char := []
  exponent : Option (Bool × List Char) := none
  deriving DecidableEq, Repr

namespace Literal

def stop : List Char → Fault
  | [] => .incomplete
  | _ :: _ => .malformed

def digits (cs : List Char) : List Char × List Char :=
  cs.span Char.isDigit

def scanExponent (lit : Literal) : List Char → Except Fault (Literal × List Char)
  | c :: rest =>
    if c = 'e' ∨ c = 'E' then
      let (negative, rest) := match rest with
        | '+' :: rest => (false, rest)
        | '-' :: rest => (true, rest)
        | rest => (false, rest)
      match digits rest with
      | ([], rest) => .error (stop rest)
      | (ds, rest) => .ok ({ lit with exponent := some (negative, ds) }, rest)
    else .ok (lit, c :: rest)
  | [] => .ok (lit, [])

def scanFraction (lit : Literal) : List Char → Except Fault (Literal × List Char)
  | '.' :: rest =>
    match digits rest with
    | ([], rest) => .error (stop rest)
    | (ds, rest) => scanExponent { lit with fraction := ds } rest
  | rest => scanExponent lit rest

/-- The literal at the start of `cs`, behind its sign. -/
def scanUnsigned (negative : Bool) (cs : List Char) : Except Fault (Literal × List Char) :=
  match digits cs with
  | ([], rest) => .error (stop rest)
  | ('0' :: _ :: _, _) => .error .malformed
  | (whole, rest) => scanFraction { negative, whole } rest

def scan : List Char → Except Fault (Literal × List Char)
  | '-' :: rest => scanUnsigned true rest
  | cs => scanUnsigned false cs

def digitValue (c : Char) : Nat := c.toNat - '0'.toNat

/-- Takes digits into a significand of 64 bits, up to the first that does not fit; gives how
many were taken too. -/
def absorb (significand taken : Nat) : List Char → Nat × Nat
  | [] => (significand, taken)
  | c :: rest =>
    let next := significand * 10 + digitValue c
    if next < 0x10000000000000000 then absorb next (taken + 1) rest else (significand, taken)

def natural (ds : List Char) : Nat := ds.foldl (fun n c => n * 10 + digitValue c) 0

/-- The number it stands for; `none` when that is too large for a floating-point number. -/
def value (lit : Literal) : Option Number :=
  let (significand, taken) := absorb 0 0 lit.whole
  let dropped := lit.whole.length - taken
  if lit.fraction.isEmpty ∧ lit.exponent.isNone ∧ dropped = 0 ∧
      (if lit.negative then 0 < significand ∧ significand ≤ 0x8000000000000000 else True) then
    some (.int (if lit.negative then -significand else significand))
  else
    let (significand, decimals) := absorb significand 0 lit.fraction
    let exponent : Int := match lit.exponent with
      | none => 0
      | some (true, ds) => -(natural ds : Int)
      | some (false, ds) => natural ds
    (Binary64.ofDecimal lit.negative significand (dropped - decimals + exponent)).map .float

end Literal
end ContractLinker.Json
