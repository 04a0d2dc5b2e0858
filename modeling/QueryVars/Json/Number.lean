import QueryVars.Json.Source

/-!
# Number text

A number is read exactly, as a natural number of digits scaled by a power of
ten. Text without a fraction or an exponent is an integer as long as some
64-bit word holds it; all other text is the nearest double, and has no value if
that is infinite. Negative zero is no integer, so its sign survives.
-/

namespace QueryVars.Json

/-- `digits · 10 ^ exponent`, negated if asked for. -/
structure Decimal where
  negative : Bool
  digits : Nat
  exponent : Int
  integral : Bool

namespace Decimal

def natOf (cs : List Char) : Nat := cs.foldl (fun n c => 10 * n + (c.toNat - '0'.toNat)) 0

def sign : List Char → Bool × List Char
  | '-' :: rest => (true, rest)
  | cs => (false, cs)

/-- Digits without a needless leading zero. -/
def whole (cs : List Char) : Option (List Char × List Char) :=
  match cs.span Char.isDigit with
  | (['0'], rest) => some (['0'], rest)
  | ('0' :: _, _) | ([], _) => none
  | (digits, rest) => some (digits, rest)

/-- The digits behind a point, if there is a point. -/
def fraction : List Char → Option (Option (List Char) × List Char)
  | '.' :: cs =>
    match cs.span Char.isDigit with
    | ([], _) => none
    | (digits, rest) => some (some digits, rest)
  | cs => some (none, cs)

def signed : List Char → Bool × List Char
  | '+' :: rest => (false, rest)
  | cs => sign cs

/-- What is left is an exponent or nothing. -/
def scale : List Char → Option (Option Int)
  | [] => some none
  | c :: cs =>
    if c = 'e' ∨ c = 'E' then
      let (negative, digits) := signed cs
      if digits ≠ [] ∧ digits.all Char.isDigit then
        some (some (if negative then -(natOf digits : Int) else natOf digits))
      else none
    else none

def ofChars? (cs : List Char) : Option Decimal := do
  let (negative, cs) := sign cs
  let (whole, cs) ← whole cs
  let (fraction, cs) ← fraction cs
  let exponent ← scale cs
  let places := fraction.getD []
  return {
    negative
    digits := natOf (whole ++ places)
    exponent := exponent.getD 0 - places.length
    integral := fraction.isNone && exponent.isNone }

def magnitude (d : Decimal) : Int := (Nat.toDigits 10 d.digits).length + d.exponent

/-- The nearest double. Beyond the bounds tested first the value is surely zero
or infinite, and the power of ten need not be computed. -/
def toFloat? (d : Decimal) : Option Float :=
  let size : Option Float :=
    if d.digits = 0 ∨ d.magnitude < -400 then some 0
    else if d.magnitude > 400 then none
    else some (.ofScientific d.digits (decide (d.exponent < 0)) d.exponent.natAbs)
  match size with
  | some x => if x.isInf then none else some (if d.negative then -x else x)
  | none => none

def toSource (d : Decimal) : Source :=
  let value : Int := if d.negative then -d.digits else d.digits
  let negativeZero := d.negative && d.digits == 0
  if d.integral ∧ ¬negativeZero ∧ Int64.minValue.toInt ≤ value ∧ value < UInt64.size then
    .int value
  else
    match d.toFloat? with
    | some x => .float x
    | none => .unfit

end Decimal

end QueryVars.Json
