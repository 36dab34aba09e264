import MarkupAudit.Decimal.Binary64

/-!
The fewest decimal digits that read back to a floating-point number, and of those the nearest ones.
The decimals that read back to a number are those of an interval around it; its ends belong to it
when the mantissa is even. For each number of digits the two decimals next to the number are tried.
-/

namespace MarkupAudit.Decimal

structure Digits where
  digits : Nat
  exponent : Int
deriving DecidableEq, Repr

namespace Shortest

/-- Everything is measured in units of `2 ^ -1076 * 10 ^ -400`, so that all amounts are whole. -/
def shift : Nat := 400

def unitsOfBinary (quarters : Nat) (exponent : Int) : Nat :=
  quarters * Nat.pow 2 (exponent + 1074).toNat * Nat.pow 10 shift

def unitsOfDecimal (exponent : Int) : Nat :=
  Nat.pow 10 (exponent + shift).toNat * Nat.pow 2 1076

structure Interval where
  low : Nat
  value : Nat
  high : Nat
  ends : Bool

/-- The interval of a positive number. Below a power of two the neighbour is only half as far. -/
def interval (mantissa : Nat) (exponent : Int) : Interval where
  low := unitsOfBinary
    (4 * mantissa - if mantissa = Binary64.leastMantissa ∧ exponent > Binary64.minExponent then 1
      else 2)
    exponent
  value := unitsOfBinary (4 * mantissa) exponent
  high := unitsOfBinary (4 * mantissa + 2) exponent
  ends := mantissa % 2 = 0

def Interval.contains (i : Interval) (x : Nat) : Bool :=
  if i.ends then i.low ≤ x && x ≤ i.high else i.low < x && x < i.high

/-- The nearer of the two decimals with a given exponent around the number, if it lies inside; of
two equally near ones the one above. -/
def candidate (i : Interval) (exponent : Int) : Option Digits :=
  let unit := unitsOfDecimal exponent
  let below := i.value / unit
  let nearBelow := i.contains (below * unit)
  let nearAbove := i.contains ((below + 1) * unit)
  let belowIsNearer := 2 * (i.value % unit) < unit
  if nearBelow && (belowIsNearer || !nearAbove) then some ⟨below, exponent⟩
  else if nearAbove then some ⟨below + 1, exponent⟩
  else none

/-- Tries one digit, then two, and so on; `leading` is the exponent of the first digit. -/
def search (i : Interval) (leading : Int) : Nat → Nat → Digits
  | 0, length => ⟨i.value / unitsOfDecimal (leading + 1 - length), leading + 1 - length⟩
  | more + 1, length =>
    match candidate i (leading + 1 - length) with
    | some found => found
    | none => search i leading more (length + 1)

end Shortest

/-- Takes a zero off the end: the decimal above a number may have one digit more. -/
def Digits.trim (d : Digits) : Digits :=
  if d.digits % 10 = 0 then ⟨d.digits / 10, d.exponent + 1⟩ else d

def shortest (mantissa : Nat) (exponent : Int) : Digits :=
  let i := Shortest.interval mantissa exponent
  let whole := (Nat.toDigits 10 (i.value / Nat.pow 2 1076)).length
  let leading : Int := (whole : Int) - 1 - Shortest.shift
  (Shortest.search i leading 17 1).trim

/-- Positional notation; there is always a point with a digit on each side. -/
def Digits.positional (d : Digits) : List Char :=
  let digits := Nat.toDigits 10 d.digits
  if 0 ≤ d.exponent then digits ++ List.replicate d.exponent.toNat '0' ++ ['.', '0']
  else
    let places := (-d.exponent).toNat
    let padded := List.replicate (places + 1 - digits.length) '0' ++ digits
    padded.take (padded.length - places) ++ '.' :: padded.drop (padded.length - places)

namespace Binary64

def sign : Bool → List Char
  | true => ['-']
  | false => []

def render : Binary64 → List Char
  | nan => "NaN".toList
  | infinite negative => sign negative ++ "inf".toList
  | finite negative 0 _ => sign negative ++ "0.0".toList
  | finite negative mantissa exponent => sign negative ++ (shortest mantissa exponent).positional

end Binary64

end MarkupAudit.Decimal
