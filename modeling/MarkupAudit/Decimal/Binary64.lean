/-!
Binary floating-point numbers with 53 bits of precision, and the one nearest to a decimal. Of two
equally near ones the one with the even mantissa is taken.
-/

namespace MarkupAudit.Decimal

inductive Binary64 where
  /-- `mantissa * 2 ^ exponent`, with a sign that zero has too. -/
  | finite (negative : Bool) (mantissa : Nat) (exponent : Int)
  | infinite (negative : Bool)
  | nan
deriving DecidableEq, Repr

/-- The nearest whole number to a quotient; a half goes to the even one. -/
def roundDiv (num den : Nat) : Nat :=
  let q := num / den
  let twice := 2 * (num % den)
  if twice < den ∨ twice = den ∧ q % 2 = 0 then q else q + 1

/-- `base ^ n` for a positive exponent, as numerator; for a negative one, as denominator. -/
def powers (base : Nat) (n : Int) : Nat × Nat :=
  if 0 ≤ n then (Nat.pow base n.toNat, 1) else (1, Nat.pow base (-n).toNat)

namespace Binary64

def minExponent : Int := -1074

def maxExponent : Int := 971

def leastMantissa : Nat := Nat.pow 2 52

/-- Rounds the positive quotient `num / den`. The exponent is the one that leaves 53 bits, or the
least there is. -/
def ofQuotient (negative : Bool) (num den : Nat) : Binary64 :=
  let guess : Int := (num.log2 : Int) - den.log2 - 52
  let (up, down) := powers 2 guess
  let exponent :=
    max minExponent (if num * down < den * up * leastMantissa then guess - 1 else guess)
  let (up, down) := powers 2 exponent
  let mantissa := roundDiv (num * down) (den * up)
  let (mantissa, exponent) :=
    if mantissa = 2 * leastMantissa then (leastMantissa, exponent + 1) else (mantissa, exponent)
  if exponent > maxExponent then infinite negative else finite negative mantissa exponent

/-- The number nearest to `digits * 10 ^ exponent`. Decimals that are far too great or too small
are told by their length. -/
def ofDecimal (negative : Bool) (digits : Nat) (exponent : Int) : Binary64 :=
  let length : Int := (Nat.toDigits 10 digits).length
  if digits = 0 ∨ length + exponent < -400 then finite negative 0 minExponent
  else if length + exponent > 400 then infinite negative
  else
    let (up, down) := powers 10 exponent
    ofQuotient negative (digits * up) down

end Binary64

end MarkupAudit.Decimal
