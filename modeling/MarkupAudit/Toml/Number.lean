import MarkupAudit.Decimal.Binary64
import MarkupAudit.Toml.Quotation

/-!
Numbers in TOML: whole numbers of 64 bits in four bases, and floating-point numbers. A single
underscore may stand between two digits.
-/

namespace MarkupAudit.Toml

open Decimal (Binary64)

/-- Further digits of a number, each with an underscore before it or not. -/
def moreDigits (accepts : Char → Bool) : Nat → List Char → List Char × Cursor
  | offset, '_' :: c :: rest =>
    if accepts c then
      let (digits, after) := moreDigits accepts (offset + 1 + c.utf8Size) rest
      (c :: digits, after)
    else ([], ⟨offset, '_' :: c :: rest⟩)
  | offset, c :: rest =>
    if accepts c then
      let (digits, after) := moreDigits accepts (offset + c.utf8Size) rest
      (c :: digits, after)
    else ([], ⟨offset, c :: rest⟩)
  | offset, [] => ([], ⟨offset, []⟩)

def digits (accepts : Char → Bool) (cur : Cursor) : Option (List Char × Cursor) := do
  let (c, next) ← cur.uncons
  if accepts c then
    let (more, after) := moreDigits accepts next.offset next.rest
    some (c :: more, after)
  else none

def valueIn (base : Nat) (digits : List Char) : Nat :=
  digits.foldl (fun n c => base * n + (hexDigit? c).getD 0) 0

/-- A sign, if there is one: whether it is a minus, and the place after it. -/
def sign (cur : Cursor) : Bool × Cursor :=
  match cur.expect '-', cur.expect '+' with
  | some next, _ => (true, next)
  | none, some next => (false, next)
  | none, none => (false, cur)

def wholeDigits (cur : Cursor) : Option (List Char × Cursor) :=
  match cur.expect '0' with
  | some next => some (['0'], next)
  | none => digits Char.isDigit cur

def fraction (cur : Cursor) : Option (List Char × Cursor) :=
  (cur.expect '.').bind (digits Char.isDigit)

/-- A power of ten after the letter `e`. -/
def power (cur : Cursor) : Option (Int × Cursor) := do
  let next ← (cur.expect 'e').or (cur.expect 'E')
  let (negative, next) := sign next
  let (ds, next) ← digits Char.isDigit next
  let n : Int := valueIn 10 ds
  some (if negative then -n else n, next)

/-- A decimal that is too great counts as infinite only below zero. -/
def finiteOrNegative (x : Binary64) : Option Binary64 :=
  if x = .infinite false then none else some x

/-- A floating-point number: whole digits with a fraction or a power of ten or both. -/
def float (cur : Cursor) : Option (Binary64 × Cursor) :=
  let (negative, start) := sign cur
  match start.expectAll "inf".toList, start.expectAll "nan".toList with
  | some next, _ => some (.infinite negative, next)
  | none, some next => some (.nan, next)
  | none, none => do
    let (whole, next) ← wholeDigits start
    let (places, next, found) :=
      match fraction next with
      | some (places, after) => (places, after, true)
      | none => ([], next, false)
    let (exponent, next, found) :=
      match power next with
      | some (exponent, after) => (exponent, after, true)
      | none => (0, next, found)
    if found then
      let x := Binary64.ofDecimal negative (valueIn 10 (whole ++ places)) (exponent - places.length)
      some (← finiteOrNegative x, next)
    else none

def fits (n : Int) : Bool := -0x8000000000000000 ≤ n && n < 0x8000000000000000

def isBinary (c : Char) : Bool := c == '0' || c == '1'

def isOctal (c : Char) : Bool := '0' ≤ c && c ≤ '7'

def isHex (c : Char) : Bool := (hexDigit? c).isSome

/-- Digits in another base than ten, after a zero and the letter of the base. -/
def based (cur : Cursor) : Option (Nat × Cursor) := do
  let (letter, next) ← (← cur.expect '0').uncons
  let (base, accepts) ← match letter with
    | 'x' => some (16, isHex)
    | 'o' => some (8, isOctal)
    | 'b' => some (2, isBinary)
    | _ => none
  let (ds, next) ← digits accepts next
  some (valueIn base ds, next)

def integer (cur : Cursor) : Option (Int × Cursor) := do
  let (n, next) ← match based cur with
    | some (n, next) => some ((n : Int), next)
    | none => do
      let (negative, start) := sign cur
      let (ds, next) ← wholeDigits start
      let n : Int := valueIn 10 ds
      some (if negative then -n else n, next)
  if fits n then some (n, next) else none

end MarkupAudit.Toml
