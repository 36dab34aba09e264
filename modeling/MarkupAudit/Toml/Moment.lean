import MarkupAudit.Toml.Number

/-!
Dates and times in TOML. A moment is a date, a time of day, or both, and both together may have an
offset from universal time. Only whether a moment is well formed matters here.
-/

namespace MarkupAudit.Toml

/-- Exactly `count` decimal digits, for a number in a range. -/
def numeral (count low high : Nat) (cur : Cursor) : Option (Nat × Cursor) :=
  let rec read : Nat → Nat → Cursor → Option (Nat × Cursor)
    | 0, acc, cur => if low ≤ acc ∧ acc ≤ high then some (acc, cur) else none
    | count + 1, acc, cur => do
      let (c, next) ← cur.uncons
      if c.isDigit then read count (10 * acc + (c.toNat - 0x30)) next else none
  read count 0 cur

def isLeapYear (year : Nat) : Bool := year % 4 == 0 && (year % 100 != 0 || year % 400 == 0)

def daysIn (year month : Nat) : Nat :=
  if month = 2 then if isLeapYear year then 29 else 28
  else if month = 4 ∨ month = 6 ∨ month = 9 ∨ month = 11 then 30
  else 31

def date (cur : Cursor) : Option Cursor := do
  let (year, cur) ← numeral 4 0 9999 cur
  let (month, cur) ← numeral 2 1 12 (← cur.expect '-')
  let (_, cur) ← numeral 2 1 (daysIn year month) (← cur.expect '-')
  some cur

/-- A time of day; the last minute may have a second more. -/
def time (cur : Cursor) : Option Cursor := do
  let (_, cur) ← numeral 2 0 23 cur
  let (_, cur) ← numeral 2 0 59 (← cur.expect ':')
  let (_, cur) ← numeral 2 0 60 (← cur.expect ':')
  match cur.expect '.' with
  | none => some cur
  | some next =>
    let (places, next) := next.takeWhile Char.isDigit
    if places.isEmpty then none else some next

def offset (cur : Cursor) : Option Cursor := do
  let (c, next) ← cur.uncons
  if c = 'Z' ∨ c = 'z' then some next
  else if c = '+' ∨ c = '-' then
    let (_, cur) ← numeral 2 0 23 next
    let (_, cur) ← numeral 2 0 59 (← cur.expect ':')
    some cur
  else none

def dateTimeMark (cur : Cursor) : Option Cursor :=
  (cur.expect 'T').or <| (cur.expect 't').or (cur.expect ' ')

def moment (cur : Cursor) : Option Cursor :=
  match date cur with
  | none => time cur
  | some afterDate =>
    match (dateTimeMark afterDate).bind time with
    | none => some afterDate
    | some afterTime => some ((offset afterTime).getD afterTime)

end MarkupAudit.Toml
