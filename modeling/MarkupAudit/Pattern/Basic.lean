import MarkupAudit.Text.Cursor

/-!
Patterns over a text, with one numbered group and a look ahead that must fail. A pattern tried at
a place may end in several places; `Pattern.ends` lists them all, most preferred first.

A repetition over nothing ends its loop, and stands in the order where it is found. What else is tried
once a repetition may be over nothing is a matter in which engines differ. The patterns of the rules
take a character in each repetition (`Catalogue.repeats_characters`), so the matter does not come up
there, and what is said of any regex is said of `Regex`, which leaves the answers to the engine.
-/

namespace MarkupAudit

inductive Pattern where
  | empty
  | char (accepts : Char → Bool)
  | seq (first second : Pattern)
  | either (preferred other : Pattern)
  /-- As many repetitions as possible are preferred. -/
  | star (body : Pattern)
  /-- As few repetitions as possible are preferred. -/
  | lazyStar (body : Pattern)
  | group (body : Pattern)
  /-- Passes over nothing, and only where `body` does not match. -/
  | notAhead (body : Pattern)

/-- How far an attempt has come: its place, and the place where the group last ended. -/
structure Attempt where
  here : Cursor
  groupEnd : Option Cursor
deriving DecidableEq, Repr

namespace Attempt

def start (cur : Cursor) : Attempt := ⟨cur, none⟩

def step (accepts : Char → Bool) (a : Attempt) : Option Attempt :=
  match a.here.rest with
  | [] => none
  | c :: rest =>
    if accepts c then some { a with here := ⟨a.here.offset + c.utf8Size, rest⟩ } else none

def closeGroup (a : Attempt) : Attempt := { a with groupEnd := some a.here }

/-- The attempt as the rest of a longer one, in whose first part the group ended at `groupEnd`. -/
def within (groupEnd : Option Cursor) (a : Attempt) : Attempt :=
  { a with groupEnd := a.groupEnd.or groupEnd }

end Attempt

namespace Pattern

/-- What comes of one repetition: further ones where it passed over something. A repetition that
passed over nothing ends its loop. -/
def again (a : Attempt) (further : Attempt → List Attempt) (b : Attempt) : List Attempt :=
  if a.here.offset < b.here.offset then further b else [b]

/-- All ends of up to `bound` repetitions, the longest preferred. Only what passes over something is
repeated, so a bound above the length of the text is no bound. -/
def iterate (body : Attempt → List Attempt) : Nat → Attempt → List Attempt
  | 0, a => [a]
  | bound + 1, a => (body a).flatMap (again a (iterate body bound)) ++ [a]

/-- All ends of up to `bound` repetitions, the shortest preferred. -/
def iterateLazy (body : Attempt → List Attempt) : Nat → Attempt → List Attempt
  | 0, a => [a]
  | bound + 1, a => a :: (body a).flatMap (again a (iterateLazy body bound))

def ends : Pattern → Attempt → List Attempt
  | empty, a => [a]
  | char accepts, a => (a.step accepts).toList
  | seq p q, a => (p.ends a).flatMap q.ends
  | either p q, a => p.ends a ++ q.ends a
  | star p, a => iterate p.ends (a.here.rest.length + 1) a
  | lazyStar p, a => iterateLazy p.ends (a.here.rest.length + 1) a
  | group p, a => (p.ends a).map Attempt.closeGroup
  | notAhead p, a => if (p.ends a).isEmpty then [a] else []

/-- The preferred match at a place. -/
def matchAt (p : Pattern) (cur : Cursor) : Option Attempt := (p.ends (Attempt.start cur)).head?

def matchesAt (p : Pattern) (cur : Cursor) : Bool := (p.matchAt cur).isSome

end Pattern

end MarkupAudit
