import MarkupAudit.Catalogue
import MarkupAudit.Proofs.Search

/-!
Which character a match can begin with. `Pattern.refuses` reads off the form of a pattern that it
has no match where a certain character comes next. Every rule of the catalogue refuses the end of
the text, the newline and the carriage return, so each of its matches begins inside of a line. What
the patterns of the rules repeat passes over a character each time (`Catalogue.repeats_characters`), so
for them a repetition is one more of the same and nothing else (`ends_star_of_refuses`).
-/

namespace MarkupAudit

/-- Whether a pattern shows by its form that it has no match before `next`, or before the end of the
text. What may pass over nothing refuses nothing. -/
def Pattern.refuses (next : Option Char) : Pattern → Bool
  | empty => false
  | char accepts => !next.any accepts
  | seq p _ => p.refuses next
  | either p q => p.refuses next && q.refuses next
  | star _ => false
  | lazyStar _ => false
  | group p => p.refuses next
  | notAhead _ => false

theorem Pattern.ends_of_refuses {p : Pattern} {a : Attempt}
    (h : p.refuses a.here.rest.head? = true) : p.ends a = [] := by
  induction p with
  | empty => cases h
  | char accepts =>
    rw [refuses, Bool.not_eq_true'] at h
    rw [ends, Attempt.step]
    cases hr : a.here.rest with
    | nil => rfl
    | cons c rest =>
      rw [hr, List.head?_cons, Option.any_some] at h
      simp [h]
  | seq p q hp _ => rw [ends, hp h, List.flatMap_nil]
  | either p q hp hq =>
    rw [refuses, Bool.and_eq_true] at h
    rw [ends, hp h.1, hq h.2, List.append_nil]
  | star p _ => cases h
  | lazyStar p _ => cases h
  | group p hp => rw [ends, hp h, List.map_nil]
  | notAhead p _ => cases h

/-- A pattern that refuses something passes over a character at least. -/
theorem Pattern.offset_lt_of_refuses {p : Pattern} {next : Option Char}
    (h : p.refuses next = true) {a e : Attempt} (he : e ∈ p.ends a) :
    a.here.offset < e.here.offset := by
  induction p generalizing a e with
  | empty => cases h
  | char accepts =>
    rw [ends, Option.mem_toList, Attempt.step] at he
    cases hr : a.here.rest with
    | nil => simp [hr] at he
    | cons c rest =>
      have hpos := c.utf8Size_pos
      simp only [hr, Option.ite_none_right_eq_some, Option.some.injEq] at he
      obtain ⟨_, rfl⟩ := he
      simp only
      omega
  | seq p q hp _ =>
    obtain ⟨middle, hm, he⟩ := List.mem_flatMap.mp he
    exact Nat.lt_of_lt_of_le (hp h hm) (Cursor.offset_le (le_of_mem_ends q he))
  | either p q hp hq =>
    rw [refuses, Bool.and_eq_true] at h
    rcases List.mem_append.mp he with he | he
    · exact hp h.1 he
    · exact hq h.2 he
  | star p _ => cases h
  | lazyStar p _ => cases h
  | group p hp =>
    obtain ⟨inner, hi, rfl⟩ := List.mem_map.mp he
    have hinner := hp h hi
    exact hinner
  | notAhead p _ => cases h

section Repeat

variable {p : Pattern} {next : Option Char} (h : p.refuses next = true)
include h

theorem Pattern.flatMap_again_of_refuses (further : Attempt → List Attempt) (a : Attempt) :
    (p.ends a).flatMap (again a further) = (p.ends a).flatMap further :=
  List.flatMap_congr fun _ he => if_pos (offset_lt_of_refuses h he)

/-- What takes a character each time is never repeated over nothing. -/
theorem Pattern.ends_star_of_refuses (a : Attempt) :
    (star p).ends a = (p.ends a).flatMap (star p).ends ++ [a] := by
  rw [ends_star, flatMap_again_of_refuses h]

theorem Pattern.ends_lazyStar_of_refuses (a : Attempt) :
    (lazyStar p).ends a = a :: (p.ends a).flatMap (lazyStar p).ends := by
  rw [ends_lazyStar, flatMap_again_of_refuses h]

end Repeat

/-- Whether all that a pattern repeats shows by its form that it passes over a character. -/
def Pattern.repeatsCharacters : Pattern → Bool
  | empty => true
  | char _ => true
  | seq p q => p.repeatsCharacters && q.repeatsCharacters
  | either p q => p.repeatsCharacters && q.repeatsCharacters
  | star p => p.refuses none && p.repeatsCharacters
  | lazyStar p => p.refuses none && p.repeatsCharacters
  | group p => p.repeatsCharacters
  | notAhead p => p.repeatsCharacters

namespace Matcher

def refuses (next : Option Char) : Matcher → Bool
  | plain p => p.refuses next
  | guarded p _ => p.refuses next
  | headingSkip => HeadingSkip.opening.refuses next

theorem matchAt_of_refuses {m : Matcher} {cur : Cursor} (h : m.refuses cur.rest.head? = true) :
    m.matchAt cur = none := by
  have hnone : ∀ p : Pattern, p.refuses cur.rest.head? = true → p.matchAt cur = none := by
    intro p hp
    rw [Pattern.matchAt, Pattern.ends_of_refuses hp]
    rfl
  cases m with
  | plain p => rw [matchAt, hnone p h, Option.map_none]
  | guarded p guard => rw [matchAt, hnone p h, Option.filter_none, Option.map_none]
  | headingSkip => rw [matchAt, HeadingSkip.matchAt, hnone _ h, Option.bind_none]

theorem offset_lt_of_refuses {m : Matcher} {next : Option Char} (h : m.refuses next = true)
    {cur stop : Cursor} (hm : m.matchAt cur = some stop) : cur.offset < stop.offset := by
  have hlt : ∀ (p : Pattern) (e : Attempt), p.refuses next = true → p.matchAt cur = some e →
      cur.offset < e.here.offset := by
    intro p e hp he
    exact Pattern.offset_lt_of_refuses hp (List.mem_of_head? he)
  cases m with
  | plain p =>
    obtain ⟨e, he, rfl⟩ := Option.map_eq_some_iff.mp hm
    exact hlt p e h he
  | guarded p guard =>
    obtain ⟨e, he, rfl⟩ := Option.map_eq_some_iff.mp hm
    exact hlt p e h (Option.filter_eq_some_iff.mp he).1
  | headingSkip =>
    obtain ⟨opened, ho, he⟩ := Option.bind_eq_some_iff.mp hm
    exact Nat.lt_of_lt_of_le (hlt _ opened h ho) (Cursor.offset_le (HeadingSkip.le_of_skipEnd he))

end Matcher

/-- All patterns that a matcher goes by. -/
def Matcher.patterns : Matcher → List Pattern
  | plain p => [p]
  | guarded p guard => [p, guard]
  | headingSkip =>
    [HeadingSkip.opening, HeadingSkip.closing, HeadingSkip.levelTwo, HeadingSkip.deeper]

theorem Catalogue.repeats_characters : ∀ rule ∈ rules, ∀ p ∈ rule.matcher.patterns,
    p.repeatsCharacters = true := by
  decide

theorem Catalogue.refuses_line_end : ∀ rule ∈ rules, ∀ next ∈ [none, some '\n', some '\r'],
    rule.matcher.refuses next = true := by
  decide

section Rules

variable {rule : Rule} (h : rule ∈ Catalogue.rules) {cur stop : Cursor}
  (hm : rule.matcher.matchAt cur = some stop)
include h hm

theorem Catalogue.offset_lt : cur.offset < stop.offset :=
  Matcher.offset_lt_of_refuses (refuses_line_end rule h none (by simp)) hm

/-- Where a rule matches, a character comes next that ends no line. -/
theorem Catalogue.exists_first : ∃ c behind, cur.rest = c :: behind ∧ c ≠ '\n' ∧ c ≠ '\r' := by
  have hnot : ∀ next ∈ [none, some '\n', some '\r'], cur.rest.head? ≠ next := by
    intro next hn heq
    have hrefuses := refuses_line_end rule h next hn
    rw [← heq] at hrefuses
    rw [Matcher.matchAt_of_refuses hrefuses] at hm
    cases hm
  cases hr : cur.rest with
  | nil => exact absurd (congrArg List.head? hr) (hnot none (by simp))
  | cons c behind =>
    refine ⟨c, behind, rfl, ?_, ?_⟩
    · rintro rfl
      exact hnot (some '\n') (by simp) (congrArg List.head? hr)
    · rintro rfl
      exact hnot (some '\r') (by simp) (congrArg List.head? hr)

end Rules

end MarkupAudit
