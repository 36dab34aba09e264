import MarkupAudit.Catalogue
import MarkupAudit.Proofs.Pattern.Bracket
import MarkupAudit.Proofs.Searcher

/-!
A guard is a look ahead. A guarded search finds the leftmost acceptable place: one where the regex
has a match whose group took no part or is not followed by what the guard matches. For the tags of
the catalogue, whose group is a literal, this is the leftmost match of one pattern that looks ahead
right after the literal and then goes on, with all the backtracking that this allows.
-/

namespace MarkupAudit

open Pattern Catalogue

/-- The regex has a match here, and the guard is false right after the group of the preferred one, if
the group took part. -/
def Acceptable (regex : Regex) (guard : Cursor → Bool) (text : List Char) (cur : Cursor) : Prop :=
  ∃ found, regex.matchAt text cur = some found ∧
    ∀ place, found.groupEnd = some place → guard place = false

theorem Matcher.accepts_iff {guard : Cursor → Bool} {found : Attempt} :
    Matcher.accepts guard found = true ↔
      ∀ place, found.groupEnd = some place → guard place = false := by
  rw [Matcher.accepts]
  cases found.groupEnd with
  | none => simp
  | some place => simp

section Guarded

variable {regex : Regex} {guard : Cursor → Bool} {text : List Char} {start : Nat} {cur : Cursor}

theorem isSome_matchAt_guarded : ((Searcher.guarded regex guard).matchAt text cur).isSome = true ↔
    Acceptable regex guard text cur := by
  simp only [Searcher.matchAt, Option.isSome_map, Option.isSome_iff_exists,
    Option.filter_eq_some_iff, Matcher.accepts_iff, Acceptable]

theorem matchAt_guarded_of_acceptable (h : Acceptable regex guard text cur) :
    (Searcher.guarded regex guard).matchAt text cur = (regex.matchAt text cur).map (·.here) := by
  obtain ⟨found, hf, hg⟩ := h
  rw [Searcher.matchAt, hf, Option.filter_some, if_pos (Matcher.accepts_iff.mpr hg)]

theorem leftmost_guarded :
    cur.Leftmost text start
        (fun cur => ((Searcher.guarded regex guard).matchAt text cur).isSome = true) ↔
      cur.Leftmost text start (Acceptable regex guard text) := by
  have : (fun cur => ((Searcher.guarded regex guard).matchAt text cur).isSome = true) =
      Acceptable regex guard text := funext fun _ => propext isSome_matchAt_guarded
  rw [this]

theorem findAt_guarded_eq_some_iff {span : Span} :
    (Searcher.guarded regex guard).findAt text start = some span ↔
      ∃ cur found, cur.Leftmost text start (Acceptable regex guard text) ∧
        regex.matchAt text cur = some found ∧ span = ⟨cur.offset, found.here.offset⟩ := by
  rw [Searcher.findAt_eq_some_iff]
  constructor
  · intro h
    obtain ⟨cur, stop, hl, hs, rfl⟩ := h
    have hl := leftmost_guarded.mp hl
    rw [matchAt_guarded_of_acceptable hl.holds, Option.map_eq_some_iff] at hs
    obtain ⟨found, hf, rfl⟩ := hs
    exact ⟨cur, found, hl, hf, rfl⟩
  · intro h
    obtain ⟨cur, found, hl, hf, rfl⟩ := h
    refine ⟨cur, found.here, leftmost_guarded.mpr hl, ?_, rfl⟩
    rw [matchAt_guarded_of_acceptable hl.holds, hf]
    rfl

end Guarded

namespace Catalogue

/-- A tag whose opening is not followed by what `guard` matches. -/
def tagUnless (opening : String) (guard : Pattern) : Pattern :=
  concat [group (literal opening), notAhead guard, star (noneOf ['>']), exactly '>']

variable (opening : String) (guard : Pattern)

theorem matchAt_tag (cur : Cursor) : (tag opening).matchAt cur =
    (cur.spell? opening.toList).bind fun place =>
      (tagEnd.reach place).head?.map fun stop => ⟨stop, some place⟩ := by
  have hgroup : (group (literal opening)).ends (Attempt.start cur) =
      (cur.spell? opening.toList).toList.map fun place => ⟨place, some place⟩ := by
    rw [ends, ends_of_groupFree (groupFree_literal opening), reach_literal, List.map_map]
    rfl
  have hrest (place : Cursor) : tagEnd.ends ⟨place, some place⟩ =
      (tagEnd.reach place).map fun stop => ⟨stop, some place⟩ := by
    have h := ends_within tagEnd (Attempt.start place) (some place)
    rw [ends_of_groupFree rfl, List.map_map] at h
    exact h
  have htag : (tag opening).ends (Attempt.start cur) =
      ((group (literal opening)).ends (Attempt.start cur)).flatMap tagEnd.ends := rfl
  rw [matchAt, htag, hgroup]
  cases cur.spell? opening.toList with
  | none => rfl
  | some place => simp [hrest]

theorem matchAt_guarded_tag (cur : Cursor) : (Matcher.guarded (tag opening) guard).matchAt cur =
    (cur.spell? opening.toList).bind fun place =>
      if guard.matchesAt place then none else (tagEnd.reach place).head? := by
  rw [Matcher.matchAt, matchAt_tag]
  cases cur.spell? opening.toList with
  | none => rfl
  | some place =>
    rw [Option.bind_some, Option.bind_some]
    cases (tagEnd.reach place).head? with
    | none => simp
    | some stop =>
      rw [Option.map_some, Option.filter_some, Matcher.accepts]
      by_cases hg : guard.matchesAt place = true
      · simp [hg]
      · simp [hg]

theorem matchAt_tagUnless (cur : Cursor) : (Matcher.plain (tagUnless opening guard)).matchAt cur =
    (cur.spell? opening.toList).bind fun place =>
      if guard.matchesAt place then none else (tagEnd.reach place).head? := by
  have htail : concat [notAhead guard, star (noneOf ['>']), exactly '>'] =
      seq (notAhead guard) tagEnd := rfl
  rw [Matcher.matchAt, map_here_matchAt, tagUnless, reach_concat_cons, reach_group, reach_literal,
    htail]
  cases cur.spell? opening.toList with
  | none => rfl
  | some place =>
    rw [Option.toList_some, List.flatMap_singleton, reach_seq, reach_notAhead, Option.bind_some]
    cases guard.matchesAt place with
    | true => rfl
    | false => exact congrArg List.head? (List.flatMap_singleton ..)

theorem findAt_guarded_tag (text : List Char) (start : Nat) :
    (Matcher.guarded (tag opening) guard).findAt text start =
      (Matcher.plain (tagUnless opening guard)).findAt text start :=
  Matcher.findAt_congr
    (fun cur => (matchAt_guarded_tag opening guard cur).trans
      (matchAt_tagUnless opening guard cur).symm) text start

end Catalogue

/-- Whatever the regex and the guard, the loop that tries candidate after candidate finds the
preferred match at the leftmost acceptable place, and nothing when no place is acceptable. The guarded
matchers search in this way, and a guard that may match anywhere ahead is one with any text before it.
For each guarded rule of the catalogue the guard is a true look ahead inside of the pattern. -/
theorem findAt_guarded_leftmost_acceptable :
    (∀ (regex : Regex) (guard : Cursor → Bool) (text : List Char) (start : Nat),
      (∀ span, (Searcher.guarded regex guard).findAt text start = some span ↔
        ∃ cur found, cur.Leftmost text start (Acceptable regex guard text) ∧
          regex.matchAt text cur = some found ∧ span = ⟨cur.offset, found.here.offset⟩) ∧
      ((Searcher.guarded regex guard).findAt text start = none ↔
        ¬∃ cur, cur.In text ∧ start ≤ cur.offset ∧ Acceptable regex guard text cur)) ∧
    (∀ (pattern guard : Pattern) (text : List Char) (start : Nat),
      (Matcher.guarded pattern guard).findAt text start =
        (Searcher.guarded pattern.regex guard.matchesAt).findAt text start) ∧
    (∀ (guard : Pattern) (place : Cursor), (somewhere guard).matchesAt place = true ↔
      ∃ later, place ≤ later ∧ guard.matchesAt later = true) ∧
    (∀ (text : List Char) (start : Nat),
      missingAlt.matcher.findAt text start =
        (Matcher.plain (tagUnless "<img" (mentions ["alt="]))).findAt text start ∧
      inputNoLabel.matcher.findAt text start =
        (Matcher.plain (tagUnless "<input" labelled)).findAt text start ∧
      missingLang.matcher.findAt text start =
        (Matcher.plain (tagUnless "<html" (mentions ["lang="]))).findAt text start ∧
      headingComponentLevel.matcher.findAt text start =
        (Matcher.plain (tagUnless "<Heading" (mentions ["as=", "level="]))).findAt text start) := by
  refine ⟨?_, ?_, fun _ _ => matchesAt_somewhere, ?_⟩
  · intro regex guard text start
    refine ⟨fun _ => findAt_guarded_eq_some_iff, ?_⟩
    rw [Searcher.findAt_eq_none_iff]
    simp only [isSome_matchAt_guarded]
  · intro pattern guard text start
    exact (Matcher.findAt_searcher (.guarded pattern guard) text start).symm
  · intro text start
    exact ⟨findAt_guarded_tag _ _ text start, findAt_guarded_tag _ _ text start,
      findAt_guarded_tag _ _ text start, findAt_guarded_tag _ _ text start⟩

end MarkupAudit
