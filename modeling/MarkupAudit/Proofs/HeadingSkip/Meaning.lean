import MarkupAudit.Proofs.HeadingSkip.Loop
import MarkupAudit.Proofs.Pattern.Bracket

/-!
What the rule for skipped levels means. A match opens at a level-one heading, its closing tag is the
first behind which a deeper heading comes before any level-two heading, and it ends with the last
such heading. The rule finds just the leftmost of these, and so does one pattern that looks ahead
before every character of the section.
-/

namespace MarkupAudit.HeadingSkip

open Pattern Cursor
open Matcher (plain matchAt_plain isSome_matchAt_plain)

/-- A deeper heading begins here, with no level-two heading between the closing tag and it. -/
structure DeepAt (closed place : Cursor) : Prop where
  behind : closed ≤ place
  deep : deeper.matchesAt place = true
  clear : ∀ mid, closed ≤ mid → mid ≤ place → mid.offset < place.offset →
    levelTwo.matchesAt mid = false

/-- A closing tag behind the opening, with a deeper heading in its section. -/
structure ClosesAt (opened close closed : Cursor) : Prop where
  behind : opened ≤ close
  tag : (plain closing).matchAt close = some closed
  deep : ∃ place, DeepAt closed place

/-- A level-one heading opens here that has such a closing tag. -/
def SkipsAt (cur : Cursor) : Prop :=
  ∃ opened close closed, (plain opening).matchAt cur = some opened ∧ ClosesAt opened close closed

/-- The place behind the opening at which the match closes, and where it ends. -/
structure EndsAt (opened stop close closed deepest : Cursor) : Prop where
  closes : ClosesAt opened close closed
  first : ∀ other behind, ClosesAt opened other behind → close.offset ≤ other.offset
  deep : DeepAt closed deepest
  last : ∀ place, DeepAt closed place → place.offset ≤ deepest.offset
  ends : (plain deeper).matchAt deepest = some stop

/-- The rule as one pattern. -/
def pattern : Pattern :=
  concat [opening, lazyStar anyChar, closing, star (seq (notAhead levelTwo) anyChar), deeper]

theorem deepAt_iff {closed place : Cursor} : DeepAt closed place ↔
    place ∈ closed.stretch clear ∧ ((plain deeper).matchAt place).isSome = true := by
  rw [mem_stretch, isSome_matchAt_plain]
  constructor
  · intro h
    refine ⟨⟨h.behind, ?_⟩, h.deep⟩
    intro m hm hmp hlt
    unfold clear
    rw [h.clear m hm hmp hlt]
    rfl
  · intro h
    obtain ⟨⟨hle, hclear⟩, hdeep⟩ := h
    refine ⟨hle, hdeep, ?_⟩
    intro m hm hmp hlt
    have hm := hclear m hm hmp hlt
    unfold clear at hm
    simpa using hm

theorem isSome_deepest (closed : Cursor) :
    (deepest closed).isSome = true ↔ ∃ place, DeepAt closed place := by
  rw [deepest_eq, List.findSome?_isSome_iff]
  simp only [List.mem_reverse, deepAt_iff]

theorem deepest_eq_some_iff {closed stop : Cursor} : deepest closed = some stop ↔
    ∃ last, DeepAt closed last ∧ (∀ place, DeepAt closed place → place.offset ≤ last.offset) ∧
      (plain deeper).matchAt last = some stop := by
  rw [deepest_eq, findSome?_reverse_eq_some_iff_last (pairwise_stretch clear closed)]
  constructor
  · intro h
    obtain ⟨last, hl, hstop, hlast⟩ := h
    refine ⟨last, deepAt_iff.mpr ⟨hl, by simp [hstop]⟩, ?_, hstop⟩
    intro place hp
    obtain ⟨hmem, hsome⟩ := deepAt_iff.mp hp
    exact hlast place hmem hsome
  · intro h
    obtain ⟨last, hdeep, hlast, hstop⟩ := h
    refine ⟨last, (deepAt_iff.mp hdeep).1, hstop, ?_⟩
    intro place hmem hsome
    exact hlast place (deepAt_iff.mpr ⟨hmem, hsome⟩)

theorem isSome_bind_deepest (close : Cursor) :
    (((plain closing).matchAt close).bind deepest).isSome = true ↔
      ∃ closed, (plain closing).matchAt close = some closed ∧ ∃ place, DeepAt closed place := by
  cases (plain closing).matchAt close with
  | none => simp
  | some closed => simp [isSome_deepest]

theorem firstSection_eq_some_iff {opened stop : Cursor} : firstSection opened = some stop ↔
    ∃ close closed deepest, EndsAt opened stop close closed deepest := by
  rw [firstSection, findSome?_onward_eq_some_iff]
  constructor
  · intro h
    obtain ⟨close, hc, hstop, hfirst⟩ := h
    obtain ⟨closed, htag, hdeepest⟩ := Option.bind_eq_some_iff.mp hstop
    obtain ⟨last, hdeep, hlast, hends⟩ := deepest_eq_some_iff.mp hdeepest
    refine ⟨close, closed, last, ⟨hc, htag, last, hdeep⟩, ?_, hdeep, hlast, hends⟩
    intro other behind ho
    exact hfirst other ho.behind ((isSome_bind_deepest other).mpr ⟨behind, ho.tag, ho.deep⟩)
  · intro hfound
    obtain ⟨close, closed, last, h⟩ := hfound
    have hdeepest := deepest_eq_some_iff.mpr ⟨last, h.deep, h.last, h.ends⟩
    refine ⟨close, h.closes.behind, by rw [h.closes.tag]; exact hdeepest, ?_⟩
    intro other ho hother
    obtain ⟨behind, htag, hdeep⟩ := (isSome_bind_deepest other).mp hother
    exact h.first other behind ⟨ho, htag, hdeep⟩

theorem matchAt_headingSkip (cur : Cursor) : Matcher.headingSkip.matchAt cur =
    ((plain opening).matchAt cur).bind firstSection := by
  unfold Matcher.matchAt HeadingSkip.matchAt
  simp only
  cases opening.matchAt cur with
  | none => rfl
  | some found => exact (skipEnd_eq found.here).1

theorem matchAt_eq_some_iff {cur stop : Cursor} :
    Matcher.headingSkip.matchAt cur = some stop ↔ ∃ opened close closed deepest,
      (plain opening).matchAt cur = some opened ∧ EndsAt opened stop close closed deepest := by
  rw [matchAt_headingSkip, Option.bind_eq_some_iff]
  constructor
  · intro hfound
    obtain ⟨opened, ho, hf⟩ := hfound
    obtain ⟨close, closed, deepest, h⟩ := firstSection_eq_some_iff.mp hf
    exact ⟨opened, close, closed, deepest, ho, h⟩
  · intro hfound
    obtain ⟨opened, close, closed, deepest, ho, h⟩ := hfound
    exact ⟨opened, ho, firstSection_eq_some_iff.mpr ⟨close, closed, deepest, h⟩⟩

theorem isSome_firstSection (opened : Cursor) :
    (firstSection opened).isSome = true ↔ ∃ close closed, ClosesAt opened close closed := by
  rw [firstSection, List.findSome?_isSome_iff]
  simp only [isSome_bind_deepest, mem_onward]
  constructor
  · intro h
    obtain ⟨close, hc, closed, htag, hdeep⟩ := h
    exact ⟨close, closed, hc, htag, hdeep⟩
  · intro hfound
    obtain ⟨close, closed, h⟩ := hfound
    exact ⟨close, h.behind, closed, h.tag, h.deep⟩

theorem isSome_matchAt (cur : Cursor) :
    (Matcher.headingSkip.matchAt cur).isSome = true ↔ SkipsAt cur := by
  unfold SkipsAt
  rw [matchAt_headingSkip]
  cases (plain opening).matchAt cur with
  | none => simp
  | some opened => simp [isSome_firstSection]

theorem reach_opening (cur : Cursor) : opening.reach cur =
    ((plain opening).matchAt cur).toList := by
  have hopening : opening.reach cur = ((literal "<h1").reach cur).flatMap tagEnd.reach := by
    rw [opening, reach_concat_cons]
    rfl
  rw [matchAt_plain, hopening, reach_literal]
  cases cur.spell? "<h1".toList with
  | none => rfl
  | some behind =>
    rw [Option.toList_some, List.flatMap_singleton, toList_head?_reach_tagEnd]

theorem reach_closing (cur : Cursor) : closing.reach cur =
    ((plain closing).matchAt cur).toList := by
  rw [matchAt_plain, closing, reach_literal]
  cases cur.spell? "</h1>".toList <;> rfl

theorem reach_pattern (cur : Cursor) : pattern.reach cur =
    (opening.reach cur).flatMap fun opened => opened.onward.flatMap fun close =>
      (closing.reach close).flatMap fun closed =>
        (closed.stretch clear).reverse.flatMap deeper.reach := by
  have hskip : ∀ opened, (lazyStar anyChar).reach opened = opened.onward := by
    intro opened
    rw [reach_lazyStar_of_step steps_anyChar, stretch_true]
  have hback : ∀ closed, (star (seq (notAhead levelTwo) anyChar)).reach closed =
      (closed.stretch clear).reverse := reach_star_of_step (steps_unless levelTwo)
  have hpattern : pattern = seq opening (seq (lazyStar anyChar) (seq closing
      (seq (star (seq (notAhead levelTwo) anyChar)) deeper))) := rfl
  have hparts : ∀ (p q : Pattern), (seq p q).reach = fun cur => (p.reach cur).flatMap q.reach :=
    fun p q => funext (reach_seq p q)
  rw [hpattern, hparts, hparts, hparts, hparts, funext hskip, funext hback]

theorem matchAt_pattern (cur : Cursor) :
    (plain pattern).matchAt cur = Matcher.headingSkip.matchAt cur := by
  have hclosed : ∀ closed, ((closed.stretch clear).reverse.flatMap deeper.reach).head? =
      deepest closed := by
    intro closed
    rw [List.head?_flatMap, deepest_eq]
    apply findSome?_congr
    intro place _
    exact (matchAt_plain deeper place).symm
  have hopened : ∀ opened : Cursor, (opened.onward.flatMap fun close =>
      (closing.reach close).flatMap fun closed =>
        (closed.stretch clear).reverse.flatMap deeper.reach).head? = firstSection opened := by
    intro opened
    rw [List.head?_flatMap, firstSection]
    apply findSome?_congr
    intro close _
    rw [reach_closing]
    cases (plain closing).matchAt close with
    | none => rfl
    | some closed => rw [Option.toList_some, List.flatMap_singleton, hclosed, Option.bind_some]
  rw [matchAt_plain, reach_pattern, reach_opening, matchAt_headingSkip]
  cases (plain opening).matchAt cur with
  | none => rfl
  | some opened => rw [Option.toList_some, List.flatMap_singleton, hopened, Option.bind_some]

/-- The rule finds the leftmost skipped level, from its opening to the last deeper heading behind
the first closing tag that has one, and nothing when there is none. It goes by its loops there, and
comes to the same as the pattern that looks ahead. -/
theorem findAt_skipped_level (text : List Char) (start : Nat) :
    Matcher.headingSkip.findAt text start = (seek? text start).bind findLoop ∧
    ((Matcher.headingSkip.findAt text start).isSome = true ↔
      ∃ cur, cur.In text ∧ start ≤ cur.offset ∧ SkipsAt cur) ∧
    (∀ span, Matcher.headingSkip.findAt text start = some span ↔
      ∃ cur opened stop close closed deepest, cur.Leftmost text start SkipsAt ∧
        (plain opening).matchAt cur = some opened ∧ EndsAt opened stop close closed deepest ∧
        span = ⟨cur.offset, stop.offset⟩) ∧
    Matcher.headingSkip.findAt text start = (plain pattern).findAt text start := by
  have hskips : (fun cur => (Matcher.headingSkip.matchAt cur).isSome = true) = SkipsAt :=
    funext fun cur => propext (isSome_matchAt cur)
  refine ⟨findAt_eq_findLoop text start, ?_, ?_, ?_⟩
  · rw [← not_iff_not, Option.not_isSome_iff_eq_none, Matcher.findAt_eq_none_iff]
    simp only [isSome_matchAt]
  · intro span
    rw [Matcher.findAt_eq_some_iff, hskips]
    constructor
    · intro h
      obtain ⟨cur, stop, hl, hs, rfl⟩ := h
      obtain ⟨opened, close, closed, deepest, ho, hends⟩ := matchAt_eq_some_iff.mp hs
      exact ⟨cur, opened, stop, close, closed, deepest, hl, ho, hends, rfl⟩
    · intro h
      obtain ⟨cur, opened, stop, close, closed, deepest, hl, ho, hends, rfl⟩ := h
      exact ⟨cur, stop, hl, matchAt_eq_some_iff.mpr ⟨opened, close, closed, deepest, ho, hends⟩, rfl⟩
  · exact Matcher.findAt_congr (fun cur => (matchAt_pattern cur).symm) text start

end MarkupAudit.HeadingSkip
