import MarkupAudit.Proofs.HeadingSkip.Loop

/-!
Searches with any regex. An engine is asked for the preferred match that begins at a place of a text
and answers where the match and its group end; what the search makes of the answers does not depend
on what the engine repeats, prefers or looks at. So a searcher is given by a regex and its answers, by
a regex and any guard, or by the loops for skipped heading levels. Each finds the match at the
leftmost place that has one (`findAt_eq_some_iff`, `findAt_eq_none_iff`), and the matchers of the
rules are searchers whose regexes are patterns (`Matcher.findAt_searcher`).
-/

namespace MarkupAudit

/-- A regex as its engine answers for it: the preferred match from a place of a text, which ends in
the text and has its group inside. The answer may go by all of the text, what is before the place
included. -/
structure Regex where
  matchAt (text : List Char) (cur : Cursor) : Option Attempt
  forward : ∀ {text cur found}, cur.In text → matchAt text cur = some found →
    (Attempt.start cur).Forward found

def Pattern.regex (p : Pattern) : Regex where
  matchAt _ := p.matchAt
  forward _ := forward_of_matchAt

inductive Searcher where
  | plain (regex : Regex)
  /-- A candidate is accepted when its group took no part, or the guard is false where that ends. -/
  | guarded (regex : Regex) (guard : Cursor → Bool)
  | headingSkip

namespace Searcher

/-- Where the match from a place ends, if there is one that is accepted. -/
def matchAt : Searcher → List Char → Cursor → Option Cursor
  | plain regex, text, cur => (regex.matchAt text cur).map (·.here)
  | guarded regex guard, text, cur =>
    ((regex.matchAt text cur).filter (Matcher.accepts guard)).map (·.here)
  | headingSkip, _, cur => HeadingSkip.matchAt cur

def candidates (s : Searcher) (text : List Char) : List Match := Match.among (s.matchAt text) text

theorem pairwise_candidates (s : Searcher) (text : List Char) :
    (s.candidates text).Pairwise (·.start.offset < ·.start.offset) :=
  Match.pairwise_among (s.matchAt text) text

/-- What the search from byte `start` comes to: the leftmost match of a plain regex, else where the
loop over the candidates stops. -/
def findAt : Searcher → List Char → Nat → Option Span
  | plain regex, text, start =>
    ((Cursor.seek? text start).bind (Search.first? (regex.matchAt text))).map
      fun (cur, found) => ⟨cur.offset, found.here.offset⟩
  | guarded regex guard, text, start =>
    ((Cursor.seek? text start).bind (Search.guarded (regex.matchAt text) guard)).map (·.span)
  | headingSkip, text, start => (Cursor.seek? text start).bind HeadingSkip.findLoop

variable {s : Searcher} {text : List Char} {start : Nat}

theorem le_of_matchAt {cur stop : Cursor} (hin : cur.In text)
    (h : s.matchAt text cur = some stop) : cur ≤ stop := by
  cases s with
  | plain regex =>
    obtain ⟨found, hf, rfl⟩ := Option.map_eq_some_iff.mp h
    exact (regex.forward hin hf).here_le
  | guarded regex guard =>
    obtain ⟨found, hf, rfl⟩ := Option.map_eq_some_iff.mp h
    exact (regex.forward hin (Option.filter_eq_some_iff.mp hf).1).here_le
  | headingSkip => exact HeadingSkip.le_of_matchAt h

/-- Each way of searching stops at the first of all matches from the byte on. -/
theorem findAt_eq_first? (s : Searcher) (text : List Char) (start : Nat) :
    s.findAt text start = (Match.first? start (s.candidates text)).map (·.span) := by
  rw [candidates, Match.first?_among]
  cases s with
  | plain regex =>
    rw [findAt]
    cases Cursor.seek? text start with
    | none => rfl
    | some cur =>
      change _ = (Match.leftmost (fun place => (regex.matchAt text place).map (·.here)) cur).map _
      rw [Search.leftmost_eq, Option.map_map]
      rfl
  | guarded regex guard =>
    rw [findAt, Search.guarded_eq_leftmost]
    rfl
  | headingSkip =>
    rw [findAt, ← HeadingSkip.findAt_eq_findLoop, Matcher.findAt_eq_seek]
    rfl

theorem findAt_eq_some_iff {span : Span} : s.findAt text start = some span ↔
    ∃ cur stop, cur.Leftmost text start (fun cur => (s.matchAt text cur).isSome = true) ∧
      s.matchAt text cur = some stop ∧ span = ⟨cur.offset, stop.offset⟩ := by
  rw [findAt_eq_first?, Option.map_eq_some_iff]
  exact Match.exists_first?_among_iff

theorem findAt_eq_none_iff : s.findAt text start = none ↔
    ¬∃ cur, cur.In text ∧ start ≤ cur.offset ∧ (s.matchAt text cur).isSome = true := by
  rw [findAt_eq_first?, Option.map_eq_none_iff]
  exact Match.first?_among_eq_none_iff

end Searcher

namespace Matcher

def searcher : Matcher → Searcher
  | plain pattern => .plain pattern.regex
  | guarded pattern guard => .guarded pattern.regex guard.matchesAt
  | headingSkip => .headingSkip

theorem matchAt_searcher (m : Matcher) (text : List Char) : m.searcher.matchAt text = m.matchAt := by
  cases m <;> rfl

theorem candidates_searcher (m : Matcher) (text : List Char) :
    m.searcher.candidates text = m.candidates text := by
  rw [Searcher.candidates, matchAt_searcher, candidates_eq]

theorem findAt_searcher (m : Matcher) (text : List Char) (start : Nat) :
    m.searcher.findAt text start = m.findAt text start := by
  rw [Searcher.findAt_eq_first?, candidates_searcher, findAt]

end Matcher

end MarkupAudit
