import MarkupAudit.HeadingSkip
import MarkupAudit.Match

/-!
How a rule finds its matches in a text. A guarded pattern accepts a candidate when the group took no
part in it, or the guard does not match right after the group. `Matcher.matchAt` says where the
match from a place ends; `Matcher.stops` works that out for all places at once, and `stops_eq`
says that it does. All matches of a text are then chosen from left to right, none overlapping.
-/

namespace MarkupAudit

inductive Matcher where
  | plain (pattern : Pattern)
  | guarded (pattern guard : Pattern)
  | headingSkip

namespace Matcher

def accepts (guard : Cursor → Bool) (candidate : Attempt) : Bool :=
  match candidate.groupEnd with
  | none => true
  | some place => !guard place

def matchAt : Matcher → Cursor → Option Cursor
  | plain pattern, cur => (pattern.matchAt cur).map (·.here)
  | guarded pattern guard, cur =>
    ((pattern.matchAt cur).filter (accepts guard.matchesAt)).map (·.here)
  | headingSkip, cur => HeadingSkip.matchAt cur

def stops : Matcher → List Char → List (Option Cursor)
  | plain pattern, text => (pattern.matchTable text).map (·.map (·.here))
  | guarded pattern guard, text =>
    let candidates := pattern.matchTable text
    let groupEnds := candidates.map (·.bind (·.groupEnd))
    let refused := Table.relay (Cursor.places text) groupEnds (guard.matchTable text)
    candidates.zipWith
      (fun found refused => if refused.join.isSome then none else found.map (·.here)) refused
  | headingSkip, text => HeadingSkip.stops text

/-- The matches from all places of a text where there is one, whether they overlap or not. -/
def candidates (m : Matcher) (text : List Char) : List Match :=
  ((Cursor.places text).zip (m.stops text)).filterMap fun (cur, stop) => stop.map (⟨cur, ·⟩)

/-- The leftmost match at or after byte `start`. -/
def findAt (m : Matcher) (text : List Char) (start : Nat) : Option Span :=
  (Match.first? start (m.candidates text)).map (·.span)

def findAtEach (m : Matcher) (text : List Char) (starts : List Nat) : List (Option Span) :=
  let found := m.candidates text
  starts.map fun start => (Match.first? start found).map (·.span)

/-- The byte offsets of all matches in a text, each searched for where the one before it ended. -/
def findAll (m : Matcher) (text : List Char) : List Span :=
  (Match.select 0 (m.candidates text)).map (·.span)

theorem findAtEach_eq (m : Matcher) (text : List Char) (starts : List Nat) :
    m.findAtEach text starts = starts.map (m.findAt text) := rfl

theorem le_of_matchAt {m : Matcher} {a b : Cursor} (h : m.matchAt a = some b) : a ≤ b := by
  cases m with
  | plain pattern =>
    simp only [matchAt, Option.map_eq_some_iff] at h
    obtain ⟨e, he, rfl⟩ := h
    exact Pattern.le_of_matchAt he
  | guarded pattern guard =>
    simp only [matchAt, Option.map_eq_some_iff, Option.filter_eq_some_iff] at h
    obtain ⟨e, ⟨he, _⟩, rfl⟩ := h
    exact Pattern.le_of_matchAt he
  | headingSkip => exact HeadingSkip.le_of_matchAt h

theorem stops_eq (m : Matcher) (text : List Char) :
    m.stops text = (Cursor.places text).map m.matchAt := by
  cases m with
  | plain pattern =>
    simp only [stops, Pattern.matchTable_eq, List.map_map]
    rfl
  | guarded pattern guard =>
    have h {a b : Cursor} (h : (pattern.matchAt a).bind (·.groupEnd) = some b) : a ≤ b := by
      simp only [Option.bind_eq_some_iff] at h
      obtain ⟨found, hf, hg⟩ := h
      exact Pattern.le_groupEnd_of_matchAt hf hg
    simp only [stops, Pattern.matchTable_eq, List.map_map, Function.comp_def, Cursor.places]
    rw [Table.relay_map h, List.zipWith_map, List.zipWith_self]
    refine List.map_congr_left fun cur _ => ?_
    rw [matchAt]
    cases hf : pattern.matchAt cur with
    | none => simp
    | some found =>
      cases hg : found.groupEnd with
      | none =>
        have : accepts guard.matchesAt found = true := by simp [accepts, hg]
        simp [hg, Option.filter, this]
      | some place =>
        have : accepts guard.matchesAt found = !(guard.matchAt place).isSome := by
          simp [accepts, hg, Pattern.matchesAt]
        cases hp : guard.matchAt place <;> simp_all [Option.filter]
  | headingSkip => exact HeadingSkip.stops_eq text

theorem candidates_eq (m : Matcher) (text : List Char) :
    m.candidates text = Match.among m.matchAt text := by
  rw [candidates, stops_eq, Match.among]
  generalize Cursor.places text = places
  induction places with
  | nil => rfl
  | cons cur places ih => simp only [List.map_cons, List.zip_cons_cons, List.filterMap_cons, ih]

theorem mem_candidates {m : Matcher} {text : List Char} {found : Match} :
    found ∈ m.candidates text ↔
      found.start.In text ∧ m.matchAt found.start = some found.stop := by
  rw [candidates_eq]
  exact Match.mem_among

theorem pairwise_candidates (m : Matcher) (text : List Char) :
    (m.candidates text).Pairwise (·.start.offset < ·.start.offset) := by
  rw [candidates_eq]
  exact Match.pairwise_among m.matchAt text

end Matcher

end MarkupAudit
