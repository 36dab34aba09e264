import MarkupAudit.Text.Cursor
import MarkupAudit.Text.Span

/-!
Matches, and the choice among those that overlap. Of matches in the order of their starts
`Match.select` keeps the first, then the first that starts where the search goes on after it, and so
forth; `select_eq` says that each is found by a search of its own.
-/

namespace MarkupAudit

structure Match where
  start : Cursor
  stop : Cursor
deriving DecidableEq, Repr

namespace Match

def span (m : Match) : Span := ⟨m.start.offset, m.stop.offset⟩

/-- The byte at which the search goes on: the end of the match, or one further when it is empty. -/
def resume (m : Match) : Nat := max m.stop.offset (m.start.offset + 1)

/-- The matches from all places of a text, where `matchAt` says where the match from a place ends. -/
def among (matchAt : Cursor → Option Cursor) (text : List Char) : List Match :=
  (Cursor.places text).filterMap fun cur => (matchAt cur).map (⟨cur, ·⟩)

def select : Nat → List Match → List Match
  | _, [] => []
  | lower, m :: ms =>
    if lower ≤ m.start.offset then m :: select m.resume ms else select lower ms

def first? (lower : Nat) (ms : List Match) : Option Match :=
  ms.find? fun m => lower ≤ m.start.offset

theorem mem_among {matchAt : Cursor → Option Cursor} {text : List Char} {found : Match} :
    found ∈ among matchAt text ↔
      found.start.In text ∧ matchAt found.start = some found.stop := by
  simp only [among, List.mem_filterMap, Option.map_eq_some_iff, Cursor.mem_places]
  constructor
  · intro h
    obtain ⟨cur, hc, stop, hs, rfl⟩ := h
    exact ⟨hc, hs⟩
  · exact fun ⟨hc, hs⟩ => ⟨found.start, hc, found.stop, hs, rfl⟩

theorem pairwise_among (matchAt : Cursor → Option Cursor) (text : List Char) :
    (among matchAt text).Pairwise (·.start.offset < ·.start.offset) := by
  rw [among, List.pairwise_filterMap]
  refine (Cursor.pairwise_onward _).imp fun hlt b hb c hc => ?_
  simp only [Option.map_eq_some_iff] at hb hc
  obtain ⟨_, _, rfl⟩ := hb
  obtain ⟨_, _, rfl⟩ := hc
  exact hlt

theorem start_lt_resume (m : Match) : m.start.offset < m.resume := by
  simp only [resume]
  omega

theorem stop_le_resume (m : Match) : m.stop.offset ≤ m.resume := by
  simp only [resume]
  omega

theorem select_sublist (lower : Nat) (ms : List Match) : (select lower ms).Sublist ms := by
  induction ms generalizing lower with
  | nil => exact .slnil
  | cons m ms ih =>
    rw [select]
    split
    · exact (ih _).cons_cons m
    · exact (ih _).cons m

/-- Selecting is to search, and to go on after the match that was found. -/
theorem select_eq (lower : Nat) {ms : List Match}
    (h : ms.Pairwise (·.start.offset < ·.start.offset)) :
    select lower ms = match first? lower ms with
      | none => []
      | some m => m :: select m.resume ms := by
  induction ms generalizing lower with
  | nil => rfl
  | cons m ms ih =>
    rw [List.pairwise_cons] at h
    have skip {n : Nat} (hn : m.start.offset < n) : select n (m :: ms) = select n ms := by
      rw [select, if_neg (by omega)]
    by_cases hl : lower ≤ m.start.offset
    · have hf : first? lower (m :: ms) = some m := by simp [first?, hl]
      rw [select, if_pos hl, hf]
      exact congrArg (m :: ·) (skip m.start_lt_resume).symm
    · have hf : first? lower (m :: ms) = first? lower ms := by simp [first?, hl]
      rw [skip (by omega), hf, ih lower h.2]
      cases hn : first? lower ms with
      | none => rfl
      | some n =>
        have := h.1 n (List.mem_of_find?_eq_some hn)
        have := n.start_lt_resume
        exact congrArg (n :: ·) (skip (by omega)).symm

end Match

end MarkupAudit
