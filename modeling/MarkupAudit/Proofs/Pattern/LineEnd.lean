import MarkupAudit.Proofs.Pattern.Alike
import MarkupAudit.Proofs.Pattern.First
import MarkupAudit.Proofs.Text.Return

/-!
Patterns to which the ends of lines are all one. A pattern that takes a newline only in a run of
characters that may hold the return as well does not see whether there is one
(`Pattern.takesReturns`). All patterns of the catalogue are of this kind, and the rule for skipped
heading levels passes over line ends by itself.
-/

namespace MarkupAudit

open Text (Returned withReturns returned_withReturns returned_newline)

namespace Pattern

variable {a b : Cursor} {next next' : Cursor → Option Attempt} {accepts : Char → Bool}

theorem through_char_cons (next : Cursor → Option Attempt) (n : Nat) (c : Char)
    (rest : List Char) : (char accepts).through next ⟨n, c :: rest⟩ =
      if accepts c then next ⟨n + c.utf8Size, rest⟩ else none := through_char next accepts _

theorem through_star_char_end (next : Cursor → Option Attempt) (n : Nat) :
    (star (char accepts)).through next ⟨n, []⟩ = next ⟨n, []⟩ := by
  rw [through_star_char]
  rfl

theorem through_star_char_cons (next : Cursor → Option Attempt) (n : Nat) (c : Char)
    (rest : List Char) : (star (char accepts)).through next ⟨n, c :: rest⟩ =
      (if accepts c then (star (char accepts)).through next ⟨n + c.utf8Size, rest⟩ else none).or
        (next ⟨n, c :: rest⟩) := through_star_char next accepts _

section Refused

variable {p : Pattern} {c : Char} (h : p.refuses (some c) = true) (n : Nat) (rest : List Char)
include h

theorem ends_eq_nil_of_refuses : p.ends (Attempt.start ⟨n, c :: rest⟩) = [] := ends_of_refuses h

theorem through_eq_none_of_refuses (next : Cursor → Option Attempt) :
    p.through next ⟨n, c :: rest⟩ = none := by
  rw [through, ends_eq_nil_of_refuses h]
  rfl

theorem matchAt_eq_none_of_refuses : p.matchAt ⟨n, c :: rest⟩ = none := by
  rw [matchAt, ends_eq_nil_of_refuses h]
  rfl

theorem matchesAt_eq_false_of_refuses : p.matchesAt ⟨n, c :: rest⟩ = false := by
  rw [matchesAt, matchAt_eq_none_of_refuses h]
  rfl

end Refused

/-- A class without line ends stands before no newline and before no return. -/
theorem respects_char_of_not_lineEnd (hreturn : accepts '\r' = false)
    (hnewline : accepts '\n' = false) : (char accepts).Respects Returned := by
  apply respects_char
  · intro s s' h
    cases s with
    | nil => rw [h.nil_left]
    | cons c rest =>
      by_cases hc : c = '\n'
      · subst hc
        rcases h.newline_left with rfl | rfl <;> simp [hreturn, hnewline]
      · rw [h.cons_left hc]
        rfl
  · intro s s' h hany
    cases s with
    | nil => cases hany
    | cons c rest =>
      have hc : c ≠ '\n' := by
        rintro rfl
        rw [List.head?_cons, Option.any_some, hnewline] at hany
        cases hany
      rw [h.cons_left hc]
      exact returned_withReturns rest

/-- A run that takes both characters of a line end, or neither. -/
theorem respects_star_char (h : accepts '\r' = accepts '\n') :
    (star (char accepts)).Respects Returned := by
  apply respects_of_here
  intro a b next next' hT hnext
  obtain ⟨n, rest⟩ := a
  obtain ⟨m, rest'⟩ := b
  induction rest generalizing n m rest' with
  | nil =>
    obtain rfl := hT.nil_left
    rw [through_star_char_end, through_star_char_end]
    exact hnext.here hT
  | cons c rest ih =>
    have hlater : ∀ m', (⟨m, rest'⟩ : Cursor) ≤ ⟨m', withReturns rest⟩ →
        Option.Rel (Attempt.Alike Returned)
          ((star (char accepts)).through next ⟨n + c.utf8Size, rest⟩)
          ((star (char accepts)).through next' ⟨m', withReturns rest⟩) := by
      intro m' hle
      exact ih _ _ _ (returned_withReturns rest) (hnext.onward Cursor.le_next hle)
    by_cases hc : c = '\n'
    · subst hc
      -- Behind the return alone the run goes on as behind the newline before it.
      rcases hT.newline_left with rfl | rfl
      · rw [through_star_char_cons, through_star_char_cons, through_star_char_cons, h]
        have hmiddle := hnext _ _ (Cursor.le_refl _) Cursor.le_next (returned_newline rest)
        split
        · have hafter := hlater _ (Cursor.le_trans Cursor.le_next Cursor.le_next)
          rw [Option.or_assoc]
          exact rel_or hafter (rel_or_same hmiddle (hnext.here hT))
        · exact hnext.here hT
      · rw [through_star_char_cons, through_star_char_cons]
        split
        · exact rel_or (hlater _ Cursor.le_next) (hnext.here hT)
        · exact hnext.here hT
    · obtain rfl := hT.cons_left hc
      rw [through_star_char_cons, through_star_char_cons]
      split
      · exact rel_or (hlater _ Cursor.le_next) (hnext.here hT)
      · exact hnext.here hT

section Plus

variable {accepts' : Char → Bool} {q : Pattern}
  (hfirst : accepts '\r' = true ∧ accepts '\n' = true)
  (hmore : accepts' '\r' = true ∧ accepts' '\n' = true)
include hfirst hmore

/-- One character at least of a run with line ends, where no newline comes behind the run. -/
theorem respects_seq_plus (hq : q.Respects Returned) (hnewline : q.refuses (some '\n') = true) :
    (seq (seq (char accepts) (star (char accepts'))) q).Respects Returned := by
  apply respects_of_here
  intro a b next next' hT hnext
  have hrun := respects_star_char (hmore.1.trans hmore.2.symm) _ _ _ _ (hq _ _ _ _ hnext)
  rw [through_seq, through_seq, through_seq, through_seq]
  generalize hk : q.through next = follow at hrun
  generalize hk' : q.through next' = follow' at hrun
  obtain ⟨n, rest⟩ := a
  obtain ⟨m, rest'⟩ := b
  cases rest with
  | nil =>
    obtain rfl := hT.nil_left
    rw [through_char, through_char]
    exact .none
  | cons c rest =>
    have hlater : ∀ m', (⟨m, rest'⟩ : Cursor) ≤ ⟨m', withReturns rest⟩ →
        Option.Rel (Attempt.Alike Returned)
          ((star (char accepts')).through follow ⟨n + c.utf8Size, rest⟩)
          ((star (char accepts')).through follow' ⟨m', withReturns rest⟩) := by
      intro m' hle
      exact hrun _ _ Cursor.le_next hle (returned_withReturns rest)
    rw [through_char_cons]
    by_cases hc : c = '\n'
    · subst hc
      rw [if_pos hfirst.2]
      rcases hT.newline_left with rfl | rfl
      · -- The return alone is a run too, but nothing comes behind it, as a newline does.
        have hnone : ∀ m', follow' ⟨m', '\n' :: withReturns rest⟩ = none := by
          intro m'
          rw [← hk', through_eq_none_of_refuses hnewline]
        rw [through_char_cons, if_pos hfirst.1, through_star_char_cons, if_pos hmore.2, hnone,
          Option.or_none]
        exact hlater _ (Cursor.le_trans Cursor.le_next Cursor.le_next)
      · rw [through_char_cons, if_pos hfirst.2]
        exact hlater _ Cursor.le_next
    · obtain rfl := hT.cons_left hc
      rw [through_char_cons]
      split
      · exact hlater _ Cursor.le_next
      · exact .none

end Plus

/-- A run of one character at least, all of whose classes hold both characters of a line end. -/
def isLineEndRun : Pattern → Bool
  | seq (char accepts) (star (char accepts')) =>
    accepts '\r' && accepts '\n' && accepts' '\r' && accepts' '\n'
  | _ => false

def isEvenRun : Pattern → Bool
  | char accepts => accepts '\r' == accepts '\n'
  | _ => false

/-- Whether a pattern shows by its form that it does not see a return before a newline. -/
def takesReturns : Pattern → Bool
  | empty => true
  | char accepts => !accepts '\r' && !accepts '\n'
  | seq p q => q.takesReturns &&
    (p.takesReturns || p.isLineEndRun && q.refuses (some '\n'))
  | either p q => p.takesReturns && q.takesReturns
  | star p => p.isEvenRun
  | lazyStar _ => false
  | group p => p.takesReturns
  | notAhead p => p.takesReturns

theorem respects_seq_of_isLineEndRun {p q : Pattern} (hp : p.isLineEndRun = true)
    (hq : q.Respects Returned) (hnewline : q.refuses (some '\n') = true) :
    (seq p q).Respects Returned := by
  rw [isLineEndRun.eq_def] at hp
  split at hp
  · simp only [Bool.and_eq_true] at hp
    obtain ⟨⟨⟨h1, h2⟩, h3⟩, h4⟩ := hp
    exact respects_seq_plus ⟨h1, h2⟩ ⟨h3, h4⟩ hq hnewline
  · cases hp

theorem respects_of_takesReturns {p : Pattern} (h : p.takesReturns = true) :
    p.Respects Returned := by
  induction p with
  | empty => exact respects_empty
  | char accepts =>
    simp only [takesReturns, Bool.and_eq_true, Bool.not_eq_true'] at h
    exact respects_char_of_not_lineEnd h.1 h.2
  | seq p q hp hq =>
    simp only [takesReturns, Bool.and_eq_true, Bool.or_eq_true] at h
    obtain ⟨htail, hhead | ⟨hrun, hnewline⟩⟩ := h
    · exact respects_seq (hp hhead) (hq htail)
    · exact respects_seq_of_isLineEndRun hrun (hq htail) hnewline
  | either p q hp hq =>
    simp only [takesReturns, Bool.and_eq_true] at h
    exact respects_either (hp h.1) (hq h.2)
  | star p _ =>
    rw [takesReturns, isEvenRun.eq_def] at h
    split at h
    · exact respects_star_char (eq_of_beq h)
    · cases h
  | lazyStar p _ => cases h
  | group p hp => exact respects_group (hp h)
  | notAhead p hp => exact respects_notAhead (hp h)

end Pattern

namespace HeadingSkip

open Pattern

theorem takesReturns_parts : opening.takesReturns = true ∧ closing.takesReturns = true ∧
    levelTwo.takesReturns = true ∧ deeper.takesReturns = true := by
  decide

theorem refuses_lineEnd {c : Char} (hc : c = '\n' ∨ c = '\r') :
    closing.refuses (some c) = true ∧ levelTwo.refuses (some c) = true ∧
      deeper.refuses (some c) = true := by
  rcases hc with rfl | rfl <;> decide

section Machine

variable {n m : Nat} {c : Char} {rest rest' : List Char}

theorem lastDeeper_lineEnd (hc : c = '\n' ∨ c = '\r') :
    lastDeeper n (c :: rest) = lastDeeper (n + c.utf8Size) rest := by
  obtain ⟨_, htwo, hdeep⟩ := refuses_lineEnd hc
  rw [lastDeeper, matchesAt_eq_false_of_refuses htwo, matchAt_eq_none_of_refuses hdeep]
  exact Option.or_none

theorem skipEnd_lineEnd (hc : c = '\n' ∨ c = '\r') (inSection : Bool) :
    skipEnd inSection n (c :: rest) = skipEnd inSection (n + c.utf8Size) rest := by
  obtain ⟨hclosing, htwo, hdeep⟩ := refuses_lineEnd hc
  cases inSection with
  | false => rw [skipEnd, matchesAt_eq_false_of_refuses hclosing]
  | true =>
    rw [skipEnd, matchesAt_eq_false_of_refuses htwo, matchesAt_eq_false_of_refuses hdeep]
    rfl

theorem lastDeeper_returned (h : Returned rest rest') (n m : Nat) :
    Option.Rel (fun stop stop' : Cursor => Returned stop.rest stop'.rest)
      (lastDeeper n rest) (lastDeeper m rest') := by
  obtain ⟨_, _, htwo, hdeep⟩ := takesReturns_parts
  induction rest generalizing rest' n m with
  | nil =>
    obtain rfl := h.nil_left
    exact .none
  | cons c rest ih =>
    have ih := ih (returned_withReturns rest)
    by_cases hc : c = '\n'
    · subst hc
      rw [lastDeeper_lineEnd (Or.inl rfl)]
      rcases h.newline_left with rfl | rfl
      · rw [lastDeeper_lineEnd (Or.inr rfl), lastDeeper_lineEnd (Or.inl rfl)]
        exact ih _ _
      · rw [lastDeeper_lineEnd (Or.inl rfl)]
        exact ih _ _
    · obtain rfl := h.cons_left hc
      have hT : Returned (⟨n, c :: rest⟩ : Cursor).rest (⟨m, c :: withReturns rest⟩ : Cursor).rest :=
        h
      rw [lastDeeper, lastDeeper, matchesAt_alike (respects_of_takesReturns htwo) hT]
      split
      · exact .none
      · have hhere := matchAt_alike (respects_of_takesReturns hdeep) hT
        exact rel_or (ih _ _) (rel_map hhere fun _ _ hfound => hfound.here)

theorem skipEnd_returned (h : Returned rest rest') (inSection : Bool) (n m : Nat) :
    Option.Rel (fun stop stop' : Cursor => Returned stop.rest stop'.rest)
      (skipEnd inSection n rest) (skipEnd inSection m rest') := by
  obtain ⟨_, hclosing, htwo, hdeep⟩ := takesReturns_parts
  induction rest generalizing rest' inSection n m with
  | nil =>
    obtain rfl := h.nil_left
    rw [skipEnd, skipEnd]
    exact .none
  | cons c rest ih =>
    have ih := ih (returned_withReturns rest)
    by_cases hc : c = '\n'
    · subst hc
      rw [skipEnd_lineEnd (Or.inl rfl)]
      rcases h.newline_left with rfl | rfl
      · rw [skipEnd_lineEnd (Or.inr rfl), skipEnd_lineEnd (Or.inl rfl)]
        exact ih _ _ _
      · rw [skipEnd_lineEnd (Or.inl rfl)]
        exact ih _ _ _
    · obtain rfl := h.cons_left hc
      have hT : Returned (⟨n, c :: rest⟩ : Cursor).rest (⟨m, c :: withReturns rest⟩ : Cursor).rest :=
        h
      cases inSection with
      | false =>
        rw [skipEnd, skipEnd, matchesAt_alike (respects_of_takesReturns hclosing) hT]
        exact ih _ _ _
      | true =>
        rw [skipEnd, skipEnd, matchesAt_alike (respects_of_takesReturns htwo) hT,
          matchesAt_alike (respects_of_takesReturns hdeep) hT]
        split
        · exact ih _ _ _
        · split
          · exact lastDeeper_returned h _ _
          · exact ih _ _ _

end Machine

theorem respects_returned : Matcher.headingSkip.Respects Returned := by
  intro a b hT
  have hopening := matchAt_alike (respects_of_takesReturns takesReturns_parts.1) hT
  simp only [Matcher.matchAt, HeadingSkip.matchAt]
  generalize opening.matchAt a = opened at hopening
  generalize opening.matchAt b = opened' at hopening
  cases hopening with
  | some hopened => exact skipEnd_returned hopened.here _ _ _
  | none => exact .none

end HeadingSkip

/-- Whether the patterns of a matcher show that they do not see returns. -/
def Matcher.takesReturns : Matcher → Bool
  | plain p => p.takesReturns
  | guarded p guard => p.takesReturns && guard.takesReturns
  | headingSkip => true

theorem Matcher.respects_of_takesReturns {m : Matcher} (h : m.takesReturns = true) :
    m.Respects Returned := by
  cases m with
  | plain p => exact respects_plain (Pattern.respects_of_takesReturns h)
  | guarded p guard =>
    rw [takesReturns, Bool.and_eq_true] at h
    exact respects_guarded (Pattern.respects_of_takesReturns h.1)
      (Pattern.respects_of_takesReturns h.2)
  | headingSkip => exact HeadingSkip.respects_returned

theorem Catalogue.takes_returns : ∀ rule ∈ rules, rule.matcher.takesReturns = true := by decide

theorem Catalogue.respects_returned {rule : Rule} (h : rule ∈ rules) :
    rule.matcher.Respects Returned := Matcher.respects_of_takesReturns (takes_returns rule h)

end MarkupAudit
