import MarkupAudit.Pattern.Basic

/-!
Laws of the ends of a pattern. `Pattern.forward_of_mem_ends` says that a pattern only ever moves
forward, `Pattern.ends_within` that what happened before does not change where it ends, and
`Pattern.ends_star` that one repetition with more of them behind it is again a repetition, unless it
passed over nothing.
-/

namespace MarkupAudit

/-- From the first attempt to the second the text is only passed over forward, and a group that ends
on the way ends between the two. -/
structure Attempt.Forward (a b : Attempt) : Prop where
  here_le : a.here ≤ b.here
  groupEnd : ∀ cur, b.groupEnd = some cur → a.groupEnd = some cur ∨ a.here ≤ cur ∧ cur ≤ b.here

@[simp] theorem Attempt.within_here (a : Attempt) (groupEnd : Option Cursor) :
    (a.within groupEnd).here = a.here := rfl

namespace Attempt.Forward

variable {a b c : Attempt}

theorem refl (a : Attempt) : Forward a a := ⟨Cursor.le_refl _, fun _ h => .inl h⟩

theorem trans (hab : Forward a b) (hbc : Forward b c) : Forward a c := by
  refine ⟨Cursor.le_trans hab.here_le hbc.here_le, fun cur h => ?_⟩
  rcases hbc.groupEnd cur h with h | ⟨h1, h2⟩
  · rcases hab.groupEnd cur h with h | ⟨h1, h2⟩
    · exact .inl h
    · exact .inr ⟨h1, Cursor.le_trans h2 hbc.here_le⟩
  · exact .inr ⟨Cursor.le_trans hab.here_le h1, h2⟩

theorem of_step {accepts : Char → Bool} (h : a.step accepts = some b) : Forward a b := by
  obtain ⟨⟨n, rest⟩, g⟩ := a
  cases rest with
  | nil => simp [step] at h
  | cons c rest =>
    simp only [step, Option.ite_none_right_eq_some, Option.some.injEq] at h
    obtain ⟨_, rfl⟩ := h
    exact ⟨Cursor.le_next, fun _ h => .inl h⟩

theorem closeGroup (h : Forward a b) : Forward a b.closeGroup := by
  refine ⟨h.here_le, fun cur hc => .inr ?_⟩
  cases hc
  exact ⟨h.here_le, Cursor.le_refl _⟩

end Attempt.Forward

namespace Pattern

theorem mem_again {further : Attempt → List Attempt} {a b c : Attempt}
    (h : b ∈ again a further c) : b ∈ further c ∨ b = c := by
  rw [again] at h
  split at h
  · exact .inl h
  · exact .inr (List.mem_singleton.mp h)

section Kept

variable {body : Attempt → List Attempt} {R : Attempt → Attempt → Prop} {a b : Attempt}
  (refl : ∀ a, R a a) (trans : ∀ {a b c}, R a b → R b c → R a c)
  (h : ∀ {a b}, b ∈ body a → R a b)
include refl trans h

/-- What one repetition keeps, any number of them keeps. -/
theorem rel_of_mem_iterate {bound : Nat} (hb : b ∈ iterate body bound a) : R a b := by
  induction bound generalizing a with
  | zero => exact List.mem_singleton.mp hb ▸ refl a
  | succ bound ih =>
    simp only [iterate, List.mem_append, List.mem_flatMap, List.mem_singleton] at hb
    rcases hb with ⟨c, hc, hb⟩ | rfl
    · rcases mem_again hb with hb | rfl
      · exact trans (h hc) (ih hb)
      · exact h hc
    · exact refl _

theorem rel_of_mem_iterateLazy {bound : Nat} (hb : b ∈ iterateLazy body bound a) : R a b := by
  induction bound generalizing a with
  | zero => exact List.mem_singleton.mp hb ▸ refl a
  | succ bound ih =>
    simp only [iterateLazy, List.mem_cons, List.mem_flatMap] at hb
    rcases hb with rfl | ⟨c, hc, hb⟩
    · exact refl _
    · rcases mem_again hb with hb | rfl
      · exact trans (h hc) (ih hb)
      · exact h hc

end Kept

section Iterate

variable {body : Attempt → List Attempt} {a b : Attempt}
  (h : ∀ {a b}, b ∈ body a → Attempt.Forward a b)
include h

/-- Where one repetition made progress, less is left. -/
theorem flatMap_again_congr {f g : Attempt → List Attempt}
    (hfg : ∀ b, b.here.rest.length < a.here.rest.length → f b = g b) :
    (body a).flatMap (again a f) = (body a).flatMap (again a g) := by
  rw [List.flatMap_def, List.flatMap_def]
  refine congrArg List.flatten (List.map_congr_left fun b hb => ?_)
  rw [again, again]
  split
  · rename_i hlt
    exact hfg b (Cursor.length_lt (h hb).here_le hlt)
  · rfl

/-- Any bound above the length of the rest gives the same ends. -/
theorem iterate_bound {m n : Nat} (hm : a.here.rest.length < m) (hn : a.here.rest.length < n) :
    iterate body m a = iterate body n a := by
  induction m generalizing n a with
  | zero => omega
  | succ m ih => cases n with
    | zero => omega
    | succ n =>
      rw [iterate, iterate, flatMap_again_congr h]
      intro b hlt
      exact ih (by omega) (by omega)

theorem iterateLazy_bound {m n : Nat} (hm : a.here.rest.length < m)
    (hn : a.here.rest.length < n) : iterateLazy body m a = iterateLazy body n a := by
  induction m generalizing n a with
  | zero => omega
  | succ m ih => cases n with
    | zero => omega
    | succ n =>
      rw [iterateLazy, iterateLazy, flatMap_again_congr h]
      intro b hlt
      exact ih (by omega) (by omega)

end Iterate

theorem forward_of_mem_ends (p : Pattern) {a b : Attempt} (hb : b ∈ p.ends a) :
    Attempt.Forward a b := by
  induction p generalizing a b with
  | empty =>
    simp only [ends, List.mem_singleton] at hb
    exact hb ▸ .refl _
  | char accepts =>
    simp only [ends, Option.mem_toList] at hb
    exact .of_step hb
  | seq p q ihp ihq =>
    simp only [ends, List.mem_flatMap] at hb
    obtain ⟨c, hc, hb⟩ := hb
    exact (ihp hc).trans (ihq hb)
  | either p q ihp ihq =>
    simp only [ends, List.mem_append] at hb
    exact hb.elim ihp ihq
  | star p ih => exact rel_of_mem_iterate Attempt.Forward.refl .trans ih hb
  | lazyStar p ih => exact rel_of_mem_iterateLazy Attempt.Forward.refl .trans ih hb
  | group p ih =>
    simp only [ends, List.mem_map] at hb
    obtain ⟨c, hc, rfl⟩ := hb
    exact (ih hc).closeGroup
  | notAhead p _ =>
    simp only [ends] at hb
    split at hb
    · simp only [List.mem_singleton] at hb
      exact hb ▸ .refl _
    · simp at hb

theorem le_of_mem_ends (p : Pattern) {a b : Attempt} (hb : b ∈ p.ends a) : a.here ≤ b.here :=
  (forward_of_mem_ends p hb).here_le

theorem forward_of_matchAt {p : Pattern} {cur : Cursor} {a : Attempt} (h : p.matchAt cur = some a) :
    (Attempt.start cur).Forward a :=
  forward_of_mem_ends p (List.mem_of_mem_head? h)

theorem le_of_matchAt {p : Pattern} {cur : Cursor} {a : Attempt} (h : p.matchAt cur = some a) :
    cur ≤ a.here := (forward_of_matchAt h).here_le

theorem le_groupEnd_of_matchAt {p : Pattern} {cur place : Cursor} {a : Attempt}
    (h : p.matchAt cur = some a) (hg : a.groupEnd = some place) : cur ≤ place := by
  rcases (forward_of_matchAt h).groupEnd place hg with h | h
  · cases h
  · exact h.1

theorem ends_star (p : Pattern) (a : Attempt) :
    (star p).ends a = (p.ends a).flatMap (again a (star p).ends) ++ [a] := by
  have h {a b} := forward_of_mem_ends p (a := a) (b := b)
  rw [ends, iterate, flatMap_again_congr h]
  intro b hlt
  exact iterate_bound h hlt (Nat.lt_succ_self _)

-- The first repetition takes the empty branch, and there is no second one.
example : ((star (either empty (char (· == 'a')))).matchAt ⟨0, ['a', 'a', 'a']⟩).map (·.here) =
    some ⟨0, ['a', 'a', 'a']⟩ := by decide

-- A group that is repeated over nothing took part.
example : (seq (star (group (star (char (· == 'a'))))) (char (· == 'b'))).matchAt ⟨0, ['b']⟩ =
    some ⟨⟨1, []⟩, some ⟨0, ['b']⟩⟩ := by decide

theorem ends_lazyStar (p : Pattern) (a : Attempt) :
    (lazyStar p).ends a = a :: (p.ends a).flatMap (again a (lazyStar p).ends) := by
  have h {a b} := forward_of_mem_ends p (a := a) (b := b)
  rw [ends, iterateLazy, flatMap_again_congr h]
  intro b hlt
  exact iterateLazy_bound h hlt (Nat.lt_succ_self _)

section Within

variable {body : Attempt → List Attempt} {g : Option Cursor}
  (h : ∀ a : Attempt, body (a.within g) = (body a).map (·.within g))
include h

theorem flatMap_again_within (a : Attempt) {further : Attempt → List Attempt}
    (hfurther : ∀ b : Attempt, further (b.within g) = (further b).map (·.within g)) :
    (body (a.within g)).flatMap (again (a.within g) further) =
      ((body a).flatMap (again a further)).map (·.within g) := by
  have hagain (b : Attempt) : again (a.within g) further (b.within g) =
      (again a further b).map (·.within g) := by
    simp only [again, Attempt.within_here, hfurther]
    split <;> rfl
  rw [h, List.flatMap_map, List.map_flatMap]
  exact congrArg (List.flatMap · (body a)) (funext hagain)

theorem iterate_within (bound : Nat) (a : Attempt) :
    iterate body bound (a.within g) = (iterate body bound a).map (·.within g) := by
  induction bound generalizing a with
  | zero => rfl
  | succ bound ih => rw [iterate, iterate, flatMap_again_within h a ih, List.map_append]; rfl

theorem iterateLazy_within (bound : Nat) (a : Attempt) :
    iterateLazy body bound (a.within g) = (iterateLazy body bound a).map (·.within g) := by
  induction bound generalizing a with
  | zero => rfl
  | succ bound ih => rw [iterateLazy, iterateLazy, flatMap_again_within h a ih, List.map_cons]

end Within

theorem ends_within (p : Pattern) (a : Attempt) (g : Option Cursor) :
    p.ends (a.within g) = (p.ends a).map (·.within g) := by
  induction p generalizing a with
  | empty => rfl
  | char accepts =>
    obtain ⟨⟨n, rest⟩, g'⟩ := a
    cases rest with
    | nil => rfl
    | cons c rest =>
      by_cases hc : accepts c <;> simp [ends, Attempt.step, Attempt.within, hc]
  | seq p q ihp ihq => simp [ends, ihp, ihq, List.flatMap_map, List.map_flatMap]
  | either p q ihp ihq => simp [ends, ihp, ihq]
  | star p ih => exact iterate_within ih _ a
  | lazyStar p ih => exact iterateLazy_within ih _ a
  | group p ih =>
    simp only [ends, ih, List.map_map]
    rfl
  | notAhead p ih =>
    simp only [ends, ih, List.isEmpty_map]
    split <;> rfl

end Pattern

end MarkupAudit
