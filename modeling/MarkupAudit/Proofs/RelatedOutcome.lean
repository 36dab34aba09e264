/-!
Outcomes side by side. Two readings that may fail go alike when both fail or both succeed with
related results (`Option.Rel`). Here stand the steps that keep such outcomes related.
-/

namespace MarkupAudit

variable {α β γ δ : Type} {r : α → β → Prop} {s : γ → δ → Prop} {x : Option α} {y : Option β}

theorem rel_cases (h : Option.Rel r x y) :
    x = none ∧ y = none ∨ ∃ u v, x = some u ∧ y = some v ∧ r u v := by
  cases h with
  | none => exact Or.inl ⟨rfl, rfl⟩
  | some h => exact Or.inr ⟨_, _, rfl, rfl, h⟩

theorem isSome_eq_of_rel (h : Option.Rel r x y) : x.isSome = y.isSome := by
  cases h <;> rfl

/-- Each success of the first has a related one beside it, and the second never succeeds alone. -/
theorem rel_of_forall (h : ∀ u, x = some u → ∃ v, y = some v ∧ r u v)
    (h' : ∀ v, y = some v → ∃ u, x = some u) : Option.Rel r x y := by
  cases x with
  | some u =>
    obtain ⟨v, rfl, huv⟩ := h u rfl
    exact .some huv
  | none =>
    cases y with
    | none => exact .none
    | some v =>
      obtain ⟨u, hu⟩ := h' v rfl
      cases hu

theorem rel_of_map_eq {f : α → γ} {x y : Option α} (h : x.map f = y.map f) :
    Option.Rel (fun u v => f u = f v) x y := by
  cases x <;> cases y
  · exact .none
  · cases h
  · cases h
  · exact .some (Option.some.inj h)

/-- Results may be related more closely by what is known of them. -/
theorem rel_mono_of_eq {r' : α → β → Prop} (h : Option.Rel r x y)
    (hr : ∀ u v, x = some u → y = some v → r u v → r' u v) : Option.Rel r' x y := by
  cases h with
  | none => exact .none
  | some h => exact .some (hr _ _ rfl rfl h)

theorem rel_mono {r' : α → β → Prop} (h : Option.Rel r x y) (hr : ∀ u v, r u v → r' u v) :
    Option.Rel r' x y :=
  rel_mono_of_eq h fun u v _ _ => hr u v

theorem rel_bind {f : α → Option γ} {g : β → Option δ} (h : Option.Rel r x y)
    (hfg : ∀ u v, r u v → Option.Rel s (f u) (g v)) : Option.Rel s (x.bind f) (y.bind g) := by
  cases h with
  | none => exact .none
  | some h => exact hfg _ _ h

theorem rel_map {f : α → γ} {g : β → δ} (h : Option.Rel r x y)
    (hfg : ∀ u v, r u v → s (f u) (g v)) : Option.Rel s (x.map f) (y.map g) := by
  cases h with
  | none => exact .none
  | some h => exact .some (hfg _ _ h)

theorem rel_filter {keep : α → Bool} {keep' : β → Bool} (h : Option.Rel r x y)
    (hkeep : ∀ u v, r u v → keep u = keep' v) :
    Option.Rel r (x.filter keep) (y.filter keep') := by
  cases h with
  | none => exact .none
  | some h =>
    rw [Option.filter_some, Option.filter_some, hkeep _ _ h]
    split
    · exact .some h
    · exact .none

theorem rel_or {x' : Option α} {y' : Option β} (h : Option.Rel r x y) (h' : Option.Rel r x' y') :
    Option.Rel r (x.or x') (y.or y') := by
  cases h with
  | none => exact h'
  | some h => exact .some h

/-- A second outcome changes nothing where both are related to one. -/
theorem rel_or_same {y' : Option β} (h : Option.Rel r x y) (h' : Option.Rel r x y') :
    Option.Rel r x (y.or y') := by
  cases h with
  | none => exact h'
  | some h => exact .some h

end MarkupAudit
