import MarkupAudit.Text.Cursor

/-!
Tables of values at the places of a text: one value for each place, from left to right. The
operations work on whole tables, and each lemma says of an operation which function on places its
result holds. A value may depend on values further on, since a sweep builds a table from its end.
-/

namespace MarkupAudit.Table

variable {α β : Type}

def lookUp : List Cursor → List α → Cursor → Option α
  | cur :: places, x :: xs, place =>
    if cur.offset = place.offset then some x else lookUp places xs place
  | _, _, _ => none

/-- What the table holds at the following place, where `passes` lets through to it. -/
def ahead (passes : Cursor → Bool) : List Cursor → List (Option α) → List (Option α)
  | cur :: places, _ :: xs => (if passes cur then xs.head?.join else none) :: ahead passes places xs
  | _, _ => []

/-- Builds a table from its end, each value from what another table holds at the place and from the
values at later places. -/
def sweep (step : Cursor → α → (Cursor → Option β) → β) : List Cursor → List α → List β
  | cur :: places, x :: xs =>
    let later := sweep step places xs
    step cur x (lookUp places later) :: later
  | _, _ => []

/-- What a table holds at the places that `targets` names; these never lie before their own. -/
def relay : List Cursor → List (Option Cursor) → List α → List (Option α)
  | cur :: places, target :: targets, x :: xs =>
    target.bind (lookUp (cur :: places) (x :: xs)) :: relay places targets xs
  | _, _, _ => []

theorem lookUp_map (f : Cursor → α) {places : List Cursor} {cur : Cursor} (hm : cur ∈ places)
    (h : places.Pairwise (·.offset < ·.offset)) : lookUp places (places.map f) cur = f cur := by
  induction places with
  | nil => cases hm
  | cons first places ih =>
    rw [List.pairwise_cons] at h
    rcases List.mem_cons.1 hm with rfl | hm
    · simp [lookUp]
    · rw [List.map_cons, lookUp, if_neg (Nat.ne_of_lt (h.1 cur hm)), ih hm h.2]

theorem lookUp_onward (f : Cursor → α) {a b : Cursor} (h : a ≤ b) :
    lookUp a.onward (a.onward.map f) b = f b :=
  lookUp_map f (Cursor.mem_onward.2 h) (Cursor.pairwise_onward a)

theorem lookUp_after (f : Cursor → α) {a b : Cursor} (h : a ≤ b) (hlt : a.offset < b.offset) :
    lookUp a.after (a.after.map f) b = f b :=
  lookUp_map f (Cursor.mem_after.2 ⟨h, hlt⟩) (List.pairwise_cons.1 (Cursor.pairwise_onward a)).2

theorem ahead_map (passes : Cursor → Bool) (f : Cursor → Option α) (cur : Cursor) :
    ahead passes cur.onward (cur.onward.map f) =
      cur.onward.map fun cur => if passes cur then cur.next?.bind f else none := by
  obtain ⟨n, rest⟩ := cur
  induction rest generalizing n with
  | nil => rfl
  | cons x rest ih =>
    rw [Cursor.onward, Cursor.after_cons, List.map_cons, ahead, ih]
    rfl

theorem sweep_map {step : Cursor → α → (Cursor → Option β) → β} (f : Cursor → α) (g : Cursor → β)
    (h : ∀ cur, step cur (f cur) (lookUp cur.after (cur.after.map g)) = g cur) (cur : Cursor) :
    sweep step cur.onward (cur.onward.map f) = cur.onward.map g := by
  obtain ⟨n, rest⟩ := cur
  induction rest generalizing n with
  | nil => exact congrArg ([·]) (h ⟨n, []⟩)
  | cons x rest ih =>
    rw [Cursor.onward, Cursor.after_cons, List.map_cons, sweep, ih, List.map_cons]
    exact congrArg (· :: _) (h ⟨n, x :: rest⟩)

theorem relay_map {f : Cursor → Option Cursor} (h : ∀ {a b}, f a = some b → a ≤ b)
    (g : Cursor → β) (cur : Cursor) :
    relay cur.onward (cur.onward.map f) (cur.onward.map g) =
      cur.onward.map fun cur => (f cur).map g := by
  have found (cur : Cursor) :
      (f cur).bind (lookUp cur.onward (cur.onward.map g)) = (f cur).map g := by
    cases hf : f cur with
    | none => rfl
    | some b => exact lookUp_onward g (h hf)
  obtain ⟨n, rest⟩ := cur
  induction rest generalizing n with
  | nil => exact congrArg ([·]) (found ⟨n, []⟩)
  | cons x rest ih =>
    have := found ⟨n, x :: rest⟩
    rw [Cursor.onward, Cursor.after_cons, List.map_cons] at this
    rw [Cursor.onward, Cursor.after_cons, List.map_cons, List.map_cons, relay, ih, List.map_cons,
      this]

end MarkupAudit.Table
