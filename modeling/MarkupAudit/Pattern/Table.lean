import MarkupAudit.Pattern.Ends
import MarkupAudit.Text.Table

/-!
Matching a pattern at all places of a text at once. `Pattern.through` says what comes of a pattern
and of what follows it, at one place; `Pattern.table` computes it for all places from a table of
what follows, and `table_map` says that it does. The work is the size of the pattern times the
length of the text, however many ways there are through the pattern.
-/

namespace MarkupAudit

/-- Goes on from an attempt by what `next` says about its place. -/
def Attempt.follow (next : Cursor → Option Attempt) (a : Attempt) : Option Attempt :=
  (next a.here).map (·.within a.groupEnd)

/-- One thing at the places behind a place, and another at the place itself. -/
def Cursor.beyond {α : Type} (cur : Cursor) (behind here : Cursor → α) (place : Cursor) : α :=
  if cur.offset < place.offset then behind place else here place

namespace Pattern

/-- The first success of `next` over the ends of the pattern from a place. -/
def through (p : Pattern) (next : Cursor → Option Attempt) (cur : Cursor) : Option Attempt :=
  (p.ends (Attempt.start cur)).findSome? (Attempt.follow next)

/-- What comes of one repetition from a place: what is known of further ones at the later place where
it ends, or what follows when it passed over nothing. -/
def repeated (p : Pattern) (found : Option Attempt) (later : Cursor → Option (Option Attempt))
    (cur : Cursor) : Option Attempt :=
  p.through (cur.beyond (fun place => (later place).join) fun _ => found) cur

def passes (accepts : Char → Bool) (cur : Cursor) : Bool := cur.rest.head?.any accepts

/-- From what follows at each of the places, what comes of the pattern and that. Where nothing
follows anywhere, nothing comes of any pattern. -/
def table (places : List Cursor) : Pattern → List (Option Attempt) → List (Option Attempt)
  | empty, next => next
  | char accepts, next => Table.ahead (passes accepts) places next
  | seq p q, next =>
    let rest := q.table places next
    if rest.all (·.isNone) then rest else p.table places rest
  | either p q, next => (p.table places next).zipWith Option.or (q.table places next)
  | star (char accepts), next =>
    Table.sweep (fun cur found later => Option.or
      (if passes accepts cur then cur.next?.bind fun place => (later place).join else none) found)
      places next
  | star p, next =>
    Table.sweep (fun cur found later => (p.repeated found later cur).or found) places next
  | lazyStar p, next =>
    Table.sweep (fun cur found later => found.or (p.repeated found later cur)) places next
  | group p, next =>
    p.table places (places.zipWith (fun place found => found.map (·.within (some place))) next)
  | notAhead p, next =>
    (p.table places (places.map fun place => some (Attempt.start place))).zipWith
      (fun seen found => if seen.isSome then none else found) next

def matchTable (p : Pattern) (text : List Char) : List (Option Attempt) :=
  let places := Cursor.places text
  p.table places (places.map fun place => some (Attempt.start place))

section FindSome

variable {α β γ : Type}

theorem findSome?_congr {f g : α → Option β} {xs : List α} (h : ∀ x ∈ xs, f x = g x) :
    xs.findSome? f = xs.findSome? g := by
  induction xs with
  | nil => rfl
  | cons x xs ih =>
    rw [List.findSome?_cons, List.findSome?_cons, h x (.head _), ih fun y hy => h y (.tail _ hy)]

theorem findSome?_flatMap (xs : List α) (f : α → List β) (g : β → Option γ) :
    (xs.flatMap f).findSome? g = xs.findSome? fun x => (f x).findSome? g := by
  induction xs with
  | nil => rfl
  | cons x xs ih =>
    simp only [List.flatMap_cons, List.findSome?_append, List.findSome?_cons, ih]
    cases (f x).findSome? g <;> rfl

theorem findSome?_some (xs : List α) : xs.findSome? some = xs.head? := by
  cases xs <;> rfl

end FindSome

variable (next : Cursor → Option Attempt)

theorem follow_start (cur : Cursor) : (Attempt.start cur).follow next = next cur := by
  simp only [Attempt.follow, Attempt.start, Attempt.within, Option.or_none]
  cases next cur <;> rfl

theorem follow_within (a : Attempt) (g : Option Cursor) :
    (a.within g).follow next = (a.follow next).map (·.within g) := by
  simp [Attempt.follow, Attempt.within, Function.comp_def, Option.or_assoc]

/-- What comes of an attempt at a pattern is decided at its place. -/
theorem findSome?_ends_follow (p : Pattern) (a : Attempt) :
    (p.ends a).findSome? (Attempt.follow next) = a.follow (p.through next) := by
  have : a = (Attempt.start a.here).within a.groupEnd := by simp [Attempt.start, Attempt.within]
  rw [this, ends_within, List.findSome?_map, follow_within, follow_start, through,
    List.map_findSome?]
  exact findSome?_congr fun b _ => follow_within next b _

theorem through_seq (p q : Pattern) :
    (seq p q).through next = p.through (q.through next) := by
  funext cur
  simp only [through, ends, findSome?_flatMap, findSome?_ends_follow]

theorem through_either (p q : Pattern) (cur : Cursor) :
    (either p q).through next cur = (p.through next cur).or (q.through next cur) := by
  simp [through, ends, List.findSome?_append]

theorem through_group (p : Pattern) (cur : Cursor) : (group p).through next cur =
    p.through (fun place => (next place).map (·.within (some place))) cur := by
  simp only [through, ends, List.findSome?_map]
  refine findSome?_congr fun b _ => ?_
  simp [Attempt.follow, Attempt.closeGroup, Attempt.within, Function.comp_def]

theorem through_success (p : Pattern) (cur : Cursor) :
    p.through (fun place => some (Attempt.start place)) cur = p.matchAt cur := by
  rw [through, matchAt, ← findSome?_some]
  exact findSome?_congr fun b _ => by simp [Attempt.follow, Attempt.start, Attempt.within]

theorem through_notAhead (p : Pattern) (cur : Cursor) : (notAhead p).through next cur =
    if (p.matchAt cur).isSome then none else next cur := by
  rw [through, ends, matchAt]
  cases p.ends (Attempt.start cur) with
  | nil => simp [follow_start]
  | cons b bs => simp

theorem through_char (accepts : Char → Bool) (cur : Cursor) : (char accepts).through next cur =
    if passes accepts cur then cur.next?.bind next else none := by
  obtain ⟨n, rest⟩ := cur
  cases rest with
  | nil => rfl
  | cons c rest =>
    by_cases h : accepts c
    · have := follow_start next ⟨n + c.utf8Size, rest⟩
      simp only [Attempt.start] at this
      simp [through, ends, Attempt.step, Attempt.start, passes, Cursor.next?, h, this]
    · simp [through, ends, Attempt.step, Attempt.start, passes, h]

/-- Only what follows at the places ahead matters. -/
theorem through_congr (p : Pattern) {f g : Cursor → Option Attempt} {cur : Cursor}
    (h : ∀ place, cur ≤ place → f place = g place) : p.through f cur = p.through g cur := by
  rw [through, through]
  refine findSome?_congr fun b hb => ?_
  have hle : cur ≤ b.here := le_of_mem_ends p hb
  rw [Attempt.follow, Attempt.follow, h b.here hle]

/-- One repetition of `p`, with `loop` for the further ones. -/
theorem findSome?_again (p loop : Pattern) (cur : Cursor) :
    ((p.ends (Attempt.start cur)).flatMap (again (Attempt.start cur) loop.ends)).findSome?
        (Attempt.follow next) =
      p.through (cur.beyond (loop.through next) next) cur := by
  rw [findSome?_flatMap, through]
  refine findSome?_congr fun b _ => ?_
  rw [again, Attempt.start]
  by_cases hlt : cur.offset < b.here.offset
  · rw [if_pos hlt, findSome?_ends_follow, Attempt.follow, Attempt.follow, Cursor.beyond, if_pos hlt]
  · rw [if_neg hlt, List.findSome?_singleton, Attempt.follow, Attempt.follow, Cursor.beyond,
      if_neg hlt]

theorem through_star (p : Pattern) (cur : Cursor) : (star p).through next cur =
    (p.through (cur.beyond ((star p).through next) next) cur).or (next cur) := by
  rw [← findSome?_again, through, ends_star, List.findSome?_append, List.findSome?_singleton,
    follow_start]

theorem through_star_char (accepts : Char → Bool) (cur : Cursor) :
    (star (char accepts)).through next cur =
      (if passes accepts cur then cur.next?.bind ((star (char accepts)).through next) else none).or
        (next cur) := by
  rw [through_star, through_char]
  obtain ⟨n, rest⟩ := cur
  cases rest with
  | nil => rfl
  | cons c rest =>
    have hpos := c.utf8Size_pos
    have hlt : n < n + c.utf8Size := by omega
    simp only [Cursor.next?, Option.bind_some, Cursor.beyond, if_pos hlt]

theorem through_lazyStar (p : Pattern) (cur : Cursor) : (lazyStar p).through next cur =
    (next cur).or (p.through (cur.beyond ((lazyStar p).through next) next) cur) := by
  rw [← findSome?_again, through, ends_lazyStar, List.findSome?_cons, follow_start]
  cases next cur <;> rfl

theorem repeated_after (p : Pattern) (f : Cursor → Option Attempt) (cur : Cursor) :
    p.repeated (next cur) (Table.lookUp cur.after (cur.after.map f)) cur =
      p.through (cur.beyond f next) cur := by
  refine through_congr p fun place hle => ?_
  rw [Cursor.beyond, Cursor.beyond]
  split
  · rename_i hlt
    rw [Table.lookUp_after f hle hlt]
    rfl
  · rename_i hnot
    have hoffset := Cursor.offset_le hle
    rw [Cursor.eq_of_offset_eq hle (by omega)]

/-- A pattern leads nowhere when nothing follows at any place that it may reach. -/
theorem through_eq_none (p : Pattern) {cur : Cursor}
    (h : ∀ place, cur ≤ place → next place = none) : p.through next cur = none := by
  rw [through, List.findSome?_eq_none_iff]
  intro b hb
  have hle : cur ≤ b.here := le_of_mem_ends p hb
  rw [Attempt.follow, h b.here hle]
  rfl

theorem table_star (p : Pattern) (cur : Cursor) :
    (star p).table cur.onward (cur.onward.map next) = cur.onward.map ((star p).through next) := by
  cases p with
  | char accepts =>
    refine Table.sweep_map _ _ (fun cur => ?_) cur
    obtain ⟨n, rest⟩ := cur
    cases rest with
    | nil => rw [through_star_char]; rfl
    | cons c rest =>
      rw [through_star_char, Cursor.next?, Option.bind_some, Option.bind_some, Cursor.after_cons,
        Table.lookUp_onward _ (Cursor.le_refl _), Option.join_some]
  | _ =>
    refine Table.sweep_map _ _ (fun cur => ?_) cur
    rw [through_star, repeated_after]

theorem table_map (p : Pattern) (cur : Cursor) :
    p.table cur.onward (cur.onward.map next) = cur.onward.map (p.through next) := by
  induction p generalizing next with
  | empty =>
    have : empty.through next = next := by funext cur; simp [through, ends, follow_start]
    rw [table, this]
  | char accepts =>
    rw [table, Table.ahead_map]
    exact List.map_congr_left fun cur _ => (through_char next accepts cur).symm
  | seq p q ihp ihq =>
    rw [table, ihq, through_seq]
    split
    · rename_i h
      simp only [List.all_map, List.all_eq_true, Cursor.mem_onward, Function.comp_apply,
        Option.isNone_iff_eq_none] at h
      refine List.map_congr_left fun place hp => ?_
      have hp := Cursor.mem_onward.1 hp
      rw [h place hp, through_eq_none _ p fun later hl => h later (Cursor.le_trans hp hl)]
    · exact ihp _
  | either p q ihp ihq =>
    rw [table, ihp, ihq, List.zipWith_map, List.zipWith_self]
    exact List.map_congr_left fun cur _ => (through_either next p q cur).symm
  | star p _ => exact table_star next p cur
  | lazyStar p _ =>
    refine Table.sweep_map _ _ (fun cur => ?_) cur
    rw [through_lazyStar, repeated_after]
  | group p ih =>
    rw [table, List.zipWith_map_right, List.zipWith_self, ih]
    exact List.map_congr_left fun cur _ => (through_group next p cur).symm
  | notAhead p ih =>
    rw [table, ih, List.zipWith_map, List.zipWith_self]
    exact List.map_congr_left fun cur _ => by rw [through_success, through_notAhead]

theorem matchTable_eq (p : Pattern) (text : List Char) :
    p.matchTable text = (Cursor.places text).map p.matchAt := by
  rw [matchTable, Cursor.places, table_map]
  exact List.map_congr_left fun cur _ => through_success p cur

end Pattern

end MarkupAudit
