import MarkupAudit.Pattern.Build
import MarkupAudit.Pattern.Table
import Mathlib.Data.List.Basic

/-!
Where a pattern ends, whatever its groups do. `Pattern.reach` lists the places where a pattern may
end, most preferred first, and is put together from the parts of the pattern alone: what a group has
taken before has no say. A repeated body that passes over one character at a time reaches a stretch
of neighbouring places (`reach_star_of_step`, `reach_lazyStar_of_step`).
-/

namespace MarkupAudit

namespace Cursor

/-- A place and those behind it, as far as each place before is passable. -/
def stretchFrom (passable : Cursor → Bool) : Nat → List Char → List Cursor
  | offset, [] => [⟨offset, []⟩]
  | offset, c :: rest =>
    ⟨offset, c :: rest⟩ ::
      if passable ⟨offset, c :: rest⟩ then stretchFrom passable (offset + c.utf8Size) rest else []

def stretch (passable : Cursor → Bool) (cur : Cursor) : List Cursor :=
  stretchFrom passable cur.offset cur.rest

variable {passable : Cursor → Bool}

theorem stretch_end (n : Nat) : (⟨n, []⟩ : Cursor).stretch passable = [⟨n, []⟩] := rfl

theorem stretch_cons (n : Nat) (c : Char) (rest : List Char) :
    (⟨n, c :: rest⟩ : Cursor).stretch passable = ⟨n, c :: rest⟩ ::
      if passable ⟨n, c :: rest⟩ then (⟨n + c.utf8Size, rest⟩ : Cursor).stretch passable
      else [] := rfl

theorem lt_of_next_le {n : Nat} {c : Char} {rest : List Char} {b : Cursor}
    (h : (⟨n + c.utf8Size, rest⟩ : Cursor) ≤ b) : n < b.offset := by
  have hle := offset_le h
  have hpos := c.utf8Size_pos
  simp only at hle
  omega

theorem mem_stretch {a b : Cursor} : b ∈ a.stretch passable ↔
    a ≤ b ∧ ∀ m, a ≤ m → m ≤ b → m.offset < b.offset → passable m = true := by
  obtain ⟨n, rest⟩ := a
  induction rest generalizing n with
  | nil =>
    rw [stretch_end, List.mem_singleton]
    constructor
    · rintro rfl
      refine ⟨le_refl _, ?_⟩
      intro m hm _ hlt
      rw [eq_of_le_end hm] at hlt
      omega
    · intro hfound
      obtain ⟨h, _⟩ := hfound
      exact eq_of_le_end h
  | cons c rest ih =>
    rw [stretch_cons, List.mem_cons]
    constructor
    · rintro (rfl | hb)
      · refine ⟨le_refl _, ?_⟩
        intro m hm hmb hlt
        have := offset_le hm
        simp only at this hlt
        omega
      · split at hb
        · rename_i hp
          obtain ⟨hle, hall⟩ := (ih _).mp hb
          refine ⟨le_trans le_next hle, ?_⟩
          intro m hm hmb hlt
          rcases eq_or_next_le hm with rfl | hm
          · exact hp
          · exact hall m hm hmb hlt
        · simp at hb
    · intro h
      obtain ⟨hle, hall⟩ := h
      rcases eq_or_next_le hle with rfl | hnext
      · exact Or.inl rfl
      · have hp := hall _ (le_refl _) hle (lt_of_next_le hnext)
        rw [if_pos hp]
        refine Or.inr ((ih _).mpr ⟨hnext, ?_⟩)
        intro m hm hmb hlt
        exact hall m (le_trans le_next hm) hmb hlt

theorem stretch_true (a : Cursor) : a.stretch (fun _ => true) = a.onward := by
  obtain ⟨n, rest⟩ := a
  induction rest generalizing n with
  | nil => rfl
  | cons c rest ih =>
    rw [stretch_cons, onward, after_cons, ← ih]
    rfl

end Cursor

namespace Pattern

/-- The places where a pattern may end, most preferred first. -/
def reach (p : Pattern) (cur : Cursor) : List Cursor := (p.ends (Attempt.start cur)).map (·.here)

theorem map_here_ends (p : Pattern) (a : Attempt) :
    (p.ends a).map (·.here) = p.reach a.here := by
  have h : a = (Attempt.start a.here).within a.groupEnd := by simp [Attempt.start, Attempt.within]
  conv_lhs => rw [h, ends_within, List.map_map]
  rfl

theorem map_here_matchAt (p : Pattern) (cur : Cursor) :
    (p.matchAt cur).map (·.here) = (p.reach cur).head? := by
  rw [reach, List.head?_map, matchAt]

theorem matchesAt_eq (p : Pattern) (cur : Cursor) :
    p.matchesAt cur = (p.reach cur).head?.isSome := by
  rw [← map_here_matchAt, Option.isSome_map, matchesAt]

theorem le_of_mem_reach {p : Pattern} {a b : Cursor} (h : b ∈ p.reach a) : a ≤ b := by
  obtain ⟨found, hf, rfl⟩ := List.mem_map.mp h
  exact le_of_mem_ends p hf

theorem reach_empty (cur : Cursor) : empty.reach cur = [cur] := rfl

theorem reach_char (accepts : Char → Bool) (cur : Cursor) :
    (char accepts).reach cur = if passes accepts cur then cur.next?.toList else [] := by
  obtain ⟨n, rest⟩ := cur
  cases rest with
  | nil => rfl
  | cons c rest =>
    by_cases h : accepts c <;>
      simp [reach, ends, Attempt.step, Attempt.start, passes, Cursor.next?, h]

theorem reach_seq (p q : Pattern) (cur : Cursor) :
    (seq p q).reach cur = (p.reach cur).flatMap q.reach := by
  simp only [reach, ends, List.map_flatMap, List.flatMap_map]
  exact List.flatMap_congr fun a _ => map_here_ends q a

theorem reach_either (p q : Pattern) (cur : Cursor) :
    (either p q).reach cur = p.reach cur ++ q.reach cur := by
  simp only [reach, ends, List.map_append]

theorem reach_group (p : Pattern) (cur : Cursor) : (group p).reach cur = p.reach cur := by
  simp only [reach, ends, List.map_map]
  rfl

theorem reach_notAhead (p : Pattern) (cur : Cursor) :
    (notAhead p).reach cur = if p.matchesAt cur then [] else [cur] := by
  have h : (p.ends (Attempt.start cur)).isEmpty = !p.matchesAt cur := by
    rw [matchesAt, matchAt]
    cases p.ends (Attempt.start cur) <;> rfl
  simp only [reach, ends, h]
  cases p.matchesAt cur <;> rfl

theorem reach_concat_cons (p : Pattern) (ps : List Pattern) (cur : Cursor) :
    (concat (p :: ps)).reach cur = (p.reach cur).flatMap (concat ps).reach := by
  cases ps with
  | nil => exact (List.flatMap_singleton' _).symm
  | cons q ps => exact reach_seq p _ cur

theorem reach_concat_append (ps qs : List Pattern) (cur : Cursor) :
    (concat (ps ++ qs)).reach cur = ((concat ps).reach cur).flatMap (concat qs).reach := by
  induction ps generalizing cur with
  | nil => exact (List.flatMap_singleton ..).symm
  | cons p ps ih =>
    rw [List.cons_append, reach_concat_cons, reach_concat_cons, List.flatMap_assoc]
    exact List.flatMap_congr fun place _ => ih place

theorem reach_choice_cons (p : Pattern) (ps : List Pattern) (cur : Cursor) :
    (choice (p :: ps)).reach cur = p.reach cur ++ (choice ps).reach cur := by
  cases ps with
  | nil => exact (List.append_nil _).symm
  | cons q ps => exact reach_either p _ cur

theorem mem_reach_choice {ps : List Pattern} {a b : Cursor} :
    b ∈ (choice ps).reach a ↔ ∃ p ∈ ps, b ∈ p.reach a := by
  induction ps with
  | nil => simp [choice, reach_notAhead, matchesAt_eq, reach_empty]
  | cons p ps ih =>
    rw [reach_choice_cons, List.mem_append, ih]
    simp only [List.mem_cons, exists_eq_or_imp]

theorem matchesAt_iff {p : Pattern} {cur : Cursor} :
    p.matchesAt cur = true ↔ ∃ stop, stop ∈ p.reach cur := by
  rw [matchesAt_eq]
  cases p.reach cur with
  | nil => simp
  | cons stop stops => simp

/-- One repetition of `p`, with `loop` for the further ones. -/
theorem map_here_again (p loop : Pattern) (cur : Cursor) :
    ((p.ends (Attempt.start cur)).flatMap (again (Attempt.start cur) loop.ends)).map (·.here) =
      (p.reach cur).flatMap (cur.beyond loop.reach fun place => [place]) := by
  rw [List.map_flatMap, reach, List.flatMap_map]
  refine List.flatMap_congr fun a _ => ?_
  by_cases hlt : cur.offset < a.here.offset <;>
    simp [again, Attempt.start, Cursor.beyond, hlt, map_here_ends]

theorem reach_star (p : Pattern) (cur : Cursor) : (star p).reach cur =
    (p.reach cur).flatMap (cur.beyond (star p).reach fun place => [place]) ++ [cur] := by
  rw [← map_here_again, reach, ends_star, List.map_append]
  rfl

theorem reach_lazyStar (p : Pattern) (cur : Cursor) : (lazyStar p).reach cur =
    cur :: (p.reach cur).flatMap (cur.beyond (lazyStar p).reach fun place => [place]) := by
  rw [← map_here_again, reach, ends_lazyStar, List.map_cons]
  rfl

section Step

variable {p : Pattern} {passable : Cursor → Bool}

/-- The pattern passes over one character wherever the place is passable. -/
def Steps (p : Pattern) (passable : Cursor → Bool) : Prop :=
  ∀ cur, p.reach cur = if passable cur then cur.next?.toList else []

theorem steps_char (accepts : Char → Bool) : (char accepts).Steps (passes accepts) :=
  reach_char accepts

theorem steps_anyChar : anyChar.Steps fun _ => true := by
  intro cur
  obtain ⟨n, rest⟩ := cur
  cases rest <;> simp [anyChar, reach_char, passes, Cursor.next?]

theorem steps_unless (p : Pattern) :
    (seq (notAhead p) anyChar).Steps fun cur => !p.matchesAt cur := by
  intro cur
  rw [reach_seq, reach_notAhead]
  by_cases h : p.matchesAt cur = true
  · simp [h]
  · simp [h, steps_anyChar cur]

variable (h : p.Steps passable)
include h

theorem reach_of_steps (n : Nat) (c : Char) (rest : List Char) : p.reach ⟨n, c :: rest⟩ =
    if passable ⟨n, c :: rest⟩ then [⟨n + c.utf8Size, rest⟩] else [] := h _

theorem reach_end_of_steps (n : Nat) : p.reach ⟨n, []⟩ = [] := by
  rw [h]
  split <;> rfl

theorem reach_star_of_step (cur : Cursor) :
    (star p).reach cur = (cur.stretch passable).reverse := by
  obtain ⟨n, rest⟩ := cur
  induction rest generalizing n with
  | nil =>
    rw [reach_star, reach_end_of_steps h]
    rfl
  | cons c rest ih =>
    have hlt : n < n + c.utf8Size := Nat.lt_add_of_pos_right c.utf8Size_pos
    rw [reach_star, reach_of_steps h, Cursor.stretch_cons, List.reverse_cons]
    congr 1
    split
    · rw [List.flatMap_singleton, Cursor.beyond, if_pos hlt, ih]
    · rfl

theorem reach_lazyStar_of_step (cur : Cursor) :
    (lazyStar p).reach cur = cur.stretch passable := by
  obtain ⟨n, rest⟩ := cur
  induction rest generalizing n with
  | nil =>
    rw [reach_lazyStar, reach_end_of_steps h]
    rfl
  | cons c rest ih =>
    have hlt : n < n + c.utf8Size := Nat.lt_add_of_pos_right c.utf8Size_pos
    rw [reach_lazyStar, reach_of_steps h, Cursor.stretch_cons]
    congr 1
    split
    · rw [List.flatMap_singleton, Cursor.beyond, if_pos hlt, ih]
    · rfl

end Step

/-- No group outside of what is only looked at. -/
def groupFree : Pattern → Bool
  | empty => true
  | char _ => true
  | seq p q => p.groupFree && q.groupFree
  | either p q => p.groupFree && q.groupFree
  | star p => p.groupFree
  | lazyStar p => p.groupFree
  | group _ => false
  | notAhead _ => true

theorem groupEnd_of_mem_ends {p : Pattern} (hp : p.groupFree = true) {a b : Attempt}
    (hb : b ∈ p.ends a) : b.groupEnd = a.groupEnd := by
  induction p generalizing a b with
  | empty => rw [List.mem_singleton.mp hb]
  | char accepts =>
    obtain ⟨⟨n, rest⟩, g⟩ := a
    cases rest with
    | nil => simp [ends, Attempt.step] at hb
    | cons c rest =>
      simp only [ends, Attempt.step, Option.mem_toList, Option.ite_none_right_eq_some,
        Option.some.injEq] at hb
      rw [← hb.2]
  | seq p q ihp ihq =>
    simp only [groupFree, Bool.and_eq_true] at hp
    obtain ⟨c, hc, hb⟩ := List.mem_flatMap.mp hb
    exact (ihq hp.2 hb).trans (ihp hp.1 hc)
  | either p q ihp ihq =>
    simp only [groupFree, Bool.and_eq_true] at hp
    rcases List.mem_append.mp hb with hb | hb
    · exact ihp hp.1 hb
    · exact ihq hp.2 hb
  | star p ih =>
    exact rel_of_mem_iterate (R := fun a b => b.groupEnd = a.groupEnd) (fun _ => rfl)
      (fun hab hbc => hbc.trans hab) (ih hp) hb
  | lazyStar p ih =>
    exact rel_of_mem_iterateLazy (R := fun a b => b.groupEnd = a.groupEnd) (fun _ => rfl)
      (fun hab hbc => hbc.trans hab) (ih hp) hb
  | group p _ => simp [groupFree] at hp
  | notAhead p _ =>
    simp only [ends] at hb
    split at hb
    · rw [List.mem_singleton.mp hb]
    · simp at hb

theorem ends_of_groupFree {p : Pattern} (hp : p.groupFree = true) (cur : Cursor) :
    p.ends (Attempt.start cur) = (p.reach cur).map Attempt.start := by
  have h : ∀ b ∈ p.ends (Attempt.start cur), id b = Attempt.start b.here := by
    intro b hb
    have hg := groupEnd_of_mem_ends hp hb
    obtain ⟨here, groupEnd⟩ := b
    simp only [Attempt.start] at hg
    rw [hg]
    rfl
  calc p.ends (Attempt.start cur) = (p.ends (Attempt.start cur)).map id := (List.map_id _).symm
    _ = (p.ends (Attempt.start cur)).map (fun b => Attempt.start b.here) := List.map_congr_left h
    _ = (p.reach cur).map Attempt.start := by rw [reach, List.map_map]; rfl

/-- Any text before the pattern. -/
def somewhere (p : Pattern) : Pattern := seq (lazyStar anyChar) p

theorem reach_somewhere (p : Pattern) (cur : Cursor) :
    (somewhere p).reach cur = cur.onward.flatMap p.reach := by
  rw [somewhere, reach_seq, reach_lazyStar_of_step steps_anyChar, Cursor.stretch_true]

theorem matchesAt_somewhere {p : Pattern} {cur : Cursor} :
    (somewhere p).matchesAt cur = true ↔ ∃ later, cur ≤ later ∧ p.matchesAt later = true := by
  rw [matchesAt_iff, reach_somewhere]
  constructor
  · intro h
    obtain ⟨stop, hs⟩ := h
    obtain ⟨later, hl, hs⟩ := List.mem_flatMap.mp hs
    exact ⟨later, Cursor.mem_onward.mp hl, matchesAt_iff.mpr ⟨stop, hs⟩⟩
  · intro h
    obtain ⟨later, hl, hm⟩ := h
    obtain ⟨stop, hs⟩ := matchesAt_iff.mp hm
    exact ⟨stop, List.mem_flatMap.mpr ⟨later, Cursor.mem_onward.mpr hl, hs⟩⟩

end Pattern

end MarkupAudit
