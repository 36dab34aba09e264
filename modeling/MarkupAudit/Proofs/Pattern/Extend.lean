import MarkupAudit.Proofs.Text.Piece

/-!
Patterns in a text that goes on. What a pattern without a look ahead reaches inside of a text does not
depend on what follows the text (`reach_extend`): more text only adds places behind the end.
-/

namespace MarkupAudit

namespace Cursor

variable {a b : Cursor} {more : List Char}

@[simp] theorem offset_extend (more : List Char) (cur : Cursor) :
    (cur.extend more).offset = cur.offset := rfl

theorem offset_le_of_le_extend (h : a ≤ b.extend more) : a.offset ≤ b.offset := by
  simpa using offset_le h

theorem extend_le (h : a ≤ b) (more : List Char) : a.extend more ≤ b.extend more := by
  obtain ⟨passed, hr, ho⟩ := h
  refine ⟨passed, ?_, ho⟩
  change a.rest ++ more = passed ++ (b.rest ++ more)
  rw [hr, List.append_assoc]

theorem le_of_extend_le (h : a.extend more ≤ b.extend more) : a ≤ b := by
  obtain ⟨passed, hr, ho⟩ := h
  refine ⟨passed, ?_, ho⟩
  change a.rest ++ more = passed ++ (b.rest ++ more) at hr
  rw [← List.append_assoc] at hr
  exact List.append_cancel_right hr

theorem offset_le_finish (h : a ≤ b) : b.offset ≤ a.finish.offset := by
  rw [← finish_of_le h]
  exact Nat.le_add_right _ _

/-- A place behind another that is not behind the end of the text is a place of the text. -/
theorem exists_of_extend_le {later : Cursor} (h : a.extend more ≤ later)
    (hle : later.offset ≤ a.finish.offset) : ∃ b, a ≤ b ∧ later = b.extend more := by
  obtain ⟨n, rest⟩ := a
  induction rest generalizing n with
  | nil =>
    refine ⟨⟨n, []⟩, le_refl _, ?_⟩
    have hoffset : later.offset = n := Nat.le_antisymm hle (offset_le h)
    exact (eq_of_offset_eq h hoffset.symm).symm
  | cons c rest ih =>
    rcases eq_or_next_le h with rfl | hnext
    · exact ⟨⟨n, c :: rest⟩, le_refl _, rfl⟩
    · rw [finish_cons] at hle
      obtain ⟨b, hb, rfl⟩ := ih _ hnext hle
      exact ⟨b, le_trans le_next hb, rfl⟩

end Cursor

namespace Pattern

open Cursor (extend)

theorem passes_extend (accepts : Char → Bool) {cur : Cursor} (h : cur.rest ≠ [])
    (more : List Char) : passes accepts (cur.extend more) = passes accepts cur := by
  obtain ⟨n, rest⟩ := cur
  cases rest with
  | nil => exact absurd rfl h
  | cons c rest => rfl

/-- Nothing is looked at that the pattern does not pass over. -/
def lookFree : Pattern → Bool
  | empty => true
  | char _ => true
  | seq p q => p.lookFree && q.lookFree
  | either p q => p.lookFree && q.lookFree
  | star p => p.lookFree
  | lazyStar p => p.lookFree
  | group p => p.lookFree
  | notAhead _ => false

/-- The places that are not behind a byte. -/
def upToByte (bound : Nat) (places : List Cursor) : List Cursor :=
  places.filter (·.offset ≤ bound)

theorem upToByte_append (bound : Nat) (first second : List Cursor) :
    upToByte bound (first ++ second) = upToByte bound first ++ upToByte bound second :=
  List.filter_append ..

/-- From places behind a byte only places behind it are reached. -/
theorem upToByte_flatMap {f : Cursor → List Cursor} (hf : ∀ a, ∀ b ∈ f a, a ≤ b) (bound : Nat)
    (places : List Cursor) : upToByte bound (places.flatMap f) =
      (upToByte bound places).flatMap fun place => upToByte bound (f place) := by
  induction places with
  | nil => rfl
  | cons place places ih =>
    rw [List.flatMap_cons, upToByte_append, ih, upToByte.eq_1 bound (place :: places),
      List.filter_cons]
    by_cases hle : place.offset ≤ bound
    · rw [if_pos (by simpa using hle), List.flatMap_cons]
      rfl
    · have hnone : upToByte bound (f place) = [] := by
        apply List.filter_eq_nil_iff.mpr
        intro stop hs
        have hoffset := Cursor.offset_le (hf place stop hs)
        simp only [decide_eq_true_eq]
        omega
      rw [if_neg (by simpa using hle), hnone]
      rfl

variable {p q : Pattern} {cur : Cursor} {more : List Char}

/-- More text behind the text adds places behind the end to those the pattern reaches. -/
def Extends (p : Pattern) (cur : Cursor) (more : List Char) : Prop :=
  upToByte cur.finish.offset (p.reach (cur.extend more)) = (p.reach cur).map (extend more)

/-- What is reached step by step extends when all steps do. -/
theorem upToByte_flatMap_extend {places places' : List Cursor} {bound : Nat}
    {f f' : Cursor → List Cursor} (hf : ∀ a, ∀ b ∈ f' a, a ≤ b)
    (h : upToByte bound places' = places.map (extend more))
    (hplaces : ∀ place ∈ places,
      upToByte bound (f' (place.extend more)) = (f place).map (extend more)) :
    upToByte bound (places'.flatMap f') = (places.flatMap f).map (extend more) := by
  rw [upToByte_flatMap hf, h, List.flatMap_map, List.map_flatMap]
  exact List.flatMap_congr hplaces

theorem upToByte_self (more : List Char) (cur : Cursor) :
    upToByte cur.finish.offset [cur.extend more] = [cur.extend more] := by
  have hle : cur.offset ≤ cur.finish.offset := Nat.le_add_right _ _
  simp [upToByte, hle]

theorem extends_char (accepts : Char → Bool) (cur : Cursor) (more : List Char) :
    (char accepts).Extends cur more := by
  obtain ⟨n, rest⟩ := cur
  rw [Extends, reach_char, reach_char]
  cases rest with
  | nil =>
    cases more with
    | nil => split <;> rfl
    | cons c more =>
      have hpos := c.utf8Size_pos
      have hbehind : ¬n + c.utf8Size ≤ n := by omega
      split
      · simp [upToByte, Cursor.extend, Cursor.next?, Cursor.finish, hbehind]
      · rfl
  | cons c rest =>
    rw [passes_extend accepts (by simp) more]
    split
    · have hle : n + c.utf8Size ≤ n + (c.utf8Size + Text.byteLength rest) := by omega
      simp [upToByte, Cursor.extend, Cursor.next?, Cursor.finish, hle]
    · rfl

theorem finish_of_mem_reach {place : Cursor} (h : place ∈ p.reach cur) :
    place.finish = cur.finish := Cursor.finish_of_le (le_of_mem_reach h)

/-- One repetition of `p` extends when those behind it do that have less text ahead. -/
theorem upToByte_again (loop : Pattern) (hstep : p.Extends cur more)
    (hloop : ∀ place, place.rest.length < cur.rest.length → loop.Extends place more) :
    upToByte cur.finish.offset ((p.reach (cur.extend more)).flatMap
        ((cur.extend more).beyond loop.reach fun place => [place])) =
      ((p.reach cur).flatMap (cur.beyond loop.reach fun place => [place])).map (extend more) := by
  have hforward : ∀ a : Cursor,
      ∀ b ∈ (cur.extend more).beyond loop.reach (fun place => [place]) a, a ≤ b := by
    intro a b hb
    rw [Cursor.beyond] at hb
    split at hb
    · exact le_of_mem_reach hb
    · exact List.mem_singleton.mp hb ▸ Cursor.le_refl a
  apply upToByte_flatMap_extend hforward hstep
  intro place hp
  rw [← finish_of_mem_reach hp]
  change upToByte _ (if cur.offset < place.offset then _ else _) = _
  rw [Cursor.beyond]
  split
  · rename_i hlt
    exact hloop place (Cursor.length_lt (le_of_mem_reach hp) hlt)
  · exact upToByte_self more place

theorem reach_extend (hp : p.lookFree = true) (cur : Cursor) (more : List Char) :
    p.Extends cur more := by
  induction p generalizing cur with
  | empty => exact upToByte_self more cur
  | char accepts => exact extends_char accepts cur more
  | seq p q ihp ihq =>
    rw [lookFree, Bool.and_eq_true] at hp
    rw [Extends, reach_seq, reach_seq]
    apply upToByte_flatMap_extend (fun _ _ => le_of_mem_reach) (ihp hp.1 cur)
    intro place hm
    rw [← finish_of_mem_reach hm]
    exact ihq hp.2 place
  | either p q ihp ihq =>
    rw [lookFree, Bool.and_eq_true] at hp
    rw [Extends, reach_either, reach_either, upToByte_append, ihp hp.1 cur, ihq hp.2 cur,
      List.map_append]
  | star p ih =>
    -- The induction is on the text ahead, of which every further repetition leaves less.
    induction hn : cur.rest.length using Nat.strongRecOn generalizing cur with
    | ind n ihn =>
      have hmore := upToByte_again (star p) (ih hp cur) fun place hless => ihn _ (hn ▸ hless) place rfl
      rw [Extends, reach_star, reach_star p cur, upToByte_append, upToByte_self, List.map_append,
        hmore]
      rfl
  | lazyStar p ih =>
    induction hn : cur.rest.length using Nat.strongRecOn generalizing cur with
    | ind n ihn =>
      have hmore := upToByte_again (lazyStar p) (ih hp cur) fun place hless =>
        ihn _ (hn ▸ hless) place rfl
      rw [Extends, reach_lazyStar, reach_lazyStar p cur, List.map_cons, ← List.singleton_append,
        upToByte_append, upToByte_self, hmore]
      rfl
  | group p ih =>
    rw [Extends, reach_group, reach_group]
    exact ih hp cur
  | notAhead p _ => cases hp

section Reach

variable (hp : p.lookFree = true)
include hp

theorem extend_mem_reach {stop : Cursor} (h : stop ∈ p.reach cur) (more : List Char) :
    stop.extend more ∈ p.reach (cur.extend more) := by
  have hmem := List.mem_map_of_mem (f := extend more) h
  rw [← reach_extend hp cur more] at hmem
  exact (List.mem_filter.mp hmem).1

/-- What is reached in the longer text inside of the shorter one is reached in the shorter. -/
theorem exists_of_mem_reach_extend {stop : Cursor} (h : stop ∈ p.reach (cur.extend more))
    (hle : stop.offset ≤ cur.finish.offset) : ∃ b ∈ p.reach cur, stop = b.extend more := by
  have hmem : stop ∈ upToByte cur.finish.offset (p.reach (cur.extend more)) :=
    List.mem_filter.mpr ⟨h, by simpa using hle⟩
  rw [reach_extend hp cur more] at hmem
  obtain ⟨b, hb, rfl⟩ := List.mem_map.mp hmem
  exact ⟨b, hb, rfl⟩

theorem matchesAt_extend (h : p.matchesAt cur = true) (more : List Char) :
    p.matchesAt (cur.extend more) = true := by
  obtain ⟨stop, hs⟩ := matchesAt_iff.mp h
  exact matchesAt_iff.mpr ⟨_, extend_mem_reach hp hs more⟩

/-- The preferred match of the longer text is that of the shorter if it does not go beyond. -/
theorem head?_reach_of_extend {stop : Cursor} (h : (p.reach (cur.extend more)).head? = some stop)
    (hle : stop.offset ≤ cur.finish.offset) :
    ∃ b, (p.reach cur).head? = some b ∧ stop = b.extend more := by
  obtain ⟨stops, hstops⟩ := List.head?_eq_some_iff.mp h
  have hextends : upToByte cur.finish.offset (stop :: stops) = (p.reach cur).map (extend more) :=
    hstops ▸ reach_extend hp cur more
  have hhead : ((p.reach cur).map (extend more)).head? = some stop := by
    rw [← hextends, upToByte, List.filter_cons_of_pos (by simpa using hle), List.head?_cons]
  rw [List.head?_map] at hhead
  obtain ⟨b, hb, rfl⟩ := Option.map_eq_some_iff.mp hhead
  exact ⟨b, hb, rfl⟩

end Reach

end Pattern

end MarkupAudit
