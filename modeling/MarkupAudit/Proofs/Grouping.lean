import MarkupAudit.Grouping
import Mathlib.Data.List.Induction
import Mathlib.Data.List.Nodup

/-!
Groupings that are gathered from a list of items. The value of a key tells of the items with that
key and of no others (`get?_gather`). Lists of items that each have a key of their own, put one
after another, are told apart again (`gather_flatMap`).
-/

namespace MarkupAudit.Grouping

variable {α κ ν : Type} [DecidableEq κ]

section Update

variable {key : κ} {change : ν → ν} {g : Grouping κ ν}

theorem update_of_not_mem (h : key ∉ g.keys) (fresh : ν) :
    update key fresh change g = g ++ [(key, change fresh)] := by
  induction g with
  | nil => rfl
  | cons entry g ih =>
    obtain ⟨k, v⟩ := entry
    rw [keys, List.map_cons, List.mem_cons, not_or] at h
    rw [update, if_neg (Ne.symm h.1), ih h.2, List.cons_append]

theorem update_last (h : key ∉ g.keys) (fresh v : ν) :
    update key fresh change (g ++ [(key, v)]) = g ++ [(key, change v)] := by
  induction g with
  | nil => rw [List.nil_append, update, if_pos rfl, List.nil_append]
  | cons entry g ih =>
    obtain ⟨k, v'⟩ := entry
    rw [keys, List.map_cons, List.mem_cons, not_or] at h
    rw [List.cons_append, update, if_neg (Ne.symm h.1), ih h.2, List.cons_append]

end Update

section Gather

variable (key : α → κ) (fresh : ν) (add : α → ν → ν)

def enlist (g : Grouping κ ν) (item : α) : Grouping κ ν := g.update (key item) fresh (add item)

/-- Items under their keys. The value of a key begins as `fresh` and takes in the items of the key
one after another. -/
def gather (items : List α) : Grouping κ ν := items.foldl (enlist key fresh add) []

/-- What a value becomes when it takes in some items. -/
def absorb (value : ν) (items : List α) : ν := items.foldl (fun value item => add item value) value

theorem nodup_keys_gather (items : List α) : (gather key fresh add items).keys.Nodup := by
  have step : ∀ (items : List α) (g : Grouping κ ν), g.keys.Nodup →
      (items.foldl (enlist key fresh add) g).keys.Nodup := by
    intro items
    induction items with
    | nil => exact fun _ h => h
    | cons item items ih => exact fun g h => ih _ (nodup_keys_update h)
  exact step items [] List.nodup_nil

/-- The keys stand in the order in which they first came. -/
theorem keys_gather (items : List α) :
    (gather key fresh add items).keys = (items.map key).eraseDups := by
  induction items using List.reverseRecOn with
  | nil => rfl
  | append_singleton items item ih =>
    have hlast : gather key fresh add (items ++ [item]) =
        enlist key fresh add (gather key fresh add items) item := List.foldl_append
    rw [hlast, enlist, keys_update, ih, List.map_append, List.map_singleton, List.eraseDups_append]
    -- The last item brings a key only if no item before it has it.
    generalize items.map key = seen
    split
    · rename_i hmem
      rw [List.mem_eraseDups] at hmem
      simp [List.removeAll, hmem]
    · rename_i hmem
      rw [List.mem_eraseDups] at hmem
      simp [List.removeAll, hmem, List.eraseDups_cons]

theorem get?_foldl_enlist (items : List α) (g : Grouping κ ν) (k : κ) :
    (items.foldl (enlist key fresh add) g).get? k =
      if k ∈ items.map key then
        some (absorb add ((g.get? k).getD fresh) (items.filter (key · = k)))
      else g.get? k := by
  induction items generalizing g with
  | nil => rfl
  | cons item items ih =>
    rw [List.foldl_cons, ih, enlist, get?_update, List.map_cons, List.filter_cons]
    by_cases hk : k = key item
    · subst hk
      by_cases hmem : key item ∈ items.map key
      · simp [hmem, absorb]
      · have hnone : items.filter (key · = key item) = [] := by
          rw [List.filter_eq_nil_iff]
          intro other ho heq
          exact hmem (List.mem_map.mpr ⟨other, ho, by simpa using heq⟩)
        simp [hmem, hnone, absorb]
    · simp [hk, Ne.symm hk]

theorem get?_gather (items : List α) (k : κ) : (gather key fresh add items).get? k =
    if k ∈ items.map key then some (absorb add fresh (items.filter (key · = k))) else none :=
  get?_foldl_enlist key fresh add items [] k

variable {key fresh add}

theorem foldl_enlist_last {items : List α} {k : κ} (hkey : ∀ item ∈ items, key item = k)
    {g : Grouping κ ν} (h : k ∉ g.keys) (v : ν) :
    items.foldl (enlist key fresh add) (g ++ [(k, v)]) = g ++ [(k, absorb add v items)] := by
  induction items generalizing v with
  | nil => rfl
  | cons item items ih =>
    rw [List.forall_mem_cons] at hkey
    rw [List.foldl_cons, enlist, hkey.1, update_last h]
    exact ih hkey.2 (add item v)

theorem foldl_enlist_flatMap {blocks : List (κ × List α)} (hnodup : (blocks.map (·.1)).Nodup)
    (hkey : ∀ block ∈ blocks, ∀ item ∈ block.2, key item = block.1) {g : Grouping κ ν}
    (hnew : ∀ block ∈ blocks, block.1 ∉ g.keys) :
    (blocks.flatMap (·.2)).foldl (enlist key fresh add) g =
      g ++ (blocks.filter (·.2 ≠ [])).map fun block => (block.1, absorb add fresh block.2) := by
  induction blocks generalizing g with
  | nil => simp
  | cons block blocks ih =>
    obtain ⟨k, items⟩ := block
    rw [List.map_cons, List.nodup_cons] at hnodup
    rw [List.forall_mem_cons] at hkey hnew
    cases items with
    | nil => simpa using ih hnodup.2 hkey.2 hnew.2
    | cons item items =>
      obtain ⟨hitem, hitems⟩ := List.forall_mem_cons.mp hkey.1
      -- The first item of the block makes the entry, the others find it at the end.
      have hblock : (item :: items).foldl (enlist key fresh add) g =
          g ++ [(k, absorb add fresh (item :: items))] := by
        rw [List.foldl_cons, enlist, hitem, update_of_not_mem hnew.1,
          foldl_enlist_last hitems hnew.1]
        rfl
      have hlater : ∀ block ∈ blocks,
          block.1 ∉ keys (g ++ [(k, absorb add fresh (item :: items))]) := by
        intro block hb
        rw [keys, List.map_append, List.mem_append, not_or]
        refine ⟨hnew.2 block hb, ?_⟩
        rw [List.map_singleton, List.mem_singleton]
        intro heq
        exact hnodup.1 (heq ▸ List.mem_map_of_mem hb)
      rw [List.flatMap_cons, List.foldl_append, hblock, ih hnodup.2 hkey.2 hlater]
      simp

/-- Gathering undoes the concatenation of lists that each have a key of their own; an empty one
leaves no trace. -/
theorem gather_flatMap {blocks : List (κ × List α)} (hnodup : (blocks.map (·.1)).Nodup)
    (hkey : ∀ block ∈ blocks, ∀ item ∈ block.2, key item = block.1) :
    gather key fresh add (blocks.flatMap (·.2)) =
      (blocks.filter (·.2 ≠ [])).map fun block => (block.1, absorb add fresh block.2) := by
  have hnew : ∀ block ∈ blocks, block.1 ∉ keys ([] : Grouping κ ν) := by simp [keys]
  rw [gather, foldl_enlist_flatMap hnodup hkey hnew, List.nil_append]

end Gather

end MarkupAudit.Grouping
