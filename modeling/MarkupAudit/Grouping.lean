/-!
Groupings: lists of keys with values, each key once, in the order in which the keys first came.
-/

namespace MarkupAudit

abbrev Grouping (κ ν : Type) := List (κ × ν)

namespace Grouping

variable {κ ν : Type} [DecidableEq κ]

/-- Changes the value of a key; a new key comes last and starts from `fresh`. -/
def update (key : κ) (fresh : ν) (change : ν → ν) : Grouping κ ν → Grouping κ ν
  | [] => [(key, change fresh)]
  | (k, v) :: rest =>
    if k = key then (k, change v) :: rest else (k, v) :: update key fresh change rest

def keys (g : Grouping κ ν) : List κ := g.map (·.1)

def get? (g : Grouping κ ν) (key : κ) : Option ν := (g.find? fun entry => entry.1 = key).map (·.2)

theorem keys_update (key : κ) (fresh : ν) (change : ν → ν) (g : Grouping κ ν) :
    (update key fresh change g).keys = if key ∈ g.keys then g.keys else g.keys ++ [key] := by
  induction g with
  | nil => simp [update, keys]
  | cons entry g ih =>
    obtain ⟨k, v⟩ := entry
    by_cases h : k = key
    · simp [update, keys, h]
    · simp only [keys] at ih
      by_cases hk : key ∈ g.map (·.1)
      · simp [update, keys, h, ih, hk]
      · simp [update, keys, h, ih, hk, Ne.symm h]

theorem nodup_keys_update {key : κ} {fresh : ν} {change : ν → ν} {g : Grouping κ ν}
    (h : g.keys.Nodup) : (update key fresh change g).keys.Nodup := by
  rw [keys_update]
  split
  · exact h
  · rename_i hk
    exact List.nodup_append.2 ⟨h, by simp, fun a ha b hb hab => by
      rw [List.mem_singleton] at hb
      exact hk (hb ▸ hab ▸ ha)⟩

theorem get?_update (key : κ) (fresh : ν) (change : ν → ν) (g : Grouping κ ν) (k : κ) :
    (update key fresh change g).get? k =
      if k = key then some (change ((g.get? k).getD fresh)) else g.get? k := by
  induction g with
  | nil =>
    by_cases h : key = k
    · simp [update, get?, h]
    · simp [update, get?, h, Ne.symm h]
  | cons entry g ih =>
    obtain ⟨k', v⟩ := entry
    simp only [get?] at ih
    by_cases h : k' = key
    · subst h
      by_cases hk : k' = k
      · simp [update, get?, hk]
      · simp [update, get?, hk, Ne.symm hk]
    · by_cases hk : k' = k
      · subst hk
        simp [update, get?, h]
      · simp [update, get?, h, hk, ih]

end Grouping

end MarkupAudit
