import MarkupAudit.Toml.Node
import Mathlib.Data.List.Nodup

/-!
The entries of a table, and what following a path of keys does to them. A change touches only the key
that its path begins with (`Touches`). A value that is complete is never entered, and where a path
goes on, there is a table or a list of tables afterwards (`follow_cons`).
-/

namespace MarkupAudit.Toml

namespace Entries

variable {entries : Entries} {key other : List Char}

def keys (entries : Entries) : List (List Char) := entries.map fun entry => entry.1.text

def Distinct (entries : Entries) : Prop := entries.keys.Nodup

theorem get?_cons (first : Key) (span : Option Span) (node : Node) (entries : Entries) :
    get? ((first, span, node) :: entries) key =
      if first.text = key then some (span, node) else entries.get? key := by
  by_cases h : first.text = key <;> simp [get?, h]

theorem get?_add (entries : Entries) (new : Key) (span : Option Span) (node : Node) :
    (entries.add new span node).get? key =
      (entries.get? key).or (if new.text = key then some (span, node) else none) := by
  induction entries with
  | nil => exact get?_cons new span node []
  | cons entry entries ih =>
    obtain ⟨first, place, old⟩ := entry
    rw [get?_cons, add, List.cons_append, get?_cons]
    by_cases h : first.text = key
    · rw [if_pos h, if_pos h, Option.some_or]
    · rw [if_neg h, if_neg h]
      exact ih

theorem get?_replace (entries : Entries) (key : List Char) (node : Node) :
    (entries.replace key node).get? other =
      if key = other then (entries.get? other).map fun found => (found.1, node)
      else entries.get? other := by
  induction entries with
  | nil => simp [replace, get?]
  | cons entry entries ih =>
    obtain ⟨first, place, old⟩ := entry
    rw [get?_cons]
    by_cases hfirst : first.text = key
    · by_cases hkey : key = other <;> simp_all [replace, get?_cons]
    · by_cases hkey : key = other <;> simp_all [replace, get?_cons]

theorem get?_remove_of_ne (entries : Entries) (h : other ≠ key) :
    (entries.remove key).get? other = entries.get? other := by
  induction entries with
  | nil => rfl
  | cons entry entries ih =>
    obtain ⟨first, place, old⟩ := entry
    by_cases hfirst : first.text = key
    · simp_all [remove, get?_cons, h.symm]
    · simp_all [remove, get?_cons]

theorem get?_eq_none_iff : entries.get? key = none ↔ key ∉ entries.keys := by
  simp [get?, keys]

namespace Distinct

theorem get?_of_mem (h : entries.Distinct) {new : Key} {span : Option Span} {node : Node}
    (hmem : (new, span, node) ∈ entries) : entries.get? new.text = some (span, node) := by
  induction entries with
  | nil => cases hmem
  | cons entry entries ih =>
    obtain ⟨first, place, old⟩ := entry
    rw [Distinct, keys, List.map_cons, List.nodup_cons] at h
    rw [get?_cons]
    cases hmem with
    | head => exact if_pos rfl
    | tail _ hmem =>
      have hne : first.text ≠ new.text := by
        intro heq
        exact h.1 (heq ▸ List.mem_map_of_mem (f := fun entry => entry.1.text) hmem)
      rw [if_neg hne]
      exact ih h.2 hmem

theorem add (h : entries.Distinct) {new : Key} (hnew : entries.get? new.text = none)
    (span : Option Span) (node : Node) : (entries.add new span node).Distinct := by
  have hkeys : (entries.add new span node).keys = entries.keys.concat new.text := by
    rw [List.concat_eq_append]
    exact List.map_append
  rw [Distinct, hkeys]
  exact List.Nodup.concat (get?_eq_none_iff.mp hnew) h

theorem replace (h : entries.Distinct) (key : List Char) (node : Node) :
    (entries.replace key node).Distinct := by
  have hkeys : (entries.replace key node).keys = entries.keys := by
    rw [keys, Entries.replace, List.map_map]
    apply List.map_congr_left
    intro entry _
    dsimp only [Function.comp_apply]
    split <;> rfl
  rwa [Distinct, hkeys]

theorem remove (h : entries.Distinct) (key : List Char) : (entries.remove key).Distinct :=
  h.sublist (List.filter_sublist.map _)

end Distinct

end Entries

/-- What an entry can have as its value. It is complete. -/
inductive Node.IsValue : Node → Prop where
  | scalar (s : Scalar) : IsValue (.scalar s)
  | list (items : List (Option Span × Node)) : IsValue (.list items)
  | inline (entries : Entries) : IsValue (.table .inline entries)

/-- What headers and dotted keys make of a key that they pass through. -/
inductive Node.IsTabular : Node → Prop where
  | table {origin : Origin} (h : origin ≠ .inline) (entries : Entries) :
      IsTabular (.table origin entries)
  | tables {items : List (Option Span × Node)} {span : Option Span} {origin : Origin}
      {entries : Entries} (h : (span, .table origin entries) ∈ items) : IsTabular (.tables items)

/-- The key under which a change with a path has its effect. -/
def leading (path : List Key) (key : Key) : List Char := (path.headD key).text

namespace Entries

/-- Nothing but what is under a key differs, and that was not complete before. -/
structure Touches (key : List Char) (before after : Entries) : Prop where
  others : ∀ other, key ≠ other → after.get? other = before.get? other
  distinct : before.Distinct → after.Distinct
  incomplete : ∀ found, before.get? key = some found → ¬found.2.IsValue

def HoldsTables (entries : Entries) (key : List Char) : Prop :=
  ∃ found, entries.get? key = some found ∧ found.2.IsTabular

variable {entries : Entries} {key : List Char} {new : Key}

theorem touches_self (h : ∀ found, entries.get? key = some found → ¬found.2.IsValue) :
    entries.Touches key entries where
  others _ _ := rfl
  distinct := id
  incomplete := h

theorem touches_add (h : entries.get? new.text = none) (span : Option Span) (node : Node) :
    entries.Touches new.text (entries.add new span node) where
  others other hne := by rw [get?_add, if_neg hne, Option.or_none]
  distinct hdistinct := hdistinct.add h span node
  incomplete found hfound := by
    rw [h] at hfound
    cases hfound

theorem get?_add_self (h : entries.get? new.text = none) (span : Option Span) (node : Node) :
    (entries.add new span node).get? new.text = some (span, node) := by
  rw [get?_add, h, if_pos rfl, Option.none_or]

theorem touches_replace {found : Option Span × Node} (h : entries.get? key = some found)
    (hvalue : ¬found.2.IsValue) (node : Node) :
    entries.Touches key (entries.replace key node) where
  others other hne := by rw [get?_replace, if_neg hne]
  distinct hdistinct := hdistinct.replace key node
  incomplete other hother := by
    rw [h] at hother
    cases hother
    exact hvalue

theorem get?_replace_self {found : Option Span × Node} (h : entries.get? key = some found)
    (node : Node) : (entries.replace key node).get? key = some (found.1, node) := by
  rw [get?_replace, if_pos rfl, h, Option.map_some]

theorem touches_remove {found : Option Span × Node} (h : entries.get? key = some found)
    (hvalue : ¬found.2.IsValue) : entries.Touches key (entries.remove key) where
  others other hne := get?_remove_of_ne entries hne.symm
  distinct hdistinct := hdistinct.remove key
  incomplete other hother := by
    rw [h] at hother
    cases hother
    exact hvalue

end Entries

open Entries

section Follow

variable {α : Type} {dotted : Bool} {change : Change α} {path : List Key} {key : Key}
  {origin : Origin} {entries after : Entries} {result : α}

theorem not_isValue_tables (items : List (Option Span × Node)) :
    ¬(Node.tables items).IsValue := by
  intro h
  cases h

theorem not_isValue_table (h : origin ≠ .inline) : ¬(Node.table origin entries).IsValue := by
  intro hvalue
  cases hvalue
  exact h rfl

theorem follow_cons (h : follow dotted change (key :: path) origin entries = some (result, after)) :
    entries.Touches key.text after ∧ after.HoldsTables key.text := by
  rw [follow] at h
  split at h
  · rename_i hget
    obtain ⟨⟨_, inner⟩, _, h⟩ := Option.bind_eq_some_iff.mp h
    cases h
    refine ⟨touches_add hget none _, _, get?_add_self hget none _, ?_⟩
    cases dotted <;> exact .table (by decide) inner
  · rename_i hget
    split at h
    · cases h
    rename_i origin _ hopen
    have horigin : origin ≠ .inline := fun hinline => hopen (Or.inl hinline)
    obtain ⟨⟨_, inner⟩, _, h⟩ := Option.bind_eq_some_iff.mp h
    cases h
    exact ⟨touches_replace hget (not_isValue_table horigin) _, _, get?_replace_self hget _,
      .table horigin inner⟩
  · rename_i items hget
    split at h
    · obtain ⟨⟨_, inner⟩, _, h⟩ := Option.bind_eq_some_iff.mp h
      cases h
      exact ⟨touches_replace hget (not_isValue_tables items) _, _, get?_replace_self hget _,
        .tables (List.mem_append_right _ (List.mem_singleton_self _))⟩
    · cases h
  · cases h
  · cases h

end Follow

section Change

variable {path : List Key} {key : Key} {span : Span} {node : Node} {origin : Origin}
  {entries inner after : Entries}

/-- An entry of the document itself gives its value to a key that has none; with a dotted key it adds
to a table. -/
theorem addEntry_eq_some (h : addEntry path key span node origin entries = some ((), after)) :
    entries.Touches (leading path key) after ∧
      (path = [] ∧ entries.get? key.text = none ∧ after.get? key.text = some (some span, node) ∨
        path ≠ [] ∧ after.HoldsTables (leading path key)) := by
  cases path with
  | nil =>
    rw [addEntry, follow] at h
    split at h
    · cases h
    split at h
    · cases h
    rename_i hget
    rw [Option.not_isSome_iff_eq_none] at hget
    cases h
    exact ⟨touches_add hget _ _, Or.inl ⟨rfl, hget, get?_add_self hget _ _⟩⟩
  | cons first path =>
    obtain ⟨htouches, htables⟩ := follow_cons h
    exact ⟨htouches, Or.inr ⟨List.cons_ne_nil first path, htables⟩⟩

theorem touches_of_openTable (h : openTable path key origin entries = some (inner, after)) :
    entries.Touches (leading path key) after := by
  cases path with
  | nil =>
    rw [openTable, follow] at h
    split at h
    · rename_i hget
      cases h
      refine touches_self fun found hfound => ?_
      rw [leading, List.headD_nil, hget] at hfound
      cases hfound
    · rename_i hget
      cases h
      exact touches_remove hget (not_isValue_table (by decide))
    · cases h
  | cons first path => exact (follow_cons h).1

theorem touches_of_openTables (h : openTables path key origin entries = some (inner, after)) :
    entries.Touches (leading path key) after := by
  cases path with
  | nil =>
    rw [openTables, follow] at h
    split at h
    · rename_i hget
      cases h
      exact touches_add hget _ _
    · rename_i items hget
      cases h
      refine touches_self fun found hfound => ?_
      rw [leading, List.headD_nil, hget] at hfound
      cases hfound
      exact not_isValue_tables items
    · cases h
  | cons first path => exact (follow_cons h).1

theorem closeTable_eq_some (h : closeTable path key span inner origin entries = some ((), after)) :
    entries.Touches (leading path key) after ∧ after.HoldsTables (leading path key) := by
  cases path with
  | nil =>
    rw [closeTable, follow] at h
    split at h
    · cases h
    rename_i hget
    rw [Option.not_isSome_iff_eq_none] at hget
    cases h
    exact ⟨touches_add hget _ _, _, get?_add_self hget _ _, .table (by decide) inner⟩
  | cons first path => exact follow_cons h

theorem closeTables_eq_some
    (h : closeTables path key span inner origin entries = some ((), after)) :
    entries.Touches (leading path key) after ∧ after.HoldsTables (leading path key) := by
  cases path with
  | nil =>
    rw [closeTables, follow] at h
    split at h
    · rename_i items hget
      cases h
      exact ⟨touches_replace hget (not_isValue_tables items) _, _, get?_replace_self hget _,
        .tables (List.mem_append_right _ (List.mem_singleton_self _))⟩
    · cases h
  | cons first path => exact follow_cons h

end Change

end MarkupAudit.Toml
