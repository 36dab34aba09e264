import MarkupAudit.Config
import Mathlib.Data.List.Forall2

/-!
Points before an extension. A bare extension has none, so to make it bare again changes nothing, and
extensions that differ in the points before them have the same bare form (`map_bareExtension`).
-/

namespace MarkupAudit.Config

/-- The same with points before it. -/
def IsDotted (text dotted : List Char) : Prop := ∃ n, dotted = List.replicate n '.' ++ text

/-- The same configurations but for points before the extensions. -/
structure Redotted (config config' : Config) : Prop where
  extensions : List.Forall₂ (fun ext ext' => IsDotted ext.toList ext'.toList) config.extensions
    config'.extensions
  exclude : config'.exclude = config.exclude

theorem isDotted_self (text : List Char) : IsDotted text text := ⟨0, rfl⟩

theorem forall₂_isDotted_self (texts : List (List Char)) : List.Forall₂ IsDotted texts texts :=
  List.forall₂_same.mpr fun text _ => isDotted_self text

theorem head?_bareExtension (ext : String) : (bareExtension ext).toList.head? ≠ some '.' := by
  rw [bareExtension, String.toList_ofList]
  intro h
  have hhead := List.head?_dropWhile_not (· == '.') ext.toList
  rw [h] at hhead
  cases hhead

theorem bareExtension_of_head? {ext : String} (h : ext.toList.head? ≠ some '.') :
    bareExtension ext = ext := by
  rw [bareExtension]
  cases hext : ext.toList with
  | nil => rw [List.dropWhile_nil, ← hext, String.ofList_toList]
  | cons c rest =>
    have hc : (c == '.') = false := by
      rw [beq_eq_false_iff_ne]
      rintro rfl
      exact h (hext ▸ rfl)
    rw [List.dropWhile_cons_of_neg (by simp [hc]), ← hext, String.ofList_toList]

theorem bareExtension_bareExtension (ext : String) :
    bareExtension (bareExtension ext) = bareExtension ext :=
  bareExtension_of_head? (head?_bareExtension ext)

theorem normalized_normalized (config : Config) :
    config.normalized.normalized = config.normalized := by
  rw [normalized, normalized, List.map_map]
  congr 1
  exact List.map_congr_left fun ext _ => bareExtension_bareExtension ext

theorem bareExtension_of_isDotted {ext ext' : String} (h : IsDotted ext.toList ext'.toList) :
    bareExtension ext' = bareExtension ext := by
  obtain ⟨n, h⟩ := h
  have hall : ∀ c ∈ List.replicate n '.', (c == '.') = true := by
    intro c hc
    rw [List.eq_of_mem_replicate hc]
    rfl
  rw [bareExtension, bareExtension, h, List.dropWhile_append_of_pos hall]

theorem map_bareExtension {extensions extensions' : List String}
    (h : List.Forall₂ (fun ext ext' => IsDotted ext.toList ext'.toList) extensions extensions') :
    extensions'.map bareExtension = extensions.map bareExtension := by
  induction h with
  | nil => rfl
  | cons hext _ ih => rw [List.map_cons, List.map_cons, bareExtension_of_isDotted hext, ih]

theorem normalized_of_redotted {config config' : Config} (h : Redotted config config') :
    config'.normalized = config.normalized := by
  rw [normalized, normalized, map_bareExtension h.extensions, h.exclude]

end MarkupAudit.Config
