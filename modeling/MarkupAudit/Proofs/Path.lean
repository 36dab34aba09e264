import MarkupAudit.Config
import MarkupAudit.FileSystem.Basic
import Mathlib.Data.List.Basic

/-!
Paths of entries. The path of an entry has the components of its directory and then the name of the
entry (`components_join`), whatever slashes the path of the directory ends with. So the path of what
names lead to below a directory holds the names one by one, and tells them.
-/

namespace MarkupAudit

open FileSystem (Name isName)

theorem FileSystem.isName_iff {name : Name} : isName name = true ↔
    name ≠ [] ∧ name ≠ ['.'] ∧ name ≠ ['.', '.'] ∧ '/' ∉ name ∧ '\x00' ∉ name := by
  simp [isName, Path.isProper, and_assoc]

namespace Path

theorem parts_of_not_mem {name : List Char} (h : '/' ∉ name) : parts name = [name] := by
  induction name with
  | nil => rfl
  | cons c rest ih =>
    rw [List.mem_cons, not_or] at h
    rw [parts, if_neg (Ne.symm h.1), ih h.2]

theorem parts_append (a b : List Char) : parts (a ++ '/' :: b) = parts a ++ parts b := by
  induction a with
  | nil => rfl
  | cons c a ih =>
    rw [List.cons_append, parts, parts, ih]
    split
    · rfl
    · obtain ⟨part, more, heq⟩ := List.exists_cons_of_ne_nil (parts_ne_nil a)
      rw [heq]
      rfl

theorem mem_of_mem_parts {path part : List Char} {c : Char} (h : part ∈ parts path)
    (hc : c ∈ part) : c ∈ path := by
  induction path generalizing part with
  | nil =>
    rw [parts, List.mem_singleton] at h
    exact h ▸ hc
  | cons d rest ih =>
    rw [parts] at h
    split at h
    · rcases List.mem_cons.mp h with rfl | h
      · cases hc
      · exact List.mem_cons_of_mem d (ih h hc)
    · obtain ⟨first, more, heq⟩ := List.exists_cons_of_ne_nil (parts_ne_nil rest)
      rw [heq] at h
      rcases List.mem_cons.mp h with rfl | h
      · rcases List.mem_cons.mp hc with rfl | hc
        · exact List.mem_cons_self
        · exact List.mem_cons_of_mem d (ih (heq ▸ List.mem_cons_self) hc)
      · exact List.mem_cons_of_mem d (ih (heq ▸ List.mem_cons_of_mem first h) hc)

/-- The component at the front of a path that is none of its proper parts. -/
def front (path : List Char) : List (List Char) :=
  if isAbsolute path then [['/']] else if (parts path).head? = some ['.'] then [['.']] else []

theorem components_eq (path : List Char) :
    components path = front path ++ (parts path).filter isProper := by
  unfold components front
  split
  · rfl
  · obtain ⟨part, more, heq⟩ := List.exists_cons_of_ne_nil (parts_ne_nil path)
    rw [heq]
    by_cases hpoint : part = ['.']
    · subst hpoint
      rfl
    · rw [List.head?_cons, if_neg (by simpa using hpoint), List.nil_append]
      split
      · rename_i h
        exact absurd (List.cons.inj h).1 hpoint
      · rfl

theorem isAbsolute_append {a : List Char} (ha : a ≠ []) (b : List Char) :
    isAbsolute (a ++ b) = isAbsolute a := by
  rw [isAbsolute, isAbsolute, List.head?_append_of_ne_nil a ha]

theorem front_append {a : List Char} (ha : a ≠ []) (b : List Char) :
    front (a ++ '/' :: b) = front a := by
  have hhead : (parts a ++ parts b).head? = (parts a).head? := by
    obtain ⟨part, more, heq⟩ := List.exists_cons_of_ne_nil (parts_ne_nil a)
    rw [heq]
    rfl
  rw [front, front, isAbsolute_append ha, parts_append, hhead]

theorem components_behind_slash (a b : List Char) :
    components (a ++ '/' :: b) = components (a ++ ['/']) ++ (parts b).filter isProper := by
  have hfront : front (a ++ '/' :: b) = front (a ++ ['/']) := by
    cases a with
    | nil => rfl
    | cons c a => rw [front_append (by simp), front_append (by simp)]
  have hnil : (parts []).filter isProper = [] := rfl
  rw [components_eq, components_eq, hfront, parts_append, parts_append, List.filter_append,
    List.filter_append, hnil, List.append_nil, List.append_assoc]

variable {name : Name}

theorem components_append (a : List Char) (h : isName name = true) :
    components (a ++ '/' :: name) = components (a ++ ['/']) ++ [name] := by
  obtain ⟨hne, hpoint, _, hslash, _⟩ := FileSystem.isName_iff.mp h
  have hproper : [name].filter isProper = [name] := by simp [isProper, hne, hpoint]
  rw [components_behind_slash, parts_of_not_mem hslash, hproper]

theorem components_slash {a : List Char} (ha : a ≠ []) :
    components (a ++ ['/']) = components a := by
  have hnil : (parts []).filter isProper = [] := rfl
  rw [components_eq, components_eq, front_append ha, parts_append, List.filter_append, hnil,
    List.append_nil]

theorem isAbsolute_of_isName (h : isName name = true) : isAbsolute name = false := by
  obtain ⟨_, _, _, hslash, _⟩ := FileSystem.isName_iff.mp h
  cases name with
  | nil => rfl
  | cons c rest =>
    rw [List.mem_cons, not_or] at hslash
    simpa [isAbsolute] using Ne.symm hslash.1

theorem components_join (directory : List Char) (h : isName name = true) :
    components (join directory name) = components directory ++ [name] := by
  obtain ⟨hne, hpoint, _, hslash, _⟩ := FileSystem.isName_iff.mp h
  have hrelative := isAbsolute_of_isName h
  rw [join, hrelative, if_neg (by simp)]
  split
  · rename_i h'
    rcases h' with rfl | hlast
    · have hhead : ¬[name].head? = some ['.'] := by simpa using hpoint
      rw [List.nil_append, components_eq, front, hrelative, parts_of_not_mem hslash, if_neg (by simp),
        if_neg hhead]
      simp [isProper, hne, hpoint, components, isAbsolute, parts]
    · obtain ⟨a, rfl⟩ := List.getLast?_eq_some_iff.mp hlast
      rw [List.append_assoc, List.singleton_append]
      exact components_append a h
  · rename_i h'
    rw [not_or] at h'
    rw [components_append directory h, components_slash h'.1]

/-- The path of what names lead to below a directory. -/
def along (root : List Char) (names : List Name) : List Char := names.foldl join root

theorem along_nil (root : List Char) : along root [] = root := rfl

theorem along_cons (root : List Char) (name : Name) (names : List Name) :
    along root (name :: names) = along (join root name) names := rfl

theorem along_append (root : List Char) (names more : List Name) :
    along root (names ++ more) = along (along root names) more := List.foldl_append

theorem components_along {names : List Name} (h : ∀ name ∈ names, isName name = true)
    (root : List Char) : components (along root names) = components root ++ names := by
  induction names generalizing root with
  | nil => exact (List.append_nil _).symm
  | cons name names ih =>
    rw [List.forall_mem_cons] at h
    rw [along_cons, ih h.2, components_join root h.1, List.append_assoc, List.singleton_append]

theorem along_inj {root : List Char} {a b : List Name} (ha : ∀ name ∈ a, isName name = true)
    (hb : ∀ name ∈ b, isName name = true) (h : along root a = along root b) : a = b := by
  have hcomponents := congrArg components h
  rw [components_along ha, components_along hb] at hcomponents
  exact List.append_cancel_left hcomponents

end Path

/-- A path is left out for its root or for one of the names below. -/
theorem Config.excludesPath_along (config : Config) {names : List Name}
    (h : ∀ name ∈ names, isName name = true) (root : List Char) :
    config.excludesPath (Path.along root names) =
      (config.excludesPath root || names.any config.excludesName) := by
  rw [excludesPath, Path.components_along h, List.any_append, excludesPath]

end MarkupAudit
