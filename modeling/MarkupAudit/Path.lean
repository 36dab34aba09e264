/-!
Paths as Unicode text. A slash separates the parts of a path. The components are the parts that matter for
comparing paths: empty parts and single points are dropped, except a point at the very beginning,
and a slash at the beginning is a component of its own. `intercalate_parts` and
`slash_not_mem_parts` say that the parts are what stands between the slashes, and
`splitLastPoint_eq_some` that a name is split at its last point.
-/

namespace MarkupAudit.Path

/-- The parts between slashes. -/
def parts : List Char → List (List Char)
  | [] => [[]]
  | c :: rest =>
    if c = '/' then [] :: parts rest
    else
      match parts rest with
      | [] => [[c]]
      | part :: more => (c :: part) :: more

theorem parts_ne_nil (path : List Char) : parts path ≠ [] := by
  cases path with
  | nil => simp [parts]
  | cons c rest =>
    simp only [parts]
    split
    · simp
    · split <;> simp

theorem intercalate_parts (path : List Char) : ['/'].intercalate (parts path) = path := by
  induction path with
  | nil => simp [parts]
  | cons c rest ih =>
    have hne := parts_ne_nil rest
    simp only [parts]
    split
    · rename_i hc
      cases h : parts rest with
      | nil => exact absurd h hne
      | cons part more =>
        rw [List.intercalate_cons_cons, ← h, ih, hc]
        rfl
    · cases h : parts rest with
      | nil => exact absurd h hne
      | cons part more =>
        rw [h] at ih
        cases more with
        | nil => simpa using ih
        | cons next more =>
          rw [List.intercalate_cons_cons] at ih ⊢
          rw [← ih]
          rfl

theorem slash_not_mem_parts {path part : List Char} (h : part ∈ parts path) : '/' ∉ part := by
  induction path generalizing part with
  | nil =>
    simp only [parts, List.mem_singleton] at h
    simp [h]
  | cons c rest ih =>
    simp only [parts] at h
    split at h
    · rcases List.mem_cons.1 h with rfl | h
      · simp
      · exact ih h
    · rename_i hc
      split at h
      · simp only [List.mem_singleton] at h
        simpa [h] using Ne.symm hc
      · rename_i first more hp
        rcases List.mem_cons.1 h with rfl | h
        · have : '/' ∉ first := ih (by simp [hp])
          simpa [this] using Ne.symm hc
        · exact ih (by simp [hp, h])

def isAbsolute (path : List Char) : Bool := path.head? == some '/'

def isProper (part : List Char) : Bool := part != [] && part != ['.']

def components (path : List Char) : List (List Char) :=
  if isAbsolute path then ['/'] :: (parts path).filter isProper
  else
    match parts path with
    | ['.'] :: more => ['.'] :: more.filter isProper
    | all => all.filter isProper

def fileName? (path : List Char) : Option (List Char) :=
  (components path).getLast?.filter fun name => name != ['/'] && name != ['.'] && name != ['.', '.']

/-- What stands before and after the last point of a name. -/
def splitLastPoint : List Char → Option (List Char × List Char)
  | [] => none
  | c :: rest =>
    match splitLastPoint rest with
    | some (stem, ext) => some (c :: stem, ext)
    | none => if c = '.' then some ([], rest) else none

theorem splitLastPoint_eq_none {name : List Char} : splitLastPoint name = none ↔ '.' ∉ name := by
  induction name with
  | nil => simp [splitLastPoint]
  | cons c rest ih =>
    simp only [splitLastPoint]
    cases h : splitLastPoint rest with
    | some found =>
      have : '.' ∈ rest := by
        by_cases hm : '.' ∈ rest
        · exact hm
        · rw [ih.2 hm] at h
          cases h
      simp [this]
    | none =>
      have hn := ih.1 h
      by_cases hc : c = '.'
      · simp [hc]
      · simp [hc, hn, Ne.symm hc]

theorem splitLastPoint_append {stem ext : List Char} (h : '.' ∉ ext) :
    splitLastPoint (stem ++ '.' :: ext) = some (stem, ext) := by
  induction stem with
  | nil => rw [List.nil_append, splitLastPoint, splitLastPoint_eq_none.mpr h, if_pos rfl]
  | cons c stem ih => rw [List.cons_append, splitLastPoint, ih]

theorem splitLastPoint_eq_some {name stem ext : List Char} :
    splitLastPoint name = some (stem, ext) ↔ name = stem ++ '.' :: ext ∧ '.' ∉ ext := by
  constructor
  · intro h
    induction name generalizing stem with
    | nil => cases h
    | cons c rest ih =>
      rw [splitLastPoint] at h
      cases hrest : splitLastPoint rest with
      | some found =>
        rw [hrest] at h
        cases h
        obtain ⟨rfl, hpoint⟩ := ih hrest
        exact ⟨rfl, hpoint⟩
      | none =>
        rw [hrest] at h
        dsimp only at h
        split at h
        · rename_i hc
          cases h
          exact ⟨by rw [hc, List.nil_append], splitLastPoint_eq_none.mp hrest⟩
        · cases h
  · intro h
    obtain ⟨rfl, hpoint⟩ := h
    exact splitLastPoint_append hpoint

/-- What stands after the last point of the file name, unless nothing stands before it. -/
def extension? (path : List Char) : Option (List Char) :=
  (fileName? path).bind fun name =>
    (splitLastPoint name).bind fun (stem, ext) => if stem.isEmpty then none else some ext

def join (directory name : List Char) : List Char :=
  if isAbsolute name then name
  else if directory = [] ∨ directory.getLast? = some '/' then directory ++ name
  else directory ++ '/' :: name

end MarkupAudit.Path
