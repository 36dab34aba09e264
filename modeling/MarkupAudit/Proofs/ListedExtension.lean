import MarkupAudit.Proofs.Config.BareExtension
import MarkupAudit.Proofs.ExcludedName

/-!
Extensions that are listed. The file name of a path is what stands behind its last slash when the
slashes and single points at its end are left off (`Path.LastName`); its extension is what stands
behind the last point of the name, unless nothing stands before that point. A path matches when its
extension is listed just as it is (`matchesExtension_of_last_name`).
-/

namespace MarkupAudit

namespace Path

/-- Slashes and single points at the end of a path, which say nothing. -/
inductive Trailing : List Char → Prop
  | nil : Trailing []
  | slash {behind : List Char} : Trailing behind → Trailing ('/' :: behind)
  | point {behind : List Char} : Trailing behind → Trailing ('/' :: '.' :: behind)

/-- A path ends in a name, but for what says nothing; one point and two points are no names. -/
structure LastName (path name : List Char) : Prop where
  ends : ∃ front behind, path = front ++ name ++ behind ∧
    (front = [] ∨ front.getLast? = some '/') ∧ Trailing behind
  not_empty : name ≠ []
  no_slash : '/' ∉ name
  not_point : name ≠ ['.']
  not_points : name ≠ ['.', '.']

theorem components_append_trailing {path behind : List Char} (hpath : path ≠ [])
    (h : Trailing behind) : components (path ++ behind) = components path := by
  induction h generalizing path with
  | nil => rw [List.append_nil]
  | @slash behind _ ih =>
    have hsplit : path ++ '/' :: behind = path ++ ['/'] ++ behind := by simp
    rw [hsplit, ih (by simp), components_slash hpath]
  | @point behind _ ih =>
    have hsplit : path ++ '/' :: '.' :: behind = path ++ ['/', '.'] ++ behind := by simp
    rw [hsplit, ih (by simp), ← (Respells.lastPoint hpath).components_eq]

theorem LastName.fileName?_eq {path name : List Char} (h : LastName path name) :
    fileName? path = some name := by
  obtain ⟨⟨front, behind, rfl, hfront, hbehind⟩, hempty, hslash, hpoint, hpoints⟩ := h
  have hproper : (parts name).filter isProper = [name] := by
    rw [parts_of_not_mem hslash]
    simp [isProper, hempty, hpoint]
  have hlast : ∃ before, components (front ++ name) = before ++ [name] := by
    rcases hfront with rfl | hfront
    · refine ⟨Path.front name, ?_⟩
      rw [List.nil_append, components_eq, hproper]
    · obtain ⟨outer, rfl⟩ := List.getLast?_eq_some_iff.mp hfront
      refine ⟨components (outer ++ ['/']), ?_⟩
      rw [List.append_assoc, List.singleton_append, components_behind_slash, hproper]
  obtain ⟨before, hbefore⟩ := hlast
  have hbare : name ≠ ['/'] := by
    rintro rfl
    simp at hslash
  rw [fileName?, components_append_trailing (by simp [hempty]) hbehind, hbefore,
    List.getLast?_concat, Option.filter_some]
  simp [hbare, hpoint, hpoints]

theorem intercalate_cons (piece : List Char) (behind : List (List Char)) :
    ['/'].intercalate (piece :: behind) = piece ++ behind.flatMap ('/' :: ·) := by
  induction behind generalizing piece with
  | nil => simp
  | cons next behind ih =>
    rw [List.intercalate_cons_cons, ih]
    simp

/-- A slash stands behind every piece that comes before one, and in front of every piece behind it. -/
theorem intercalate_around (before : List (List Char)) (piece : List Char)
    (behind : List (List Char)) : ['/'].intercalate (before ++ piece :: behind) =
      before.flatMap (· ++ ['/']) ++ piece ++ behind.flatMap ('/' :: ·) := by
  induction before with
  | nil => exact intercalate_cons piece behind
  | cons first before ih =>
    obtain ⟨next, more, heq⟩ : ∃ next more, before ++ piece :: behind = next :: more := by
      cases before <;> simp
    rw [List.cons_append, heq, List.intercalate_cons_cons, ← heq, ih]
    simp

theorem trailing_of_not_proper {behind : List (List Char)}
    (h : ∀ piece ∈ behind, isProper piece = false) : Trailing (behind.flatMap ('/' :: ·)) := by
  induction behind with
  | nil => exact .nil
  | cons piece behind ih =>
    rw [List.forall_mem_cons] at h
    have hpiece : piece = [] ∨ piece = ['.'] := by
      by_contra hne
      rw [not_or] at hne
      simp [isProper, hne.1, hne.2] at h
    rcases hpiece with rfl | rfl
    · exact .slash (ih h.2)
    · exact .point (ih h.2)

theorem getLast?_flatMap_slash (before : List (List Char)) :
    before.flatMap (· ++ ['/']) = [] ∨ (before.flatMap (· ++ ['/'])).getLast? = some '/' := by
  rcases List.eq_nil_or_concat' before with rfl | ⟨outer, piece, rfl⟩
  · exact Or.inl rfl
  · right
    rw [List.flatMap_append, List.flatMap_singleton, ← List.append_assoc, List.getLast?_concat]

theorem lastName_of_fileName? {path name : List Char} (h : fileName? path = some name) :
    LastName path name := by
  obtain ⟨hlast, hname⟩ := Option.filter_eq_some_iff.mp h
  simp only [Bool.and_eq_true, bne_iff_ne] at hname
  obtain ⟨⟨hbare, hpoint⟩, hpoints⟩ := hname
  -- The component at the front is no name, so the last one is a proper part.
  have hproper : ((parts path).filter isProper).getLast? = some name := by
    rw [components_eq, List.getLast?_append, Option.or_eq_some_iff] at hlast
    rcases hlast with hlast | ⟨_, hfront⟩
    · exact hlast
    · unfold front at hfront
      split at hfront
      · exact absurd (Option.some.inj hfront).symm hbare
      · split at hfront
        · exact absurd (Option.some.inj hfront).symm hpoint
        · cases hfront
  obtain ⟨kept, hkept⟩ := List.getLast?_eq_some_iff.mp hproper
  obtain ⟨outer, inner, hparts, _, hinner⟩ := List.filter_eq_append_iff.mp hkept
  obtain ⟨skipped, behind, rfl, _, hisProper, hbehind⟩ := List.filter_eq_cons_iff.mp hinner
  have hpath := intercalate_parts path
  rw [hparts, ← List.append_assoc, intercalate_around] at hpath
  have hmem : name ∈ parts path := by
    rw [hparts]
    simp
  refine ⟨⟨_, _, hpath.symm, getLast?_flatMap_slash _, ?_⟩, ?_, slash_not_mem_parts hmem, hpoint,
    hpoints⟩
  · apply trailing_of_not_proper
    intro piece hp
    exact Bool.eq_false_iff.mpr (List.filter_eq_nil_iff.mp hbehind piece hp)
  · rintro rfl
    cases hisProper

theorem fileName?_eq_some_iff {path name : List Char} :
    fileName? path = some name ↔ LastName path name :=
  ⟨lastName_of_fileName?, LastName.fileName?_eq⟩

theorem LastName.unique {path name other : List Char} (h : LastName path name)
    (ho : LastName path other) : name = other :=
  Option.some.inj (h.fileName?_eq.symm.trans ho.fileName?_eq)

theorem extension?_eq_some_iff {path ext : List Char} : extension? path = some ext ↔
    ∃ stem, LastName path (stem ++ '.' :: ext) ∧ stem ≠ [] ∧ '.' ∉ ext := by
  simp only [extension?, Option.bind_eq_some_iff, fileName?_eq_some_iff]
  constructor
  · intro h
    obtain ⟨name, hname, ⟨stem, ext'⟩, hsplit, hext⟩ := h
    obtain ⟨rfl, hpoint⟩ := splitLastPoint_eq_some.mp hsplit
    simp only [Option.ite_none_left_eq_some, Option.some.injEq, List.isEmpty_iff] at hext
    obtain ⟨hstem, rfl⟩ := hext
    exact ⟨stem, hname, hstem, hpoint⟩
  · intro h
    obtain ⟨stem, hname, hstem, hpoint⟩ := h
    refine ⟨_, hname, (stem, ext), splitLastPoint_eq_some.mpr ⟨rfl, hpoint⟩, ?_⟩
    simp [hstem]

theorem not_mem_of_extension? {path ext : List Char} (h : extension? path = some ext) :
    '.' ∉ ext ∧ '/' ∉ ext := by
  obtain ⟨stem, hname, _, hpoint⟩ := extension?_eq_some_iff.mp h
  have hslash := hname.no_slash
  rw [List.mem_append, List.mem_cons, not_or, not_or] at hslash
  exact ⟨hpoint, hslash.2.2⟩

end Path

namespace Config

theorem matchesExtension_iff {config : Config} {path : List Char} :
    config.matchesExtension path = true ↔
      ∃ ext ∈ config.extensions, Path.extension? path = some ext.toList := by
  rw [matchesExtension]
  cases Path.extension? path with
  | none => simp
  | some found =>
    simp only [List.any_eq_true, beq_iff_eq, Option.some.injEq]
    exact exists_congr fun ext => and_congr_right fun _ => eq_comm

theorem matchesExtension_congr {config config' : Config} {path : List Char}
    (h : ∀ ext, Path.extension? path = some ext.toList →
      (ext ∈ config.extensions ↔ ext ∈ config'.extensions)) :
    config.matchesExtension path = config'.matchesExtension path := by
  rw [Bool.eq_iff_iff, matchesExtension_iff, matchesExtension_iff]
  exact exists_congr fun ext => and_congr_left fun hext => h ext hext

/-- A file is taken by the last name of its path. What stands behind the last point of the name must be
listed as it is, with something before the point: a name with a point in front only is never taken, one
that ends in a point only for the empty extension, and a listed extension with a point or a slash in it
takes none. In a normalized configuration points before the listed extensions do not matter. -/
theorem matchesExtension_of_last_name (config : Config) :
    (∀ path, config.matchesExtension path = true ↔
      ∃ stem ext, Path.LastName path (stem ++ '.' :: ext) ∧ stem ≠ [] ∧ '.' ∉ ext ∧
        ∃ listed ∈ config.extensions, listed.toList = ext) ∧
    (∀ path name, Path.LastName path ('.' :: name) → '.' ∉ name →
      config.matchesExtension path = false) ∧
    (∀ path name, Path.LastName path (name ++ ['.']) →
      (config.matchesExtension path = true ↔ "" ∈ config.extensions)) ∧
    (∀ before listed behind, config.extensions = before ++ listed :: behind →
      '.' ∈ listed.toList ∨ '/' ∈ listed.toList → ∀ path, config.matchesExtension path =
        { config with extensions := before ++ behind }.matchesExtension path) ∧
    (∀ config' : Config, List.Forall₂ (fun ext ext' => IsDotted ext.toList ext'.toList)
      config.extensions config'.extensions → ∀ path,
        config'.normalized.matchesExtension path = config.normalized.matchesExtension path) := by
  refine ⟨?_, ?_, ?_, ?_, ?_⟩
  · intro path
    rw [matchesExtension_iff]
    constructor
    · intro h
      obtain ⟨listed, hlisted, hext⟩ := h
      obtain ⟨stem, hname, hstem, hpoint⟩ := Path.extension?_eq_some_iff.mp hext
      exact ⟨stem, listed.toList, hname, hstem, hpoint, listed, hlisted, rfl⟩
    · intro h
      obtain ⟨stem, _, hname, hstem, hpoint, listed, hlisted, rfl⟩ := h
      exact ⟨listed, hlisted, Path.extension?_eq_some_iff.mpr ⟨stem, hname, hstem, hpoint⟩⟩
  · intro path name hname hpoint
    rw [Bool.eq_false_iff]
    intro hmatch
    obtain ⟨listed, _, hext⟩ := matchesExtension_iff.mp hmatch
    obtain ⟨stem, hfound, hstem, _⟩ := Path.extension?_eq_some_iff.mp hext
    obtain ⟨c, stem, rfl⟩ := List.exists_cons_of_ne_nil hstem
    obtain ⟨_, rfl⟩ := List.cons.inj (hname.unique hfound)
    simp at hpoint
  · intro path name hname
    have hstem : name ≠ [] := by
      rintro rfl
      exact hname.not_point rfl
    have hext : Path.extension? path = some "".toList :=
      Path.extension?_eq_some_iff.mpr ⟨name, hname, hstem, by simp⟩
    rw [matchesExtension_iff, hext]
    simp only [Option.some.injEq, String.toList_inj]
    exact exists_eq_right'
  · intro before listed behind hextensions hlisted path
    apply matchesExtension_congr
    intro ext hext
    have hne : ext ≠ listed := by
      rintro rfl
      have hnot := Path.not_mem_of_extension? hext
      exact hlisted.elim hnot.1 hnot.2
    rw [hextensions]
    simp [hne]
  · intro config' hdotted path
    apply matchesExtension_congr
    intro ext _
    rw [normalized, normalized, map_bareExtension hdotted]

/-- A hidden file, a name that ends in a point behind which the path goes on with points and slashes, an
extension with a point in it, and points before the listed extensions. -/
theorem matchesExtension_of_last_name_assorted :
    (⟨["ts", "", "d.ts"], []⟩ : Config).matchesExtension "src/.ts".toList = false ∧
    (⟨["ts", "", "d.ts"], []⟩ : Config).matchesExtension "src/a..//./".toList = true ∧
    (⟨["ts", "", "d.ts"], []⟩ : Config).matchesExtension "a.d.ts".toList =
      (⟨["ts", ""], []⟩ : Config).matchesExtension "a.d.ts".toList ∧
    (⟨["..ts", ".", ".d.ts"], []⟩ : Config).normalized.matchesExtension "a.d.ts".toList =
      (⟨["ts", "", "d.ts"], []⟩ : Config).normalized.matchesExtension "a.d.ts".toList ∧
    (⟨["ts", ""], []⟩ : Config).matchesExtension "a.d.ts".toList = true := by
  obtain ⟨_, hhidden, hpoint, hlisted, hdotted⟩ :=
    matchesExtension_of_last_name ⟨["ts", "", "d.ts"], []⟩
  have hfront : Path.LastName "src/.ts".toList ".ts".toList :=
    ⟨⟨"src/".toList, [], by decide, Or.inr (by decide), .nil⟩, by decide, by decide, by decide,
      by decide⟩
  have hends : Path.LastName "src/a..//./".toList "a..".toList :=
    ⟨⟨"src/".toList, "//./".toList, by decide, Or.inr (by decide), .slash (.point (.slash .nil))⟩,
      by decide, by decide, by decide, by decide⟩
  refine ⟨hhidden _ "ts".toList hfront (by decide), ?_, ?_, ?_, by decide⟩
  · exact (hpoint _ "a.".toList hends).mpr (by decide)
  · exact hlisted ["ts", ""] "d.ts" [] rfl (Or.inl (by decide)) _
  · exact hdotted ⟨["..ts", ".", ".d.ts"], []⟩
      (.cons ⟨2, by decide⟩ (.cons ⟨1, by decide⟩ (.cons ⟨1, by decide⟩ .nil))) _

end Config

end MarkupAudit
