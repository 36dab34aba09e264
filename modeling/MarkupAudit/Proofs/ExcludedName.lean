import MarkupAudit.Proofs.Path
import Mathlib.Logic.Relation

/-!
Names that are left out. A path is left out when one of its pieces between slashes is such a name as
a whole; pieces that say nothing do not count (`Path.telling`). So it does not matter how the slashes
of a path are written, and a path joined to another is left out when either of them is
(`excludesPath_whole_components`).
-/

namespace MarkupAudit

namespace Path

/-- Whether a piece at a position of a path counts: no empty one does, and a single point only at the
very beginning. -/
def tells (position : Nat) (piece : List Char) : Bool :=
  piece != [] && (piece != ['.'] || position == 0)

/-- The pieces between the slashes of a path that count; a slash at the front is one of its own. -/
def telling (path : List Char) : List (List Char) :=
  (if path.head? = some '/' then [['/']] else []) ++
    ((path.splitOn '/').zipIdx.filter fun piece => tells piece.2 piece.1).map (·.1)

/-- One more or one less of what does not matter: a repeated slash, a single point between slashes, and
either of them at the end. -/
inductive Respells : List Char → List Char → Prop
  | slash (a b : List Char) : Respells (a ++ '/' :: b) (a ++ '/' :: '/' :: b)
  | point (a b : List Char) : Respells (a ++ '/' :: b) (a ++ '/' :: '.' :: '/' :: b)
  | lastSlash {a : List Char} (ha : a ≠ []) : Respells a (a ++ ['/'])
  | lastPoint {a : List Char} (ha : a ≠ []) : Respells a (a ++ ['/', '.'])

theorem parts_eq_splitOn (path : List Char) : parts path = path.splitOn '/' := by
  have hsplit := List.splitOn_intercalate '/' (fun _ => slash_not_mem_parts) (parts_ne_nil path)
  rw [intercalate_parts] at hsplit
  exact hsplit.symm

/-- Behind the first position a piece counts when it is proper. -/
theorem filter_tells (pieces : List (List Char)) (n : Nat) :
    ((pieces.zipIdx (n + 1)).filter fun piece => tells piece.2 piece.1).map (·.1) =
      pieces.filter isProper := by
  induction pieces generalizing n with
  | nil => rfl
  | cons piece pieces ih =>
    have htells : tells (n + 1) piece = isProper piece := by simp [tells, isProper]
    rw [List.zipIdx_cons, List.filter_cons, List.filter_cons, htells]
    split
    · rw [List.map_cons, ih]
    · exact ih (n + 1)

theorem head?_eq_slash {path first : List Char} {more : List (List Char)}
    (hparts : parts path = first :: more) (h : path.head? = some '/') : first = [] := by
  cases path with
  | nil => cases h
  | cons c rest =>
    cases h
    exact (List.cons.inj hparts).1.symm

theorem components_eq_telling (path : List Char) : components path = telling path := by
  obtain ⟨first, more, hparts⟩ := List.exists_cons_of_ne_nil (parts_ne_nil path)
  have hkept : ((first :: more).zipIdx.filter fun piece => tells piece.2 piece.1).map (·.1) =
      (if first = [] then [] else [first]) ++ more.filter isProper := by
    rw [← filter_tells more 0, List.zipIdx_cons, List.filter_cons]
    by_cases hempty : first = []
    · rw [if_pos hempty, if_neg (by simp [tells, hempty]), List.nil_append]
    · rw [if_neg hempty, if_pos (by simp [tells, hempty]), List.map_cons, List.singleton_append]
  rw [components_eq, telling, front, ← parts_eq_splitOn, hparts, hkept, List.filter_cons]
  by_cases habsolute : path.head? = some '/'
  · simp [isAbsolute, isProper, habsolute, head?_eq_slash hparts habsolute]
  · by_cases hpoint : first = ['.']
    · simp [isAbsolute, isProper, habsolute, hpoint]
    · by_cases hempty : first = []
      · simp [isAbsolute, isProper, habsolute, hempty]
      · simp [isAbsolute, isProper, habsolute, hpoint, hempty]

theorem Respells.components_eq {path other : List Char} (h : Respells path other) :
    components path = components other := by
  cases h with
  | slash a b => rw [components_behind_slash, components_behind_slash a ('/' :: b)]; rfl
  | point a b =>
    have hpoint : parts ('.' :: '/' :: b) = ['.'] :: parts b := parts_append ['.'] b
    rw [components_behind_slash, components_behind_slash a ('.' :: '/' :: b), hpoint]
    rfl
  | lastSlash ha => exact (components_slash ha).symm
  | lastPoint ha =>
    rw [components_behind_slash path ['.'], components_slash ha]
    exact (List.append_nil _).symm

/-- A relative path that does not begin with a single point has its own pieces as components. -/
theorem components_of_relative {b : List Char} (hb : isAbsolute b = false)
    (hfirst : (components b).head? ≠ some ['.']) : components b = (parts b).filter isProper := by
  have hhead : (parts b).head? ≠ some ['.'] := by
    intro hpoint
    apply hfirst
    rw [components_eq, front, hb, if_neg (by simp), if_pos hpoint]
    rfl
  rw [components_eq, front, hb, if_neg (by simp), if_neg hhead, List.nil_append]

theorem components_join_of_relative {a b : List Char} (ha : a ≠ []) (hb : isAbsolute b = false)
    (hfirst : (components b).head? ≠ some ['.']) :
    components (join a b) = components a ++ components b := by
  rw [join, hb, if_neg (by simp), components_of_relative hb hfirst]
  split
  · rename_i hends
    obtain ⟨front, rfl⟩ := List.getLast?_eq_some_iff.mp (hends.resolve_left ha)
    rw [List.append_assoc, List.singleton_append, components_behind_slash]
  · rw [components_behind_slash, components_slash ha]

end Path

namespace Config

theorem excludesName_iff {config : Config} {name : List Char} :
    config.excludesName name = true ↔ ∃ excluded ∈ config.exclude, excluded.toList = name := by
  simp [excludesName]

theorem excludesPath_iff {config : Config} {path : List Char} : config.excludesPath path = true ↔
    ∃ component ∈ Path.telling path, ∃ excluded ∈ config.exclude, excluded.toList = component := by
  simp only [excludesPath, Path.components_eq_telling, List.any_eq_true, excludesName_iff]

/-- Names are left out as whole components of a path. Pieces between slashes are components when they
say something; how the slashes are written does not matter; a component that has a name in it and more
does not count; and a path joined to another is left out when one of the two is. -/
theorem excludesPath_whole_components (config : Config) :
    (∀ path, config.excludesPath path = true ↔
      ∃ component ∈ Path.telling path, ∃ excluded ∈ config.exclude, excluded.toList = component) ∧
    (∀ path other, Relation.EqvGen Path.Respells path other →
      config.excludesPath path = config.excludesPath other) ∧
    (∀ path, (∀ component ∈ Path.telling path, ∀ excluded ∈ config.exclude,
      excluded.toList <:+: component → excluded.toList ≠ component) →
        config.excludesPath path = false) ∧
    (∀ a b, a ≠ [] → Path.isAbsolute b = false → (Path.telling b).head? ≠ some ['.'] →
      config.excludesPath (Path.join a b) = (config.excludesPath a || config.excludesPath b)) := by
  refine ⟨fun path => excludesPath_iff, ?_, ?_, ?_⟩
  · intro path other h
    have hcomponents : Path.components path = Path.components other := by
      induction h with
      | rel _ _ h => exact h.components_eq
      | refl _ => rfl
      | symm _ _ _ ih => exact ih.symm
      | trans _ _ _ _ _ ih ih' => exact ih.trans ih'
    rw [excludesPath, excludesPath, hcomponents]
  · intro path hnone
    rw [Bool.eq_false_iff]
    intro h
    obtain ⟨component, hc, excluded, he, heq⟩ := excludesPath_iff.mp h
    exact hnone component hc excluded he (heq ▸ List.infix_refl _) heq
  · intro a b ha hb hfirst
    rw [← Path.components_eq_telling] at hfirst
    rw [excludesPath, Path.components_join_of_relative ha hb hfirst, List.any_append]
    rfl

/-- A path written with slashes and points to spare, a longer name, and two paths joined. -/
theorem excludesPath_whole_components_respelled :
    Config.default.excludesPath "app//node_modules/./x.js".toList =
      Config.default.excludesPath "app/node_modules/x.js".toList ∧
    Config.default.excludesPath "app/node_modules_backup/x.js".toList = false ∧
    Config.default.excludesPath (Path.join "app/".toList "node_modules/x.js".toList) =
      (Config.default.excludesPath "app/".toList ||
        Config.default.excludesPath "node_modules/x.js".toList) ∧
    Config.default.excludesPath "app/node_modules/x.js".toList = true := by
  obtain ⟨_, hspelling, hlonger, hjoin⟩ := excludesPath_whole_components Config.default
  have hslash : Path.Respells "app/node_modules/./x.js".toList "app//node_modules/./x.js".toList :=
    .slash "app".toList "node_modules/./x.js".toList
  have hpoint : Path.Respells "app/node_modules/x.js".toList "app/node_modules/./x.js".toList :=
    .point "app/node_modules".toList "x.js".toList
  refine ⟨?_, ?_, ?_, by decide +kernel⟩
  · exact hspelling _ _ (.trans _ _ _ (.symm _ _ (.rel _ _ hslash)) (.symm _ _ (.rel _ _ hpoint)))
  · apply hlonger
    decide +kernel
  · exact hjoin _ _ (by decide) (by decide) (by decide +kernel)

end Config

end MarkupAudit
