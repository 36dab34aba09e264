import MarkupAudit.Audit
import MarkupAudit.Proofs.Walk
import Mathlib.Data.List.Sort

/-!
The files that an audit of a tree turns to. They are the files below the root that have one of the
extensions and of whose whole path no component is left out, as far as the directories on the way
can be entered, and each is turned to once, in the order of the bytes of the names. So leaving names
out during the walk comes to the same as walking everything and leaving out paths afterwards.
-/

namespace MarkupAudit

open FileSystem (Name Entry isName isTooLong)
open MarkupAudit.Path (along join)

def Event.audited? : Event → Option (List Char)
  | fileScanned path _ => some path
  | fileFailed path _ => some path
  | _ => none

namespace Audit

/-- The files that an audit of a tree turns to, in order. -/
def audited (fs : FileSystem) (config : Config) (root : List Char) : List (List Char) :=
  (tree fs config root).log.filterMap Event.audited?

/-- Names lead from a root through directories to a file, or a link to one, that has one of the
extensions and no component that is left out. -/
structure IsTarget (fs : FileSystem) (config : Config) (root : List Char) (names : List Name) :
    Prop where
  file : ∃ top found, fs.entry .follow root = .ok top ∧ top.get? names = some found ∧
    Walk.IsFileAt fs (along root names) found
  named : config.matchesExtension (along root names) = true
  kept : config.excludesPath (along root names) = false

/-- The path of every directory on the way is short enough. -/
def CanEnter (root : List Char) (names : List Name) : Prop :=
  ∀ front rest, names = front ++ rest → rest ≠ [] → isTooLong (along root front) = false

variable {fs : FileSystem} {config : Config} {root : List Char}

theorem audited_of_step (step : Walk.Step) :
    (Audit.step fs step).log.filterMap Event.audited? = step.scanned?.toList := by
  cases step with
  | file path =>
    rw [Audit.step, fileOrNone]
    cases file fs path <;> rfl
  | unreadable path cause => rfl

theorem audited_of_steps (walk : List Walk.Step) :
    (steps fs walk).log.filterMap Event.audited? = walk.filterMap Walk.Step.scanned? := by
  rw [steps]
  simp only
  induction walk with
  | nil => rfl
  | cons step walk ih =>
    rw [List.map_cons, List.flatMap_cons, List.filterMap_append, ih, audited_of_step,
      List.filterMap_cons]
    cases step.scanned? <;> rfl

theorem audited_eq (fs : FileSystem) (config : Config) (root : List Char) :
    audited fs config root = if config.excludesPath root then []
      else (Walk.fromRoot fs config root).filterMap Walk.Step.scanned? := by
  rw [audited, tree]
  split
  · rfl
  · simp only
    rw [List.cons_append, List.filterMap_cons_none rfl, List.filterMap_append, audited_of_steps]
    exact List.append_nil _

theorem isName_of_isTarget {names : List Name} (h : IsTarget fs config root names) :
    ∀ name ∈ names, isName name = true := by
  obtain ⟨top, found, htop, hget, _⟩ := h.file
  exact Entry.isName_of_get? (FileSystem.isSound_of_entry htop) hget

/-- The walk leaves names out one by one, which is to leave out the paths that have them. -/
theorem found_iff {names : List Name} (hroot : config.excludesPath root = false) :
    (∃ top, fs.entry .follow root = .ok top ∧ Walk.Found fs config root top names) ↔
      IsTarget fs config root names ∧ CanEnter root names := by
  constructor
  · intro h
    obtain ⟨top, htop, hf⟩ := h
    obtain ⟨found, hget, hfile⟩ := hf.target
    have hnames := Entry.isName_of_get? (FileSystem.isSound_of_entry htop) hget
    refine ⟨⟨⟨top, found, htop, hget, hfile⟩, hf.named, ?_⟩, hf.entered⟩
    rw [config.excludesPath_along hnames, hroot, Bool.false_or, List.any_eq_false]
    intro name hn
    simpa using hf.kept name hn
  · intro hfound
    obtain ⟨h, henter⟩ := hfound
    have hnames := isName_of_isTarget h
    obtain ⟨top, found, htop, hget, hfile⟩ := h.file
    have hkept := h.kept
    rw [config.excludesPath_along hnames, hroot, Bool.false_or, List.any_eq_false] at hkept
    refine ⟨top, htop, ⟨found, hget, hfile⟩, h.named, ?_, henter⟩
    intro name hn
    simpa using hkept name hn

theorem not_isTarget_of_root (hroot : config.excludesPath root = true) (names : List Name) :
    ¬IsTarget fs config root names := by
  intro h
  have hkept := h.kept
  rw [config.excludesPath_along (isName_of_isTarget h), hroot] at hkept
  cases hkept

theorem exists_keys (fs : FileSystem) (config : Config) (root : List Char) :
    ∃ keys : List (List Name), audited fs config root = keys.map (along root) ∧
      keys.Pairwise Walk.Before ∧
      ∀ names, names ∈ keys ↔ IsTarget fs config root names ∧ CanEnter root names := by
  rw [audited_eq]
  by_cases hroot : config.excludesPath root = true
  · rw [if_pos hroot]
    refine ⟨[], rfl, .nil, ?_⟩
    intro names
    exact iff_of_false (by simp) (fun h => not_isTarget_of_root hroot names h.1)
  · rw [if_neg hroot]
    rw [Bool.not_eq_true] at hroot
    exact (Walk.lists_fromRoot root).congr fun names => found_iff hroot

theorem along_mem_audited {names : List Name} (h : ∀ name ∈ names, isName name = true) :
    along root names ∈ audited fs config root ↔
      IsTarget fs config root names ∧ CanEnter root names := by
  obtain ⟨keys, heq, _, hmem⟩ := exists_keys fs config root
  rw [heq, List.mem_map, ← hmem]
  constructor
  · intro hfound
    obtain ⟨other, ho, hsame⟩ := hfound
    have hother := isName_of_isTarget ((hmem other).mp ho).1
    rw [← Path.along_inj hother h hsame]
    exact ho
  · intro hn
    exact ⟨names, hn, rfl⟩

theorem nodup_audited (fs : FileSystem) (config : Config) (root : List Char) :
    (audited fs config root).Nodup := by
  obtain ⟨keys, heq, hsorted, hmem⟩ := exists_keys fs config root
  have hnodup : keys.Nodup := by
    apply hsorted.imp
    rintro a b hab rfl
    exact Walk.before_irrefl a hab
  rw [heq]
  apply hnodup.map_on
  intro a ha b hb hab
  exact Path.along_inj (isName_of_isTarget ((hmem a).mp ha).1)
    (isName_of_isTarget ((hmem b).mp hb).1) hab

theorem isTarget_iff_keepAll {names : List Name} : IsTarget fs config root names ↔
    IsTarget fs { config with exclude := [] } root names ∧
      config.excludesPath (along root names) = false := by
  have hall : ∀ path, Config.excludesPath { config with exclude := [] } path = false := by
    intro path
    simp [Config.excludesPath, Config.excludesName]
  constructor
  · intro h
    exact ⟨⟨h.file, h.named, hall _⟩, h.kept⟩
  · intro hfound
    obtain ⟨h, hkept⟩ := hfound
    exact ⟨h.file, h.named, hkept⟩

/-- Names in order are told by which they are. -/
theorem keys_eq_of_mem_iff {keys keys' : List (List Name)} (hsorted : keys.Pairwise Walk.Before)
    (hsorted' : keys'.Pairwise Walk.Before) (h : ∀ names, names ∈ keys ↔ names ∈ keys') :
    keys = keys' := by
  have : Std.Irrefl Walk.Before := ⟨Walk.before_irrefl⟩
  have : Std.Antisymm Walk.Before := ⟨fun _ _ hab hba => absurd hba (Walk.before_asymm hab)⟩
  exact hsorted.eq_of_mem_iff hsorted' h

/-- Leaving names out during the walk comes to the same as leaving out paths after it. -/
theorem audited_eq_filter (fs : FileSystem) (config : Config) (root : List Char) :
    audited fs config root = (audited fs { config with exclude := [] } root).filter fun path =>
      !config.excludesPath path := by
  obtain ⟨keys, heq, hsorted, hmem⟩ := exists_keys fs config root
  obtain ⟨all, heq', hsorted', hmem'⟩ := exists_keys fs { config with exclude := [] } root
  have hkeys : keys = all.filter fun names => !config.excludesPath (along root names) := by
    apply keys_eq_of_mem_iff hsorted (hsorted'.filter _)
    intro names
    rw [hmem, List.mem_filter, hmem', isTarget_iff_keepAll, Bool.not_eq_true']
    exact and_right_comm
  rw [heq, heq', hkeys, List.filter_map]
  rfl

section LongPath

def nested : FileSystem where
  entries := [("dd".toList, .directory [("a.ts".toList, .file ⟨#[]⟩)])]
  home := []
  sound := by decide

/-- The working directory, told by a path that is almost too long. -/
def slashes (n : Nat) : List Char := '.' :: List.replicate (n + 1) '/'

theorem parts_replicate (n : Nat) :
    Path.parts (List.replicate n '/') = List.replicate (n + 1) [] := by
  induction n with
  | zero => rfl
  | succ n ih =>
    rw [List.replicate_succ, Path.parts, if_pos rfl, ih]
    rfl

theorem byteLength_replicate (n : Nat) : Text.byteLength (List.replicate n '/') = n := by
  induction n with
  | zero => rfl
  | succ n ih =>
    have hslash : ('/' : Char).utf8Size = 1 := by decide
    rw [List.replicate_succ, Text.byteLength_cons, ih, hslash]
    omega

theorem byteLength_slashes (n : Nat) : Text.byteLength (slashes n) = n + 2 := by
  have hpoint : ('.' : Char).utf8Size = 1 := by decide
  rw [slashes, Text.byteLength_cons, byteLength_replicate, hpoint]
  omega

theorem along_slashes (n : Nat) {name : Name} (h : isName name = true) :
    along (slashes n) [name] = slashes n ++ name := by
  have hlast : (slashes n).getLast? = some '/' := by
    rw [slashes, List.replicate_succ', ← List.cons_append, List.getLast?_append]
    rfl
  rw [Path.along_cons, Path.along_nil, join, Path.isAbsolute_of_isName h, if_neg (by simp),
    if_pos (Or.inr hlast)]

theorem descend_of_improper {fs : FileSystem} {access : FileSystem.Access}
    {enter : FileSystem.Trail → List Name → Except FileSystem.Cause FileSystem.Place}
    {parts : List Name} (h : ∀ part ∈ parts, Path.isProper part = false)
    (trail : FileSystem.Trail) : FileSystem.descend fs access enter trail parts =
      .ok (.existing trail.names (.directory (trail.inside fs))) := by
  induction parts with
  | nil => rfl
  | cons part more ih =>
    rw [List.forall_mem_cons] at h
    rw [FileSystem.descend, h.1, ih h.2]
    rfl

theorem improper_slashes (n : Nat) :
    ∀ part ∈ Path.parts (slashes n), Path.isProper part = false := by
  have hparts : Path.parts (slashes n) = ['.'] :: List.replicate (n + 1) [] := by
    rw [slashes, List.replicate_succ, ← List.singleton_append, Path.parts_append, parts_replicate]
    rfl
  intro part hp
  rw [hparts, List.mem_cons, List.mem_replicate] at hp
  rcases hp with rfl | ⟨_, rfl⟩ <;> rfl

theorem entry_slashes {fs : FileSystem} (hhome : fs.home = []) {n : Nat}
    (h : n + 2 ≤ FileSystem.pathLimit) : fs.entry .follow (slashes n) = .ok fs.top := by
  have hlong : isTooLong (slashes n) = false := by
    rw [isTooLong, byteLength_slashes, decide_eq_false_iff_not]
    omega
  have hzero : '\x00' ∉ slashes n := by
    rw [slashes, List.mem_cons, List.mem_replicate]
    simp
  have hstart : fs.start false = .ok [] := by
    rw [FileSystem.start, if_neg (by simp), hhome]
    rfl
  have hfollow : fs.follow .follow false (Path.parts (slashes n)) = .ok (.existing [] fs.top) := by
    rw [FileSystem.follow, hstart]
    exact descend_of_improper (improper_slashes n) []
  have hresolve : fs.resolve .follow (slashes n) = .ok (.existing [] fs.top) := by
    rw [FileSystem.resolve, if_neg (by simp [slashes]), if_neg hzero, hlong]
    exact hfollow
  rw [FileSystem.entry, hresolve]

/-- The directory is not entered, for its path has two bytes more than the root. -/
theorem not_mem_audited_slashes {n : Nat} (h : n + 2 ≤ FileSystem.pathLimit)
    (hlong : FileSystem.pathLimit < n + 4) :
    IsTarget nested ⟨["ts"], []⟩ (slashes n) ["dd".toList, "a.ts".toList] ∧
      along (slashes n) ["dd".toList, "a.ts".toList] ∉ audited nested ⟨["ts"], []⟩ (slashes n) := by
  have hnames : ∀ name ∈ ["dd".toList, "a.ts".toList], isName name = true := by decide
  constructor
  · refine ⟨⟨nested.top, .file ⟨#[]⟩, entry_slashes rfl h, rfl, trivial⟩, ?_, ?_⟩
    · rw [Config.matchesExtension, Path.extension?, Path.fileName?, Path.components_along hnames,
        List.getLast?_append]
      rfl
    · rw [Config.excludesPath_along _ hnames]
      simp [Config.excludesPath, Config.excludesName]
  · rw [along_mem_audited hnames]
    intro h
    obtain ⟨_, henter⟩ := h
    have hentered := henter ["dd".toList] ["a.ts".toList] rfl (by simp)
    have hdd : Text.byteLength "dd".toList = 2 := by decide
    rw [along_slashes n (by decide), isTooLong, Text.byteLength_append, byteLength_slashes, hdd,
      decide_eq_false_iff_not] at hentered
    omega

end LongPath

/-- An audit of a tree turns to each target once, in the order of the bytes of its names, as far as
the directories on the way can be entered; to leave names out on the way makes no difference to
leaving out paths. -/
theorem audited_targets_in_order (fs : FileSystem) (config : Config) (root : List Char) :
    (∃ keys : List (List Name), audited fs config root = keys.map (along root) ∧
      keys.Pairwise (fun a b => a.map Text.bytes < b.map Text.bytes) ∧
      ∀ names, names ∈ keys ↔ IsTarget fs config root names ∧ CanEnter root names) ∧
    (audited fs config root).Nodup ∧
    audited fs config root = (audited fs { config with exclude := [] } root).filter fun path =>
      !config.excludesPath path :=
  ⟨exists_keys fs config root, nodup_audited fs config root, audited_eq_filter fs config root⟩

theorem long_directory_not_entered :
    IsTarget nested ⟨["ts"], []⟩ (slashes 4092) ["dd".toList, "a.ts".toList] ∧
      along (slashes 4092) ["dd".toList, "a.ts".toList] ∉
        audited nested ⟨["ts"], []⟩ (slashes 4092) :=
  not_mem_audited_slashes (by decide) (by decide)

end Audit

end MarkupAudit
