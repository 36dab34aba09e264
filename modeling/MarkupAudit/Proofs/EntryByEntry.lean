import MarkupAudit.Proofs.AuditedPath

/-!
An audit of a directory entry by entry. A walk comes upon an entry in another way than it begins at
one: it leaves out an entry for its name alone, and does not go through a link to a directory. But for
such links both ways give the same issues (`value_tree_join`). So the issues of a directory are those
of its entries, audited one by one in the order of their names.
-/

namespace MarkupAudit

open FileSystem (Name Entry Cause isTooLong)
open MarkupAudit.Path (join)

namespace Walk

variable {fs : FileSystem} {config : Config} {path : List Char} {entries listed : List (Name × Entry)}

/-- What a directory has is sorted by the names of the entries it comes from. -/
theorem mergeSort_below (hperm : listed.Perm entries)
    (hsorted : listed.Pairwise fun a b => a.1 < b.1) :
    (below fs config path entries).mergeSort (fun a b => nameLE a.1 b.1) =
      below fs config path listed := by
  have hbelow : (below fs config path listed).Perm (below fs config path entries) := by
    rw [below_eq, below_eq]
    exact (hperm.filter _).map _
  have hlisted : (below fs config path listed).Pairwise fun a b => a.1 < b.1 := by
    rw [below_eq, List.pairwise_map]
    exact hsorted.filter _
  have hne : (below fs config path entries).Pairwise fun a b => a.1 ≠ b.1 := by
    apply hbelow.pairwise (hlisted.imp _) Ne.symm
    intro a b hlt heq
    exact List.lt_irrefl _ (heq ▸ hlt)
  apply List.Perm.eq_of_pairwise _ (pairwise_mergeSort_names hne) hlisted
    ((List.mergeSort_perm ..).trans hbelow.symm)
  intro a b _ _ hab hba
  exact absurd hba (List.lt_asymm hab)

theorem exists_listed (h : (Entry.directory entries).isSound = true) :
    ∃ listed : List (Name × Entry), listed.Perm entries ∧
      listed.Pairwise fun a b => a.1 < b.1 := by
  have hnodup := (Entry.areSound_iff.mp (Entry.isSound_directory entries ▸ h)).1
  exact ⟨_, List.mergeSort_perm .., pairwise_mergeSort_names (List.pairwise_map.mp hnodup)⟩

end Walk

namespace FileSystem

/-- Whether an entry is a link whose path leads to a directory. -/
def isDirectoryLink (fs : FileSystem) (path : List Char) : Entry → Bool
  | .link _ =>
    match fs.entry .follow path with
    | .ok entry => entry.isDirectory
    | .error _ => false
  | _ => false

end FileSystem

namespace Audit

variable {fs : FileSystem} {config : Config} {root path : List Char} {name : Name} {entry : Entry}
  {entries listed : List (Name × Entry)}

theorem value_steps_flatMap {α : Type} (items : List α) (walk : α → List Walk.Step) :
    (steps fs (items.flatMap walk)).value = items.flatMap fun item => (steps fs (walk item)).value := by
  simp only [steps, List.map_flatMap, List.flatMap_assoc]

theorem block_of_error {cause : Cause} (h : fs.entry .follow path = .error cause) :
    block fs path = [] := by
  rw [block, FileSystem.readText, h]

/-- Nothing is found at a path that is too long. -/
theorem value_steps_of_isTooLong (h : isTooLong path = true) (entry : Entry) :
    (steps fs (Walk.steps fs config path entry)).value = [] := by
  obtain ⟨cause, hcause⟩ := FileSystem.exists_error_of_isTooLong fs h
  cases entry with
  | file content =>
    rw [Walk.steps, value_steps]
    split
    · exact (List.flatMap_singleton ..).trans (block_of_error hcause)
    · rfl
  | link target =>
    rw [Walk.steps, FileSystem.isFile_of_error hcause]
    rfl
  | directory entries =>
    rw [Walk.steps, if_pos h]
    rfl

theorem value_steps_link (target : List Char) :
    (steps fs (Walk.steps fs config path (.link target))).value =
      if fs.isFile path && config.matchesExtension path then block fs path else [] := by
  rw [Walk.steps, value_steps]
  split
  · exact List.flatMap_singleton ..
  · rfl

/-- A link that is audited as a tree has what the walk finds that comes upon it. -/
theorem value_tree_link (hroot : config.excludesPath path = false) (target : List Char) :
    (if fs.isDirectoryLink path (.link target) then [] else (tree fs config path).value) =
      (steps fs (Walk.steps fs config path (.link target))).value := by
  rw [value_steps_link]
  cases h : fs.entry .follow path with
  | error cause =>
    rw [FileSystem.isFile_of_error h, value_tree_of_error h, ite_self]
    rfl
  | ok top =>
    rw [FileSystem.isFile_of_ok h]
    cases top with
    | file content =>
      have hlink : fs.isDirectoryLink path (.link target) = false := by
        rw [FileSystem.isDirectoryLink, h]
        rfl
      rw [hlink, value_tree_of_file h, hroot, Bool.not_false, Bool.and_true]
      rfl
    | directory entries =>
      have hlink : fs.isDirectoryLink path (.link target) = true := by
        rw [FileSystem.isDirectoryLink, h]
        rfl
      rw [hlink]
      rfl
    | link other => exact absurd h (FileSystem.entry_follow_ne_link fs path other)

section Directory

variable (h : fs.entry .follow root = .ok (.directory entries))
include h

/-- What a walk finds that comes upon an entry, an audit finds that begins at it. -/
theorem value_tree_join (hroot : config.excludesPath root = false) (hmem : (name, entry) ∈ entries) :
    (if fs.isDirectoryLink (join root name) entry then []
      else (tree fs config (join root name)).value) =
      if config.excludesName name then []
      else (steps fs (Walk.steps fs config (join root name) entry)).value := by
  have hsound := FileSystem.isSound_of_entry h
  obtain ⟨hname, _⟩ := Entry.isSound_of_mem hsound hmem
  have hpath : config.excludesPath (join root name) = config.excludesName name := by
    rw [Config.excludesPath, Path.components_join root hname, List.any_append,
      ← Config.excludesPath, hroot]
    simp
  by_cases hout : config.excludesName name = true
  · rw [if_pos hout, value_tree_of_excludesPath (hpath.trans hout), ite_self]
  rw [if_neg hout]
  rw [Bool.not_eq_true] at hout
  by_cases hlong : isTooLong (join root name) = true
  · obtain ⟨cause, hcause⟩ := FileSystem.exists_error_of_isTooLong fs hlong
    rw [value_steps_of_isTooLong hlong, value_tree_of_error hcause, ite_self]
  have hthere : (∀ target, entry ≠ .link target) → fs.entry .follow (join root name) = .ok entry := by
    intro hentry
    obtain ⟨names, hresolve⟩ := FileSystem.entry_eq_ok_iff.mp h
    have hnodup := (Entry.areSound_iff.mp (Entry.isSound_directory entries ▸ hsound)).1
    exact FileSystem.entry_eq_ok_iff.mpr ⟨_, FileSystem.resolve_join hname hresolve
      ((Entry.find?_eq_some_iff hnodup).mpr hmem) hentry (Bool.eq_false_iff.mpr hlong)⟩
  cases entry with
  | link target => exact value_tree_link (hpath.trans hout) target
  | file content =>
    rw [value_tree_eq_value_steps (hpath.trans hout), Walk.fromRoot_of_ok (hthere (by simp))]
    rfl
  | directory inner =>
    rw [value_tree_eq_value_steps (hpath.trans hout), Walk.fromRoot_of_ok (hthere (by simp))]
    rfl

theorem value_tree_directory (hroot : config.excludesPath root = false)
    (hperm : listed.Perm entries) (hsorted : listed.Pairwise fun a b => a.1 < b.1) :
    (tree fs config root).value = listed.flatMap fun entry =>
      if fs.isDirectoryLink (join root entry.1) entry.2 then []
      else (tree fs config (join root entry.1)).value := by
  have hshort : ¬isTooLong root = true := by
    intro hlong
    obtain ⟨cause, hcause⟩ := FileSystem.exists_error_of_isTooLong fs hlong
    rw [h] at hcause
    cases hcause
  rw [value_tree_eq_value_steps hroot, Walk.fromRoot_of_ok h, Walk.steps, if_neg hshort,
    Walk.mergeSort_below hperm hsorted, value_steps_flatMap, Walk.below_eq, List.flatMap_map]
  symm
  apply flatMap_eq_flatMap_filter
  · intro entry hentry hkept
    rw [value_tree_join h hroot (hperm.mem_iff.mp hentry), if_neg (by simpa using hkept)]
  · intro entry hentry hout
    rw [value_tree_join h hroot (hperm.mem_iff.mp hentry), if_pos (by simpa using hout)]

end Directory

/-- The issues of a directory are those of its entries, audited one by one in the order of the bytes
of their names; a link to a directory counts for nothing. Below a name that is left out there are no
issues at all. -/
theorem tree_entry_by_entry (fs : FileSystem) (config : Config) (root : List Char)
    {entries : List (Name × Entry)} (h : fs.entry .follow root = .ok (.directory entries)) :
    (config.excludesPath root = true → (tree fs config root).value = []) ∧
    (config.excludesPath root = false → ∃ listed : List (Name × Entry), listed.Perm entries ∧
      listed.Pairwise (fun a b => Text.bytes a.1 < Text.bytes b.1) ∧
      (tree fs config root).value = listed.flatMap fun entry =>
        if fs.isDirectoryLink (join root entry.1) entry.2 then []
        else (tree fs config (join root entry.1)).value) := by
  refine ⟨value_tree_of_excludesPath, ?_⟩
  intro hroot
  obtain ⟨listed, hperm, hsorted⟩ := Walk.exists_listed (FileSystem.isSound_of_entry h)
  exact ⟨listed, hperm, hsorted.imp Text.bytes_lt_bytes, value_tree_directory h hroot hperm hsorted⟩

/-- The name that is left out gives nothing, and the link to a directory is not audited. -/
theorem tree_entry_by_entry_assorted :
    assorted.entry .follow ".".toList = .ok (.directory assorted.entries) ∧
    Config.excludesPath ⟨["ts"], ["left"]⟩ ".".toList = false ∧
    (tree assorted ⟨["ts"], ["left"]⟩ ".".toList).value =
      ["a.ts", "b.ts", "bad.ts", "gone.ts", "left", "sub"].flatMap fun name =>
        (tree assorted ⟨["ts"], ["left"]⟩ (join ".".toList name.toList)).value := by
  have hroot : assorted.entry .follow ".".toList = .ok (.directory assorted.entries) := rfl
  have hkept : Config.excludesPath ⟨["ts"], ["left"]⟩ ".".toList = false := by decide
  refine ⟨hroot, hkept, ?_⟩
  obtain ⟨_, hin⟩ := tree_entry_by_entry assorted ⟨["ts"], ["left"]⟩ ".".toList hroot
  obtain ⟨listed, hperm, hsorted, hvalue⟩ := hin hkept
  -- Only the first of the entries is out of order.
  have hmoved : ((assorted.entries.drop 1).take 5 ++
      (assorted.entries.take 1 ++ assorted.entries.drop 6)).Perm assorted.entries :=
    List.perm_append_comm_assoc ((assorted.entries.drop 1).take 5) (assorted.entries.take 1)
      (assorted.entries.drop 6)
  have hlisted := List.Perm.eq_of_pairwise
    (fun _ _ _ _ hab hba => absurd hba (List.lt_asymm hab)) hsorted (by decide)
    (hperm.trans hmoved.symm)
  rw [hvalue, hlisted]
  rfl

end Audit

end MarkupAudit
