import MarkupAudit.FileSystem.Resolve
import Mathlib.Data.List.Basic

/-!
Entries and the paths that lead to them. What names lead to is independent of the order in which a
directory has its entries, since no two have one name (`find?_eq_some_iff`). A path that is followed
leads where it leads when its last link is looked at, unless that is a link (`follow_eq_look`).
-/

namespace MarkupAudit.FileSystem

namespace Entry

/-- What holds of files and links, and of a directory when it holds of its entries, holds always. -/
theorem tree_induction {P : Entry → Prop} (file : ∀ content, P (.file content))
    (link : ∀ target, P (.link target))
    (directory : ∀ entries, (∀ entry ∈ entries, P entry.2) → P (.directory entries)) (entry : Entry) :
    P entry := by
  apply isSound.induct P (fun entries => ∀ entry ∈ entries, P entry.2) file link directory
  · simp
  · intro name entry more hentry hmore
    exact List.forall_mem_cons.mpr ⟨hentry, hmore⟩

theorem isSound_of_mem {entries : List (Name × Entry)} (h : (directory entries).isSound = true)
    {entry : Name × Entry} (he : entry ∈ entries) :
    isName entry.1 = true ∧ entry.2.isSound = true := by
  rw [isSound_directory, areSound_iff] at h
  exact h.2 entry he

theorem find?_eq_some_iff {entries : List (Name × Entry)} (h : (entries.map (·.1)).Nodup)
    {name : Name} {entry : Entry} : find? name entries = some entry ↔ (name, entry) ∈ entries := by
  induction entries with
  | nil => simp [find?]
  | cons first more ih =>
    obtain ⟨n, e⟩ := first
    rw [List.map_cons, List.nodup_cons] at h
    by_cases hn : n = name
    · subst hn
      have hfind : find? n ((n, e) :: more) = some e := by simp [find?]
      rw [hfind, List.mem_cons, Option.some.injEq, Prod.mk.injEq]
      constructor
      · intro he
        exact Or.inl ⟨rfl, he.symm⟩
      · rintro (⟨_, he⟩ | hmem)
        · exact he.symm
        · exact absurd (List.mem_map_of_mem hmem) h.1
    · have hfind : find? name ((n, e) :: more) = find? name more := by simp [find?, hn]
      rw [hfind, ih h.2, List.mem_cons, Prod.mk.injEq]
      constructor
      · exact Or.inr
      · rintro (⟨he, _⟩ | hmem)
        · exact absurd he.symm hn
        · exact hmem

/-- A step on the way to an entry: it goes by a name, and below it all is as it should be. -/
theorem exists_of_get?_cons {entry found : Entry} {name : Name} {names : List Name}
    (h : entry.isSound = true) (hg : entry.get? (name :: names) = some found) :
    ∃ child : Entry, isName name = true ∧ child.isSound = true ∧ child.get? names = some found := by
  cases entry with
  | file content => cases hg
  | link target => cases hg
  | directory entries =>
    rw [get?, Option.bind_eq_some_iff] at hg
    obtain ⟨child, hf, hg⟩ := hg
    have hnodup := (areSound_iff.mp (isSound_directory entries ▸ h)).1
    obtain ⟨hname, hsound⟩ := isSound_of_mem h ((find?_eq_some_iff hnodup).mp hf)
    exact ⟨child, hname, hsound, hg⟩

theorem isName_of_get? {entry found : Entry} {names : List Name} (h : entry.isSound = true)
    (hg : entry.get? names = some found) : ∀ name ∈ names, isName name = true := by
  induction names generalizing entry with
  | nil => simp
  | cons name names ih =>
    obtain ⟨child, hname, hsound, hg⟩ := exists_of_get?_cons h hg
    exact List.forall_mem_cons.mpr ⟨hname, ih hsound hg⟩

theorem isSound_of_get? {entry found : Entry} {names : List Name} (h : entry.isSound = true)
    (hg : entry.get? names = some found) : found.isSound = true := by
  induction names generalizing entry with
  | nil => cases entry <;> cases hg <;> exact h
  | cons name names ih =>
    obtain ⟨child, _, hsound, hg⟩ := exists_of_get?_cons h hg
    exact ih hsound hg

end Entry

variable {fs : FileSystem}

theorem isSound_of_entry {access : Access} {path : List Char} {entry : Entry}
    (h : fs.entry access path = .ok entry) : entry.isSound = true := by
  unfold FileSystem.entry at h
  split at h
  · rename_i names found hr
    cases h
    exact Entry.isSound_of_get? fs.isSound_top (entryAt?_of_resolve hr)
  · cases h
  · cases h

def EndsAtLink (place : Except Cause Place) : Prop :=
  ∃ names target, place = .ok (.existing names (.link target))

theorem descend_follow_eq {enter enter' : Trail → List Name → Except Cause Place}
    (h : ∀ trail parts, EndsAtLink (enter' trail parts) ∨ enter trail parts = enter' trail parts)
    (parts : List Name) (trail : Trail) : EndsAtLink (descend fs .look enter' trail parts) ∨
      descend fs .follow enter trail parts = descend fs .look enter' trail parts := by
  induction parts generalizing trail with
  | nil => exact Or.inr rfl
  | cons part more ih =>
    have hlook : ¬(Access.look = .create ∧ more ≠ [] ∧ (more.all (·.isEmpty)) = true) := by simp
    have hfollow : ¬(Access.follow = .create ∧ more ≠ [] ∧ (more.all (·.isEmpty)) = true) := by simp
    rw [descend, descend, if_neg hlook, if_neg hfollow]
    split
    · exact ih trail
    · split
      · exact ih trail.tail
      · cases Entry.find? part (trail.inside fs) with
        | none => exact Or.inr rfl
        | some entry =>
          cases entry with
          | file content => exact Or.inr rfl
          | directory entries => exact ih _
          | link target =>
            -- Only for the last name of the path does it matter whether a link is followed.
            simp only [reduceCtorEq, and_false, if_false]
            split
            · exact Or.inl ⟨_, _, rfl⟩
            · exact h _ _

theorem walk_follow_eq (links : Nat) (trail : Trail) (parts : List Name) :
    EndsAtLink (walk fs .look links trail parts) ∨
      walk fs .follow links trail parts = walk fs .look links trail parts := by
  induction links generalizing trail parts with
  | zero => exact descend_follow_eq (fun _ _ => Or.inr rfl) parts trail
  | succ links ih => exact descend_follow_eq ih parts trail

/-- A path whose last name is no link leads to one place, followed or only looked at. -/
theorem follow_eq_look (fs : FileSystem) (path : List Char) :
    (∃ target, fs.entry .look path = .ok (.link target)) ∨
      fs.entry .follow path = fs.entry .look path := by
  have h : EndsAtLink (fs.resolve .look path) ∨ fs.resolve .follow path = fs.resolve .look path := by
    unfold resolve follow
    split
    · exact Or.inr rfl
    · split
      · exact Or.inr rfl
      · split
        · exact Or.inr rfl
        · cases fs.start (Path.isAbsolute path) with
          | error cause => exact Or.inr rfl
          | ok trail => exact walk_follow_eq linkLimit trail (Path.parts path)
  unfold FileSystem.entry
  rcases h with ⟨names, target, heq⟩ | heq
  · left
    rw [heq]
    exact ⟨target, rfl⟩
  · right
    rw [heq]

end MarkupAudit.FileSystem
