import MarkupAudit.Proofs.FileSystem.Entry
import MarkupAudit.Proofs.Path
import MarkupAudit.Proofs.Text.ByteOrder
import MarkupAudit.Walk

/-!
Which files a walk comes upon, and in what order. Below a path a file is told by the names that lead
to it. A walk lists the files whose names have a property when it comes upon each of them once, in
the order of the bytes of their names (`Lists`); a directory lists what its entries list, one after
the other in the order of their names (`lists_flatMap`).
-/

namespace MarkupAudit.Walk

open FileSystem (Name Entry isName isTooLong)
open MarkupAudit.Path (along join)

def Step.scanned? : Step → Option (List Char)
  | file path => some path
  | unreadable _ _ => none

/-- Names in the order of their bytes, one name after the other. -/
def Before (a b : List Name) : Prop := a.map Text.bytes < b.map Text.bytes

/-- A walk comes upon just the files below a path whose names have a property, in order. -/
def Lists (path : List Char) (walk : List Step) (P : List Name → Prop) : Prop :=
  ∃ keys : List (List Name), walk.filterMap Step.scanned? = keys.map (along path) ∧
    keys.Pairwise Before ∧ ∀ names, names ∈ keys ↔ P names

/-- A file, or a link whose path leads to one. -/
def IsFileAt (fs : FileSystem) (path : List Char) : Entry → Prop
  | .file _ => True
  | .link _ => fs.isFile path = true
  | .directory _ => False

/-- A file to scan below an entry: it has one of the extensions, none of its names is left out, and
the path of every directory on the way is short enough. -/
structure Found (fs : FileSystem) (config : Config) (path : List Char) (entry : Entry)
    (names : List Name) : Prop where
  target : ∃ found, entry.get? names = some found ∧ IsFileAt fs (along path names) found
  named : config.matchesExtension (along path names) = true
  kept : ∀ name ∈ names, config.excludesName name = false
  entered : ∀ front rest, names = front ++ rest → rest ≠ [] → isTooLong (along path front) = false

section Order

theorem nameLE_iff {a b : Name} : nameLE a b = true ↔ ¬b < a := by simp [nameLE]

theorem nameLE_trans (a b c : Name) (hab : nameLE a b = true) (hbc : nameLE b c = true) :
    nameLE a c = true := by
  rw [nameLE_iff] at *
  exact List.le_trans hab hbc

theorem nameLE_total (a b : Name) : (nameLE a b || nameLE b a) = true := by
  rw [Bool.or_eq_true, nameLE_iff, nameLE_iff]
  exact List.le_total a b

theorem lt_of_nameLE {a b : Name} (h : nameLE a b = true) (hne : a ≠ b) : a < b := by
  rw [nameLE_iff] at h
  by_contra hlt
  exact hne (List.le_antisymm h hlt)

/-- Things that have different names stand in the order of their names when they are sorted. -/
theorem pairwise_mergeSort_names {α : Type} {items : List (Name × α)}
    (h : items.Pairwise fun a b => a.1 ≠ b.1) :
    (items.mergeSort fun a b => nameLE a.1 b.1).Pairwise fun a b => a.1 < b.1 := by
  have hsorted := List.pairwise_mergeSort
    (fun a b c => nameLE_trans a.1 b.1 c.1) (fun a b => nameLE_total a.1 b.1) items
  have hne := (List.mergeSort_perm items (fun a b => nameLE a.1 b.1)).symm.pairwise h Ne.symm
  apply (hsorted.and hne).imp
  intro a b hab
  exact lt_of_nameLE hab.1 hab.2

theorem before_cons_of_lt {a b : Name} (h : a < b) (l r : List Name) :
    Before (a :: l) (b :: r) :=
  List.cons_lt_cons_iff.mpr (Or.inl (Text.bytes_lt_bytes h))

theorem before_cons {l r : List Name} (name : Name) (h : Before l r) :
    Before (name :: l) (name :: r) :=
  List.cons_lt_cons_iff.mpr (Or.inr ⟨rfl, h⟩)

theorem before_irrefl (a : List Name) : ¬Before a a := List.lt_irrefl _

theorem before_asymm {a b : List Name} (h : Before a b) : ¬Before b a := List.lt_asymm h

end Order

section Lists

variable {path : List Char} {walk : List Step} {P Q : List Name → Prop}

theorem Lists.congr (h : Lists path walk P) (hPQ : ∀ names, P names ↔ Q names) :
    Lists path walk Q := by
  obtain ⟨keys, hwalk, hsorted, hmem⟩ := h
  exact ⟨keys, hwalk, hsorted, fun names => (hmem names).trans (hPQ names)⟩

theorem lists_none (h : walk.filterMap Step.scanned? = []) (hP : ∀ names, ¬P names) :
    Lists path walk P :=
  ⟨[], h, .nil, fun names => by simp [hP names]⟩

theorem lists_file (path : List Char) : Lists path [.file path] (· = []) :=
  ⟨[[]], rfl, List.pairwise_singleton .., fun _ => List.mem_singleton⟩

/-- What the entries of a directory list, the directory lists in the order of their names. -/
theorem lists_flatMap {walks : List (Name × List Step)} {Q : Name → List Name → Prop}
    (hsorted : walks.Pairwise fun a b => a.1 < b.1)
    (h : ∀ child ∈ walks, Lists (join path child.1) child.2 (Q child.1)) :
    Lists path (walks.flatMap (·.2)) fun names =>
      ∃ child ∈ walks, ∃ rest, names = child.1 :: rest ∧ Q child.1 rest := by
  induction walks with
  | nil => exact lists_none rfl (by simp)
  | cons first more ih =>
    rw [List.pairwise_cons] at hsorted
    rw [List.forall_mem_cons] at h
    obtain ⟨keys, hwalk, horder, hmem⟩ := h.1
    obtain ⟨keys', hwalk', horder', hmem'⟩ := ih hsorted.2 h.2
    refine ⟨keys.map (first.1 :: ·) ++ keys', ?_, ?_, ?_⟩
    · rw [List.flatMap_cons, List.filterMap_append, hwalk, hwalk', List.map_append, List.map_map]
      rfl
    · -- Within the first entry its own order decides, and across entries the first name does.
      rw [List.pairwise_append, List.pairwise_map]
      refine ⟨horder.imp (before_cons first.1), horder', ?_⟩
      intro a ha b hb
      obtain ⟨rest, _, rfl⟩ := List.mem_map.mp ha
      obtain ⟨child, hc, later, rfl, _⟩ := (hmem' b).mp hb
      exact before_cons_of_lt (hsorted.1 child hc) rest later
    · intro names
      rw [List.mem_append, List.mem_map, hmem']
      constructor
      · rintro (⟨rest, hr, rfl⟩ | ⟨child, hc, hchild⟩)
        · exact ⟨first, List.mem_cons_self, rest, rfl, (hmem rest).mp hr⟩
        · exact ⟨child, List.mem_cons_of_mem first hc, hchild⟩
      · intro h
        obtain ⟨child, hc, rest, rfl, hq⟩ := h
        rcases List.mem_cons.mp hc with rfl | hc
        · exact Or.inl ⟨rest, (hmem rest).mpr hq, rfl⟩
        · exact Or.inr ⟨child, hc, rest, rfl, hq⟩

end Lists

section Found

variable {fs : FileSystem} {config : Config} {path : List Char}

theorem found_nil {entry : Entry} : Found fs config path entry [] ↔
    IsFileAt fs path entry ∧ config.matchesExtension path = true := by
  have hget : entry.get? [] = some entry := by cases entry <;> rfl
  constructor
  · intro h
    obtain ⟨found, hg, hfile⟩ := h.target
    rw [hget] at hg
    cases hg
    exact ⟨hfile, h.named⟩
  · intro hfound
    obtain ⟨hfile, hext⟩ := hfound
    refine ⟨⟨entry, hget, hfile⟩, hext, by simp, ?_⟩
    intro front rest h hne
    exact absurd (List.append_eq_nil_iff.mp h.symm).2 hne

theorem found_cons {entries : List (Name × Entry)}
    (h : (Entry.directory entries).isSound = true) {name : Name} {rest : List Name} :
    Found fs config path (.directory entries) (name :: rest) ↔
      isTooLong path = false ∧ config.excludesName name = false ∧
        ∃ child, (name, child) ∈ entries ∧ Found fs config (join path name) child rest := by
  have hnodup := (Entry.areSound_iff.mp (Entry.isSound_directory entries ▸ h)).1
  have hget : ∀ found, (Entry.directory entries).get? (name :: rest) = some found ↔
      ∃ child, (name, child) ∈ entries ∧ child.get? rest = some found := by
    intro found
    simp only [Entry.get?, Option.bind_eq_some_iff, Entry.find?_eq_some_iff hnodup]
  constructor
  · intro h
    obtain ⟨found, hg, hfile⟩ := h.target
    obtain ⟨child, hc, hg⟩ := (hget found).mp hg
    obtain ⟨hname, hkept⟩ := List.forall_mem_cons.mp h.kept
    refine ⟨h.entered [] (name :: rest) rfl (by simp), hname, child, hc, ⟨found, hg, hfile⟩,
      h.named, hkept, ?_⟩
    intro front later heq hne
    exact h.entered (name :: front) later (by rw [heq]; rfl) hne
  · intro hfound
    obtain ⟨hlong, hname, child, hc, h⟩ := hfound
    obtain ⟨found, hg, hfile⟩ := h.target
    refine ⟨⟨found, (hget found).mpr ⟨child, hc, hg⟩, hfile⟩, h.named,
      List.forall_mem_cons.mpr ⟨hname, h.kept⟩, ?_⟩
    intro front later heq hne
    cases front with
    | nil => exact hlong
    | cons first front =>
      obtain ⟨rfl, htail⟩ := List.cons.inj heq
      exact h.entered front later htail hne

theorem not_found_of_leaf {entry : Entry} (h : entry.isDirectory = false) {name : Name}
    {rest : List Name} : ¬Found fs config path entry (name :: rest) := by
  intro hf
  obtain ⟨found, hg, _⟩ := hf.target
  cases entry with
  | file content => cases hg
  | link target => cases hg
  | directory entries => cases h

theorem lists_leaf {entry : Entry} (h : entry.isDirectory = false) {kept : Bool}
    (hkept : kept = true ↔ IsFileAt fs path entry ∧ config.matchesExtension path = true) :
    Lists path (if kept then [.file path] else []) (Found fs config path entry) := by
  cases kept with
  | true =>
    apply (lists_file path).congr
    intro names
    cases names with
    | nil => exact iff_of_true rfl (found_nil.mpr (hkept.mp rfl))
    | cons name rest => exact iff_of_false (by simp) (not_found_of_leaf h)
  | false =>
    apply lists_none rfl
    intro names hf
    cases names with
    | nil => exact absurd (hkept.mpr (found_nil.mp hf)) (by simp)
    | cons name rest => exact not_found_of_leaf h hf

theorem below_eq (entries : List (Name × Entry)) : below fs config path entries =
    (entries.filter fun entry => !config.excludesName entry.1).map fun entry =>
      (entry.1, steps fs config (join path entry.1) entry.2) := by
  induction entries with
  | nil => rw [below]; rfl
  | cons entry more ih =>
    obtain ⟨name, entry⟩ := entry
    rw [below, ih, List.filter_cons]
    by_cases h : config.excludesName name = true
    · rw [if_pos h, if_neg (by simp [h])]
    · rw [if_neg h, if_pos (by simp [h])]
      rfl

theorem pairwise_mergeSort_below {entries : List (Name × Entry)}
    (h : (Entry.directory entries).isSound = true) :
    ((below fs config path entries).mergeSort fun a b => nameLE a.1 b.1).Pairwise
      fun a b => a.1 < b.1 := by
  have hnodup := (Entry.areSound_iff.mp (Entry.isSound_directory entries ▸ h)).1
  apply pairwise_mergeSort_names
  rw [below_eq, List.pairwise_map]
  exact (List.pairwise_map.mp hnodup).filter _

theorem lists_directory {entries : List (Name × Entry)}
    (h : (Entry.directory entries).isSound = true) (hlong : isTooLong path = false)
    (hentries : ∀ entry ∈ entries, Lists (join path entry.1)
      (steps fs config (join path entry.1) entry.2)
      (Found fs config (join path entry.1) entry.2)) :
    Lists path (steps fs config path (.directory entries))
      (Found fs config path (.directory entries)) := by
  have hnodup := (Entry.areSound_iff.mp (Entry.isSound_directory entries ▸ h)).1
  have hbelow : ∀ child, child ∈ (below fs config path entries).mergeSort
      (fun a b => nameLE a.1 b.1) ↔ ∃ entry ∈ entries, config.excludesName entry.1 = false ∧
        child = (entry.1, steps fs config (join path entry.1) entry.2) := by
    intro child
    rw [List.mem_mergeSort, below_eq, List.mem_map]
    simp only [List.mem_filter, Bool.not_eq_true', and_assoc, @eq_comm _ child]
  rw [steps, if_neg (by simp [hlong])]
  -- Names tell the entries of a directory apart, so what lies below a name is told by the name alone.
  refine (lists_flatMap (Q := fun name rest => ∃ entry, (name, entry) ∈ entries ∧
    Found fs config (join path name) entry rest) (pairwise_mergeSort_below h) ?_).congr ?_
  · intro child hc
    obtain ⟨entry, he, _, rfl⟩ := (hbelow child).mp hc
    apply (hentries entry he).congr
    intro rest
    constructor
    · intro hf
      exact ⟨entry.2, he, hf⟩
    · intro h
      obtain ⟨other, ho, hf⟩ := h
      have hsame := (Entry.find?_eq_some_iff hnodup).mpr ho
      rw [(Entry.find?_eq_some_iff hnodup).mpr he] at hsame
      cases hsame
      exact hf
  · intro names
    constructor
    · intro hfound
      obtain ⟨child, hc, rest, rfl, other, ho, hf⟩ := hfound
      obtain ⟨entry, _, hname, rfl⟩ := (hbelow child).mp hc
      exact (found_cons h).mpr ⟨hlong, hname, other, ho, hf⟩
    · intro hf
      cases names with
      | nil => exact absurd (found_nil.mp hf).1 id
      | cons name rest =>
        obtain ⟨_, hname, child, hc, hf⟩ := (found_cons h).mp hf
        exact ⟨_, (hbelow _).mpr ⟨(name, child), hc, hname, rfl⟩, rest, rfl, child, hc, hf⟩

/-- The walk of an entry lists the files that are to be found below it. -/
theorem lists_steps {entry : Entry} (h : entry.isSound = true) (path : List Char) :
    Lists path (steps fs config path entry) (Found fs config path entry) := by
  induction entry using Entry.tree_induction generalizing path with
  | file content =>
    rw [steps]
    exact lists_leaf rfl (by simp [IsFileAt])
  | link target =>
    rw [steps]
    exact lists_leaf rfl (by simp [IsFileAt])
  | directory entries ih =>
    by_cases hlong : isTooLong path = true
    · rw [steps, if_pos hlong]
      apply lists_none rfl
      intro names hf
      cases names with
      | nil => exact (found_nil.mp hf).1
      | cons name rest =>
        rw [((found_cons h).mp hf).1] at hlong
        cases hlong
    · apply lists_directory h (by simpa using hlong)
      intro entry he
      exact ih entry he (Entry.isSound_of_mem h he).2 (join path entry.1)

theorem fromRoot_of_error {root : List Char} {cause : FileSystem.Cause}
    (h : fs.entry .follow root = .error cause) :
    fromRoot fs config root = [.unreadable root cause] := by
  unfold fromRoot
  rcases fs.follow_eq_look root with ⟨target, hlook⟩ | heq
  · simp only [hlook, h]
  · simp only [← heq, h]

theorem fromRoot_of_ok {root : List Char} {top : Entry} (h : fs.entry .follow root = .ok top) :
    fromRoot fs config root = steps fs config root top := by
  unfold fromRoot
  rcases fs.follow_eq_look root with ⟨target, hlook⟩ | heq
  · simp only [hlook, h]
  · rw [← heq, h]
    cases top <;> rfl

/-- The walk from a root on lists what is to be found below the entry that the root leads to. -/
theorem lists_fromRoot (root : List Char) : Lists root (fromRoot fs config root) fun names =>
    ∃ top, fs.entry .follow root = .ok top ∧ Found fs config root top names := by
  cases htop : fs.entry .follow root with
  | error cause =>
    rw [fromRoot_of_error htop]
    exact lists_none rfl (by simp)
  | ok top =>
    rw [fromRoot_of_ok htop]
    apply (lists_steps (FileSystem.isSound_of_entry htop) root).congr
    simp

end Found

end MarkupAudit.Walk
