import MarkupAudit.Proofs.FileSystem.Put

/-!
File systems that are alike but for one file. That file may be missing in either, or have different
bytes; everything else is in both. A path leads to the same names in both, and to the same thing
there, unless it leads to the file; and if it does, it leads to the file where there is one
(`resolve_of_alikeBut`).
-/

namespace MarkupAudit.FileSystem

namespace Place

def names : Place → List Name
  | existing names _ => names
  | vacant names => names

def alone : Place → Place
  | existing names entry => existing names entry.alone
  | vacant names => vacant names

/-- The place that a file system has for one of a file system that is like it but for a file. -/
def Alike (names : List Name) (fs' : FileSystem) (place place' : Place) : Prop :=
  (place.names ≠ names → place'.alone = place.alone) ∧
    (place.names = names → ∃ entry, fs'.entryAt? names = some entry ∧ place' = .existing names entry)

end Place

variable {fs fs' : FileSystem} {access : Access} {links : Nat} {trail trail' : Trail}
  {parts names other : List Name} {path : List Char}

section Walk

theorem resolve_eq_ok_iff {place : Place} :
    fs.resolve access path = .ok place ↔ path ≠ [] ∧ '\x00' ∉ path ∧ isTooLong path = false ∧
      ∃ trail, fs.start (Path.isAbsolute path) = .ok trail ∧
        walk fs access linkLimit trail (Path.parts path) = .ok place := by
  rw [resolve]
  split
  · rename_i hempty
    simp [hempty]
  split
  · rename_i hzero
    simp [hzero]
  split
  · rename_i hlong
    simp [hlong]
  rename_i hempty hzero hlong
  rw [follow]
  split
  · rename_i trail hstart
    simp [hempty, hzero, hlong, hstart]
  · rename_i cause hstart
    simp [hstart]

theorem entryAt?_names_append (h : trail.Leads fs) (part : Name) :
    fs.entryAt? (trail.names ++ [part]) = Entry.find? part (trail.inside fs) := by
  rw [entryAt?, Entry.get?_append, ← entryAt?, entryAt?_names h, Option.bind_some, Entry.get?]
  cases Entry.find? part (trail.inside fs) with
  | none => rfl
  | some entry => exact Entry.get?_nil entry

theorem walk_of_file (ht' : trail'.Leads fs') {part : Name} {content : ByteArray}
    (hpart : Path.isProper part = true) (hup : part ≠ ['.', '.'])
    (hfile : fs'.entryAt? (trail'.names ++ [part]) = some (.file content)) :
    walk fs' access links trail' [part] =
      .ok (.existing (trail'.names ++ [part]) (.file content)) := by
  rw [entryAt?_names_append ht'] at hfile
  rw [walk_cons, hpart, if_neg (by decide), if_neg hup, if_neg (by simp), hfile]
  exact if_pos rfl

theorem names_tail (h : trail'.names = trail.names) :
    Trail.names trail'.tail = Trail.names trail.tail := by
  have hmap : trail'.map (·.1) = trail.map (·.1) := List.reverse_injective h
  rw [Trail.names, Trail.names, List.map_tail, List.map_tail, hmap]

theorem names_cons (h : trail'.names = trail.names) (part : Name)
    (entries entries' : List (Name × Entry)) :
    Trail.names ((part, entries') :: trail') = Trail.names ((part, entries) :: trail) := by
  simpa [Trail.names] using h

theorem names_target (h : trail'.names = trail.names) (target : List Char) :
    Trail.names (if Path.isAbsolute target then [] else trail') =
      Trail.names (if Path.isAbsolute target then [] else trail) := by
  split
  · rfl
  · exact h

end Walk

/-- The same file systems, except that the file with these names may differ or be missing. -/
structure AlikeBut (names : List Name) (fs fs' : FileSystem) : Prop where
  home : fs'.home = fs.home
  elsewhere : ∀ other, other ≠ names →
    (fs'.entryAt? other).map Entry.alone = (fs.entryAt? other).map Entry.alone
  isFile : ∀ entry, fs.entryAt? names = some entry → entry.isFile = true
  isFile' : ∀ entry, fs'.entryAt? names = some entry → entry.isFile = true

namespace AlikeBut

variable (h : AlikeBut names fs fs')
include h

theorem symm : AlikeBut names fs' fs :=
  ⟨h.home.symm, fun other hne => (h.elsewhere other hne).symm, h.isFile', h.isFile⟩

theorem entryAt?_eq_none (hne : other ≠ names) (hother : fs.entryAt? other = none) :
    fs'.entryAt? other = none := by
  have halone := h.elsewhere other hne
  rwa [hother, Option.map_none, Option.map_eq_none_iff] at halone

theorem exists_entryAt? {entry : Entry} (hne : other ≠ names)
    (hother : fs.entryAt? other = some entry) :
    ∃ entry', fs'.entryAt? other = some entry' ∧ entry'.alone = entry.alone := by
  have halone := h.elsewhere other hne
  rwa [hother, Option.map_some, Option.map_eq_some_iff] at halone

theorem entryAt?_file {content : ByteArray} (hne : other ≠ names)
    (hother : fs.entryAt? other = some (.file content)) :
    fs'.entryAt? other = some (.file content) := by
  obtain ⟨entry', hentry', halone⟩ := h.exists_entryAt? hne hother
  cases entry' with
  | file content' => exact hentry'.trans (congrArg some halone)
  | directory entries' => cases halone
  | link target' => cases halone

theorem ne_of_not_isFile {entry : Entry} (hother : fs.entryAt? other = some entry)
    (hentry : entry.isFile = false) : other ≠ names := by
  rintro rfl
  rw [h.isFile entry hother] at hentry
  cases hentry

theorem exists_directory {entries : List (Name × Entry)}
    (hother : fs.entryAt? other = some (.directory entries)) :
    ∃ entries', fs'.entryAt? other = some (.directory entries') := by
  obtain ⟨entry', hentry', halone⟩ := h.exists_entryAt? (h.ne_of_not_isFile hother rfl) hother
  cases entry' with
  | file content' => cases halone
  | directory entries' => exact ⟨entries', hentry'⟩
  | link target' => cases halone

theorem entryAt?_link {target : List Char} (hother : fs.entryAt? other = some (.link target)) :
    fs'.entryAt? other = some (.link target) := by
  obtain ⟨entry', hentry', halone⟩ := h.exists_entryAt? (h.ne_of_not_isFile hother rfl) hother
  cases entry' with
  | file content' => cases halone
  | directory entries' => cases halone
  | link target' => exact hentry'.trans (congrArg some halone)

end AlikeBut

theorem alikeBut_put (h : fs.Writable names) (content : ByteArray) :
    AlikeBut names fs (fs.put names (.file content)) where
  home := home_put fs names (.file content)
  elsewhere other hne := alone_entryAt?_put h content hne
  isFile entry hentry := isFile_of_writable h hentry
  isFile' entry hentry := by
    rw [entryAt?_put h, Option.some.injEq] at hentry
    rw [← hentry]
    rfl

theorem exists_trailTo_of_alikeBut (h : AlikeBut names fs fs') {final : Trail}
    (hfinal : fs.trailTo trail parts = some final) (ht : trail.Leads fs) (ht' : trail'.Leads fs')
    (hnames : trail'.names = trail.names) :
    ∃ final', fs'.trailTo trail' parts = some final' ∧ final'.names = final.names := by
  induction parts generalizing trail trail' with
  | nil =>
    cases hfinal
    exact ⟨trail', rfl, hnames⟩
  | cons part more ih =>
    rw [trailTo] at hfinal
    split at hfinal
    · rename_i entries hfind
      obtain ⟨entries', hfind'⟩ := h.exists_directory (entryAt?_child ht hfind)
      rw [← hnames, entryAt?_names_append ht'] at hfind'
      have hleads : Trail.Leads fs ((part, entries) :: trail) := ⟨hfind, ht⟩
      have hleads' : Trail.Leads fs' ((part, entries') :: trail') := ⟨hfind', ht'⟩
      rw [trailTo, hfind']
      exact ih hfinal hleads hleads' (names_cons hnames part entries entries')
    · cases hfinal

theorem exists_start_of_alikeBut (h : AlikeBut names fs fs') {absolute : Bool}
    (hstart : fs.start absolute = .ok trail) :
    ∃ trail', fs'.start absolute = .ok trail' ∧ trail'.names = trail.names := by
  rw [start] at hstart ⊢
  split at hstart
  · rename_i habsolute
    cases hstart
    rw [if_pos habsolute]
    exact ⟨[], rfl, rfl⟩
  · rename_i hrelative
    rw [if_neg hrelative, h.home]
    split at hstart
    · rename_i final hfinal
      cases hstart
      have hleads : Trail.Leads fs [] := trivial
      have hleads' : Trail.Leads fs' [] := trivial
      obtain ⟨final', hfinal', hnames⟩ := exists_trailTo_of_alikeBut h hfinal hleads hleads' rfl
      rw [hfinal']
      exact ⟨final', rfl, hnames⟩
    · cases hstart

/-- A way that ends where the one file is ends at the file that the other one has. -/
theorem exists_walk_of_file {place : Place} {part : Name} (ht' : trail'.Leads fs')
    (hnames : trail'.names = trail.names) (hpart : Path.isProper part = true)
    (hup : part ≠ ['.', '.']) (hplace : place.names = trail.names ++ [part])
    (hsame : place.names = names)
    (hkept : place.names = names → ∃ content, fs'.entryAt? names = some (.file content)) :
    ∃ place', walk fs' access links trail' [part] = .ok place' ∧ place.Alike names fs' place' := by
  obtain ⟨content, hcontent⟩ := hkept hsame
  have hlast : trail'.names ++ [part] = names := by rw [hnames, ← hplace, hsame]
  have hwalk : walk fs' access links trail' [part] = .ok (.existing names (.file content)) := by
    rw [← hlast] at hcontent ⊢
    exact walk_of_file ht' hpart hup hcontent
  exact ⟨_, hwalk, fun hne => absurd hsame hne, fun _ => ⟨_, hcontent, rfl⟩⟩

section Resolve

variable {place : Place} (h : AlikeBut names fs fs')
  (hkept : place.names = names → ∃ content, fs'.entryAt? names = some (.file content))
include h hkept

/-- A way to a place in the one file system leads to the like place in the other. -/
theorem walk_of_alikeBut (ht : trail.Leads fs) (ht' : trail'.Leads fs')
    (hnames : trail'.names = trail.names) (hwalk : walk fs access links trail parts = .ok place) :
    ∃ place', walk fs' access links trail' parts = .ok place' ∧ place.Alike names fs' place' := by
  induction links, trail, parts, place, hwalk using walk_induction generalizing trail' with
  | here =>
    refine ⟨_, walk_nil access, ?_, ?_⟩
    · intro _
      rw [Place.alone, Place.alone, hnames]
      rfl
    · intro hsame
      exact absurd hsame (h.ne_of_not_isFile (entryAt?_names ht) rfl)
  | skip hpart _ _ ih =>
    rw [walk_cons, hpart]
    exact ih hkept ht ht' hnames
  | up _ _ ih =>
    rw [walk_cons, if_neg (by decide), if_pos rfl]
    exact ih hkept ht.tail ht'.tail (names_tail hnames)
  | @vacant _ trail part hpart hup hfind hshort _ =>
    by_cases hsame : trail.names ++ [part] = names
    · exact exists_walk_of_file ht' hnames hpart hup rfl hsame hkept
    rw [← entryAt?_names_append ht] at hfind
    have hfind' := h.entryAt?_eq_none hsame hfind
    rw [← hnames, entryAt?_names_append ht'] at hfind'
    rw [walk_cons, hpart, if_neg (by decide), if_neg hup, if_neg (by simp), hfind', hnames]
    dsimp only
    rw [if_neg hshort, if_pos rfl]
    exact ⟨_, rfl, fun _ => rfl, fun heq => absurd heq hsame⟩
  | @file _ trail part content hpart hup hfind _ =>
    by_cases hsame : trail.names ++ [part] = names
    · exact exists_walk_of_file ht' hnames hpart hup rfl hsame hkept
    rw [← entryAt?_names_append ht] at hfind
    have hfile := h.entryAt?_file hsame hfind
    rw [← hnames] at hfile
    rw [walk_of_file ht' hpart hup hfile, hnames]
    exact ⟨_, rfl, fun _ => rfl, fun heq => absurd heq hsame⟩
  | @directory _ trail part more _ entries hpart hup hguard hfind _ _ ih =>
    obtain ⟨entries', hfind'⟩ := h.exists_directory (entryAt?_child ht hfind)
    rw [← hnames, entryAt?_names_append ht'] at hfind'
    have hleads : Trail.Leads fs ((part, entries) :: trail) := ⟨hfind, ht⟩
    have hleads' : Trail.Leads fs' ((part, entries') :: trail') := ⟨hfind', ht'⟩
    rw [walk_cons, hpart, if_neg (by decide), if_neg hup, if_neg hguard, hfind']
    exact ih hkept hleads hleads' (names_cons hnames part entries entries')
  | look hpart hup hfind hlook _ =>
    have hlink := entryAt?_child ht hfind
    have hfind' := h.entryAt?_link hlink
    rw [← hnames, entryAt?_names_append ht'] at hfind'
    rw [walk_cons, hpart, if_neg (by decide), if_neg hup, if_neg (by simp), hfind', hnames]
    dsimp only
    rw [if_pos ⟨rfl, hlook⟩]
    have hne := h.ne_of_not_isFile hlink rfl
    exact ⟨_, rfl, fun _ => rfl, fun heq => absurd heq hne⟩
  | link hpart hup hguard hfind hlook _ _ ih =>
    have hfind' := h.entryAt?_link (entryAt?_child ht hfind)
    rw [← hnames, entryAt?_names_append ht'] at hfind'
    rw [walk_cons, hpart, if_neg (by decide), if_neg hup, if_neg hguard, hfind']
    dsimp only
    rw [if_neg hlook]
    exact ih hkept (leads_target ht _) (leads_target ht' _) (names_target hnames _)

/-- A path leads to like places, as long as the file it leads to is there. -/
theorem resolve_of_alikeBut (hresolve : fs.resolve access path = .ok place) :
    ∃ place', fs'.resolve access path = .ok place' ∧ place.Alike names fs' place' := by
  obtain ⟨hempty, hzero, hlong, trail, hstart, hwalk⟩ := resolve_eq_ok_iff.mp hresolve
  obtain ⟨trail', hstart', hnames⟩ := exists_start_of_alikeBut h hstart
  obtain ⟨place', hwalk', halike⟩ := walk_of_alikeBut h hkept (leads_of_start hstart)
    (leads_of_start hstart') hnames hwalk
  exact ⟨place', resolve_eq_ok_iff.mpr ⟨hempty, hzero, hlong, trail', hstart', hwalk'⟩, halike⟩

end Resolve

end MarkupAudit.FileSystem
