import MarkupAudit.Proofs.FileSystem.Alike
import MarkupAudit.Proofs.Path

/-!
Writing a file. It comes to where its path leads (`destination?`); after that, the same path leads
to it, so that it is read back (`readText_of_write`). The way there is told step by step (`Walks`),
and a way that ends at a file is one for reading as for writing (`walk_of_walks`).
-/

namespace MarkupAudit.FileSystem

/-- The names that a file at the place has. -/
def Place.file? : Place → Option (List Name)
  | existing names (.file _) => some names
  | existing _ _ => none
  | vacant names => some names

/-- Where a file comes that is written at a path. -/
def destination? (fs : FileSystem) (path : List Char) : Option (List Name) :=
  match fs.resolve .create path with
  | .ok place => place.file?
  | .error _ => none

/-- A way along parts to a place, with a number of links that may be followed on it. -/
inductive Walks (fs : FileSystem) : Nat → Trail → List Name → Place → Prop where
  | here {links : Nat} {trail : Trail} :
      Walks fs links trail [] (.existing trail.names (.directory (trail.inside fs)))
  | skip {links : Nat} {trail : Trail} {part : Name} {more : List Name} {place : Place}
      (hpart : Path.isProper part = false) (h : Walks fs links trail more place) :
      Walks fs links trail (part :: more) place
  | up {links : Nat} {trail : Trail} {more : List Name} {place : Place}
      (h : Walks fs links trail.tail more place) :
      Walks fs links trail (['.', '.'] :: more) place
  | vacant {links : Nat} {trail : Trail} {part : Name} (hpart : Path.isProper part = true)
      (hup : part ≠ ['.', '.']) (hfind : Entry.find? part (trail.inside fs) = none) :
      Walks fs links trail [part] (.vacant (trail.names ++ [part]))
  | file {links : Nat} {trail : Trail} {part : Name} {content : ByteArray}
      (hpart : Path.isProper part = true) (hup : part ≠ ['.', '.'])
      (hfind : Entry.find? part (trail.inside fs) = some (.file content)) :
      Walks fs links trail [part] (.existing (trail.names ++ [part]) (.file content))
  | directory {links : Nat} {trail : Trail} {part : Name} {more : List Name} {place : Place}
      {entries : List (Name × Entry)} (hpart : Path.isProper part = true) (hup : part ≠ ['.', '.'])
      (hfind : Entry.find? part (trail.inside fs) = some (.directory entries))
      (h : Walks fs links ((part, entries) :: trail) more place) :
      Walks fs links trail (part :: more) place
  | link {links : Nat} {trail : Trail} {part : Name} {more : List Name} {place : Place}
      {target : List Char} (hpart : Path.isProper part = true) (hup : part ≠ ['.', '.'])
      (hfind : Entry.find? part (trail.inside fs) = some (.link target))
      (h : Walks fs links (if Path.isAbsolute target then [] else trail)
        (Path.parts target ++ more) place) :
      Walks fs (links + 1) trail (part :: more) place

variable {fs : FileSystem} {links : Nat} {trail : Trail} {parts names : List Name} {place : Place}

theorem walks_of_walk {access : Access} (haccess : access ≠ .look)
    (h : walk fs access links trail parts = .ok place) : Walks fs links trail parts place := by
  induction links, trail, parts, place, h using walk_induction with
  | here => exact .here
  | skip hpart _ _ ih => exact .skip hpart ih
  | up _ _ ih => exact .up ih
  | vacant hpart hup hfind _ _ => exact .vacant hpart hup hfind
  | file hpart hup hfind _ => exact .file hpart hup hfind
  | directory hpart hup _ hfind _ _ ih => exact .directory hpart hup hfind ih
  | look _ _ _ hlook _ => exact absurd hlook haccess
  | link hpart hup _ hfind _ _ _ ih => exact .link hpart hup hfind ih

/-- A way to a file is a way also for looking what is there. -/
theorem walk_of_walks (h : Walks fs links trail parts place)
    (hplace : ∀ names, place ≠ .vacant names) :
    walk fs .follow links trail parts = .ok place := by
  have hcreate : ∀ more : List Name,
      ¬(Access.follow = .create ∧ more ≠ [] ∧ more.all (·.isEmpty) = true) := by simp
  induction h with
  | here => exact walk_nil .follow
  | skip hpart _ ih =>
    rw [walk_cons, hpart]
    exact ih hplace
  | up _ ih =>
    rw [walk_cons, if_neg (by decide), if_pos rfl]
    exact ih hplace
  | vacant => exact absurd rfl (hplace _)
  | file hpart hup hfind =>
    rw [walk_cons, hpart, if_neg (by decide), if_neg hup, if_neg (hcreate _), hfind]
    exact if_pos rfl
  | directory hpart hup hfind _ ih =>
    rw [walk_cons, hpart, if_neg (by decide), if_neg hup, if_neg (hcreate _), hfind]
    exact ih hplace
  | link hpart hup hfind _ ih =>
    rw [walk_cons, hpart, if_neg (by decide), if_neg hup, if_neg (hcreate _), hfind]
    dsimp only
    rw [if_neg (by simp)]
    exact ih hplace

section Destination

/-- What can stand between two slashes of a path. -/
def IsPart (part : Name) : Prop := '/' ∉ part ∧ '\x00' ∉ part

theorem isPart_of_mem {path : List Char} (h : '\x00' ∉ path) :
    ∀ part ∈ Path.parts path, IsPart part := by
  intro part hpart
  exact ⟨Path.slash_not_mem_parts hpart, fun hzero => h (Path.mem_of_mem_parts hpart hzero)⟩

theorem isName_of_isPart {part : Name} (hpart : Path.isProper part = true)
    (hup : part ≠ ['.', '.']) (h : IsPart part) : isName part = true := by
  have hproper : part ≠ [] ∧ part ≠ ['.'] := by simpa [Path.isProper] using hpart
  exact isName_iff.mpr ⟨hproper.1, hproper.2, hup, h.1, h.2⟩

theorem zero_not_mem_target (ht : trail.Leads fs) {part : Name} {target : List Char}
    (hfind : Entry.find? part (trail.inside fs) = some (.link target)) : '\x00' ∉ target := by
  have hsound := Entry.isSound_of_get? fs.isSound_top (entryAt?_child ht hfind)
  simpa [Entry.isSound] using hsound

theorem writable_child (ht : trail.Leads fs) {part : Name} (hpart : isName part = true)
    (hold : ∀ old, Entry.find? part (trail.inside fs) = some old → old.isFile = true) :
    fs.Writable (trail.names ++ [part]) := by
  have houter := entryAt?_names ht
  refine ⟨?_, trail.names, part, trail.inside fs, rfl, houter, hold⟩
  rw [List.forall_mem_append]
  exact ⟨Entry.isName_of_get? fs.isSound_top houter, by simpa using hpart⟩

theorem writable_of_walks (h : Walks fs links trail parts place) (ht : trail.Leads fs)
    (hparts : ∀ part ∈ parts, IsPart part) (hplace : place.file? = some names) :
    fs.Writable names := by
  induction h with
  | here => cases hplace
  | skip _ _ ih => exact ih ht (List.forall_mem_cons.mp hparts).2 hplace
  | up _ ih => exact ih ht.tail (List.forall_mem_cons.mp hparts).2 hplace
  | vacant hpart hup hfind =>
    cases hplace
    refine writable_child ht (isName_of_isPart hpart hup (hparts _ List.mem_cons_self)) ?_
    intro old hold
    rw [hfind] at hold
    cases hold
  | file hpart hup hfind =>
    cases hplace
    refine writable_child ht (isName_of_isPart hpart hup (hparts _ List.mem_cons_self)) ?_
    intro old hold
    rw [hfind] at hold
    cases hold
    rfl
  | directory _ _ hfind _ ih => exact ih ⟨hfind, ht⟩ (List.forall_mem_cons.mp hparts).2 hplace
  | link _ _ hfind _ ih =>
    refine ih (leads_target ht _) ?_ hplace
    rw [List.forall_mem_append]
    exact ⟨isPart_of_mem (zero_not_mem_target ht hfind), (List.forall_mem_cons.mp hparts).2⟩

theorem destination?_eq_some_iff {path : List Char} : fs.destination? path = some names ↔
    ∃ place, fs.resolve .create path = .ok place ∧ place.file? = some names := by
  rw [destination?]
  split
  · rename_i place hresolve
    simp [hresolve]
  · rename_i cause hresolve
    simp [hresolve]

theorem writable_of_destination? {path : List Char} (h : fs.destination? path = some names) :
    fs.Writable names := by
  obtain ⟨place, hresolve, hplace⟩ := destination?_eq_some_iff.mp h
  obtain ⟨_, hzero, _, trail, hstart, hwalk⟩ := resolve_eq_ok_iff.mp hresolve
  exact writable_of_walks (walks_of_walk (by decide) hwalk) (leads_of_start hstart)
    (isPart_of_mem hzero) hplace

theorem write_eq_ok_iff {path : List Char} {content : String} {after : FileSystem} :
    fs.write path content = .ok after ↔
      ∃ names, fs.destination? path = some names ∧ after = fs.put names (.file content.toUTF8) := by
  rw [write, writeBytes, destination?]
  cases fs.resolve .create path with
  | error cause => simp
  | ok place =>
    cases place with
    | vacant names => simp [Place.file?, eq_comm]
    | existing names entry => cases entry <;> simp [Place.file?, eq_comm]

end Destination

theorem Place.names_of_file? (h : place.file? = some names) : place.names = names := by
  cases place with
  | existing other entry =>
    cases entry with
    | file content => exact Option.some.inj h
    | directory entries => cases h
    | link target => cases h
  | vacant other => exact Option.some.inj h

/-- Once there is a file where a path leads to, the path leads to it, for writing and reading. -/
theorem resolve_of_destination? {fs' : FileSystem} (h : AlikeBut names fs fs') {path : List Char}
    (hpath : fs.destination? path = some names) {content : ByteArray}
    (hfile : fs'.entryAt? names = some (.file content)) :
    fs'.resolve .create path = .ok (.existing names (.file content)) ∧
      fs'.resolve .follow path = .ok (.existing names (.file content)) := by
  obtain ⟨place, hresolve, hplace⟩ := destination?_eq_some_iff.mp hpath
  obtain ⟨place', hresolve', _, hexists⟩ :=
    resolve_of_alikeBut h (fun _ => ⟨content, hfile⟩) hresolve
  obtain ⟨entry, hentry, rfl⟩ := hexists (Place.names_of_file? hplace)
  rw [hfile, Option.some.injEq] at hentry
  subst hentry
  obtain ⟨hempty, hzero, hlong, trail, hstart, hwalk⟩ := resolve_eq_ok_iff.mp hresolve'
  have hfollow := walk_of_walks (walks_of_walk (by decide) hwalk) (by simp)
  exact ⟨hresolve', resolve_eq_ok_iff.mpr ⟨hempty, hzero, hlong, trail, hstart, hfollow⟩⟩

/-- After a file is put where a path leads to, the path leads to the file. -/
theorem entry_put {path : List Char} (h : fs.destination? path = some names) (content : ByteArray) :
    (fs.put names (.file content)).entry .follow path = .ok (.file content) := by
  have hwritable := writable_of_destination? h
  obtain ⟨_, hfollow⟩ := resolve_of_destination? (alikeBut_put hwritable content) h
    (entryAt?_put hwritable content)
  rw [entry, hfollow]

theorem decodeText_toUTF8 (text : String) : decodeText text.toUTF8 = some text.toList := by
  have hdecode : String.fromUTF8? text.toUTF8 = some text := dif_pos text.isValidUTF8
  rw [decodeText, hdecode]
  rfl

/-- What is written at a path is read back there. -/
theorem readText_of_write {path : List Char} {content : String} {after : FileSystem}
    (h : fs.write path content = .ok after) : after.readText path = .ok content.toList := by
  obtain ⟨names, hdestination, rfl⟩ := write_eq_ok_iff.mp h
  rw [readText, entry_put hdestination]
  dsimp only
  rw [decodeText_toUTF8]

end MarkupAudit.FileSystem
