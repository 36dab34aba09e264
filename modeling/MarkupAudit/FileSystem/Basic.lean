import MarkupAudit.Path

/-!
A file system as a tree: files with their bytes, directories with named entries in no particular
order, and symbolic links with the text of their target. No two entries of a directory have one
name, and neither a name nor a target can hold the character of code point zero. One of the
directories is the working directory, from which relative paths start.

Names, link targets and paths are Unicode text and nothing else. A Unix system also allows names that
are not UTF-8; to such a name no excluded name and no extension is equal, and it is shown with
replacement characters. Neither is modelled here: there is no entry with such a name.
-/

namespace MarkupAudit

namespace FileSystem

abbrev Name := List Char

def isName (name : Name) : Bool :=
  Path.isProper name && name != ['.', '.'] && !name.contains '/' && !name.contains '\x00'

inductive Entry where
  | file (content : ByteArray)
  | directory (entries : List (Name × Entry))
  | link (target : List Char)

namespace Entry

def isDirectory : Entry → Bool
  | directory _ => true
  | _ => false

def isFile : Entry → Bool
  | file _ => true
  | _ => false

def find? (name : Name) (entries : List (Name × Entry)) : Option Entry :=
  (entries.find? fun entry => entry.1 == name).map (·.2)

/-- The entry that names lead to, without following links. -/
def get? : Entry → List Name → Option Entry
  | entry, [] => some entry
  | directory entries, name :: more => (find? name entries).bind (get? · more)
  | _, _ :: _ => none

def change (name : Name) (f : Option Entry → Entry) : List (Name × Entry) → List (Name × Entry)
  | [] => [(name, f none)]
  | (n, entry) :: rest =>
    if n = name then (n, f (some entry)) :: rest else (n, entry) :: change name f rest

theorem find?_change (name : Name) (f : Option Entry → Entry) (entries : List (Name × Entry))
    (n : Name) :
    find? n (change name f entries) =
      if n = name then some (f (find? name entries)) else find? n entries := by
  induction entries with
  | nil =>
    by_cases h : n = name
    · simp [change, find?, h]
    · simp [change, find?, h, Ne.symm h]
  | cons entry entries ih =>
    obtain ⟨m, e⟩ := entry
    simp only [find?] at ih
    by_cases hm : m = name
    · subst hm
      by_cases h : n = m
      · simp [change, find?, h]
      · simp [change, find?, h, Ne.symm h]
    · by_cases hn : m = n
      · subst hn
        simp [change, find?, hm]
      · by_cases h : n = name
        · subst h
          simp [change, find?, hm, ih]
        · simp [change, find?, hm, hn, h, ih]

/-- Puts an entry where names lead to. Directories that are missing on the way are made. -/
def put (new : Entry) : List Name → Entry → Entry
  | [], _ => new
  | name :: more, directory entries =>
    directory (change name (fun old => put new more (old.getD (directory []))) entries)
  | _ :: _, entry => entry

mutual

/-- Whether the entries of every directory have names, which are all different, and the targets of
links are without the character of code point zero. -/
def isSound : Entry → Bool
  | file _ => true
  | link target => !target.contains '\x00'
  | directory entries => areSound entries

def areSound : List (Name × Entry) → Bool
  | [] => true
  | (name, entry) :: more =>
    isName name && !(more.map (·.1)).contains name && isSound entry && areSound more

end

theorem isSound_directory (entries : List (Name × Entry)) :
    (directory entries).isSound = areSound entries := by
  rw [isSound]

theorem areSound_iff {entries : List (Name × Entry)} : areSound entries = true ↔
    (entries.map (·.1)).Nodup ∧
      ∀ entry ∈ entries, isName entry.1 = true ∧ entry.2.isSound = true := by
  induction entries with
  | nil => simp [areSound]
  | cons entry more ih =>
    obtain ⟨name, entry⟩ := entry
    simp only [areSound, Bool.and_eq_true, Bool.not_eq_true', List.contains_eq_mem,
      decide_eq_false_iff_not, ih, List.map_cons, List.nodup_cons, List.forall_mem_cons]
    constructor
    · intro h
      obtain ⟨⟨⟨hname, hnew⟩, hsound⟩, hmore, hall⟩ := h
      exact ⟨⟨hnew, hmore⟩, ⟨hname, hsound⟩, hall⟩
    · intro h
      obtain ⟨⟨hnew, hmore⟩, ⟨hname, hsound⟩, hall⟩ := h
      exact ⟨⟨⟨hname, hnew⟩, hsound⟩, hmore, hall⟩

theorem mem_names_change {name n : Name} {f : Option Entry → Entry}
    {entries : List (Name × Entry)} :
    n ∈ (change name f entries).map (·.1) ↔ n ∈ entries.map (·.1) ∨ n = name := by
  induction entries with
  | nil => simp [change]
  | cons entry entries ih =>
    obtain ⟨m, entry⟩ := entry
    rw [change]
    split
    · rename_i h
      subst h
      simp only [List.map_cons, List.mem_cons]
      constructor
      · rintro (h | h)
        · exact Or.inr h
        · exact Or.inl (Or.inr h)
      · rintro ((h | h) | h)
        · exact Or.inl h
        · exact Or.inr h
        · exact Or.inl h
    · simp only [List.map_cons, List.mem_cons, ih, or_assoc]

theorem areSound_change {name : Name} {f : Option Entry → Entry} {entries : List (Name × Entry)}
    (hname : isName name = true) (hnone : (f none).isSound = true)
    (hsome : ∀ entry : Entry, entry.isSound = true → (f (some entry)).isSound = true)
    (h : areSound entries = true) : areSound (change name f entries) = true := by
  induction entries with
  | nil => simp [change, areSound, hname, hnone]
  | cons entry entries ih =>
    obtain ⟨n, entry⟩ := entry
    rw [areSound_iff, List.map_cons, List.nodup_cons, List.forall_mem_cons] at h
    obtain ⟨⟨hnew, hnodup⟩, ⟨hn, hentry⟩, hall⟩ := h
    rw [change]
    split
    · rw [areSound_iff, List.map_cons, List.nodup_cons, List.forall_mem_cons]
      exact ⟨⟨hnew, hnodup⟩, ⟨hn, hsome entry hentry⟩, hall⟩
    · rename_i hne
      have hmore := areSound_iff.mp (ih (areSound_iff.mpr ⟨hnodup, hall⟩))
      rw [areSound_iff, List.map_cons, List.nodup_cons, List.forall_mem_cons, mem_names_change]
      exact ⟨⟨fun hor => hor.elim hnew hne, hmore.1⟩, ⟨hn, hentry⟩, hmore.2⟩

theorem isSound_put {new : Entry} (hnew : new.isSound = true) {names : List Name}
    (hnames : ∀ name ∈ names, isName name = true) {entry : Entry} (h : entry.isSound = true) :
    (put new names entry).isSound = true := by
  induction names generalizing entry with
  | nil => exact hnew
  | cons name more ih =>
    rw [List.forall_mem_cons] at hnames
    cases entry with
    | file content => exact h
    | link target => exact h
    | directory entries =>
      rw [put, isSound]
      exact areSound_change hnames.1 (ih hnames.2 rfl) (fun old ho => ih hnames.2 ho) h

end Entry

inductive Cause where
  | notFound
  | notDirectory
  | isDirectory
  | tooManyLinks
  | nameTooLong
  /-- A path cannot hold the character of code point zero. -/
  | zeroInPath
  | notText
deriving DecidableEq, Repr

def Cause.message : Cause → String
  | notFound => "No such file or directory (os error 2)"
  | notDirectory => "Not a directory (os error 20)"
  | isDirectory => "Is a directory (os error 21)"
  | tooManyLinks => "Too many levels of symbolic links (os error 40)"
  | nameTooLong => "File name too long (os error 36)"
  | zeroInPath => "file name contained an unexpected NUL byte"
  | notText => "stream did not contain valid UTF-8"

end FileSystem

structure FileSystem where
  /-- What the directory at the top holds. -/
  entries : List (FileSystem.Name × FileSystem.Entry)
  /-- The names that lead from the top to the working directory. -/
  home : List FileSystem.Name
  sound : FileSystem.Entry.areSound entries = true

namespace FileSystem

def top (fs : FileSystem) : Entry := .directory fs.entries

theorem isSound_top (fs : FileSystem) : fs.top.isSound = true := by
  rw [top, Entry.isSound_directory]
  exact fs.sound

def entryAt? (fs : FileSystem) (names : List Name) : Option Entry := fs.top.get? names

/-- Puts an entry where names lead to from the top, if entries can have these names. -/
def put (fs : FileSystem) (names : List Name) (new : Entry) : FileSystem :=
  if h : new.isSound = true ∧ ∀ name ∈ names, isName name = true then
    match hp : Entry.put new names fs.top with
    | .directory entries =>
      { fs with
        entries
        sound := by
          rw [← Entry.isSound_directory, ← hp]
          exact Entry.isSound_put h.1 h.2 fs.isSound_top }
    | _ => fs
  else fs

def ofHome (home : List Name) (entries : List (Name × Entry)) : FileSystem :=
  put ⟨[], home, rfl⟩ home (.directory entries)

end FileSystem

end MarkupAudit
