import MarkupAudit.FileSystem.Trail
import MarkupAudit.Text.Cursor

/-!
Resolving a path: walking part by part, from the top when it starts with a slash and from the
working directory otherwise. A link on the way is replaced by its target; two points lead back to
the directory above, and at the top nowhere. Anything that is walked through has to be a directory,
and a slash at the end walks through what stands before it. A path of too many bytes leads nowhere,
whatever it says. `walk_induction` is the induction on a walk that leads somewhere.
-/

namespace MarkupAudit.FileSystem

inductive Access where
  | look
  | follow
  /-- A link is followed, and the entry may be missing. -/
  | create
deriving DecidableEq

/-- Where a path leads: the names from the top, none of them a link. -/
inductive Place where
  | existing (names : List Name) (entry : Entry)
  /-- The directory exists and has no such entry. -/
  | vacant (names : List Name)

def nameLimit : Nat := 255

def pathLimit : Nat := 4095

def isTooLong (path : List Char) : Bool := pathLimit < Text.byteLength path

/-- Walks on from a directory. `enter` goes on after a link: from a directory, with the parts of the
target and those that are left. -/
def descend (fs : FileSystem) (access : Access)
    (enter : Trail → List Name → Except Cause Place) : Trail → List Name → Except Cause Place
  | trail, [] => .ok (.existing trail.names (.directory (trail.inside fs)))
  | trail, part :: more =>
    if !Path.isProper part then descend fs access enter trail more
    else if part = ['.', '.'] then descend fs access enter trail.tail more
    else if access = .create ∧ more ≠ [] ∧ more.all (·.isEmpty) then .error .isDirectory
    else
      match Entry.find? part (trail.inside fs) with
      | none =>
        if nameLimit < Text.byteLength part then .error .nameTooLong
        else if more = [] then .ok (.vacant (trail.names ++ [part]))
        else .error .notFound
      | some (.file content) =>
        if more = [] then .ok (.existing (trail.names ++ [part]) (.file content))
        else .error .notDirectory
      | some (.directory entries) => descend fs access enter ((part, entries) :: trail) more
      | some (.link target) =>
        if more = [] ∧ access = .look then .ok (.existing (trail.names ++ [part]) (.link target))
        else enter (if Path.isAbsolute target then [] else trail) (Path.parts target ++ more)

def linkLimit : Nat := 40

def walk (fs : FileSystem) (access : Access) : Nat → Trail → List Name → Except Cause Place
  | 0 => descend fs access fun _ _ => .error .tooManyLinks
  | links + 1 => descend fs access (walk fs access links)

section Walk

variable {fs : FileSystem} {access : Access} {links : Nat} {trail : Trail}

theorem walk_nil (access : Access) : walk fs access links trail [] =
    .ok (.existing trail.names (.directory (trail.inside fs))) := by
  cases links <;> rfl

theorem walk_cons (access : Access) (part : Name) (more : List Name) :
    walk fs access links trail (part :: more) =
      if !Path.isProper part then walk fs access links trail more
      else if part = ['.', '.'] then walk fs access links trail.tail more
      else if access = .create ∧ more ≠ [] ∧ more.all (·.isEmpty) then .error .isDirectory
      else
        match Entry.find? part (trail.inside fs) with
        | none =>
          if nameLimit < Text.byteLength part then .error .nameTooLong
          else if more = [] then .ok (.vacant (trail.names ++ [part]))
          else .error .notFound
        | some (.file content) =>
          if more = [] then .ok (.existing (trail.names ++ [part]) (.file content))
          else .error .notDirectory
        | some (.directory entries) => walk fs access links ((part, entries) :: trail) more
        | some (.link target) =>
          if more = [] ∧ access = .look then .ok (.existing (trail.names ++ [part]) (.link target))
          else
            match links with
            | 0 => .error .tooManyLinks
            | links + 1 => walk fs access links (if Path.isAbsolute target then [] else trail)
                (Path.parts target ++ more) := by
  cases links <;> rfl

section Induction

variable {motive : (links : Nat) → (trail : Trail) → (parts : List Name) → (place : Place) →
  walk fs access links trail parts = .ok place → Prop}

/-- A walk that leads somewhere, step by step. A link brings new parts, so the induction on parts runs
inside the one on links. -/
theorem walk_induction
    (here : ∀ {links trail}, motive links trail [] _ (walk_nil access))
    (skip : ∀ {links trail part more place} (_ : Path.isProper part = false)
      (hmore : walk fs access links trail more = .ok place) (h),
      motive links trail more place hmore → motive links trail (part :: more) place h)
    (up : ∀ {links trail more place} (hmore : walk fs access links trail.tail more = .ok place) (h),
      motive links trail.tail more place hmore → motive links trail (['.', '.'] :: more) place h)
    (vacant : ∀ {links} {trail : Trail} {part : Name} (_ : Path.isProper part = true)
      (_ : part ≠ ['.', '.']) (_ : Entry.find? part (trail.inside fs) = none)
      (_ : ¬nameLimit < Text.byteLength part) (h),
      motive links trail [part] (.vacant (trail.names ++ [part])) h)
    (file : ∀ {links} {trail : Trail} {part : Name} {content} (_ : Path.isProper part = true)
      (_ : part ≠ ['.', '.']) (_ : Entry.find? part (trail.inside fs) = some (.file content)) (h),
      motive links trail [part] (.existing (trail.names ++ [part]) (.file content)) h)
    (directory : ∀ {links} {trail : Trail} {part : Name} {more place entries}
      (_ : Path.isProper part = true) (_ : part ≠ ['.', '.'])
      (_ : ¬(access = .create ∧ more ≠ [] ∧ more.all (·.isEmpty) = true))
      (_ : Entry.find? part (trail.inside fs) = some (.directory entries))
      (hmore : walk fs access links ((part, entries) :: trail) more = .ok place) (h),
      motive links ((part, entries) :: trail) more place hmore →
        motive links trail (part :: more) place h)
    (look : ∀ {links} {trail : Trail} {part : Name} {target} (_ : Path.isProper part = true)
      (_ : part ≠ ['.', '.']) (_ : Entry.find? part (trail.inside fs) = some (.link target))
      (_ : access = .look) (h),
      motive links trail [part] (.existing (trail.names ++ [part]) (.link target)) h)
    (link : ∀ {links} {trail : Trail} {part : Name} {more place target}
      (_ : Path.isProper part = true) (_ : part ≠ ['.', '.'])
      (_ : ¬(access = .create ∧ more ≠ [] ∧ more.all (·.isEmpty) = true))
      (_ : Entry.find? part (trail.inside fs) = some (.link target))
      (_ : ¬(more = [] ∧ access = .look))
      (hmore : walk fs access links (if Path.isAbsolute target then [] else trail)
        (Path.parts target ++ more) = .ok place) (h),
      motive links (if Path.isAbsolute target then [] else trail) (Path.parts target ++ more) place
        hmore → motive (links + 1) trail (part :: more) place h)
    (links : Nat) (trail : Trail) (parts : List Name) (place : Place)
    (h : walk fs access links trail parts = .ok place) : motive links trail parts place h := by
  induction links using Nat.strongRecOn generalizing trail parts place with
  | ind links hlinks =>
    induction parts generalizing trail with
    | nil =>
      have hplace := h
      rw [walk_nil] at hplace
      cases hplace
      exact here
    | cons part more ih =>
      have hstep := h
      rw [walk_cons] at hstep
      split at hstep
      · rename_i hpart
        exact skip (by simpa using hpart) hstep h (ih trail hstep)
      rename_i hpart
      have hpart : Path.isProper part = true := by simpa using hpart
      split at hstep
      · rename_i hup
        subst hup
        exact up hstep h (ih trail.tail hstep)
      rename_i hup
      split at hstep
      · cases hstep
      rename_i hguard
      split at hstep
      · rename_i hfind
        split at hstep
        · cases hstep
        rename_i hshort
        split at hstep
        · rename_i hmore
          subst hmore
          cases hstep
          exact vacant hpart hup hfind hshort h
        · cases hstep
      · rename_i content hfind
        split at hstep
        · rename_i hmore
          subst hmore
          cases hstep
          exact file hpart hup hfind h
        · cases hstep
      · rename_i entries hfind
        exact directory hpart hup hguard hfind hstep h (ih ((part, entries) :: trail) hstep)
      · rename_i target hfind
        split at hstep
        · rename_i hlook
          obtain ⟨rfl, rfl⟩ := hlook
          cases hstep
          exact look hpart hup hfind rfl h
        · rename_i hlook
          split at hstep
          · cases hstep
          · have hmotive := hlinks _ (Nat.lt_succ_self _) _ _ _ hstep
            exact link hpart hup hguard hfind hlook hstep h hmotive

end Induction

/-- Where the target of a link is looked for. -/
theorem leads_target (h : trail.Leads fs) (target : List Char) :
    Trail.Leads fs (if Path.isAbsolute target then [] else trail) := by
  split
  · trivial
  · exact h

end Walk

def follow (fs : FileSystem) (access : Access) (absolute : Bool) (parts : List Name) :
    Except Cause Place :=
  match fs.start absolute with
  | .ok trail => walk fs access linkLimit trail parts
  | .error cause => .error cause

def resolve (fs : FileSystem) (access : Access) (path : List Char) : Except Cause Place :=
  if path = [] then .error .notFound
  else if '\x00' ∈ path then .error .zeroInPath
  else if isTooLong path then .error .nameTooLong
  else fs.follow access (Path.isAbsolute path) (Path.parts path)

section Existing

variable {fs : FileSystem} {access : Access} {names : List Name} {entry : Entry}

theorem entryAt?_of_walk {links : Nat} {parts : List Name} {trail : Trail} (ht : trail.Leads fs)
    (hw : walk fs access links trail parts = .ok (.existing names entry)) :
    fs.entryAt? names = some entry := by
  generalize hplace : Place.existing names entry = place at hw
  induction links, trail, parts, place, hw using walk_induction with
  | here =>
    cases hplace
    exact entryAt?_names ht
  | skip _ _ _ ih => exact ih ht hplace
  | up _ _ ih => exact ih ht.tail hplace
  | vacant => cases hplace
  | file _ _ hfind _ =>
    cases hplace
    exact entryAt?_child ht hfind
  | directory _ _ _ hfind _ _ ih => exact ih ⟨hfind, ht⟩ hplace
  | look _ _ hfind _ _ =>
    cases hplace
    exact entryAt?_child ht hfind
  | link _ _ _ _ _ _ _ ih => exact ih (leads_target ht _) hplace

theorem entryAt?_of_resolve {path : List Char}
    (h : fs.resolve access path = .ok (.existing names entry)) :
    fs.entryAt? names = some entry := by
  simp only [resolve, follow] at h
  split at h
  · cases h
  · split at h
    · cases h
    · split at h
      · cases h
      · split at h
        · rename_i trail hs
          exact entryAt?_of_walk (leads_of_start hs) h
        · cases h

end Existing

/-- The entry at a path; a link at the end is followed or not. -/
def entry (fs : FileSystem) (access : Access) (path : List Char) : Except Cause Entry :=
  match fs.resolve access path with
  | .ok (.existing _ entry) => .ok entry
  | .ok (.vacant _) => .error .notFound
  | .error cause => .error cause

def pathExists (fs : FileSystem) (path : List Char) : Bool := (fs.entry .follow path).isOk

def isFile (fs : FileSystem) (path : List Char) : Bool :=
  match fs.entry .follow path with
  | .ok entry => entry.isFile
  | .error _ => false

def decodeText (content : ByteArray) : Option (List Char) :=
  (String.fromUTF8? content).map String.toList

def readText (fs : FileSystem) (path : List Char) : Except Cause (List Char) :=
  match fs.entry .follow path with
  | .error cause => .error cause
  | .ok (.file content) =>
    match decodeText content with
    | some text => .ok text
    | none => .error .notText
  | .ok _ => .error .isDirectory

/-- Writes a file, which is made if it is missing; its directory has to be there. -/
def writeBytes (fs : FileSystem) (path : List Char) (content : ByteArray) :
    Except Cause FileSystem :=
  match fs.resolve .create path with
  | .error cause => .error cause
  | .ok (.existing names (.file _)) => .ok (fs.put names (.file content))
  | .ok (.existing _ _) => .error .isDirectory
  | .ok (.vacant names) => .ok (fs.put names (.file content))

def write (fs : FileSystem) (path : List Char) (content : String) : Except Cause FileSystem :=
  fs.writeBytes path content.toUTF8

end MarkupAudit.FileSystem
