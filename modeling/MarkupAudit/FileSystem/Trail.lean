import MarkupAudit.FileSystem.Basic

/-!
The way down to a directory. It holds every directory that was entered, so that the way back up is
at hand. `entryAt?_names` says that the names of a trail lead to what its innermost directory holds.
-/

namespace MarkupAudit.FileSystem

/-- The directories from the top down to a place, the innermost first, with what each holds. -/
abbrev Trail := List (Name × List (Name × Entry))

namespace Trail

def names (trail : Trail) : List Name := (trail.map (·.1)).reverse

def inside (fs : FileSystem) : Trail → List (Name × Entry)
  | [] => fs.entries
  | (_, entries) :: _ => entries

/-- Each directory of the trail is an entry of the one around it. -/
def Leads (fs : FileSystem) : Trail → Prop
  | [] => True
  | (name, entries) :: outer =>
    Entry.find? name (inside fs outer) = some (.directory entries) ∧ Leads fs outer

theorem Leads.tail {fs : FileSystem} {trail : Trail} (h : trail.Leads fs) :
    Leads fs trail.tail := by
  cases trail with
  | nil => trivial
  | cons _ _ => exact h.2

end Trail

def trailTo (fs : FileSystem) : Trail → List Name → Option Trail
  | trail, [] => some trail
  | trail, name :: more =>
    match Entry.find? name (trail.inside fs) with
    | some (.directory entries) => trailTo fs ((name, entries) :: trail) more
    | _ => none

/-- Where paths start: at the top or in the working directory. -/
def start (fs : FileSystem) (absolute : Bool) : Except Cause Trail :=
  if absolute then .ok []
  else
    match fs.trailTo [] fs.home with
    | some trail => .ok trail
    | none => .error .notFound

theorem Entry.get?_append (entry : Entry) (names more : List Name) :
    entry.get? (names ++ more) = (entry.get? names).bind (·.get? more) := by
  induction names generalizing entry with
  | nil => cases entry <;> rfl
  | cons name names ih =>
    cases entry with
    | directory entries =>
      simp only [List.cons_append, get?]
      cases find? name entries with
      | none => rfl
      | some inner => exact ih inner
    | _ => rfl

section Leads

variable {fs : FileSystem} {trail : Trail}

theorem entryAt?_names (h : trail.Leads fs) :
    fs.entryAt? trail.names = some (.directory (trail.inside fs)) := by
  induction trail with
  | nil => rfl
  | cons last outer ih =>
    obtain ⟨name, entries⟩ := last
    have : Trail.names ((name, entries) :: outer) = Trail.names outer ++ [name] := by
      simp [Trail.names]
    rw [this, entryAt?, Entry.get?_append, ← entryAt?, ih h.2]
    simp only [Option.bind_some, Entry.get?, h.1]
    rfl

theorem entryAt?_child {name : Name} {entry : Entry} (h : trail.Leads fs)
    (hf : Entry.find? name (trail.inside fs) = some entry) :
    fs.entryAt? (trail.names ++ [name]) = some entry := by
  rw [entryAt?, Entry.get?_append, ← entryAt?, entryAt?_names h]
  simp only [Option.bind_some, Entry.get?, hf]

theorem leads_of_trailTo {names : List Name} {final : Trail} (h : trail.Leads fs)
    (ht : fs.trailTo trail names = some final) : final.Leads fs := by
  induction names generalizing trail with
  | nil =>
    cases ht
    exact h
  | cons name names ih =>
    rw [trailTo] at ht
    split at ht
    · rename_i entries hf
      have : Trail.Leads fs ((name, entries) :: trail) := ⟨hf, h⟩
      exact ih this ht
    · cases ht

theorem leads_of_start {absolute : Bool} (h : fs.start absolute = .ok trail) :
    trail.Leads fs := by
  rw [start] at h
  split at h
  · cases h
    trivial
  · split at h
    · rename_i found ht
      cases h
      have : Trail.Leads fs [] := trivial
      exact leads_of_trailTo this ht
    · cases h

end Leads

end MarkupAudit.FileSystem
