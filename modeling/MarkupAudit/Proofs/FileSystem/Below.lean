import MarkupAudit.Proofs.FileSystem.Write

/-!
Paths that are put together. Where a path leads to a directory, the path of an entry in it leads to
the entry, unless it is too long to lead anywhere or the entry is a link (`resolve_join`); so names
that lead to a file below a directory do so as a path too (`resolve_along`).
-/

namespace MarkupAudit

open FileSystem (Name isName)

namespace Path

/-- The parts of the path of an entry: those of its directory, where an empty part at the end does
not count, and its name. -/
theorem parts_join {path : List Char} (hpath : path ≠ []) {name : Name} (h : isName name = true) :
    ∃ parts, (Path.parts path = parts ∨ Path.parts path = parts ++ [[]]) ∧
      Path.parts (join path name) = parts ++ [name] := by
  obtain ⟨_, _, _, hslash, _⟩ := FileSystem.isName_iff.mp h
  rw [join, isAbsolute_of_isName h, if_neg (by simp)]
  by_cases hlast : path.getLast? = some '/'
  · obtain ⟨front, rfl⟩ := List.getLast?_eq_some_iff.mp hlast
    refine ⟨Path.parts front, Or.inr ?_, ?_⟩
    · rw [parts_append]
      rfl
    · rw [if_pos (Or.inr hlast), List.append_assoc, List.singleton_append, parts_append,
        parts_of_not_mem hslash]
  · refine ⟨Path.parts path, Or.inl rfl, ?_⟩
    rw [if_neg (by simp [hpath, hlast]), parts_append, parts_of_not_mem hslash]

/-- A path goes on with slashes and names. -/
theorem exists_along_eq (path : List Char) {names : List Name}
    (h : ∀ name ∈ names, isName name = true) : ∃ more, along path names = path ++ more ∧
      ∀ c ∈ more, c = '/' ∨ ∃ name ∈ names, c ∈ name := by
  induction names generalizing path with
  | nil => exact ⟨[], (List.append_nil path).symm, by simp⟩
  | cons name names ih =>
    obtain ⟨hname, hnames⟩ := List.forall_mem_cons.mp h
    obtain ⟨more, heq, hmore⟩ := ih (join path name) hnames
    obtain ⟨slash, hjoin, hslash⟩ : ∃ slash, join path name = path ++ slash ++ name ∧
        ∀ c ∈ slash, c = '/' := by
      rw [join, isAbsolute_of_isName hname, if_neg (by simp)]
      split
      · exact ⟨[], by simp, by simp⟩
      · exact ⟨['/'], by simp, by simp⟩
    refine ⟨slash ++ name ++ more, ?_, ?_⟩
    · rw [along_cons, heq, hjoin]
      simp only [List.append_assoc]
    · intro c hc
      rw [List.mem_append, List.mem_append] at hc
      rcases hc with (hc | hc) | hc
      · exact Or.inl (hslash c hc)
      · exact Or.inr ⟨name, List.mem_cons_self, hc⟩
      · rcases hmore c hc with hc | ⟨other, ho, hc⟩
        · exact Or.inl hc
        · exact Or.inr ⟨other, List.mem_cons_of_mem name ho, hc⟩

end Path

namespace FileSystem

variable {fs : FileSystem} {links : Nat} {trail : Trail} {parts more names : List Name}
  {place final : Place} {path : List Char} {entries : List (Name × Entry)}

/-- An empty part at the end of a way leads no further. -/
theorem Walks.of_append_nil (h : Walks fs links trail (parts ++ [[]]) place) :
    Walks fs links trail parts place := by
  have hsplit : ∀ {parts more : List Name} {part : Name}, part :: more = parts ++ [[]] →
      Path.isProper part = true → ∃ rest, parts = part :: rest ∧ more = rest ++ [[]] := by
    intro parts more part heq hpart
    rcases List.append_eq_cons_iff.mp heq.symm with ⟨_, hnil⟩ | ⟨rest, hparts, hmore⟩
    · obtain ⟨rfl, _⟩ := List.cons.inj hnil
      cases hpart
    · exact ⟨rest, hparts, hmore⟩
  generalize hall : parts ++ [[]] = all at h
  induction h generalizing parts with
  | here => simp at hall
  | skip hpart h ih =>
    rcases List.append_eq_cons_iff.mp hall with ⟨rfl, hnil⟩ | ⟨rest, rfl, hmore⟩
    · obtain ⟨_, rfl⟩ := List.cons.inj hnil
      exact h
    · exact .skip hpart (ih hmore.symm)
  | up h ih =>
    obtain ⟨rest, rfl, hmore⟩ := hsplit hall.symm rfl
    exact .up (ih hmore.symm)
  | vacant hpart hup hfind =>
    obtain ⟨rest, _, hmore⟩ := hsplit hall.symm hpart
    simp at hmore
  | file hpart hup hfind =>
    obtain ⟨rest, _, hmore⟩ := hsplit hall.symm hpart
    simp at hmore
  | directory hpart hup hfind h ih =>
    obtain ⟨rest, rfl, hmore⟩ := hsplit hall.symm hpart
    exact .directory hpart hup hfind (ih hmore.symm)
  | link hpart hup hfind h ih =>
    obtain ⟨rest, rfl, rfl⟩ := hsplit hall.symm hpart
    exact .link hpart hup hfind (ih (List.append_assoc ..))

/-- From the directory at the end of a way the way goes on. -/
theorem Walks.append (h : Walks fs links trail parts place)
    (hplace : place = .existing names (.directory entries))
    (hmore : ∀ links trail, Trail.names trail = names → trail.inside fs = entries →
      Walks fs links trail more final) : Walks fs links trail (parts ++ more) final := by
  induction h with
  | here =>
    obtain ⟨hnames, hentries⟩ := Place.existing.inj hplace
    exact hmore _ _ hnames (Entry.directory.inj hentries)
  | skip hpart _ ih => exact .skip hpart (ih hplace)
  | up _ ih => exact .up (ih hplace)
  | vacant => cases hplace
  | file => cases hplace
  | directory hpart hup hfind _ ih => exact .directory hpart hup hfind (ih hplace)
  | link hpart hup hfind _ ih =>
    have hway := ih hplace
    rw [List.append_assoc] at hway
    exact .link hpart hup hfind hway

/-- A name leads to the entry of a directory that has it, if that is no link. -/
theorem walks_name {name : Name} {entry : Entry} (hname : isName name = true)
    (hfind : Entry.find? name (trail.inside fs) = some entry)
    (hentry : ∀ target, entry ≠ .link target) :
    Walks fs links trail [name] (.existing (trail.names ++ [name]) entry) := by
  obtain ⟨hne, hpoint, hup, _, _⟩ := isName_iff.mp hname
  have hproper : Path.isProper name = true := by simp [Path.isProper, hne, hpoint]
  cases entry with
  | file content => exact .file hproper hup hfind
  | directory inner =>
    have hinner : Trail.names ((name, inner) :: trail) = trail.names ++ [name] := by
      simp [Trail.names]
    rw [← hinner]
    exact .directory hproper hup hfind .here
  | link target => exact absurd rfl (hentry target)

theorem isTooLong_of_along {below : List Name} (hbelow : ∀ name ∈ below, isName name = true)
    (h : isTooLong (Path.along path below) = false) : isTooLong path = false := by
  obtain ⟨more, heq, _⟩ := Path.exists_along_eq path hbelow
  rw [isTooLong, decide_eq_false_iff_not] at h ⊢
  rw [heq, Text.byteLength_append] at h
  omega

theorem zero_not_mem_along {below : List Name} (hbelow : ∀ name ∈ below, isName name = true)
    (h : '\x00' ∉ path) : '\x00' ∉ Path.along path below := by
  obtain ⟨more, heq, hmore⟩ := Path.exists_along_eq path hbelow
  rw [heq, List.mem_append, not_or]
  refine ⟨h, ?_⟩
  intro hmem
  rcases hmore _ hmem with hslash | ⟨name, hname, hzero⟩
  · cases hslash
  · exact (isName_iff.mp (hbelow name hname)).2.2.2.2 hzero

/-- The path of an entry leads to it, if it is no link and the path is not too long. -/
theorem resolve_join {name : Name} {entry : Entry} (hname : isName name = true)
    (hpath : fs.resolve .follow path = .ok (.existing names (.directory entries)))
    (hfind : Entry.find? name entries = some entry) (hentry : ∀ target, entry ≠ .link target)
    (hlong : isTooLong (Path.join path name) = false) :
    fs.resolve .follow (Path.join path name) = .ok (.existing (names ++ [name]) entry) := by
  obtain ⟨hempty, hzero, _, trail, hstart, hwalk⟩ := resolve_eq_ok_iff.mp hpath
  have hnames : ∀ other ∈ [name], isName other = true := by simpa using hname
  obtain ⟨more, heq, _⟩ := Path.exists_along_eq path hnames
  have heq : Path.join path name = path ++ more := heq
  obtain ⟨parts, hparts, hjoin⟩ := Path.parts_join hempty hname
  have hway : Walks fs linkLimit trail parts (.existing names (.directory entries)) := by
    have hwalks := walks_of_walk (by decide) hwalk
    rcases hparts with hparts | hparts
    · rwa [hparts] at hwalks
    · rw [hparts] at hwalks
      exact hwalks.of_append_nil
  have hlast : ∀ links trail, Trail.names trail = names → trail.inside fs = entries →
      Walks fs links trail [name] (.existing (names ++ [name]) entry) := by
    rintro links trail rfl rfl
    exact walks_name hname hfind hentry
  refine resolve_eq_ok_iff.mpr ⟨?_, ?_, hlong, trail, ?_, ?_⟩
  · rw [heq]
    simp [hempty]
  · exact zero_not_mem_along hnames hzero
  · rw [heq, Path.isAbsolute_append hempty, hstart]
  · rw [hjoin]
    exact walk_of_walks (hway.append rfl hlast) (by simp)

/-- What names lead to below a directory their path leads to, if it is no link and the path is not
too long. -/
theorem resolve_along {top found : Entry} {below : List Name}
    (hroot : fs.resolve .follow path = .ok (.existing names top))
    (hbelow : ∀ name ∈ below, isName name = true) (hget : top.get? below = some found)
    (hfound : ∀ target, found ≠ .link target)
    (hlong : isTooLong (Path.along path below) = false) :
    fs.resolve .follow (Path.along path below) = .ok (.existing (names ++ below) found) := by
  induction below generalizing path names top with
  | nil =>
    rw [Entry.get?_nil, Option.some.injEq] at hget
    subst hget
    rw [List.append_nil]
    exact hroot
  | cons name below ih =>
    obtain ⟨hname, hbelow⟩ := List.forall_mem_cons.mp hbelow
    obtain ⟨entries, child, rfl, hfind, hget⟩ := Entry.exists_child_of_get?_cons hget
    have hchild : ∀ target, child ≠ .link target := by
      rintro target rfl
      cases below with
      | nil => exact hfound target (Option.some.inj hget).symm
      | cons next below => cases hget
    have hjoin := resolve_join hname hroot hfind hchild (isTooLong_of_along hbelow hlong)
    rw [List.append_cons]
    exact ih hjoin hbelow hget hlong

end FileSystem

end MarkupAudit
