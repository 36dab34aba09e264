import MarkupAudit.Pattern.Build
import MarkupAudit.Pattern.Table

/-!
Skipped heading levels. A level-one heading opens and closes; the section that follows its closing
tag runs to the next level-two heading or to the end of the text. The level is skipped when a
section has a heading of level three to six, and the match then reaches to the last of these.
A section without one is passed over and the next closing tag is looked for after it.
-/

namespace MarkupAudit.HeadingSkip

open Pattern

def opening : Pattern := concat [literal "<h1", star (noneOf ['>']), exactly '>']

def closing : Pattern := literal "</h1>"

def levelTwo : Pattern := literal "<h2"

def deeper : Pattern := seq (literal "<h") (between '3' '6')

/-- Where the last deeper heading of the section at a place ends. -/
def lastDeeper : Nat → List Char → Option Cursor
  | _, [] => none
  | offset, c :: rest =>
    let cur : Cursor := ⟨offset, c :: rest⟩
    if levelTwo.matchesAt cur then none
    else (lastDeeper (offset + c.utf8Size) rest).or ((deeper.matchAt cur).map (·.here))

/-- Where the last deeper heading ends in the first section that has one. `inSection` tells whether
a closing tag has been passed since the last level-two heading. -/
def skipEnd : Bool → Nat → List Char → Option Cursor
  | _, _, [] => none
  | false, offset, c :: rest =>
    skipEnd (closing.matchesAt ⟨offset, c :: rest⟩) (offset + c.utf8Size) rest
  | true, offset, c :: rest =>
    let cur : Cursor := ⟨offset, c :: rest⟩
    if levelTwo.matchesAt cur then skipEnd false (offset + c.utf8Size) rest
    else if deeper.matchesAt cur then lastDeeper offset (c :: rest)
    else skipEnd true (offset + c.utf8Size) rest

def matchAt (cur : Cursor) : Option Cursor :=
  (opening.matchAt cur).bind fun opened => skipEnd false opened.here.offset opened.here.rest

theorem le_of_lastDeeper {n : Nat} {text : List Char} {b : Cursor}
    (h : lastDeeper n text = some b) : (⟨n, text⟩ : Cursor) ≤ b := by
  induction text generalizing n with
  | nil => simp [lastDeeper] at h
  | cons c text ih =>
    simp only [lastDeeper] at h
    split at h
    · cases h
    · simp only [Option.or_eq_some_iff, Option.map_eq_some_iff] at h
      rcases h with h | ⟨_, a, ha, rfl⟩
      · exact Cursor.le_trans Cursor.le_next (ih h)
      · exact le_of_matchAt ha

theorem le_of_skipEnd {inSection : Bool} {n : Nat} {text : List Char} {b : Cursor}
    (h : skipEnd inSection n text = some b) : (⟨n, text⟩ : Cursor) ≤ b := by
  induction text generalizing n inSection with
  | nil => simp [skipEnd] at h
  | cons c text ih =>
    cases inSection with
    | false => exact Cursor.le_trans Cursor.le_next (ih h)
    | true =>
      simp only [skipEnd] at h
      split at h
      · exact Cursor.le_trans Cursor.le_next (ih h)
      · split at h
        · exact le_of_lastDeeper h
        · exact Cursor.le_trans Cursor.le_next (ih h)

theorem le_of_matchAt {a b : Cursor} (h : matchAt a = some b) : a ≤ b := by
  simp only [matchAt, Option.bind_eq_some_iff] at h
  obtain ⟨opened, ho, h⟩ := h
  exact Cursor.le_trans (Pattern.le_of_matchAt ho) (le_of_skipEnd h)

/-- What the sections ahead of a place hold: where the last deeper heading of the section at the
place ends, and where the match ends outside of a section and inside of one. -/
structure Ahead where
  lastDeeper : Option Cursor
  outside : Option Cursor
  inside : Option Cursor

def Ahead.ofCursor (cur : Cursor) : Ahead :=
  ⟨HeadingSkip.lastDeeper cur.offset cur.rest, skipEnd false cur.offset cur.rest,
    skipEnd true cur.offset cur.rest⟩

/-- What is ahead of a place where a deeper heading may end, from what is ahead of later ones. -/
def lookAhead (cur : Cursor) (deeperEnd : Option Cursor) (later : Cursor → Option Ahead) : Ahead :=
  let next := (cur.next?.bind later).getD ⟨none, none, none⟩
  let leaves := levelTwo.matchesAt cur
  let last := if leaves then none else next.lastDeeper.or deeperEnd
  { lastDeeper := last
    outside := if closing.matchesAt cur then next.inside else next.outside
    inside :=
      if leaves then next.outside else if deeperEnd.isSome then last else next.inside }

def stops (text : List Char) : List (Option Cursor) :=
  let places := Cursor.places text
  let deeperEnds := (deeper.matchTable text).map (·.map (·.here))
  let openingEnds := (opening.matchTable text).map (·.map (·.here))
  let found := Table.relay places openingEnds (Table.sweep lookAhead places deeperEnds)
  found.map (·.bind (·.outside))

theorem lookAhead_after (cur : Cursor) :
    lookAhead cur ((deeper.matchAt cur).map (·.here))
      (Table.lookUp cur.after (cur.after.map Ahead.ofCursor)) = Ahead.ofCursor cur := by
  obtain ⟨n, rest⟩ := cur
  cases rest with
  | nil => rfl
  | cons c rest =>
    have h : (⟨n, c :: rest⟩ : Cursor).next?.bind (Table.lookUp (⟨n, c :: rest⟩ : Cursor).after
        ((⟨n, c :: rest⟩ : Cursor).after.map Ahead.ofCursor)) =
          some (Ahead.ofCursor ⟨n + c.utf8Size, rest⟩) := by
      rw [Cursor.after_cons]
      exact Table.lookUp_onward _ (Cursor.le_refl _)
    simp only [lookAhead, h, Option.getD_some, Ahead.ofCursor, Option.isSome_map, lastDeeper,
      skipEnd]
    cases closing.matchesAt ⟨n, c :: rest⟩ <;> rfl

theorem stops_eq (text : List Char) : stops text = (Cursor.places text).map matchAt := by
  have h {a b : Cursor} (h : (opening.matchAt a).map (·.here) = some b) : a ≤ b := by
    simp only [Option.map_eq_some_iff] at h
    obtain ⟨opened, ho, rfl⟩ := h
    exact Pattern.le_of_matchAt ho
  simp only [stops, matchTable_eq, List.map_map, Function.comp_def, Cursor.places]
  rw [Table.sweep_map (fun cur => (deeper.matchAt cur).map (·.here)) Ahead.ofCursor lookAhead_after,
    Table.relay_map h, List.map_map]
  refine List.map_congr_left fun cur _ => ?_
  cases ho : opening.matchAt cur <;> simp [matchAt, ho, Ahead.ofCursor]

end MarkupAudit.HeadingSkip
