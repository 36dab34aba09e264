import MarkupAudit.Proofs.Bytewise.Guarded
import MarkupAudit.Proofs.HeadingSkip.Loop

/-!
Skipped levels by byte offsets. The section behind a closing tag is cut out of the text, and where its
last deeper heading ends is counted from its beginning; the loop over the closing tags goes on where the
tag ends, and the loop over the openings one character behind the byte where the opening begins. From
each place of a text both end as the loops over its places do (`closing_ends`, `opening_ends`).
-/

namespace MarkupAudit

section Find

variable {p : Pattern} {cur start : Cursor} {found : Attempt} (h : p.find? cur = some (start, found))
include h

theorem Pattern.le_here_of_find? : cur ≤ start ∧ start ≤ found.here := by
  obtain ⟨hle, hmatch, _⟩ := find?_eq_some h
  exact ⟨hle, le_of_matchAt hmatch⟩

/-- What is found of a pattern that matches nothing empty ends behind where it begins. -/
theorem Pattern.offset_lt_of_find? (hp : p.refuses none = true) :
    start.offset < found.here.offset :=
  offset_lt_of_refuses hp (List.mem_of_head? (find?_eq_some h).2.1)

end Find

namespace Bytewise

open Text (byteLength)
open HeadingSkip (closeLoop findLoop lastIn region)

/-- Behind a closing tag the section up to the next level-two heading is cut out, and the last of its
deeper headings taken. -/
def closingRound (text : List Char) (byte : Nat) : Except Fault (Turn Nat (Option Nat)) := do
  match ← search HeadingSkip.closing text byte with
  | none => return .done none
  | some close =>
    let levelTwo ← search HeadingSkip.levelTwo text close.span.stop
    let sectionEnd := (levelTwo.map (·.span.start)).getD (byteLength text)
    let region ← slice text close.span.stop sectionEnd
    match ((Matcher.plain HeadingSkip.deeper).findAll region).getLast? with
    | some last => return .done (some (close.span.stop + last.stop))
    | none => return .again close.span.stop

/-- From a level-one heading its closing tags are gone through. -/
def openingRound (text : List Char) (byte : Nat) : Except Fault (Turn Nat (Option Span)) := do
  match ← search HeadingSkip.opening text byte with
  | none => return .done none
  | some opened =>
    match ← rounds (byteLength text) id (closingRound text) opened.span.stop with
    | some stop => return .done (some ⟨opened.span.start, stop⟩)
    | none => return .again (← stepOver text opened.span.start)

/-- At a byte there is a place from which a loop over places comes to a result. -/
def LeadsTo {α : Type} (loop : Cursor → α) (text : List Char) (byte : Nat) (result : α) : Prop :=
  ∃ cur : Cursor, cur.In text ∧ cur.offset = byte ∧ loop cur = result

variable {text : List Char} {cur : Cursor}

section Closing

/-- The section is cut out up to the next level-two heading, or to the end of the text. -/
theorem slice_region (h : cur.In text) : slice text cur.offset
    ((((HeadingSkip.levelTwo.find? cur).map Candidate.ofFound).map (·.span.start)).getD
      (byteLength text)) = .ok (region cur).rest := by
  rw [region]
  cases hfound : HeadingSkip.levelTwo.find? cur with
  | none =>
    have hoffset := Cursor.offset_add_byteLength h
    change cur.offset + _ = 0 + byteLength text at hoffset
    have hend : byteLength text = cur.offset + byteLength cur.rest := by omega
    exact slice_of_passed ⟨byteLength text, []⟩ h (List.append_nil _).symm hend
  | some candidate =>
    obtain ⟨start, found⟩ := candidate
    obtain ⟨passed, hrest, hoffset⟩ := (Pattern.le_here_of_find? hfound).1
    have hregion : (HeadingSkip.upTo start cur).rest = passed := by
      rw [HeadingSkip.upTo, hrest, List.length_append, Nat.add_sub_cancel_right, List.take_left]
    rw [hregion]
    exact slice_of_passed start h hrest hoffset

/-- Where the last deeper heading ends is as far from the beginning of what was cut out as from the
beginning of the section. -/
theorem lastIn_eq (cur : Cursor) : lastIn cur =
    ((Matcher.plain HeadingSkip.deeper).findAll cur.rest).getLast?.map (cur.offset + ·.stop) := by
  have hshift : (Matcher.plain HeadingSkip.deeper).candidatesFrom cur =
      ((Matcher.plain HeadingSkip.deeper).candidates cur.rest).map (Match.shift cur.offset) := by
    rw [Matcher.candidates_eq_from, ← Matcher.candidatesFrom_shift]
    rfl
  rw [lastIn, hshift, Match.select_shift 0 (by simp), Matcher.findAll, List.getLast?_map,
    List.getLast?_map, Option.map_map, Option.map_map]
  rfl

theorem closeLoop_of_find? {start : Cursor} {found : Attempt}
    (h : HeadingSkip.closing.find? cur = some (start, found)) :
    closeLoop cur = (lastIn (region found.here)).or (closeLoop found.here) := by
  rw [closeLoop]
  split
  · rename_i hnone
    rw [hnone] at h
    cases h
  · rename_i hfound
    rw [hfound] at h
    cases h
    cases lastIn (region found.here) <;> rfl

theorem closeLoop_of_none (h : HeadingSkip.closing.find? cur = none) : closeLoop cur = none := by
  rw [closeLoop]
  split
  · rfl
  · rename_i hfound
    rw [hfound] at h
    cases h

theorem closingRound_of_find? (hin : cur.In text) {start : Cursor} {found : Attempt}
    (h : HeadingSkip.closing.find? cur = some (start, found)) :
    closingRound text cur.offset = match lastIn (region found.here) with
      | some stop => .ok (.done (some stop))
      | none => .ok (.again found.here.offset) := by
  obtain ⟨hle, hforward⟩ := Pattern.le_here_of_find? h
  have hbehind := Cursor.le_trans hin (Cursor.le_trans hle hforward)
  have hlast := lastIn_eq (region found.here)
  have hoffset : (region found.here).offset = found.here.offset := by
    rw [region]
    split <;> rfl
  rw [closingRound, search_offset _ hin, h, ok_bind]
  simp only [Option.map_some, Candidate.ofFound]
  rw [search_offset _ hbehind, ok_bind, slice_region hbehind, ok_bind, hlast, hoffset]
  cases ((Matcher.plain HeadingSkip.deeper).findAll (region found.here).rest).getLast? <;> rfl

theorem closingRound_keeps (byte : Nat) (result : Option Nat)
    (h : LeadsTo closeLoop text byte result) :
    Kept (byteLength text) id (closingRound text) (LeadsTo closeLoop text) byte result := by
  obtain ⟨cur, hin, rfl, rfl⟩ := h
  cases hfound : HeadingSkip.closing.find? cur with
  | none =>
    refine .done ?_
    rw [closingRound, search_offset _ hin, hfound, closeLoop_of_none hfound]
    rfl
  | some candidate =>
    obtain ⟨start, found⟩ := candidate
    obtain ⟨hle, hforward⟩ := Pattern.le_here_of_find? hfound
    have hlt := Pattern.offset_lt_of_find? hfound (by decide)
    have hround := closingRound_of_find? hin hfound
    rw [closeLoop_of_find? hfound]
    cases hlast : lastIn (region found.here) with
    | some stop =>
      rw [hlast] at hround
      exact .done hround
    | none =>
      rw [hlast] at hround
      exact .again hround (Cursor.offset_le_byteLength hin)
        (Nat.lt_of_le_of_lt (Cursor.offset_le hle) hlt)
        ⟨found.here, Cursor.le_trans hin (Cursor.le_trans hle hforward), rfl, rfl⟩

theorem closing_ends (hin : cur.In text) :
    Ends (byteLength text) id (closingRound text) (closeLoop cur) cur.offset :=
  ends_of_kept closingRound_keeps ⟨cur, hin, rfl, rfl⟩

end Closing

section Opening

/-- A character comes next where something begins that is not empty. -/
theorem exists_next?_of_lt {a b : Cursor} (hle : a ≤ b) (hlt : a.offset < b.offset) :
    ∃ next, a.next? = some next := by
  obtain ⟨n, rest⟩ := a
  cases rest with
  | nil =>
    rw [Cursor.eq_of_le_end hle] at hlt
    exact absurd hlt (Nat.lt_irrefl _)
  | cons c rest => exact ⟨_, rfl⟩

theorem findLoop_of_find? {start : Cursor} {found : Attempt}
    (h : HeadingSkip.opening.find? cur = some (start, found)) :
    findLoop cur = ((closeLoop found.here).map (⟨start.offset, ·⟩)).or (start.next?.bind findLoop) := by
  rw [findLoop, Pattern.retry_eq, h]
  rfl

theorem openingRound_of_find? (hin : cur.In text) {start : Cursor} {found : Attempt}
    (h : HeadingSkip.opening.find? cur = some (start, found)) :
    openingRound text cur.offset = match closeLoop found.here with
      | some stop => .ok (.done (some ⟨start.offset, stop⟩))
      | none => (stepOver text start.offset).map .again := by
  obtain ⟨hle, hforward⟩ := Pattern.le_here_of_find? h
  have hbehind := Cursor.le_trans hin (Cursor.le_trans hle hforward)
  rw [openingRound, search_offset _ hin, h, ok_bind]
  simp only [Option.map_some, Candidate.ofFound]
  rw [rounds_eq_ok_iff.mpr (closing_ends hbehind), ok_bind]
  cases closeLoop found.here with
  | some stop => rfl
  | none => cases stepOver text start.offset <;> rfl

theorem openingRound_keeps (byte : Nat) (result : Option Span)
    (h : LeadsTo findLoop text byte result) :
    Kept (byteLength text) id (openingRound text) (LeadsTo findLoop text) byte result := by
  obtain ⟨cur, hin, rfl, rfl⟩ := h
  cases hfound : HeadingSkip.opening.find? cur with
  | none =>
    refine .done ?_
    rw [openingRound, search_offset _ hin, findLoop, Pattern.retry_eq, hfound]
    rfl
  | some candidate =>
    obtain ⟨start, found⟩ := candidate
    obtain ⟨hle, hforward⟩ := Pattern.le_here_of_find? hfound
    have hround := openingRound_of_find? hin hfound
    rw [findLoop_of_find? hfound]
    cases hclose : closeLoop found.here with
    | some stop =>
      rw [hclose] at hround
      exact .done hround
    | none =>
      have hstart := Cursor.le_trans hin hle
      obtain ⟨next, hnext⟩ := exists_next?_of_lt hforward
        (Pattern.offset_lt_of_find? hfound (by decide))
      obtain ⟨hnextle, hlt⟩ := Cursor.le_of_next? hnext
      rw [hclose] at hround
      simp only [stepOver_of_next hstart hnext] at hround
      rw [hnext]
      exact .again hround (Cursor.offset_le_byteLength hin)
        (Nat.lt_of_le_of_lt (Cursor.offset_le hle) hlt)
        ⟨next, Cursor.le_trans hstart hnextle, rfl, rfl⟩

theorem opening_ends (hin : cur.In text) :
    Ends (byteLength text) id (openingRound text) (Matcher.headingSkip.findAt text cur.offset)
      cur.offset := by
  rw [HeadingSkip.findAt_eq_findLoop, Cursor.seek?_offset hin]
  exact ends_of_kept openingRound_keeps ⟨cur, hin, rfl, rfl⟩

end Opening

end Bytewise

end MarkupAudit
