import MarkupAudit.Proofs.Bytewise.Basic
import MarkupAudit.Proofs.ShiftedText

/-!
Searches by byte offsets. What a search finds is told by the bytes where it begins and ends and where
its group ends. The guard is tried on the text behind the group, and when it refuses a candidate the
search goes on one character behind the byte where that begins. From each place of a text these rounds
end with the match that a guarded pattern has there (`guarded_ends`).
-/

namespace MarkupAudit

open Text (byteLength)

section Place

variable {text : List Char} {cur : Cursor}

theorem Cursor.seek?_offset (h : cur.In text) : seek? text cur.offset = some cur := by
  rw [seek?, List.find?_eq_findSome?_guard, places, findSome?_onward_eq_some_iff]
  refine ⟨cur, h, by simp, ?_⟩
  intro other _ hother
  simpa using hother

theorem Matcher.findAt_offset (m : Matcher) (h : cur.In text) :
    m.findAt text cur.offset = (m.findFrom cur).map (·.span) := by
  rw [findAt_eq_seek, Cursor.seek?_offset h]
  rfl

theorem Matcher.findAt_outside (m : Matcher) {byte : Nat} (h : byteLength text < byte) :
    m.findAt text byte = none := by
  rw [← findAt_searcher]
  exact Searcher.findAt_outside h

end Place

/-- A text that is cut out is looked at as if nothing came before it. -/
theorem Pattern.matchesAt_ofText (p : Pattern) (cur : Cursor) :
    p.matchesAt (Cursor.ofText cur.rest) = p.matchesAt cur := by
  have hshift : cur = (Cursor.ofText cur.rest).shift cur.offset := rfl
  rw [← Matcher.isSome_matchAt_plain, ← Matcher.isSome_matchAt_plain p cur, hshift,
    Matcher.matchAt_shift, Option.isSome_map]
  rfl

namespace Bytewise

/-- What a search finds, by its bytes. -/
structure Candidate where
  span : Span
  groupEnd : Option Nat

def Candidate.ofFound (found : Cursor × Attempt) : Candidate :=
  ⟨⟨found.1.offset, found.2.here.offset⟩, found.2.groupEnd.map (·.offset)⟩

/-- The first match of a pattern at or behind a byte. -/
def search (p : Pattern) (text : List Char) (byte : Nat) : Except Fault (Option Candidate) := do
  let cur ← place text byte
  return (p.find? cur).map Candidate.ofFound

/-- A candidate is refused when the guard matches the text behind its group; the search then goes on
behind the first character of the candidate. -/
def guardRound (p guard : Pattern) (text : List Char) (byte : Nat) :
    Except Fault (Turn Nat (Option Span)) := do
  if byteLength text < byte then return .done none
  else match ← search p text byte with
    | none => return .done none
    | some found => match found.groupEnd with
      | none => return .done (some found.span)
      | some groupEnd =>
        let behind ← place text groupEnd
        if guard.matchesAt (Cursor.ofText behind.rest) then
          return .again (← stepOver text found.span.start)
        else return .done (some found.span)

variable {text : List Char} {cur : Cursor}

theorem search_offset (p : Pattern) (h : cur.In text) :
    search p text cur.offset = .ok ((p.find? cur).map Candidate.ofFound) := by
  rw [search, place_offset h]
  rfl

/-- One character behind a place the search finds what it finds from the next place. -/
theorem findAt_stepOver (m : Matcher) (h : cur.In text) {next : Nat}
    (hstep : stepOver text cur.offset = .ok next) :
    m.findAt text next = (cur.next?.bind m.findFrom).map (·.span) := by
  cases hnext : cur.next? with
  | none =>
    rw [stepOver_of_end h hnext] at hstep
    cases hstep
    exact m.findAt_outside (Nat.lt_succ_self _)
  | some place =>
    rw [stepOver_of_next h hnext] at hstep
    cases hstep
    exact m.findAt_offset (Cursor.le_trans h (Cursor.le_of_next? hnext).1)

theorem findFrom_plain (p : Pattern) (cur : Cursor) : ((Matcher.plain p).findFrom cur).map (·.span) =
    (p.find? cur).map fun found => (Candidate.ofFound found).span := by
  change (Match.leftmost (fun place => (p.matchAt place).map (·.here)) cur).map _ = _
  rw [Search.leftmost_eq, Option.map_map]
  rfl

section Guard

variable (p guard : Pattern)

theorem findFrom_guarded :
    (Matcher.guarded p guard).findFrom = Search.guarded p.matchAt guard.matchesAt :=
  (Search.guarded_eq_leftmost p.matchAt guard.matchesAt).symm

theorem guardRound_of_find? (hin : cur.In text) {start : Cursor} {found : Attempt}
    (h : p.find? cur = some (start, found)) : guardRound p guard text cur.offset =
      if Matcher.accepts guard.matchesAt found then .ok (.done (some ⟨start.offset, found.here.offset⟩))
      else (stepOver text start.offset).map .again := by
  obtain ⟨hle, hmatch, _⟩ := Pattern.find?_eq_some h
  have hinside := Cursor.offset_le_byteLength hin
  rw [guardRound, if_neg (by omega), search_offset p hin, h]
  cases hgroup : found.groupEnd with
  | none =>
    have haccepts : Matcher.accepts guard.matchesAt found = true := by rw [Matcher.accepts, hgroup]
    rw [if_pos haccepts]
    simp only [Option.map_some, Candidate.ofFound, hgroup, Option.map_none]
    rfl
  | some behind =>
    have hbehind : behind.In text :=
      Cursor.le_trans hin (Cursor.le_trans hle (Pattern.le_groupEnd_of_matchAt hmatch hgroup))
    have haccepts : Matcher.accepts guard.matchesAt found = !guard.matchesAt behind := by
      rw [Matcher.accepts, hgroup]
    simp only [ok_bind, Option.map_some, Candidate.ofFound, hgroup]
    rw [place_offset hbehind, ok_bind, Pattern.matchesAt_ofText, haccepts]
    cases guard.matchesAt behind with
    | false => rfl
    | true => cases stepOver text start.offset <;> rfl

theorem findAt_guarded_of_find? (hin : cur.In text) {start : Cursor} {found : Attempt}
    (h : p.find? cur = some (start, found)) : (Matcher.guarded p guard).findAt text cur.offset =
      if Matcher.accepts guard.matchesAt found then some ⟨start.offset, found.here.offset⟩
      else (start.next?.bind (Matcher.guarded p guard).findFrom).map (·.span) := by
  rw [Matcher.findAt_offset _ hin, findFrom_guarded, Search.guarded, Pattern.retry_eq, h,
    Option.bind_some]
  by_cases haccepts : Matcher.accepts guard.matchesAt found = true
  · simp only [if_pos haccepts, Option.some_or]
    rfl
  · simp only [if_neg haccepts, Option.none_or]

/-- A search that goes on from a byte finds there what is found in the end. -/
def GuardHolds (text : List Char) (byte : Nat) (result : Option Span) : Prop :=
  IsStart text byte ∧ (Matcher.guarded p guard).findAt text byte = result

theorem guardRound_keeps (byte : Nat) (result : Option Span)
    (h : GuardHolds p guard text byte result) : Kept (byteLength text) id (guardRound p guard text)
      (GuardHolds p guard text) byte result := by
  obtain ⟨hstart, rfl⟩ := h
  by_cases houtside : byteLength text < byte
  · refine .done ?_
    rw [guardRound, if_pos houtside, Matcher.findAt_outside _ houtside]
    rfl
  obtain ⟨cur, hin, rfl⟩ := hstart.resolve_left houtside
  cases hfound : p.find? cur with
  | none =>
    refine .done ?_
    rw [guardRound, if_neg houtside, search_offset p hin, Matcher.findAt_offset _ hin,
      findFrom_guarded, Search.guarded, Pattern.retry_eq, hfound]
    rfl
  | some candidate =>
    obtain ⟨start, found⟩ := candidate
    have hle := Pattern.le_of_find? hfound
    have hround := guardRound_of_find? p guard hin hfound
    have hresult := findAt_guarded_of_find? p guard hin hfound
    by_cases haccepts : Matcher.accepts guard.matchesAt found = true
    · rw [if_pos haccepts] at hround hresult
      rw [hresult]
      exact .done hround
    · rw [if_neg haccepts] at hround hresult
      obtain ⟨next, hstep, hlt, hnext⟩ := stepOver_isStart (Cursor.le_trans hin hle)
      rw [hstep] at hround
      rw [← findAt_stepOver _ (Cursor.le_trans hin hle) hstep] at hresult
      exact .again hround (Cursor.offset_le_byteLength hin)
        (Nat.lt_of_le_of_lt (Cursor.offset_le hle) hlt) ⟨hnext, hresult.symm⟩

theorem guarded_ends (hin : cur.In text) :
    Ends (byteLength text) id (guardRound p guard text)
      ((Matcher.guarded p guard).findAt text cur.offset) cur.offset :=
  ends_of_kept (guardRound_keeps p guard) ⟨Or.inr ⟨cur, hin, rfl⟩, rfl⟩

end Guard

end Bytewise

end MarkupAudit
