import MarkupAudit.Proofs.Bytewise.HeadingSkip
import MarkupAudit.Scan

/-!
Scanning by byte offsets. All matches of a text are gone through from the byte where the one before
ends, or from one character behind an empty one; the newlines before a match are counted up to its
byte, and the neighbouring lines are cut out of the list of lines. No offset on the way is a fault, and
what comes of it is the scan of the text (`scan_stays_in_text`).
-/

namespace MarkupAudit.Bytewise

open Text (byteLength)

/-- The leftmost match at or behind a byte. -/
def findAt (m : Matcher) (text : List Char) (byte : Nat) : Except Fault (Option Span) :=
  match m with
  | .plain p => do return (← search p text byte).map (·.span)
  | .guarded p guard => rounds (byteLength text) id (guardRound p guard text) byte
  | .headingSkip => rounds (byteLength text) id (openingRound text) byte

/-- The byte where the search goes on behind a stretch. -/
def restart (text : List Char) (span : Span) : Except Fault Nat :=
  if span.start = span.stop then stepOver text span.stop else .ok span.stop

/-- One more match, from the byte where the search has come to; the matches so far stand beside it. -/
def matchRound (m : Matcher) (text : List Char) (state : Nat × List Span) :
    Except Fault (Turn (Nat × List Span) (List Span)) := do
  if byteLength text < state.1 then return .done state.2
  else match ← findAt m text state.1 with
    | none => return .done state.2
    | some span => return .again (← restart text span, state.2 ++ [span])

def findAll (m : Matcher) (text : List Char) : Except Fault (List Span) :=
  rounds (byteLength text) (·.1) (matchRound m text) (0, [])

/-- The line of a byte, with the newlines counted in what is before it. -/
def lineAt (text : List Char) (byte : Nat) : Except Fault Nat :=
  if byteLength text < byte then .error (.outside byte) else .ok (Text.lineAt text byte)

/-- The items of a list from one position up to another. -/
def between (items : List (List Char)) (start stop : Nat) : Except Fault (List (List Char)) :=
  if items.length < stop then .error (.outside stop)
  else if stop < start then .error (.reversed start stop)
  else .ok ((items.take stop).drop start)

/-- A line and its neighbours. -/
def around (lines : List (List Char)) (number : Nat) : Except Fault (List (List Char)) :=
  let stop := min (number + 1) lines.length
  between lines (min (number - 2) stop) stop

def issueAt (rule : Rule) (file : String) (text : List Char) (lines : List (List Char))
    (byte : Nat) : Except Fault Issue := do
  let line ← lineAt text byte
  let shown ← around lines line
  return Issue.ofRule rule file line (String.ofList (Text.unlines shown))

def withRule (file : String) (text : List Char) (rule : Rule) : Except Fault (List Issue) := do
  let spans ← findAll rule.matcher text
  spans.mapM fun span => issueAt rule file text (Text.lines text) span.start

def content (file : String) (text : List Char) : Except Fault (List Issue) := do
  return (← Catalogue.rules.mapM (withRule file text)).flatten

variable {text : List Char} {m : Matcher}

theorem findAt_offset (m : Matcher) {cur : Cursor} (h : cur.In text) :
    findAt m text cur.offset = .ok (m.findAt text cur.offset) := by
  cases m with
  | plain p =>
    rw [findAt, search_offset p h, Matcher.findAt_offset _ h, findFrom_plain]
    change Except.ok (((p.find? cur).map Candidate.ofFound).map (·.span)) = _
    rw [Option.map_map]
    rfl
  | guarded p guard => exact rounds_eq_ok_iff.mpr (guarded_ends p guard h)
  | headingSkip => exact rounds_eq_ok_iff.mpr (opening_ends h)

theorem restart_eq {first last : Cursor} (hlast : last.In text) :
    restart text ⟨first.offset, last.offset⟩ =
      .ok (Span.restart text ⟨first.offset, last.offset⟩) := by
  rw [restart, Span.restart, stepOver_offset hlast]
  split <;> rfl

/-- Behind a stretch of the text the search goes on behind where the stretch begins. -/
theorem restart_isStart {first last : Cursor} (hle : first ≤ last) (hlast : last.In text) :
    first.offset < Span.restart text ⟨first.offset, last.offset⟩ ∧
      IsStart text (Span.restart text ⟨first.offset, last.offset⟩) := by
  have hoffset := Cursor.offset_le hle
  rw [Span.restart]
  by_cases hempty : first.offset = last.offset
  · obtain ⟨next, hstep, hlt, hstart⟩ := stepOver_isStart hlast
    rw [stepOver_offset hlast] at hstep
    cases hstep
    rw [if_pos hempty, hempty]
    exact ⟨hlt, hstart⟩
  · rw [if_neg hempty]
    exact ⟨Nat.lt_of_le_of_ne hoffset hempty, Or.inr ⟨last, hlast, rfl⟩⟩

/-- What was found so far is the beginning of all matches, and the search has come to where it goes on
behind that. -/
structure MatchHolds (m : Matcher) (text : List Char) (state : Nat × List Span)
    (result : List Span) : Prop where
  all : m.findAll text = result
  found : ∃ more, m.findAll text = state.2 ++ more
  byte : state.1 = Span.restartBehind text state.2
  start : IsStart text state.1

theorem matchRound_keeps (m : Matcher) (text : List Char) (state : Nat × List Span)
    (result : List Span) (h : MatchHolds m text state result) :
    Kept (byteLength text) (·.1) (matchRound m text) (MatchHolds m text) state result := by
  obtain ⟨byte, found⟩ := state
  obtain ⟨rfl, ⟨more, hmore⟩, hbyte, hstart⟩ := h
  simp only at hmore hbyte hstart
  have hnext := Matcher.findAt_restart hmore
  rw [← hbyte] at hnext
  by_cases houtside : byteLength text < byte
  · refine .done ?_
    rw [m.findAt_outside houtside] at hnext
    rw [matchRound, if_pos houtside, hmore, List.head?_eq_none_iff.mp hnext.symm, List.append_nil]
    rfl
  obtain ⟨cur, hin, rfl⟩ := hstart.resolve_left houtside
  have hround := findAt_offset m hin
  rw [hnext] at hround
  cases more with
  | nil =>
    refine .done ?_
    rw [matchRound, if_neg houtside, hround, hmore, List.append_nil]
    rfl
  | cons span more =>
    rw [List.head?_cons] at hnext
    obtain ⟨first, last, hleftmost, hmatch, rfl⟩ := Matcher.findAt_eq_some_iff.mp hnext
    have hle := Matcher.le_of_matchAt hmatch
    have hlast := Cursor.le_trans hleftmost.inside hle
    obtain ⟨hforward, hrestart⟩ := restart_isStart hle hlast
    have hagain : matchRound m text (cur.offset, found) =
        .ok (.again (Span.restart text ⟨first.offset, last.offset⟩,
          found ++ [⟨first.offset, last.offset⟩])) := by
      rw [matchRound, if_neg houtside, hround, ok_bind]
      simp only [List.head?_cons, restart_eq hlast, ok_bind]
      rfl
    refine .again hagain (Cursor.offset_le_byteLength hin)
      (Nat.lt_of_le_of_lt hleftmost.start_le hforward) ⟨rfl, ⟨more, ?_⟩, ?_, hrestart⟩
    · rw [hmore, List.append_assoc]
      rfl
    · simp [Span.restartBehind]

theorem match_ends (m : Matcher) (text : List Char) :
    Ends (byteLength text) (·.1) (matchRound m text) (m.findAll text) (0, []) :=
  ends_of_kept (matchRound_keeps m text)
    ⟨rfl, ⟨m.findAll text, rfl⟩, rfl, Or.inr ⟨Cursor.ofText text, Cursor.le_refl _, rfl⟩⟩

theorem around_eq (lines : List (List Char)) (number : Nat) :
    around lines number = .ok (Text.around lines number) := by
  have hstop : ¬lines.length < min (number + 1) lines.length := by omega
  have hstart : ¬min (number + 1) lines.length <
      min (number - 2) (min (number + 1) lines.length) := by omega
  rw [around, between, if_neg hstop, if_neg hstart, Text.around, ← List.take_eq_take_min]
  congr 1
  rw [List.drop_eq_drop_iff, List.length_take]
  omega

theorem lineAt_eq {span : Span} (h : span ∈ m.findAll text) :
    lineAt text span.start = .ok (Text.lineAt text span.start) := by
  obtain ⟨cur, stop, hin, _, rfl⟩ := Matcher.exists_of_mem_findAll h
  exact if_neg (Nat.not_lt.mpr (Cursor.offset_le_byteLength hin))

theorem mapM_eq_ok {α β : Type} {f : α → Except Fault β} {g : α → β} {items : List α}
    (h : ∀ item ∈ items, f item = .ok (g item)) : items.mapM f = .ok (items.map g) := by
  induction items with
  | nil => rfl
  | cons item items ih =>
    rw [List.forall_mem_cons] at h
    rw [List.mapM_cons, h.1, ih h.2]
    rfl

theorem withRule_eq (file : String) (text : List Char) (rule : Rule) :
    withRule file text rule = .ok (Scan.withRule file text rule) := by
  have hissue : ∀ span ∈ rule.matcher.findAll text,
      issueAt rule file text (Text.lines text) span.start =
        .ok (Scan.issueAt rule file text (Text.lines text) span.start) := by
    intro span hspan
    rw [issueAt, lineAt_eq hspan, ok_bind, around_eq, ok_bind]
    rfl
  rw [withRule, findAll, rounds_eq_ok_iff.mpr (match_ends rule.matcher text)]
  exact mapM_eq_ok hissue

theorem content_eq (file : String) (text : List Char) :
    content file text = .ok (Scan.content file text) := by
  rw [content, mapM_eq_ok fun rule _ => withRule_eq file text rule, Scan.content, List.flatMap_def]
  rfl

theorem stepOver_append (before : List Char) (c : Char) (behind : List Char) :
    stepOver (before ++ c :: behind) (byteLength before) = .ok (byteLength (before ++ [c])) := by
  have hin : (⟨byteLength before, c :: behind⟩ : Cursor).In (before ++ c :: behind) :=
    ⟨before, rfl, (Nat.zero_add _).symm⟩
  have hstep := stepOver_of_next hin rfl
  rw [Text.byteLength_append]
  exact hstep

/-- A scan stays in its text. An offset is used only when it is that of a place of the text, a stretch
is cut out only between two places of which the second is not before the first, and a step leads over
one whole character. The rounds of the guarded search, of the searches for openings and for closing tags
and of the search for all matches go on at growing bytes, none of them with a fault, until they end with
what the search finds. Newlines are counted up to a byte that is not behind the text, and the lines that
an issue shows are cut out between two positions of the list of lines. So the scan ends without a fault,
whatever the text, and with its issues. -/
theorem scan_stays_in_text (text : List Char) :
    (∀ byte cur, place text byte = .ok cur ↔ cur.In text ∧ cur.offset = byte) ∧
    (∀ start stop part, slice text start stop = .ok part ↔ ∃ before behind,
      text = before ++ part ++ behind ∧ start = byteLength before ∧
        stop = byteLength (before ++ part)) ∧
    (∀ before c behind, text = before ++ c :: behind →
      stepOver text (byteLength before) = .ok (byteLength (before ++ [c]))) ∧
    (∀ cur : Cursor, cur.In text →
      (∀ p guard, Ends (byteLength text) id (guardRound p guard text)
        ((Matcher.guarded p guard).findAt text cur.offset) cur.offset) ∧
      Ends (byteLength text) id (openingRound text)
        (Matcher.headingSkip.findAt text cur.offset) cur.offset ∧
      Ends (byteLength text) id (closingRound text) (HeadingSkip.closeLoop cur) cur.offset) ∧
    (∀ m, Ends (byteLength text) (·.1) (matchRound m text) (m.findAll text) (0, [])) ∧
    (∀ m, findAll m text = .ok (m.findAll text)) ∧
    (∀ m : Matcher, ∀ span ∈ m.findAll text,
      lineAt text span.start = .ok (Text.lineAt text span.start)) ∧
    (∀ number, around (Text.lines text) number = .ok (Text.around (Text.lines text) number)) ∧
    ∀ file, content file text = .ok (Scan.content file text) := by
  refine ⟨fun _ _ => place_eq_ok_iff, fun _ _ _ => slice_eq_ok_iff, ?_, ?_,
    fun m => match_ends m text, fun m => rounds_eq_ok_iff.mpr (match_ends m text),
    fun m _ => lineAt_eq, around_eq _, fun file => content_eq file text⟩
  · rintro before c behind rfl
    exact stepOver_append before c behind
  · intro cur hin
    exact ⟨fun p guard => guarded_ends p guard hin, opening_ends hin, closing_ends hin⟩

/-- A tag behind a letter of two bytes. -/
theorem scan_stays_in_text_accented :
    stepOver "é<img>".toList 0 = .ok 2 ∧
    Ends 7 id (guardRound (Catalogue.tag "<img") (Catalogue.mentions ["alt="]) "é<img>".toList)
      (some ⟨2, 7⟩) 2 := by
  obtain ⟨_, _, hstep, hloops, _⟩ := scan_stays_in_text "é<img>".toList
  have hin : (⟨2, "<img>".toList⟩ : Cursor).In "é<img>".toList := ⟨['é'], by decide, by decide⟩
  have hends := (hloops _ hin).1 (Catalogue.tag "<img") (Catalogue.mentions ["alt="])
  have hlength : byteLength "é<img>".toList = 7 := by decide
  have hfound : (Matcher.guarded (Catalogue.tag "<img") (Catalogue.mentions ["alt="])).findAt
      "é<img>".toList 2 = some ⟨2, 7⟩ := by decide +kernel
  rw [hlength, hfound] at hends
  exact ⟨hstep [] 'é' "<img>".toList (by decide), hends⟩

end MarkupAudit.Bytewise
