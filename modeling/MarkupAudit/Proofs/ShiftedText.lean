import MarkupAudit.Proofs.CompleteSearch
import MarkupAudit.Proofs.Pattern.Alike
import MarkupAudit.Proofs.Selection
import MarkupAudit.Proofs.Text.Line
import MarkupAudit.Proofs.Text.Piece
import MarkupAudit.Scan

/-!
What is before a search has no say in it. A match depends on the text ahead of its start alone
(`Matcher.matchAt_shift`), so text put in front of another moves all matches in it by its bytes
(`candidates_append`). The search therefore begins anew behind every match it reports, and newlines
in front of a text move its issues down by as many lines.
-/

namespace MarkupAudit

open Text (byteLength fromByte)

/-- The stretch some bytes further on. -/
def Span.shift (bytes : Nat) (span : Span) : Span := ⟨bytes + span.start, bytes + span.stop⟩

theorem Span.shift_shift (bytes more : Nat) (span : Span) :
    (span.shift bytes).shift more = span.shift (more + bytes) := by
  simp only [shift, Nat.add_assoc]

namespace Cursor

def shift (bytes : Nat) (cur : Cursor) : Cursor := ⟨bytes + cur.offset, cur.rest⟩

theorem onward_shift (bytes : Nat) (cur : Cursor) :
    (cur.shift bytes).onward = cur.onward.map (shift bytes) := by
  obtain ⟨n, rest⟩ := cur
  induction rest generalizing n with
  | nil => rfl
  | cons c rest ih =>
    have hnext : (⟨bytes + n + c.utf8Size, rest⟩ : Cursor).onward =
        (⟨n + c.utf8Size, rest⟩ : Cursor).onward.map (shift bytes) := by
      rw [← ih, shift, Nat.add_assoc]
    exact congrArg (⟨bytes + n, c :: rest⟩ :: ·) hnext

/-- The places of a text with another in front of it are the places of both. -/
theorem onward_append (before text : List Char) : (ofText (before ++ text)).onward =
    (ofText before).starts.map (extend text) ++
      (ofText text).onward.map (shift (byteLength before)) := by
  have hsplit := onward_extend text (ofText before)
  have hbehind : (ofText before).finish.extend text = (ofText text).shift (byteLength before) := by
    simp [ofText, finish, extend, shift]
  rw [hbehind, onward_shift] at hsplit
  exact hsplit

end Cursor

namespace Match

def shift (bytes : Nat) (m : Match) : Match := ⟨m.start.shift bytes, m.stop.shift bytes⟩

theorem resume_shift (bytes : Nat) (m : Match) : (m.shift bytes).resume = bytes + m.resume := by
  simp only [resume, shift, Cursor.shift]
  omega

/-- Shifted matches are chosen as they were, from a byte that cuts them alike. -/
theorem select_shift (lower : Nat) {lower' bytes : Nat} (h : ∀ n, lower ≤ n ↔ lower' ≤ bytes + n)
    (ms : List Match) : select lower' (ms.map (shift bytes)) = (select lower ms).map (shift bytes) := by
  apply select_map
  · intro m n
    rw [resume_shift]
    exact Nat.add_le_add_iff_left.symm
  · exact fun n => h n.start.offset

/-- Where a search from a byte goes on behind the matches it has found. -/
def resumeBehind (lower : Nat) (found : List Match) : Nat := (found.getLast?.map resume).getD lower

/-- A selection goes on behind any part of itself as if it began there. -/
theorem select_behind {ms : List Match} (h : ms.Pairwise (·.start.offset < ·.start.offset))
    {lower : Nat} {found more : List Match} (hs : select lower ms = found ++ more) :
    select (resumeBehind lower found) ms = more := by
  induction found generalizing lower with
  | nil => exact hs
  | cons m found ih =>
    rw [select_eq lower h] at hs
    cases hf : first? lower ms with
    | none =>
      rw [hf] at hs
      cases hs
    | some first =>
      rw [hf] at hs
      change first :: select first.resume ms = m :: (found ++ more) at hs
      obtain ⟨rfl, htail⟩ := List.cons.inj hs
      have hlast : resumeBehind lower (first :: found) = resumeBehind first.resume found := by
        rw [resumeBehind, resumeBehind, List.getLast?_cons]
        cases found.getLast? <;> rfl
      rw [hlast]
      exact ih htail

end Match

theorem Pattern.everyClass_true (p : Pattern) : p.everyClass (fun _ => true) = true := by
  induction p with
  | empty => rfl
  | char accepts => rfl
  | seq p q hp hq => rw [everyClass, hp, hq, Bool.and_self]
  | either p q hp hq => rw [everyClass, hp, hq, Bool.and_self]
  | star p hp => exact hp
  | lazyStar p hp => exact hp
  | group p hp => exact hp
  | notAhead p hp => exact hp

namespace Matcher

variable {m : Matcher} {text : List Char}

theorem everyClass_true (m : Matcher) : m.everyClass (fun _ => true) = true := by
  cases m with
  | plain p => exact p.everyClass_true
  | guarded p guard => rw [everyClass, p.everyClass_true, guard.everyClass_true, Bool.and_self]
  | headingSkip => exact HeadingSkip.pattern.everyClass_true

/-- Where the same text is ahead, the same text is left behind a match. -/
theorem respects_eq (m : Matcher) : m.Respects Eq := by
  apply respects_of_everyClass (fun s s' h => congrArg List.length h) ?_ m.everyClass_true
  intro accepts _
  apply Pattern.respects_char
  · rintro s s' rfl
    rfl
  · rintro s s' rfl _
    rfl

theorem matchAt_shift (m : Matcher) (bytes : Nat) (cur : Cursor) :
    m.matchAt (cur.shift bytes) = (m.matchAt cur).map (Cursor.shift bytes) := by
  have hrel := m.respects_eq cur (cur.shift bytes) rfl
  generalize hfound : m.matchAt cur = found at hrel
  generalize hshifted : m.matchAt (cur.shift bytes) = shifted at hrel
  cases hrel with
  | none => rfl
  | @some stop stop' hrest =>
    -- As much text is left behind the two, so they have passed over as much.
    have hend := Cursor.offset_add_byteLength (le_of_matchAt hfound)
    have hend' := Cursor.offset_add_byteLength (le_of_matchAt hshifted)
    obtain ⟨n, rest⟩ := stop
    obtain ⟨n', rest'⟩ := stop'
    simp only [Cursor.shift] at hrest hend hend' ⊢
    subst hrest
    have hoffset : n' = bytes + n := by omega
    rw [hoffset]
    rfl

theorem candidatesFrom_shift (m : Matcher) (bytes : Nat) (cur : Cursor) :
    m.candidatesFrom (cur.shift bytes) = (m.candidatesFrom cur).map (Match.shift bytes) := by
  rw [candidatesFrom, candidatesFrom, Cursor.onward_shift, List.filterMap_map, List.map_filterMap]
  apply List.filterMap_congr
  intro place _
  rw [Function.comp_apply, matchAt_shift]
  cases m.matchAt place <;> rfl

/-- A text in front of another adds matches before those of the other, and moves these. -/
theorem candidates_append (m : Matcher) (before text : List Char) : ∃ front,
    m.candidates (before ++ text) =
        front ++ (m.candidates text).map (Match.shift (byteLength before)) ∧
      ∀ found ∈ front, found.start.offset < byteLength before := by
  refine ⟨(((Cursor.ofText before).starts.map (Cursor.extend text)).filterMap fun place =>
    (m.matchAt place).map (⟨place, ·⟩)), ?_, ?_⟩
  · rw [candidates_eq_from, candidates_eq_from, candidatesFrom, Cursor.onward_append,
      List.filterMap_append, ← candidatesFrom_shift, candidatesFrom, Cursor.onward_shift]
  · intro found hf
    obtain ⟨place, hplace, hmatch⟩ := List.mem_filterMap.mp hf
    obtain ⟨start, hstart, rfl⟩ := List.mem_map.mp hplace
    obtain ⟨stop, _, rfl⟩ := Option.map_eq_some_iff.mp hmatch
    obtain ⟨hle, hne⟩ := Cursor.mem_starts.mp hstart
    have hlt := Cursor.offset_lt_finish hne
    rw [Cursor.finish_of_le hle] at hlt
    change start.offset < byteLength before
    simpa [Cursor.finish, Cursor.ofText] using hlt

theorem findAt_append (m : Matcher) (before text : List Char) (start : Nat) :
    m.findAt (before ++ text) (byteLength before + start) =
      (m.findAt text start).map (Span.shift (byteLength before)) := by
  obtain ⟨front, hcandidates, hfront⟩ := m.candidates_append before text
  have hnone : front.find? (fun found => byteLength before + start ≤ found.start.offset) = none := by
    apply List.find?_eq_none.mpr
    intro found hf
    have hlt := hfront found hf
    simp only [decide_eq_true_eq]
    omega
  have hmoved : (fun found => decide (byteLength before + start ≤ found.start.offset)) ∘
      Match.shift (byteLength before) = fun found : Match => decide (start ≤ found.start.offset) := by
    funext found
    exact decide_eq_decide.mpr Nat.add_le_add_iff_left
  rw [findAt, findAt, Match.first?, Match.first?, hcandidates, List.find?_append, hnone,
    Option.none_or, List.find?_map, hmoved, Option.map_map, Option.map_map]
  rfl

/-- The matches chosen from a place of the text on are those of the rest of the text. -/
theorem select_append_shift (m : Matcher) (before text : List Char) :
    (Match.select (byteLength before) (m.candidates (before ++ text))).map (·.span) =
      (m.findAll text).map (Span.shift (byteLength before)) := by
  obtain ⟨front, hcandidates, hfront⟩ := m.candidates_append before text
  rw [hcandidates, Match.select_of_lt hfront, Match.select_shift 0 (by simp), findAll,
    List.map_map, List.map_map]
  rfl

theorem findAt_of_le {start later : Nat} {span : Span} (h : m.findAt text start = some span)
    (hle : start ≤ later) (hstart : later ≤ span.start) : m.findAt text later = some span := by
  obtain ⟨cur, stop, hleftmost, hmatch, rfl⟩ := findAt_eq_some_iff.mp h
  refine findAt_eq_some_iff.mpr ⟨cur, stop, ⟨hleftmost.inside, hstart, hleftmost.holds, ?_⟩,
    hmatch, rfl⟩
  intro other hin hother hholds
  exact hleftmost.least other hin (Nat.le_trans hle hother) hholds

/-- Behind a match that is not empty the search begins as in a text of its own. -/
theorem findAll_behind {found more : List Span} {span : Span}
    (h : m.findAll text = found ++ span :: more) (hlt : span.start < span.stop) :
    more = (m.findAll (fromByte span.stop text)).map (Span.shift span.stop) := by
  rw [← List.singleton_append, ← List.append_assoc] at h
  obtain ⟨first, rest, hselect, hfirst, rfl⟩ := List.map_eq_append_iff.mp h
  obtain ⟨front, last, rfl, _, hlast⟩ := List.map_eq_append_iff.mp hfirst
  obtain ⟨final, rfl, rfl⟩ := List.map_eq_singleton_iff.mp hlast
  have hmem : final ∈ Match.select 0 (m.candidates text) := by simp [hselect]
  obtain ⟨hin, hmatch⟩ := mem_candidates.mp ((Match.select_sublist 0 _).subset hmem)
  have hin := Cursor.le_trans hin (le_of_matchAt hmatch)
  have hresume : Match.resumeBehind 0 (front ++ [final]) = final.stop.offset := by
    simp only [Match.resumeBehind, List.getLast?_append, List.getLast?_singleton, Option.some_or,
      Option.map_some, Option.getD_some, Match.resume]
    simp only [Match.span] at hlt
    omega
  have hbehind := Match.select_behind (m.pairwise_candidates text) hselect
  rw [hresume] at hbehind
  obtain ⟨before, htext, hoffset⟩ := Cursor.exists_before hin
  have happend := m.select_append_shift before final.stop.rest
  rw [← htext, ← hoffset, hbehind, ← Cursor.fromByte_offset hin] at happend
  exact happend

/-- A newline in front, where no match begins, only moves the matches. -/
theorem findAll_newlines {rule : Rule} (hr : rule ∈ Catalogue.rules) (k : Nat) (text : List Char) :
    rule.matcher.findAll (List.replicate k '\n' ++ text) =
      (rule.matcher.findAll text).map (Span.shift k) := by
  have hnone : ∀ text, rule.matcher.matchAt ⟨0, '\n' :: text⟩ = none :=
    fun text => matchAt_of_refuses (Catalogue.refuses_line_end rule hr (some '\n') (by simp))
  have hnewline : ∀ text, rule.matcher.findAll ('\n' :: text) =
      (rule.matcher.findAll text).map (Span.shift 1) := by
    intro text
    have hcandidates : rule.matcher.candidates ('\n' :: text) =
        (rule.matcher.candidates text).map (Match.shift 1) := by
      rw [candidates_eq_from, candidates_eq_from, Cursor.ofText, candidatesFrom_cons, hnone,
        ← candidatesFrom_shift]
      rfl
    rw [findAll, findAll, hcandidates, Match.select_shift 0 (by simp), List.map_map,
      List.map_map]
    rfl
  induction k with
  | zero =>
    have hzero : Span.shift 0 = id := by
      funext span
      simp [Span.shift]
    rw [hzero, List.map_id]
    rfl
  | succ k ih =>
    rw [List.replicate_succ, List.cons_append, hnewline, ih, List.map_map]
    apply List.map_congr_left
    intro span _
    rw [Function.comp_apply, Span.shift_shift, Nat.add_comm]

end Matcher

namespace Text

theorem lineAt_newlines (k : Nat) (text : List Char) (byte : Nat) :
    lineAt (List.replicate k '\n' ++ text) (k + byte) = lineAt text byte + k := by
  induction k with
  | zero => simp
  | succ k ih =>
    have hsize : '\n'.utf8Size = 1 := rfl
    have hbyte : k + 1 + byte - 1 = k + byte := by omega
    rw [lineAt] at ih
    rw [List.replicate_succ, List.cons_append, lineAt, newlinesBefore, if_neg (by omega),
      if_pos rfl, hsize, hbyte]
    omega

theorem lines_newlines (k : Nat) (text : List Char) :
    lines (List.replicate k '\n' ++ text) = List.replicate k [] ++ lines text := by
  induction k with
  | zero => rfl
  | succ k ih => rw [List.replicate_succ, List.cons_append, lines_newline, ih]; rfl

/-- Lines in front do not show in the neighbourhood of a line that had one before it already. -/
theorem around_append (front lines : List (List Char)) {number : Nat} (h : 2 ≤ number) :
    around (front ++ lines) (number + front.length) = around lines number := by
  have htake : number + front.length + 1 = front.length + (number + 1) := by omega
  have hdrop : number + front.length - 2 = front.length + (number - 2) := by omega
  rw [around, around, htake, hdrop, List.take_length_add_append, List.drop_length_add_append]

end Text

/-- The same issue some lines further down, with the same lines around it unless it is in the first. -/
structure Issue.Lowered (k : Nat) (issue lowered : Issue) : Prop where
  same : lowered = { issue with line := issue.line + k, snippet := lowered.snippet }
  snippet : issue.line ≠ 1 → lowered.snippet = issue.snippet

namespace Scan

theorem lowered_issueAt (rule : Rule) (file : String) (text : List Char) (k byte : Nat) :
    (issueAt rule file text (Text.lines text) byte).Lowered k
      (issueAt rule file (List.replicate k '\n' ++ text)
        (Text.lines (List.replicate k '\n' ++ text)) (k + byte)) := by
  have hline := Text.lineAt_newlines k text byte
  refine ⟨?_, ?_⟩
  · rw [issueAt, issueAt, hline]
    rfl
  · intro hne
    change Text.lineAt text byte ≠ 1 at hne
    have htwo : 2 ≤ Text.lineAt text byte := by
      rw [Text.lineAt] at hne ⊢
      omega
    have haround := Text.around_append (List.replicate k []) (Text.lines text) htwo
    rw [List.length_replicate] at haround
    rw [issueAt, issueAt, hline, Text.lines_newlines, haround]
    rfl

theorem lowered_content (file : String) (text : List Char) (k : Nat) :
    List.Forall₂ (Issue.Lowered k) (content file text)
      (content file (List.replicate k '\n' ++ text)) := by
  have hrules : List.Forall₂ (fun rule rule' => rule = rule' ∧ rule ∈ Catalogue.rules)
      Catalogue.rules Catalogue.rules := List.forall₂_same.mpr fun _ hr => ⟨rfl, hr⟩
  apply List.rel_flatMap hrules
  rintro rule _ ⟨rfl, hr⟩
  rw [withRule, withRule, Matcher.findAll_newlines hr, List.map_map, List.forall₂_map_left_iff,
    List.forall₂_map_right_iff, List.forall₂_same]
  exact fun span _ => lowered_issueAt rule file text k span.start

/-- A rule sees of a text what is ahead of its search alone. More text in front moves what it finds,
the search finds the same from anywhere up to the match, and behind a match it goes on as in a text
of its own; so newlines in front of a text change nothing in its issues but their lines, and the
neighbours of the first. -/
theorem detection_sees_ahead {rule : Rule} (hr : rule ∈ Catalogue.rules) (text : List Char) :
    (∀ before start, rule.matcher.findAt (before ++ text) (byteLength before + start) =
      (rule.matcher.findAt text start).map (Span.shift (byteLength before))) ∧
    (∀ start later span, rule.matcher.findAt text start = some span → start ≤ later →
      later ≤ span.start → rule.matcher.findAt text later = some span) ∧
    (∀ found span more, rule.matcher.findAll text = found ++ span :: more →
      more = (rule.matcher.findAll (fromByte span.stop text)).map (Span.shift span.stop)) ∧
    (∀ file k, List.Forall₂ (Issue.Lowered k) (content file text)
      (content file (List.replicate k '\n' ++ text))) := by
  refine ⟨fun before => Matcher.findAt_append _ before text, ?_, ?_, fun file => lowered_content file text⟩
  · intro start later span h hle hstart
    exact Matcher.findAt_of_le h hle hstart
  · intro found span more h
    have hmem : span ∈ rule.matcher.findAll text := by simp [h]
    obtain ⟨cur, stop, _, hmatch, rfl⟩ := Matcher.exists_of_mem_findAll hmem
    exact Matcher.findAll_behind h (Catalogue.offset_lt hr hmatch)

/-- A refused tag between two reported ones, behind a letter of two bytes. -/
theorem detection_sees_ahead_tags :
    Catalogue.missingAlt ∈ Catalogue.rules ∧
    Catalogue.missingAlt.matcher.findAt "<img>é<img alt=><img>".toList 1 = some ⟨17, 22⟩ ∧
    Catalogue.missingAlt.matcher.findAt "<img>é<img alt=><img>".toList 8 = some ⟨17, 22⟩ ∧
    Catalogue.missingAlt.matcher.findAt ("é".toList ++ "<img>é<img alt=><img>".toList)
      (byteLength "é".toList + 1) = some ⟨19, 24⟩ ∧
    Catalogue.missingAlt.matcher.findAll "<img>é<img alt=><img>".toList =
      [] ++ ⟨0, 5⟩ :: [⟨17, 22⟩] ∧
    (Catalogue.missingAlt.matcher.findAll (fromByte 5 "<img>é<img alt=><img>".toList)).map
      (Span.shift 5) = [⟨17, 22⟩] := by
  have hr : Catalogue.missingAlt ∈ Catalogue.rules := by simp [Catalogue.rules]
  have hfound : Catalogue.missingAlt.matcher.findAt "<img>é<img alt=><img>".toList 1 =
      some ⟨17, 22⟩ := by decide +kernel
  have hall : Catalogue.missingAlt.matcher.findAll "<img>é<img alt=><img>".toList =
      [] ++ ⟨0, 5⟩ :: [⟨17, 22⟩] := by decide +kernel
  obtain ⟨hfront, hlater, hbehind, _⟩ :=
    detection_sees_ahead hr "<img>é<img alt=><img>".toList
  refine ⟨hr, hfound, hlater 1 8 _ hfound (by decide) (by decide), ?_, hall,
    (hbehind [] _ _ hall).symm⟩
  rw [hfront, hfound]
  rfl

end Scan

end MarkupAudit
