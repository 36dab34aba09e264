import MarkupAudit.Proofs.IssueLocation
import MarkupAudit.Proofs.Pattern.Alike
import MarkupAudit.Proofs.Report.Partition
import MarkupAudit.Proofs.Selection
import MarkupAudit.Proofs.Text.Letter

/-!
The case of letters plays no part in an audit. No class of characters in the catalogue tells a
capital from its small letter (`Catalogue.ignores_case`), so two texts that are equal in small
letters have their matches at the same bytes. Their issues differ in the snippets alone, and of these
no count of a report and no verdict depends.
-/

namespace MarkupAudit

namespace Text

/-- The texts differ in the case of ASCII letters at most. -/
def SameLetters (s s' : List Char) : Prop := s.map Char.toLower = s'.map Char.toLower

theorem utf8Size_eq_of_toLower_eq {c c' : Char} (h : c.toLower = c'.toLower) :
    c.utf8Size = c'.utf8Size := eq_of_toLower_eq Char.utf8Size (by decide) h

variable {s s' : List Char}

theorem sameLetters_nil_left (h : SameLetters [] s') : s' = [] :=
  List.map_eq_nil_iff.mp h.symm

theorem SameLetters.exists_cons {c : Char} (h : SameLetters (c :: s) s') :
    ∃ c' rest, s' = c' :: rest ∧ c.toLower = c'.toLower ∧ SameLetters s rest := by
  cases s' with
  | nil => cases h
  | cons c' rest =>
    obtain ⟨hc, hrest⟩ := List.cons.inj h
    exact ⟨c', rest, rfl, hc, hrest⟩

theorem SameLetters.length (h : SameLetters s s') : s.length = s'.length := by
  simpa using congrArg List.length h

theorem SameLetters.byteLength (h : SameLetters s s') : byteLength s = byteLength s' := by
  induction s generalizing s' with
  | nil => rw [sameLetters_nil_left h]
  | cons c s ih =>
    obtain ⟨c', rest, rfl, hc, hrest⟩ := h.exists_cons
    rw [byteLength_cons, byteLength_cons, utf8Size_eq_of_toLower_eq hc, ih hrest]

theorem SameLetters.newlinesBefore (h : SameLetters s s') (bytes : Nat) :
    newlinesBefore bytes s = newlinesBefore bytes s' := by
  induction s generalizing s' bytes with
  | nil => rw [sameLetters_nil_left h]
  | cons c s ih =>
    obtain ⟨c', rest, rfl, hc, hrest⟩ := h.exists_cons
    have hnewline : (if c = '\n' then 1 else 0) = if c' = '\n' then 1 else 0 :=
      eq_of_toLower_eq (fun c => if c = '\n' then 1 else 0) (by decide) hc
    rw [Text.newlinesBefore, Text.newlinesBefore, utf8Size_eq_of_toLower_eq hc, ih hrest, hnewline]

theorem SameLetters.lineAt (h : SameLetters s s') (offset : Nat) :
    Text.lineAt s offset = Text.lineAt s' offset :=
  congrArg (· + 1) (h.newlinesBefore offset)

end Text

open Text (SameLetters)

/-- The class does not tell a capital from its small letter. -/
def ignoresCase (accepts : Char → Bool) : Bool :=
  Text.capitals.all fun c => accepts c == accepts c.toLower

theorem Pattern.respects_of_ignoresCase {accepts : Char → Bool} (h : ignoresCase accepts = true) :
    (Pattern.char accepts).Respects SameLetters := by
  have hclass : Text.capitals.map accepts = Text.capitals.map fun c => accepts c.toLower := by
    apply List.map_congr_left
    intro c hc
    exact eq_of_beq (List.all_eq_true.mp h c hc)
  apply respects_char
  · intro s s' hs
    cases s with
    | nil => rw [Text.sameLetters_nil_left hs]
    | cons c s =>
      obtain ⟨c', rest, rfl, hc, _⟩ := hs.exists_cons
      exact Text.eq_of_toLower_eq accepts hclass hc
  · intro s s' hs hany
    cases s with
    | nil => cases hany
    | cons c s =>
      obtain ⟨c', rest, rfl, _, hrest⟩ := hs.exists_cons
      exact hrest

theorem Catalogue.ignores_case :
    ∀ rule ∈ rules, rule.matcher.everyClass ignoresCase = true := by
  decide +kernel

theorem Catalogue.respects_sameLetters {rule : Rule} (h : rule ∈ rules) :
    rule.matcher.Respects SameLetters :=
  Matcher.respects_of_everyClass (fun _ _ => SameLetters.length)
    (fun _ => Pattern.respects_of_ignoresCase) (ignores_case rule h)

namespace Matcher

variable {m : Matcher} {text text' : List Char}

/-- Matches of two texts that correspond cover the same bytes. -/
theorem candidatesFrom_sameLetters (hm : m.Respects SameLetters) (h : SameLetters text text')
    (n : Nat) : List.Forall₂ (fun found found' => found.span = found'.span)
      (m.candidatesFrom ⟨n, text⟩) (m.candidatesFrom ⟨n, text'⟩) := by
  induction text generalizing text' n with
  | nil =>
    rw [Text.sameLetters_nil_left h]
    exact List.forall₂_same.mpr fun _ _ => rfl
  | cons c rest ih =>
    obtain ⟨c', rest', rfl, hc, hrest⟩ := h.exists_cons
    rw [candidatesFrom_cons, candidatesFrom_cons, ← Text.utf8Size_eq_of_toLower_eq hc]
    refine List.rel_append ?_ (ih hrest _)
    apply forall₂_match_here hm h
    intro stop stop' hle hle' hstop
    have hend : stop.offset + Text.byteLength stop.rest = n + Text.byteLength (c :: rest) :=
      Cursor.offset_add_byteLength hle
    have hend' : stop'.offset + Text.byteLength stop'.rest = n + Text.byteLength (c' :: rest') :=
      Cursor.offset_add_byteLength hle'
    have hoffset : stop.offset = stop'.offset := by
      rw [hstop.byteLength, h.byteLength] at hend
      omega
    exact congrArg (Span.mk n) hoffset

theorem findAll_sameLetters (hm : m.Respects SameLetters) (h : SameLetters text text') :
    m.findAll text = m.findAll text' := by
  have horder : ∀ found found' other other' : Match, found.span = found'.span →
      other.span = other'.span →
      (found.resume ≤ other.start.offset ↔ found'.resume ≤ other'.start.offset) := by
    intro found found' other other' hf ho
    obtain ⟨hstart, hstop⟩ := Span.mk.inj hf
    obtain ⟨hother, _⟩ := Span.mk.inj ho
    rw [Match.resume, Match.resume, hstart, hstop, hother]
  have hselect : List.Forall₂ (fun found found' => found.span = found'.span)
      (Match.select 0 (m.candidatesFrom ⟨0, text⟩)) (Match.select 0 (m.candidatesFrom ⟨0, text'⟩)) :=
    Match.select_forall₂ horder (candidatesFrom_sameLetters hm h 0) (by simp)
  rw [findAll, findAll, candidates_eq_from, candidates_eq_from]
  rw [← List.forall₂_eq_eq_eq, List.forall₂_map_left_iff, List.forall₂_map_right_iff]
  exact hselect

end Matcher

/-- The issue without the lines around it. -/
def Issue.bare (issue : Issue) : Issue := { issue with snippet := "" }

namespace Scan

variable {text text' : List Char}

theorem bare_content (file : String) (h : SameLetters text text') :
    (content file text).map Issue.bare = (content file text').map Issue.bare := by
  rw [content, content, List.map_flatMap, List.map_flatMap]
  apply List.flatMap_congr
  intro rule hr
  rw [withRule, withRule, List.map_map, List.map_map,
    Matcher.findAll_sameLetters (Catalogue.respects_sameLetters hr) h]
  apply List.map_congr_left
  intro span _
  rw [Function.comp_apply, Function.comp_apply, issueAt, issueAt, h.lineAt]
  rfl

/-- Two texts that differ in the case of ASCII letters at most have their matches at the same bytes.
The same rules report the same lines of them in the same order, and the two reports have one summary
and one count for each kind of problem. -/
theorem content_ignores_case (file : String) (text text' : List Char)
    (h : text.map Char.toLower = text'.map Char.toLower) :
    (∀ rule ∈ Catalogue.rules, rule.matcher.findAll text = rule.matcher.findAll text') ∧
    (content file text).map (fun issue => (issue.rule, issue.line)) =
      (content file text').map (fun issue => (issue.rule, issue.line)) ∧
    (Report.ofIssues (content file text)).summary =
      (Report.ofIssues (content file text')).summary ∧
    (Report.ofIssues (content file text)).patterns =
      (Report.ofIssues (content file text')).patterns := by
  have hbare := bare_content file h
  have hsummary : ∀ issues : List Issue,
      (Report.ofIssues (issues.map Issue.bare)).summary = (Report.ofIssues issues).summary :=
    Report.summary_map (fun _ => rfl) (fun _ => rfl)
  have hpatterns : ∀ issues : List Issue,
      (Report.ofIssues (issues.map Issue.bare)).patterns = (Report.ofIssues issues).patterns :=
    Report.patterns_map fun _ => rfl
  refine ⟨?_, ?_, ?_, ?_⟩
  · intro rule hr
    exact Matcher.findAll_sameLetters (Catalogue.respects_sameLetters hr) h
  · have hpairs := congrArg (List.map fun issue : Issue => (issue.rule, issue.line)) hbare
    rw [List.map_map, List.map_map] at hpairs
    exact hpairs
  · rw [← hsummary, hbare, hsummary]
  · rw [← hpatterns, hbare, hpatterns]

/-- Capitals in a tag, in its attribute and in the headings around a skipped level. -/
theorem content_ignores_case_capitals :
    "<IMG Src=a>\n<H1>a</h1><H3>".toList.map Char.toLower =
      "<img src=a>\n<h1>a</H1><h3>".toList.map Char.toLower ∧
    Catalogue.headingSkip.matcher.findAll "<IMG Src=a>\n<H1>a</h1><H3>".toList = [⟨12, 25⟩] ∧
    (content "a.html" "<IMG Src=a>\n<H1>a</h1><H3>".toList).map
      (fun issue => (issue.rule, issue.line)) = [("missing_alt", 1), ("heading_skip", 2)] ∧
    (Report.ofIssues (content "a.html" "<IMG Src=a>\n<H1>a</h1><H3>".toList)).summary =
      ⟨2, 1, 0, 1, 1, .fail⟩ := by
  have h : "<IMG Src=a>\n<H1>a</h1><H3>".toList.map Char.toLower =
      "<img src=a>\n<h1>a</H1><h3>".toList.map Char.toLower := by decide
  have hrule : Catalogue.headingSkip ∈ Catalogue.rules := by simp [Catalogue.rules]
  obtain ⟨hspans, hpairs, hsummary, _⟩ := content_ignores_case "a.html" _ _ h
  refine ⟨h, (hspans _ hrule).trans ?_, hpairs.trans ?_, hsummary.trans ?_⟩
  · decide +kernel
  · decide +kernel
  · decide +kernel

end Scan

end MarkupAudit
