import MarkupAudit.Proofs.AttributeRun
import MarkupAudit.Proofs.HeadingSkip.Steady
import MarkupAudit.Proofs.IssueLocation
import Mathlib.Data.List.Flatten

/-!
Audits of a text that goes on. A text keeps its closed pieces when more comes behind it, so a rule for
a bare tag reports again what it has reported; the other rules but one are steady. The remaining
rule looks for a label behind an input, and a label may still come. So no other issue of a text is
hidden or moved by what follows the text (`content_append`).
-/

namespace MarkupAudit

open Pattern Catalogue

namespace Text

/-- More text changes nothing but the last piece. -/
theorem exists_pieces_append (text more : List Char) : ∃ (closed : List (List Char))
    (last : List Char), '>' ∉ last ∧ pieces text = closed ++ [last] ∧
      pieces (text ++ more) = closed ++ pieces (last ++ more) := by
  induction text using piece_induction with
  | last text h => exact ⟨[], text, h, pieces_of_not_mem h, rfl⟩
  | closed run rest h ih =>
    obtain ⟨closed, last, hlast, htext, hmore⟩ := ih
    refine ⟨(run ++ ['>']) :: closed, last, hlast, ?_, ?_⟩
    · rw [pieces_append h, htext]
      rfl
    · rw [List.append_assoc, List.cons_append, pieces_append h, hmore]
      rfl

end Text

theorem Cursor.placed_append (n : Nat) (first second : List (List Char)) :
    placed n (first ++ second) = placed n first ++
      placed (n + Text.byteLength first.flatten) second := by
  induction first generalizing n with
  | nil => rfl
  | cons piece first ih =>
    rw [List.cons_append, placed, placed, ih, List.flatten_cons, Text.byteLength_append,
      Nat.add_assoc]
    rfl

namespace AttributeRun

open TagSearch

variable {opening : String} {markers : List String}

/-- The stretches to the closing brackets of a text stay, and no new one comes before them. -/
theorem findAll_kept (h : ∀ word ∈ opening :: markers, IsPlain word) (text more : List Char) :
    (Matcher.guarded (tag opening) (mentions markers)).findAll text <+:
      (Matcher.guarded (tag opening) (mentions markers)).findAll (text ++ more) := by
  have ho : IsPlain opening := h opening List.mem_cons_self
  have hm : ∀ marker ∈ markers, IsPlain marker :=
    fun marker hmem => h marker (List.mem_cons_of_mem opening hmem)
  obtain ⟨closed, last, hlast, htext, hmore⟩ := Text.exists_pieces_append text more
  rw [findAll_eq_pieces ho hm, findAll_eq_pieces ho hm, Cursor.pieces, Cursor.pieces, htext, hmore,
    Cursor.placed_append, Cursor.placed_append, List.filterMap_append, List.filterMap_append,
    Cursor.placed, Cursor.placed, List.filterMap_cons_none (span?_last hlast _), List.filterMap_nil,
    List.append_nil]
  exact List.prefix_append ..

theorem isPlain_of_all {words : List String} (h : words.all (fun word =>
    !(word.toList.isEmpty || word.toList.any fun c => Text.fold c == '>')) = true) :
    ∀ word ∈ words, IsPlain word := by
  intro word hw
  apply isPlain_of_decide
  simpa using List.all_eq_true.mp h word hw

theorem starts_kept (h : ∀ word ∈ opening :: markers, IsPlain word) (text more : List Char) :
    ((Matcher.guarded (tag opening) (mentions markers)).findAll text).map (·.start) <+:
      ((Matcher.guarded (tag opening) (mentions markers)).findAll (text ++ more)).map (·.start) :=
  (findAll_kept h text more).map _

end AttributeRun

namespace Catalogue

open Matcher (steady_of_leads steady_of_last steady_of_run steady_concat_split)

theorem steady_genericAlt : genericAlt.matcher.Steady := by
  apply steady_concat_split 6
  exact steady_of_last (by decide) (lacks_of_everyClass (by decide)) (leads_exactly '>')
    (single_char _)

theorem steady_ambiguousLink : ambiguousLink.matcher.Steady := by
  apply steady_concat_split 2
  exact steady_of_last (by decide) (lacks_of_everyClass (by decide))
    (leads_literal rfl (by decide)) (single_literal "</a>")

theorem steady_positiveTabindex : positiveTabindex.matcher.Steady :=
  steady_of_leads (by decide)
    (leads_concat_cons (leads_literal rfl (by decide)) (lacks_of_everyClass (by decide)))

theorem steady_unnecessaryAutofocus : unnecessaryAutofocus.matcher.Steady :=
  steady_of_leads (by decide)
    (leads_seq (leads_literal rfl (by decide)) (lacks_of_everyClass (by decide)))

theorem steady_divOnclick : divOnclick.matcher.Steady := by
  have hnames : (choice (["div", "span"].map literal)).Single := single_choice (by decide)
  apply steady_concat_split 2
  apply steady_of_run (by decide)
  · exact leads_seq (leads_exactly '<') (lacks_of_everyClass (by decide))
  · exact single_seq (single_char _) hnames
  · exact lacks_of_everyClass (by decide)

theorem steady_colorOnly : colorOnly.matcher.Steady :=
  steady_of_run (by decide) (leads_literal rfl (by decide)) (single_literal _)
    (lacks_of_everyClass (by decide))

theorem steady_buttonAsLink : buttonAsLink.matcher.Steady :=
  steady_of_run (by decide) (leads_literal rfl (by decide)) (single_literal _)
    (lacks_of_everyClass (by decide))

/-- Every rule but the one that looks for labels reports first what it reports of the shorter text. -/
theorem starts_kept {rule : Rule} (hr : rule ∈ rules) (hn : rule.name ≠ "input_no_label")
    (text more : List Char) : (rule.matcher.findAll text).map (·.start) <+:
      (rule.matcher.findAll (text ++ more)).map (·.start) := by
  simp only [rules, List.mem_cons, List.not_mem_nil, or_false] at hr
  rcases hr with rfl | rfl | rfl | rfl | rfl | rfl | rfl | rfl | rfl | rfl | rfl | rfl
  · exact steady_genericAlt.starts_kept text more
  · exact AttributeRun.starts_kept (AttributeRun.isPlain_of_all (by decide)) text more
  · exact steady_divOnclick.starts_kept text more
  · exact steady_ambiguousLink.starts_kept text more
  · exact absurd rfl hn
  · exact HeadingSkip.steady.starts_kept text more
  · exact steady_positiveTabindex.starts_kept text more
  · exact AttributeRun.starts_kept (AttributeRun.isPlain_of_all (by decide)) text more
  · exact steady_unnecessaryAutofocus.starts_kept text more
  · exact steady_colorOnly.starts_kept text more
  · exact AttributeRun.starts_kept (AttributeRun.isPlain_of_all (by decide)) text more
  · exact steady_buttonAsLink.starts_kept text more

end Catalogue

namespace Scan

variable {rule : Rule} {text : List Char}

theorem lineAt_append_of_mem_findAll {m : Matcher} {span : Span} (h : span ∈ m.findAll text)
    (more : List Char) : Text.lineAt (text ++ more) span.start = Text.lineAt text span.start := by
  obtain ⟨cur, stop, hin, _, rfl⟩ := Matcher.exists_of_mem_findAll h
  obtain ⟨before, htext, hoffset⟩ := Cursor.exists_before hin
  rw [htext, hoffset, List.append_assoc, Text.lineAt_append, Text.lineAt_append]

/-- The rule and the line of an issue. -/
def sighting (issue : Issue) : String × Nat := (issue.rule, issue.line)

theorem sightings_withRule (file : String) (text : List Char) (rule : Rule) :
    (withRule file text rule).map sighting =
      (rule.matcher.findAll text).map fun span => (rule.name, Text.lineAt text span.start) := by
  rw [withRule, List.map_map]
  rfl

theorem sightings_kept (file : String) (hr : rule ∈ Catalogue.rules)
    (hn : rule.name ≠ "input_no_label") (text more : List Char) :
    (withRule file text rule).map sighting <+:
      (withRule file (text ++ more) rule).map sighting := by
  have hlines : (rule.matcher.findAll text).map
      (fun span => (rule.name, Text.lineAt text span.start)) =
        ((rule.matcher.findAll text).map (·.start)).map
          fun start => (rule.name, Text.lineAt (text ++ more) start) := by
    rw [List.map_map]
    apply List.map_congr_left
    intro span hs
    rw [Function.comp_apply, lineAt_append_of_mem_findAll hs more]
  have hprefix := (Catalogue.starts_kept hr hn text more).map
    fun start => (rule.name, Text.lineAt (text ++ more) start)
  rw [sightings_withRule, sightings_withRule, hlines]
  rw [List.map_map (l := rule.matcher.findAll (text ++ more))] at hprefix
  exact hprefix

/-- All issues of a rule are kept, or none, by what is asked of their rule. -/
theorem filter_withRule (keeps : String → Prop) [DecidablePred keeps] (file : String)
    (text : List Char) (rule : Rule) : (withRule file text rule).filter (keeps ·.rule) =
      if keeps rule.name then withRule file text rule else [] := by
  have hname : ∀ issue ∈ withRule file text rule, issue.rule = rule.name := by
    intro issue hi
    obtain ⟨span, _, rfl⟩ := List.mem_map.mp hi
    rfl
  split
  · rename_i hkeeps
    apply List.filter_eq_self.mpr
    intro issue hi
    rw [hname issue hi]
    exact decide_eq_true hkeeps
  · rename_i hdrops
    apply List.filter_eq_nil_iff.mpr
    intro issue hi
    rw [hname issue hi]
    simpa using hdrops

/-- Appended text hides and moves no issue, save of the rule that looks for a label behind an input:
each other rule reports its matches of the text again, before those that are new, and the issues
come with the same lines in the same order. -/
theorem content_append (file : String) (text more : List Char) :
    (∀ rule ∈ Catalogue.rules, rule.name ≠ "input_no_label" →
      (rule.matcher.findAll text).map (·.start) <+:
        (rule.matcher.findAll (text ++ more)).map (·.start)) ∧
    (((content file text).filter (·.rule ≠ "input_no_label")).map
        fun issue => (issue.rule, issue.line)).Sublist
      (((content file (text ++ more)).filter (·.rule ≠ "input_no_label")).map
        fun issue => (issue.rule, issue.line)) := by
  refine ⟨fun rule hr hn => Catalogue.starts_kept hr hn text more, ?_⟩
  rw [content, content, List.filter_flatMap, List.filter_flatMap, List.map_flatMap,
    List.map_flatMap]
  apply List.Sublist.flatMap_right
  intro rule hr
  have hkept : ∀ text, (withRule file text rule).filter (·.rule ≠ "input_no_label") =
      if rule.name ≠ "input_no_label" then withRule file text rule else [] :=
    fun text => filter_withRule (· ≠ "input_no_label") file text rule
  rw [hkept, hkept]
  split
  · rename_i hn
    exact (sightings_kept file hr hn text more).sublist
  · exact List.nil_sublist _

/-- More text lengthens the section of a skipped level and completes a tag. -/
theorem content_append_longer_section :
    Catalogue.headingSkip.matcher.findAll "<h1>a</h1>\n<h3><span".toList = [⟨0, 14⟩] ∧
    Catalogue.headingSkip.matcher.findAll
      ("<h1>a</h1>\n<h3><span".toList ++ " onclick=>\n<h4>".toList) = [⟨0, 34⟩] ∧
    (Catalogue.headingSkip.matcher.findAll "<h1>a</h1>\n<h3><span".toList).map (·.start) <+:
      (Catalogue.headingSkip.matcher.findAll
        ("<h1>a</h1>\n<h3><span".toList ++ " onclick=>\n<h4>".toList)).map (·.start) ∧
    ((content "a.html" ("<h1>a</h1>\n<h3><span".toList ++ " onclick=>\n<h4>".toList)).filter
      (·.rule ≠ "input_no_label")).map (fun issue => (issue.rule, issue.line)) =
        [("div_onclick", 2), ("heading_skip", 1)] := by
  have hrule : Catalogue.headingSkip ∈ Catalogue.rules := by simp [Catalogue.rules]
  obtain ⟨hstarts, _⟩ := content_append "a.html" "<h1>a</h1>\n<h3><span".toList
    " onclick=>\n<h4>".toList
  refine ⟨?_, ?_, hstarts _ hrule (by decide), ?_⟩
  · decide +kernel
  · decide +kernel
  · decide +kernel

end Scan

end MarkupAudit
