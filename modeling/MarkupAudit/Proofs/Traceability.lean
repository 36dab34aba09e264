import MarkupAudit.Proofs.Report.Groups
import MarkupAudit.Scan
import Mathlib.Algebra.BigOperators.Group.List.Basic
import Mathlib.Algebra.GroupWithZero.Nat

/-!
What a report says of the files it was made from. A report is made from the issues of all files, one
file after another. It gives back the issues file by file, and each of its counts is a number of
matches of rules (`countP_contents`), since no two rules find the same kind of problem.
-/

namespace MarkupAudit

/-- The number of matches of a rule in the texts of some files. -/
def Rule.hits (rule : Rule) (files : List (String × List Char)) : Nat :=
  (files.map fun file => (rule.matcher.findAll file.2).length).sum

namespace Scan

/-- The issues of several files, told by their paths and texts. -/
def contents (files : List (String × List Char)) : List Issue :=
  files.flatMap fun file => content file.1 file.2

theorem mem_content {file : String} {text : List Char} {issue : Issue} :
    issue ∈ content file text ↔ ∃ rule ∈ Catalogue.rules, ∃ span ∈ rule.matcher.findAll text,
      issue = issueAt rule file text (Text.lines text) span.start := by
  simp only [content, withRule, List.mem_flatMap, List.mem_map, eq_comm]

theorem file_of_mem_content {file : String} {text : List Char} {issue : Issue}
    (h : issue ∈ content file text) : issue.file = file := by
  obtain ⟨rule, _, span, _, rfl⟩ := mem_content.mp h
  rfl

section Count

variable {p : Issue → Bool} {q : Rule → Bool}
  (h : ∀ rule file line snippet, p (Issue.ofRule rule file line snippet) = q rule)
include h

/-- A property of issues that depends on the rule alone counts the matches of the rules. -/
theorem countP_content (file : String) (text : List Char) : (content file text).countP p =
    ((Catalogue.rules.filter q).map fun rule => (rule.matcher.findAll text).length).sum := by
  rw [content]
  induction Catalogue.rules with
  | nil => rfl
  | cons rule rules ih =>
    have hrule : (withRule file text rule).countP p =
        if q rule then (rule.matcher.findAll text).length else 0 := by
      rw [withRule, List.countP_map]
      split
      · rename_i hq
        exact List.countP_eq_length.mpr fun span _ => (h _ _ _ _).trans hq
      · rename_i hq
        apply List.countP_eq_zero.mpr
        intro span _
        rw [Function.comp_apply, issueAt, h]
        exact hq
    rw [List.flatMap_cons, List.countP_append, ih, hrule, List.filter_cons]
    split <;> simp

theorem countP_contents (files : List (String × List Char)) :
    (contents files).countP p = ((Catalogue.rules.filter q).map (·.hits files)).sum := by
  induction files with
  | nil => simp [contents, Rule.hits]
  | cons file files ih =>
    have hhits : ∀ rule : Rule, rule.hits (file :: files) =
        (rule.matcher.findAll file.2).length + rule.hits files := fun _ => List.sum_cons
    rw [contents, List.flatMap_cons, List.countP_append, countP_content h, ← contents, ih]
    simp only [hhits, List.sum_map_add]

end Count

end Scan

namespace Catalogue

theorem nodup_problems : (rules.map (·.problem)).Nodup := by decide

theorem filter_problem {rule : Rule} (h : rule ∈ rules) :
    rules.filter (·.problem = rule.problem) = [rule] := by
  have aux : ∀ rules : List Rule, (rules.map (·.problem)).Nodup → rule ∈ rules →
      rules.filter (·.problem = rule.problem) = [rule] := by
    intro rules hnodup hmem
    induction rules with
    | nil => cases hmem
    | cons first rules ih =>
      rw [List.map_cons, List.nodup_cons] at hnodup
      rcases List.mem_cons.mp hmem with rfl | hmem
      · have hnone : rules.filter (·.problem = rule.problem) = [] := by
          rw [List.filter_eq_nil_iff]
          intro other ho heq
          exact hnodup.1 (List.mem_map.mpr ⟨other, ho, by simpa using heq⟩)
        rw [List.filter_cons_of_pos (by simp), hnone]
      · have hne : first.problem ≠ rule.problem := by
          intro heq
          exact hnodup.1 (heq ▸ List.mem_map_of_mem hmem)
        rw [List.filter_cons_of_neg (by simpa using hne), ih hnodup.2 hmem]
  exact aux rules nodup_problems h

end Catalogue

namespace Report

variable {files : List (String × List Char)}

theorem get?_patterns_contents {rule : Rule} (h : rule ∈ Catalogue.rules)
    (files : List (String × List Char)) :
    (ofIssues (Scan.contents files)).patterns.get? rule.problem =
      if rule.hits files = 0 then none else some (rule.hits files) := by
  have hcount : (Scan.contents files).countP (·.problem = rule.problem) = rule.hits files := by
    rw [Scan.countP_contents (q := (·.problem = rule.problem)) fun _ _ _ _ => rfl,
      Catalogue.filter_problem h, List.map_singleton, List.sum_singleton]
  rw [get?_patterns, hcount]

theorem get?_patterns_of_not_mem {problem : String}
    (h : problem ∉ Catalogue.rules.map (·.problem)) (files : List (String × List Char)) :
    (ofIssues (Scan.contents files)).patterns.get? problem = none := by
  have hcount : (Scan.contents files).countP (·.problem = problem) = 0 := by
    have hnone : Catalogue.rules.filter (·.problem = problem) = [] := by
      rw [List.filter_eq_nil_iff]
      intro rule hr heq
      exact h (List.mem_map.mpr ⟨rule, hr, by simpa using heq⟩)
    rw [Scan.countP_contents (q := (·.problem = problem)) fun _ _ _ _ => rfl, hnone]
    rfl
  rw [get?_patterns, if_pos hcount]

theorem length_bucket_contents (files : List (String × List Char)) (s : Severity) :
    ((ofIssues (Scan.contents files)).bySeverity.get s).length =
      ((Catalogue.rules.filter (·.severity = s)).map (·.hits files)).sum := by
  have hbucket : (ofIssues (Scan.contents files)).bySeverity.get s =
      (Scan.contents files).filter (·.severity = s) := Buckets.get_ofIssues _ s
  rw [hbucket, ← List.countP_eq_length_filter]
  exact Scan.countP_contents (q := (·.severity = s)) (fun _ _ _ _ => rfl) files

theorem byFile_contents (h : (files.map (·.1)).Nodup) :
    (ofIssues (Scan.contents files)).byFile =
      (files.map fun file => (file.1, Scan.content file.1 file.2)).filter (·.2 ≠ []) := by
  let blocks := files.map fun file => (file.1, Scan.content file.1 file.2)
  have hblocks : (blocks.map (·.1)).Nodup := by
    rw [List.map_map]
    exact h
  have hcontents : Scan.contents files = blocks.flatMap (·.2) := by
    simp only [Scan.contents, blocks, List.flatMap_map]
  have hfile : ∀ block ∈ blocks, ∀ issue ∈ block.2, issue.file = block.1 := by
    intro block hb issue hi
    obtain ⟨file, _, rfl⟩ := List.mem_map.mp hb
    dsimp only at hi ⊢
    exact Scan.file_of_mem_content hi
  rw [hcontents, byFile_eq, Grouping.gather_flatMap hblocks hfile]
  simp only [absorb_append, List.nil_append]
  exact List.map_id _

theorem verdict_contents (files : List (String × List Char)) :
    (ofIssues (Scan.contents files)).summary.verdict = .fail ↔
      ∃ file ∈ files, ∃ rule ∈ Catalogue.rules, rule.severity = .critical ∧
        rule.matcher.findAll file.2 ≠ [] := by
  rw [verdict_eq_fail_iff]
  constructor
  · intro h
    obtain ⟨issue, hi, hs⟩ := h
    obtain ⟨file, hf, hi⟩ := List.mem_flatMap.mp hi
    obtain ⟨rule, hr, span, hspan, rfl⟩ := Scan.mem_content.mp hi
    exact ⟨file, hf, rule, hr, hs, List.ne_nil_of_mem hspan⟩
  · intro h
    obtain ⟨file, hf, rule, hr, hs, hne⟩ := h
    obtain ⟨span, hspan⟩ := List.exists_mem_of_ne_nil _ hne
    have hissue : Scan.issueAt rule file.1 file.2 (Text.lines file.2) span.start ∈
        Scan.content file.1 file.2 := Scan.mem_content.mpr ⟨rule, hr, span, hspan, rfl⟩
    exact ⟨_, List.mem_flatMap.mpr ⟨file, hf, hissue⟩, hs⟩

/-- Everything that a report of files with different paths says is traced back to matches of rules:
the issues of each file, the counts of kinds of problem and of severities, and the verdict. -/
theorem ofIssues_traced (files : List (String × List Char)) (h : (files.map (·.1)).Nodup) :
    let report : Report := ofIssues (files.flatMap fun file => Scan.content file.1 file.2)
    report.byFile =
      (files.map fun file => (file.1, Scan.content file.1 file.2)).filter (·.2 ≠ []) ∧
    report.summary.files = files.countP (fun file => Scan.content file.1 file.2 ≠ []) ∧
    (∀ rule ∈ Catalogue.rules, report.patterns.get? rule.problem =
      if rule.hits files = 0 then none else some (rule.hits files)) ∧
    (∀ problem, problem ∉ Catalogue.rules.map (·.problem) →
      report.patterns.get? problem = none) ∧
    report.patterns.keys.Nodup ∧
    report.summary.critical =
      ((Catalogue.rules.filter (·.severity = .critical)).map (·.hits files)).sum ∧
    report.summary.major =
      ((Catalogue.rules.filter (·.severity = .major)).map (·.hits files)).sum ∧
    report.summary.minor =
      ((Catalogue.rules.filter (·.severity = .minor)).map (·.hits files)).sum ∧
    (report.summary.verdict = .fail ↔ ∃ file ∈ files, ∃ rule ∈ Catalogue.rules,
      rule.severity = .critical ∧ rule.matcher.findAll file.2 ≠ []) := by
  have hfiles : (ofIssues (Scan.contents files)).summary.files =
      files.countP (fun file => Scan.content file.1 file.2 ≠ []) := by
    rw [files_eq, byFile_contents h, ← List.countP_eq_length_filter, List.countP_map]
    simp only [Function.comp_def]
  refine ⟨byFile_contents h, hfiles, ?_, ?_, nodup_keys_patterns _, ?_⟩
  · intro rule hr
    exact get?_patterns_contents hr files
  · intro problem hp
    exact get?_patterns_of_not_mem hp files
  · exact ⟨length_bucket_contents files .critical, length_bucket_contents files .major,
      length_bucket_contents files .minor, verdict_contents files⟩

/-- Two files with the same kind of problem, and a clean one between them. -/
def cleanBetween : List (String × List Char) :=
  [("b.html", "<html>".toList), ("a.html", "<p>".toList), ("c.html", "<img>\n<html>".toList)]

theorem ofIssues_traced_clean_between : (cleanBetween.map (·.1)).Nodup ∧
    let report : Report := ofIssues (cleanBetween.flatMap fun file => Scan.content file.1 file.2)
    report.byFile = (cleanBetween.map fun file =>
      (file.1, Scan.content file.1 file.2)).filter (·.2 ≠ []) ∧
    report.patterns.get? "Missing page language" = some 2 ∧
    report.patterns.get? "Form input without label" = none ∧
    report.summary.critical = 3 ∧ report.summary.verdict = .fail := by
  have hnodup : (cleanBetween.map (·.1)).Nodup := by decide
  have hlang : Catalogue.missingLang ∈ Catalogue.rules := by simp [Catalogue.rules]
  have hlabel : Catalogue.inputNoLabel ∈ Catalogue.rules := by simp [Catalogue.rules]
  obtain ⟨hfile, _, hpatterns, _, _, hcritical, _, _, hverdict⟩ :=
    ofIssues_traced cleanBetween hnodup
  refine ⟨hnodup, hfile, ?_, ?_, ?_, ?_⟩
  · exact (hpatterns Catalogue.missingLang hlang).trans (by decide +kernel)
  · exact (hpatterns Catalogue.inputNoLabel hlabel).trans (by decide +kernel)
  · exact hcritical.trans (by decide +kernel)
  · exact hverdict.mpr ⟨("b.html", "<html>".toList), by decide, Catalogue.missingLang,
      hlang, rfl, by decide +kernel⟩

end Report

end MarkupAudit
