import MarkupAudit.Proofs.Report.Console.Reader
import MarkupAudit.Proofs.Report.Ranking

/-!
The console form of a report is legible as long as what it shows of an issue stays on one line: the
text falls apart into the lines it was put together from (`textLines_joinLines`), and the reader
gets back what they tell. No text of an issue stands at the beginning of a line (`IsLine`), so a
heading or a verdict cannot be forged.
-/

namespace MarkupAudit

/-- There is no end of a line in the text. -/
def OneLine (text : String) : Prop := '\n' ∉ text.toList

instance : DecidablePred OneLine := fun text => inferInstanceAs (Decidable ('\n' ∉ text.toList))

theorem OneLine.append {a b : String} (ha : OneLine a) (hb : OneLine b) : OneLine (a ++ b) := by
  rw [OneLine, String.toList_append, List.mem_append, not_or]
  exact ⟨ha, hb⟩

/-- What the console form shows of an issue stays on one line. -/
structure Issue.IsOneLine (issue : Issue) : Prop where
  file : OneLine issue.file
  problem : OneLine issue.problem
  criterion : OneLine issue.criterion
  remedy : OneLine issue.remedy

namespace Report.Console

theorem oneLine_toString (n : Nat) : OneLine (toString n) := not_mem_toString rfl n

theorem textLines_joinLines {lines : List String} (h : ∀ line ∈ lines, OneLine line) :
    textLines (joinLines lines) = lines.map String.toList ++ [[]] := by
  induction lines with
  | nil => rfl
  | cons line lines ih =>
    rw [List.forall_mem_cons] at h
    have htext : (joinLines (line :: lines)).toList =
        line.toList ++ '\n' :: (joinLines lines).toList := by
      simp only [joinLines, List.map_cons, String.toList_join, List.flatMap_cons,
        String.toList_append, List.append_assoc]
      rfl
    rw [textLines, htext, List.splitOn_append_cons_self_of_not_mem h.1]
    exact congrArg (line.toList :: ·) (ih h.2)

section Kinds

def criticalHeading : String := "🔴 CRITICAL ISSUES (Must Fix)"

def majorHeading : String := "🟠 MAJOR ISSUES (Should Fix)"

def failLine : String := "Compliance Status: FAIL"

/-- The lines that are the same in every report. -/
def fixedLines : List String :=
  ["", bar 60 '=', "ACCESSIBILITY AUDIT REPORT - WCAG 2.0 AA", "📊 SUMMARY", bar 40 '-',
   "📈 PATTERN ANALYSIS"]

def countLabels : List String :=
  ["Files Analyzed: ", "Total Issues: ", "  🔴 Critical: ", "  🟠 Major: ", "  🟡 Minor: "]

def issueLabels : List String := ["📍 ", "   Type: ", "   WCAG: ", "   Fix: "]

def shownTexts (issue : Issue) : List String :=
  [issue.location, issue.problem, issue.criterion, issue.remedy]

/-- The kinds of lines that the console form of a report has. -/
inductive IsLine (report : Report) : String → Prop where
  | fixed {line : String} : line ∈ fixedLines → IsLine report line
  | count {label : String} (n : Nat) : label ∈ countLabels → IsLine report (label ++ toString n)
  | verdict : IsLine report ("Compliance Status: " ++ report.summary.verdict.label)
  | critical : report.bySeverity.critical ≠ [] → IsLine report criticalHeading
  | major : report.bySeverity.major ≠ [] → IsLine report majorHeading
  | shown (severity : Severity) {issue : Issue} {label text : String} :
      issue ∈ report.bySeverity.get severity → label ∈ issueLabels → text ∈ shownTexts issue →
        IsLine report (label ++ text)
  | pattern {pattern : String × Nat} :
      pattern ∈ report.topPatterns patternsShown → IsLine report (patternLine pattern)

variable {report : Report}

theorem isLine_summaryLines : ∀ line ∈ summaryLines report.summary, IsLine report line := by
  simp only [summaryLines, List.forall_mem_cons]
  exact ⟨.fixed (by decide), .fixed (by decide), .fixed (by decide), .fixed (by decide),
    .fixed (by decide), .fixed (by decide), .fixed (by decide), .count _ (by decide),
    .count _ (by decide), .count _ (by decide), .count _ (by decide), .count _ (by decide),
    .fixed (by decide), .verdict, List.forall_mem_nil _⟩

theorem isLine_issueSection {title : String} {describe : Issue → List String}
    {issues : List Issue} (htitle : issues ≠ [] → IsLine report title)
    (h : ∀ issue ∈ issues, ∀ line ∈ describe issue, IsLine report line) :
    ∀ line ∈ issueSection title describe issues, IsLine report line := by
  intro line hline
  rw [issueSection] at hline
  split at hline
  · exact absurd hline List.not_mem_nil
  · rename_i hempty
    simp only [List.mem_cons, List.mem_flatMap] at hline
    rcases hline with rfl | rfl | rfl | ⟨issue, hissue, hline⟩
    · exact .fixed (by decide)
    · exact htitle fun hnil => hempty (List.isEmpty_iff.mpr hnil)
    · exact .fixed (by decide)
    · exact h issue (List.mem_of_mem_take hissue) line hline

theorem isLine_criticalLines {issue : Issue} (h : issue ∈ report.bySeverity.critical) :
    ∀ line ∈ criticalLines issue, IsLine report line := by
  simp only [criticalLines, List.forall_mem_cons]
  exact ⟨.fixed (by decide), .shown .critical h (by decide) (by simp [shownTexts]),
    .shown .critical h (by decide) (by simp [shownTexts]),
    .shown .critical h (by decide) (by simp [shownTexts]),
    .shown .critical h (by decide) (by simp [shownTexts]), List.forall_mem_nil _⟩

theorem isLine_majorLines {issue : Issue} (h : issue ∈ report.bySeverity.major) :
    ∀ line ∈ majorLines issue, IsLine report line := by
  simp only [majorLines, List.forall_mem_cons]
  exact ⟨.fixed (by decide), .shown .major h (by decide) (by simp [shownTexts]),
    .shown .major h (by decide) (by simp [shownTexts]),
    .shown .major h (by decide) (by simp [shownTexts]), List.forall_mem_nil _⟩

theorem isLine_of_mem_lines {line : String} (h : line ∈ lines report) : IsLine report line := by
  rw [lines, List.mem_append, List.mem_append, List.mem_append, List.mem_append, List.mem_append,
    List.mem_map] at h
  rcases h with ((((h | h) | h) | h) | ⟨pattern, hpattern, rfl⟩) | h
  · exact isLine_summaryLines line h
  · exact isLine_issueSection .critical (fun _ => isLine_criticalLines) line h
  · exact isLine_issueSection .major (fun _ => isLine_majorLines) line h
  · have hfixed : ∀ line ∈ ["", "📈 PATTERN ANALYSIS", bar 40 '-'], line ∈ fixedLines := by decide
    exact .fixed (hfixed line h)
  · exact .pattern hpattern
  · have hfixed : ∀ line ∈ ["", bar 60 '='], line ∈ fixedLines := by decide
    exact .fixed (hfixed line h)

end Kinds

theorem Issue.IsOneLine.shownTexts {issue : Issue} (h : issue.IsOneLine) :
    ∀ text ∈ shownTexts issue, OneLine text := by
  have hlocation : OneLine issue.location :=
    (h.file.append (by decide)).append (oneLine_toString issue.line)
  simp only [Console.shownTexts, List.forall_mem_cons]
  exact ⟨hlocation, h.problem, h.criterion, h.remedy, List.forall_mem_nil _⟩

theorem IsLine.oneLine {issues : List Issue} (h : ∀ issue ∈ issues, issue.IsOneLine) {line : String}
    (hline : IsLine (ofIssues issues) line) : OneLine line := by
  have hfixed : ∀ line ∈ fixedLines, OneLine line := by decide
  have hcounts : ∀ label ∈ countLabels, OneLine label := by decide
  have hlabels : ∀ label ∈ issueLabels, OneLine label := by decide
  cases hline with
  | fixed hline => exact hfixed line hline
  | count n hlabel => exact (hcounts _ hlabel).append (oneLine_toString n)
  | verdict => exact .append (by decide) (by cases (ofIssues issues).summary.verdict <;> decide)
  | critical => decide
  | major => decide
  | shown severity hissue hlabel htext =>
    rw [get_bySeverity] at hissue
    exact (hlabels _ hlabel).append
      (Issue.IsOneLine.shownTexts (h _ (List.mem_of_mem_filter hissue)) _ htext)
  | @pattern pattern hpattern =>
    rw [topPatterns_eq] at hpattern
    obtain ⟨issue, hissue, hproblem⟩ :=
      List.mem_map.mp (ranking_entry (List.mem_of_mem_take hpattern)).1
    have hkind : OneLine pattern.1 := hproblem ▸ (h issue hissue).problem
    exact ((OneLine.append (.append (by decide) hkind) (by decide)).append
      (oneLine_toString pattern.2)).append (by decide)

section Headings

/-- What a heading of a section or the verdict begins with. -/
def marks : List Char := ['🔴', '🟠', 'C']

def isMarked (line : String) : Bool := line.toList.head?.any marks.contains

theorem isMarked_append {label : String} (h : label.toList ≠ []) (rest : String) :
    isMarked (label ++ rest) = isMarked label := by
  rw [isMarked, String.toList_append, List.head?_append_of_ne_nil _ h, isMarked]

variable {report : Report}

/-- The marked lines are the headings and the verdict, whatever the issues are. -/
theorem IsLine.eq_of_isMarked {line : String} (h : IsLine report line)
    (hmarked : isMarked line = true) :
    line = "Compliance Status: " ++ report.summary.verdict.label ∨
      (line = criticalHeading ∧ report.bySeverity.critical ≠ []) ∨
      (line = majorHeading ∧ report.bySeverity.major ≠ []) := by
  have hfixed : ∀ line ∈ fixedLines, isMarked line = false := by decide
  have hcounts : ∀ label ∈ countLabels, label.toList ≠ [] ∧ isMarked label = false := by decide
  have hlabels : ∀ label ∈ issueLabels, label.toList ≠ [] ∧ isMarked label = false := by decide
  cases h with
  | fixed hline => exact absurd hmarked (Bool.eq_false_iff.mp (hfixed line hline))
  | count n hlabel =>
    obtain ⟨hne, hlabel⟩ := hcounts _ hlabel
    rw [isMarked_append hne, hlabel] at hmarked
    cases hmarked
  | verdict => exact .inl rfl
  | critical hcritical => exact .inr (.inl ⟨rfl, hcritical⟩)
  | major hmajor => exact .inr (.inr ⟨rfl, hmajor⟩)
  | shown _ _ hlabel _ =>
    obtain ⟨hne, hlabel⟩ := hlabels _ hlabel
    rw [isMarked_append hne, hlabel] at hmarked
    cases hmarked
  | pattern =>
    rw [patternLine, String.append_assoc, String.append_assoc, String.append_assoc,
      isMarked_append (by decide)] at hmarked
    cases hmarked

theorem title_mem_issueSection (title : String) (describe : Issue → List String)
    {issues : List Issue} (h : issues ≠ []) : title ∈ issueSection title describe issues := by
  rw [issueSection, if_neg (by rwa [List.isEmpty_iff])]
  exact List.mem_cons_of_mem _ List.mem_cons_self

theorem heading_mem_lines_iff {heading : String} (hmarked : isMarked heading = true)
    (hverdict : ∀ v : Verdict, heading ≠ "Compliance Status: " ++ v.label) :
    heading ∈ lines report ↔ (heading = criticalHeading ∧ report.bySeverity.critical ≠ []) ∨
      (heading = majorHeading ∧ report.bySeverity.major ≠ []) := by
  constructor
  · intro h
    exact ((isLine_of_mem_lines h).eq_of_isMarked hmarked).resolve_left (hverdict _)
  · rintro (⟨rfl, hcritical⟩ | ⟨rfl, hmajor⟩)
    · have hmem : criticalHeading ∈ issueSection criticalHeading criticalLines _ :=
        title_mem_issueSection _ _ hcritical
      simp only [lines, List.mem_append]
      exact .inl (.inl (.inl (.inl (.inr hmem))))
    · have hmem : majorHeading ∈ issueSection majorHeading majorLines _ :=
        title_mem_issueSection _ _ hmajor
      simp only [lines, List.mem_append]
      exact .inl (.inl (.inl (.inr hmem)))

theorem criticalHeading_mem_lines_iff :
    criticalHeading ∈ lines report ↔ report.bySeverity.critical ≠ [] := by
  have hverdict : ∀ v : Verdict, criticalHeading ≠ "Compliance Status: " ++ v.label := by
    rintro (_ | _) <;> decide
  have hother : criticalHeading ≠ majorHeading := by decide
  rw [heading_mem_lines_iff (by decide) hverdict]
  simp [hother]

theorem majorHeading_mem_lines_iff :
    majorHeading ∈ lines report ↔ report.bySeverity.major ≠ [] := by
  have hverdict : ∀ v : Verdict, majorHeading ≠ "Compliance Status: " ++ v.label := by
    rintro (_ | _) <;> decide
  have hother : majorHeading ≠ criticalHeading := by decide
  rw [heading_mem_lines_iff (by decide) hverdict]
  simp [hother]

theorem failLine_mem_lines_iff :
    failLine ∈ lines report ↔ report.summary.verdict = .fail := by
  have hpass : failLine ≠ "Compliance Status: " ++ Verdict.passWithWarnings.label := by decide
  constructor
  · intro h
    rcases (isLine_of_mem_lines h).eq_of_isMarked (by decide) with
      hline | ⟨hcritical, -⟩ | ⟨hmajor, -⟩
    · cases hv : report.summary.verdict with
      | fail => rfl
      | passWithWarnings => exact absurd (hv ▸ hline) hpass
    · exact absurd hcritical (by decide)
    · exact absurd hmajor (by decide)
  · intro h
    have hline : "Compliance Status: " ++ report.summary.verdict.label = failLine := by
      rw [h]
      decide
    simp only [lines, summaryLines, hline, List.mem_append, List.mem_cons, true_or, or_true]

end Headings

section Legible

variable {issues : List Issue} (h : ∀ issue ∈ issues, issue.IsOneLine)
include h

theorem textLines_render :
    textLines (render (ofIssues issues)) = (lines (ofIssues issues)).map String.toList ++ [[]] :=
  textLines_joinLines fun _ hline => (isLine_of_mem_lines hline).oneLine h

theorem read_render : read (render (ofIssues issues)) = some (Told.ofIssues issues) := by
  rw [read, textLines_render h]
  exact readLines_lines issues

theorem mem_textLines_render_iff (line : String) (hne : line.toList ≠ []) :
    line.toList ∈ textLines (render (ofIssues issues)) ↔ line ∈ lines (ofIssues issues) := by
  rw [textLines_render h, List.mem_append, List.mem_singleton, or_iff_left hne,
    List.mem_map_of_injective fun _ _ => String.toList_injective]

end Legible

/-- The console form of any issues whose texts stay on one line. It determines all that is told by
it: the counts, the verdict, the first critical and the first major issues and the most frequent
kinds of problem. A section has its heading just if it has issues, and the verdict is a failure just
if the critical section is there. -/
theorem render_legible (issues : List Issue) (h : ∀ issue ∈ issues, issue.IsOneLine) :
    let report := ofIssues issues
    let text := render report
    read text = some (Told.ofIssues issues) ∧
    (∀ others : List Issue, (∀ issue ∈ others, issue.IsOneLine) →
      render (ofIssues others) = text → Told.ofIssues others = Told.ofIssues issues) ∧
    (criticalHeading.toList ∈ textLines text ↔ 0 < report.summary.critical) ∧
    (majorHeading.toList ∈ textLines text ↔ 0 < report.summary.major) ∧
    (failLine.toList ∈ textLines text ↔ criticalHeading.toList ∈ textLines text) := by
  have hcritical := (mem_textLines_render_iff h criticalHeading (by decide)).trans
    criticalHeading_mem_lines_iff
  have hmajor := (mem_textLines_render_iff h majorHeading (by decide)).trans
    majorHeading_mem_lines_iff
  have hfail := (mem_textLines_render_iff h failLine (by decide)).trans failLine_mem_lines_iff
  refine ⟨read_render h, ?_, ?_, ?_, ?_⟩
  · intro others hothers heq
    have hread := read_render hothers
    rw [heq, read_render h] at hread
    exact (Option.some.inj hread).symm
  · exact hcritical.trans List.length_pos_iff.symm
  · exact hmajor.trans List.length_pos_iff.symm
  · rw [hfail, hcritical]
    exact verdict_eq_fail_iff_bucket issues

/-- An issue with texts that look like other lines of the report. -/
def forged : Issue where
  rule := "missing_alt"
  file := "src/a:7"
  line := 3
  severity := .critical
  criterion := "1.1.1"
  problem := "🟠 MAJOR ISSUES (Should Fix): 3 occurrences"
  description := ""
  snippet := ""
  remedy := "Compliance Status: PASS WITH WARNINGS"

theorem render_legible_forged :
    forged.IsOneLine ∧
    (read (render (ofIssues [forged]))).map (·.critical) =
      some [(⟨"src/a:7", 3, "🟠 MAJOR ISSUES (Should Fix): 3 occurrences",
        "Compliance Status: PASS WITH WARNINGS"⟩, "1.1.1")] ∧
    majorHeading.toList ∉ textLines (render (ofIssues [forged])) ∧
    failLine.toList ∈ textLines (render (ofIssues [forged])) := by
  have hforged : forged.IsOneLine := ⟨by decide, by decide, by decide, by decide⟩
  obtain ⟨hread, -, hcritical, hmajor, hfail⟩ :=
    render_legible [forged] (List.forall_mem_singleton.mpr hforged)
  refine ⟨hforged, ?_, ?_, ?_⟩
  · rw [hread]
    rfl
  · rw [hmajor]
    decide
  · rw [hfail, hcritical]
    decide

end Report.Console

end MarkupAudit
