import MarkupAudit.Proofs.Json.Printed
import MarkupAudit.Proofs.Report.RoundTrip
import MarkupAudit.Report.Console

/-!
Reading the console form of a report. It is read from the top: the counts of the summary say which
sections follow and how many issues they list, and what is left are the most frequent kinds of
problem. File names and kinds of problem may hold anything but the end of a line, since what follows
one of them on its line is found from the end of the line (`splitLast_append`).
-/

namespace MarkupAudit.Report.Console

/-- What is told of an issue in either section. -/
structure Note where
  file : String
  line : Nat
  problem : String
  remedy : String
deriving DecidableEq, Repr

def Note.ofIssue (issue : Issue) : Note := ⟨issue.file, issue.line, issue.problem, issue.remedy⟩

/-- All that the console form tells. A critical issue is told with its criterion. -/
structure Told where
  summary : Summary
  critical : List (Note × String)
  major : List Note
  patterns : List (String × Nat)
deriving DecidableEq, Repr

def Told.ofIssues (issues : List Issue) : Told where
  summary := (Report.ofIssues issues).summary
  critical := ((issues.filter (·.severity = .critical)).take 5).map fun issue =>
    (Note.ofIssue issue, issue.criterion)
  major := ((issues.filter (·.severity = .major)).take 5).map Note.ofIssue
  patterns := (Report.ofIssues issues).topPatterns 5

section Reader

/-- The lines of a text, and what stands behind the last end of a line. -/
def textLines (text : String) : List (List Char) := text.toList.splitOn '\n'

def readAfter (label : String) (line : List Char) : Option (List Char) :=
  line.dropPrefix? label.toList

def readCount (digits : List Char) : Option Nat :=
  if Json.isWhole digits then some (Nat.ofDigitChars 10 digits 0) else none

/-- What stands before and after the last place of a mark. -/
def splitLast (mark : Char) : List Char → Option (List Char × List Char)
  | [] => none
  | c :: rest =>
    match splitLast mark rest with
    | some (front, back) => some (c :: front, back)
    | none => if c = mark then some ([], rest) else none

def readPlace (line : List Char) : Option (String × Nat) := do
  let place ← readAfter "📍 " line
  let (file, digits) ← splitLast ':' place
  return (String.ofList file, ← readCount digits)

def readMajor : List (List Char) → Option Note
  | [_, place, problem, remedy] => do
    let (file, line) ← readPlace place
    let problem ← readAfter "   Type: " problem
    let remedy ← readAfter "   Fix: " remedy
    return ⟨file, line, String.ofList problem, String.ofList remedy⟩
  | _ => none

def readCritical : List (List Char) → Option (Note × String)
  | [blank, place, problem, criterion, remedy] => do
    let note ← readMajor [blank, place, problem, remedy]
    let criterion ← readAfter "   WCAG: " criterion
    return (note, String.ofList criterion)
  | _ => none

/-- Reads a number of blocks of lines, all of one length. -/
def readBlocks {α : Type} (length : Nat) (read : List (List Char) → Option α) :
    Nat → List (List Char) → Option (List α × List (List Char))
  | 0, lines => some ([], lines)
  | count + 1, lines => do
    let block ← read (lines.take length)
    let (blocks, rest) ← readBlocks length read count (lines.drop length)
    return (block :: blocks, rest)

/-- Reads a section of so many issues, of which only the first ones are told. -/
def readSection {α : Type} (length : Nat) (read : List (List Char) → Option α) (count : Nat)
    (lines : List (List Char)) : Option (List α × List (List Char)) :=
  if count = 0 then some ([], lines)
  else readBlocks length read (min issuesShown count) (lines.drop 3)

def readPattern (line : List Char) : Option (String × Nat) := do
  let pattern ← readAfter "  " line
  let (problem, rest) ← splitLast ':' pattern
  let (digits, _) ← splitLast ' ' (← readAfter " " rest)
  return (String.ofList problem, ← readCount digits)

def readSummary : List (List Char) → Option Summary
  | [files, total, critical, major, minor, _, status] => do
    let files ← readCount (← readAfter "Files Analyzed: " files)
    let total ← readCount (← readAfter "Total Issues: " total)
    let critical ← readCount (← readAfter "  🔴 Critical: " critical)
    let major ← readCount (← readAfter "  🟠 Major: " major)
    let minor ← readCount (← readAfter "  🟡 Minor: " minor)
    let verdict ← Verdict.ofLabel? (String.ofList (← readAfter "Compliance Status: " status))
    return ⟨total, critical, major, minor, files, verdict⟩
  | _ => none

def readLines (lines : List (List Char)) : Option Told := do
  let summary ← readSummary ((lines.drop 7).take 7)
  let (critical, rest) ← readSection 5 readCritical summary.critical (lines.drop 14)
  let (major, rest) ← readSection 4 readMajor summary.major rest
  let patterns ← ((rest.drop 3).takeWhile (· ≠ [])).mapM readPattern
  return ⟨summary, critical, major, patterns⟩

def read (text : String) : Option Told := readLines (textLines text)

end Reader

section Fields

theorem splitLast_eq_none {mark : Char} {text : List Char} (h : mark ∉ text) :
    splitLast mark text = none := by
  induction text with
  | nil => rfl
  | cons c rest ih =>
    rw [List.mem_cons, not_or] at h
    rw [splitLast, ih h.2]
    exact if_neg (Ne.symm h.1)

/-- What follows the last mark is told by having none. -/
theorem splitLast_append {mark : Char} (front : List Char) {back : List Char} (h : mark ∉ back) :
    splitLast mark (front ++ mark :: back) = some (front, back) := by
  induction front with
  | nil =>
    rw [List.nil_append, splitLast, splitLast_eq_none h]
    exact if_pos rfl
  | cons c front ih => rw [List.cons_append, splitLast, ih]

theorem readAfter_append (label rest : String) :
    readAfter label (label ++ rest).toList = some rest.toList := by
  rw [readAfter, String.toList_append]
  exact List.dropPrefix?_append_of_beq _ BEq.rfl

theorem readCount_toString (n : Nat) : readCount (toString n).toList = some n := by
  have htext : (toString n).toList = n.repr.toList := rfl
  rw [readCount, htext, if_pos (Json.isWhole_iff.mpr (Json.isWhole_repr n)), Nat.toList_repr,
    Nat.ofDigitChars_ten_toDigits]

theorem not_mem_toString {c : Char} (hc : c.isDigit = false) (n : Nat) :
    c ∉ (toString n).toList := by
  intro hmem
  have hdigit := (Json.isDigits_repr n).2 c hmem
  rw [hc] at hdigit
  cases hdigit

theorem readPlace_location (issue : Issue) :
    readPlace ("📍 " ++ issue.location).toList = some (issue.file, issue.line) := by
  have hlocation : issue.location.toList =
      issue.file.toList ++ ':' :: (toString issue.line).toList := by
    rw [Issue.location, String.toList_append, String.toList_append, List.append_assoc]
    rfl
  have hcolon : ':' ∉ (toString issue.line).toList := not_mem_toString rfl issue.line
  simp only [readPlace, readAfter_append, hlocation, splitLast_append _ hcolon, readCount_toString,
    Option.bind_eq_bind, Option.bind_some, String.ofList_toList, Option.pure_def]

theorem readMajor_majorLines (issue : Issue) :
    readMajor ((majorLines issue).map String.toList) = some (Note.ofIssue issue) := by
  simp only [majorLines, List.map_cons, List.map_nil, readMajor, readPlace_location,
    readAfter_append, Option.bind_eq_bind, Option.bind_some, String.ofList_toList, Option.pure_def,
    Note.ofIssue]

theorem readCritical_criticalLines (issue : Issue) :
    readCritical ((criticalLines issue).map String.toList) =
      some (Note.ofIssue issue, issue.criterion) := by
  have hmajor := readMajor_majorLines issue
  simp only [majorLines, List.map_cons, List.map_nil] at hmajor
  simp only [criticalLines, List.map_cons, List.map_nil, readCritical, hmajor, readAfter_append,
    Option.bind_eq_bind, Option.bind_some, String.ofList_toList, Option.pure_def]

theorem readPattern_patternLine (pattern : String × Nat) :
    readPattern (patternLine pattern).toList = some pattern := by
  obtain ⟨problem, count⟩ := pattern
  have hline : patternLine (problem, count) =
      "  " ++ (problem ++ (":" ++ (" " ++ (toString count ++ " occurrences")))) := by
    simp only [patternLine, String.append_assoc]
    rfl
  have hrest : (problem ++ (":" ++ (" " ++ (toString count ++ " occurrences")))).toList =
      problem.toList ++ ':' :: (" " ++ (toString count ++ " occurrences")).toList := by
    rw [String.toList_append, String.toList_append]
    rfl
  have hcount : (toString count ++ " occurrences").toList =
      (toString count).toList ++ ' ' :: "occurrences".toList := by
    rw [String.toList_append]
    rfl
  have hcolon : ':' ∉ (" " ++ (toString count ++ " occurrences")).toList := by
    rw [String.toList_append, hcount, List.mem_append, List.mem_append, not_or, not_or]
    exact ⟨by decide, not_mem_toString rfl count, by decide⟩
  have hblank : ' ' ∉ "occurrences".toList := by decide
  simp only [readPattern, hline, readAfter_append, hrest, splitLast_append _ hcolon, hcount,
    splitLast_append _ hblank, readCount_toString, Option.bind_eq_bind, Option.bind_some,
    String.ofList_toList, Option.pure_def]

theorem readSummary_lines (s : Summary) :
    readSummary (((summaryLines s).drop 7).map String.toList) = some s := by
  simp only [summaryLines, List.drop_succ_cons, List.drop_zero, List.map_cons, List.map_nil,
    readSummary, readAfter_append, readCount_toString, Option.bind_eq_bind, Option.bind_some,
    String.ofList_toList, Verdict.ofLabel?_label, Option.pure_def]

end Fields

section Sections

variable {α : Type} {length : Nat} {read : List (List Char) → Option α}
  {describe : Issue → List String} {note : Issue → α}
  (hlength : ∀ issue, (describe issue).length = length)
  (hread : ∀ issue, read ((describe issue).map String.toList) = some (note issue))
include hlength hread

/-- The number of blocks is known, so it does not matter what their lines look like. -/
theorem readBlocks_flatMap (issues : List Issue) (rest : List (List Char)) :
    readBlocks length read issues.length
      ((issues.flatMap describe).map String.toList ++ rest) = some (issues.map note, rest) := by
  induction issues with
  | nil => rfl
  | cons issue issues ih =>
    have hblock : ((describe issue).map String.toList).length = length := by
      rw [List.length_map, hlength]
    rw [List.flatMap_cons, List.map_append, List.append_assoc, List.length_cons, readBlocks,
      List.take_left' hblock, List.drop_left' hblock, hread, ih]
    rfl

theorem readSection_issueSection (title : String) (issues : List Issue)
    (rest : List (List Char)) :
    readSection length read issues.length
      ((issueSection title describe issues).map String.toList ++ rest) =
        some ((issues.take issuesShown).map note, rest) := by
  cases issues with
  | nil => rfl
  | cons issue issues =>
    have hcount : (issue :: issues).length ≠ 0 := by simp
    rw [readSection, if_neg hcount, issueSection, if_neg (by simp), ← List.length_take]
    exact readBlocks_flatMap hlength hread ((issue :: issues).take issuesShown) rest

end Sections

theorem length_criticalLines (issue : Issue) : (criticalLines issue).length = 5 := rfl

theorem length_majorLines (issue : Issue) : (majorLines issue).length = 4 := rfl

theorem readSection_critical (title : String) (issues : List Issue) (rest : List (List Char)) :
    readSection 5 readCritical issues.length
      ((issueSection title criticalLines issues).map String.toList ++ rest) =
        some ((issues.take issuesShown).map fun issue => (Note.ofIssue issue, issue.criterion),
          rest) :=
  readSection_issueSection length_criticalLines readCritical_criticalLines title issues rest

theorem readSection_major (title : String) (issues : List Issue) (rest : List (List Char)) :
    readSection 4 readMajor issues.length
      ((issueSection title majorLines issues).map String.toList ++ rest) =
        some ((issues.take issuesShown).map Note.ofIssue, rest) :=
  readSection_issueSection length_majorLines readMajor_majorLines title issues rest

/-- The lines between the last heading and the bar at the end are the patterns, as none is empty. -/
theorem takeWhile_patternLines (patterns : List (String × Nat)) (rest : List (List Char)) :
    ((patterns.map patternLine).map String.toList ++ [] :: rest).takeWhile (· ≠ []) =
      patterns.map fun pattern => (patternLine pattern).toList := by
  have hline : ∀ line ∈ (patterns.map patternLine).map String.toList,
      decide (line ≠ []) = true := by
    intro line hmem
    rw [List.map_map, List.mem_map] at hmem
    obtain ⟨pattern, -, rfl⟩ := hmem
    rw [decide_eq_true_eq]
    intro hempty
    have hread := readPattern_patternLine pattern
    rw [show (patternLine pattern).toList = [] from hempty] at hread
    cases hread
  rw [List.takeWhile_append_of_pos hline, List.takeWhile_cons_of_neg (by simp), List.append_nil,
    List.map_map]
  rfl

/-- The summary has a fixed number of lines, so the sections begin at a known line. -/
theorem readLines_summaryLines (s : Summary) (rest : List (List Char)) :
    readLines ((summaryLines s).map String.toList ++ rest) = (do
      let (critical, rest) ← readSection 5 readCritical s.critical rest
      let (major, rest) ← readSection 4 readMajor s.major rest
      let patterns ← ((rest.drop 3).takeWhile (· ≠ [])).mapM readPattern
      return ⟨s, critical, major, patterns⟩) := by
  have hsummary : (((summaryLines s).map String.toList ++ rest).drop 7).take 7 =
      ((summaryLines s).drop 7).map String.toList := rfl
  have hrest : ((summaryLines s).map String.toList ++ rest).drop 14 = rest := rfl
  rw [readLines, hsummary, hrest, readSummary_lines]
  rfl

/-- What follows the sections: the most frequent kinds of problem. -/
def patternSection (patterns : List (String × Nat)) : List String :=
  ["", "📈 PATTERN ANALYSIS", bar 40 '-'] ++ patterns.map patternLine ++ ["", bar 60 '=']

theorem readPatterns_patternSection (patterns : List (String × Nat)) :
    ((((patternSection patterns).map String.toList ++ [[]]).drop 3).takeWhile (· ≠ [])).mapM
      readPattern = some patterns := by
  have hlines : ((patternSection patterns).map String.toList ++ [[]]).drop 3 =
      (patterns.map patternLine).map String.toList ++ [] :: [(bar 60 '=').toList, []] := by
    rw [patternSection, List.map_append, List.append_assoc]
    rfl
  have hread := mapM_map_eq_some readPattern_patternLine patterns
  rw [hlines, takeWhile_patternLines]
  rwa [List.map_id'] at hread

/-- The lines of a report tell what it is told to tell. -/
theorem readLines_lines (issues : List Issue) :
    readLines ((lines (ofIssues issues)).map String.toList ++ [[]]) =
      some (Told.ofIssues issues) := by
  have hcritical : (ofIssues issues).bySeverity.critical =
      issues.filter (·.severity = .critical) := get_bySeverity issues .critical
  have hmajor : (ofIssues issues).bySeverity.major =
      issues.filter (·.severity = .major) := get_bySeverity issues .major
  have hcount : (ofIssues issues).summary.critical =
      (issues.filter (·.severity = .critical)).length := congrArg List.length hcritical
  have hcount' : (ofIssues issues).summary.major =
      (issues.filter (·.severity = .major)).length := congrArg List.length hmajor
  have hpatterns := readPatterns_patternSection ((ofIssues issues).topPatterns patternsShown)
  have hlines : lines (ofIssues issues) =
      summaryLines (ofIssues issues).summary ++
        (issueSection "🔴 CRITICAL ISSUES (Must Fix)" criticalLines
            (issues.filter (·.severity = .critical)) ++
          (issueSection "🟠 MAJOR ISSUES (Should Fix)" majorLines
              (issues.filter (·.severity = .major)) ++
            patternSection ((ofIssues issues).topPatterns patternsShown))) := by
    rw [lines, hcritical, hmajor, patternSection]
    simp only [List.append_assoc]
  rw [hlines]
  simp only [List.map_append, List.append_assoc]
  rw [readLines_summaryLines, hcount, hcount', readSection_critical]
  simp only [Option.bind_eq_bind, Option.bind_some]
  rw [readSection_major]
  simp only [Option.bind_some, hpatterns, Option.pure_def]
  rfl

end MarkupAudit.Report.Console
