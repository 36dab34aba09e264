import MarkupAudit.Proofs.Report.Groups
import Mathlib.Algebra.BigOperators.Group.List.Basic
import Mathlib.Algebra.GroupWithZero.Nat
import Mathlib.Data.Finset.Card

/-!
A report loses no issue and counts none twice. Each of its three groupings deals out the issues: a
key stands where it was first seen (`FirstSeen`), and under it stand just the issues that have it, in
the order in which they were found. So all counts of a grouping add up to the number of issues.
-/

namespace MarkupAudit

namespace Grouping

variable {α κ ν : Type} [DecidableEq κ]

/-- The keys are the members of a list, each once and in the order in which they first come in it. -/
structure FirstSeen (items keys : List κ) : Prop where
  nodup : keys.Nodup
  mem_iff : ∀ key, key ∈ keys ↔ key ∈ items
  ordered : keys.Pairwise (items.idxOf · < items.idxOf ·)

theorem firstSeen_nil : FirstSeen ([] : List κ) [] :=
  ⟨List.nodup_nil, fun _ => Iff.rfl, List.Pairwise.nil⟩

/-- What comes behind changes nothing in the order of what was seen before. -/
theorem FirstSeen.ordered_append {items keys : List κ} (h : FirstSeen items keys)
    (more : List κ) : keys.Pairwise ((items ++ more).idxOf · < (items ++ more).idxOf ·) := by
  apply h.ordered.imp_of_mem
  intro a b ha hb hlt
  rw [List.idxOf_append_of_mem ((h.mem_iff a).mp ha),
    List.idxOf_append_of_mem ((h.mem_iff b).mp hb)]
  exact hlt

theorem FirstSeen.of_mem {items keys : List κ} (h : FirstSeen items keys) {item : κ}
    (hmem : item ∈ items) : FirstSeen (items ++ [item]) keys where
  nodup := h.nodup
  mem_iff key := by
    rw [h.mem_iff, List.mem_append, List.mem_singleton]
    constructor
    · exact Or.inl
    · rintro (hk | rfl)
      · exact hk
      · exact hmem
  ordered := h.ordered_append [item]

theorem FirstSeen.append {items keys : List κ} (h : FirstSeen items keys) {item : κ}
    (hnew : item ∉ items) : FirstSeen (items ++ [item]) (keys ++ [item]) where
  nodup := by
    apply List.nodup_append'.mpr
    refine ⟨h.nodup, List.nodup_singleton item, ?_⟩
    rw [List.disjoint_singleton, h.mem_iff]
    exact hnew
  mem_iff key := by
    rw [List.mem_append, List.mem_append, h.mem_iff]
  ordered := by
    rw [List.pairwise_append]
    refine ⟨h.ordered_append [item], List.pairwise_singleton _ _, ?_⟩
    intro key hk last hl
    have hmem := (h.mem_iff key).mp hk
    rw [List.mem_singleton.mp hl, List.idxOf_append_of_mem hmem,
      List.idxOf_append_of_notMem hnew]
    have hlt := List.idxOf_lt_length_of_mem hmem
    omega

theorem firstSeen_eraseDups (items : List κ) : FirstSeen items items.eraseDups := by
  induction items using List.reverseRecOn with
  | nil => exact firstSeen_nil
  | append_singleton items item ih =>
    rw [List.eraseDups_append]
    by_cases hmem : item ∈ items
    · have hnone : [item].removeAll items = [] := by simp [List.removeAll, hmem]
      rw [hnone, List.eraseDups_nil, List.append_nil]
      exact ih.of_mem hmem
    · have hone : [item].removeAll items = [item] := by simp [List.removeAll, hmem]
      rw [hone, List.eraseDups_cons]
      exact ih.append hmem

/-- There are as many keys as there are different members. -/
theorem FirstSeen.length_eq_card {items keys : List κ} (h : FirstSeen items keys) :
    keys.length = items.toFinset.card := by
  have hsame : keys.toFinset = items.toFinset := by
    ext key
    rw [List.mem_toFinset, List.mem_toFinset, h.mem_iff]
  rw [← hsame, List.toFinset_card_of_nodup h.nodup]

theorem get?_of_mem {g : Grouping κ ν} (h : g.keys.Nodup) {entry : κ × ν} (hmem : entry ∈ g) :
    g.get? entry.1 = some entry.2 := by
  induction g with
  | nil => cases hmem
  | cons first g ih =>
    rw [keys, List.map_cons, List.nodup_cons] at h
    rcases List.mem_cons.mp hmem with rfl | hmem
    · simp [get?]
    · have hne : first.1 ≠ entry.1 := by
        intro heq
        apply h.1
        rw [heq]
        exact List.mem_map_of_mem hmem
      rw [← ih h.2 hmem, get?, get?, List.find?_cons_of_neg (by simpa using hne)]

/-- An entry tells of the items with its key, and there is one at least. -/
theorem gather_entry {key : α → κ} {fresh : ν} {add : α → ν → ν} {items : List α} {entry : κ × ν}
    (h : entry ∈ gather key fresh add items) :
    entry.2 = absorb add fresh (items.filter (key · = entry.1)) ∧ entry.1 ∈ items.map key := by
  have hget := get?_of_mem (nodup_keys_gather key fresh add items) h
  rw [get?_gather] at hget
  split at hget
  · rename_i hmem
    exact ⟨(Option.some.inj hget).symm, hmem⟩
  · cases hget

/-- Each item is counted under one of the keys and no other. -/
theorem sum_countP_keys {key : α → κ} {keys : List κ} {items : List α} (hnodup : keys.Nodup)
    (hmem : ∀ item ∈ items, key item ∈ keys) :
    (keys.map fun k => items.countP (key · = k)).sum = items.length := by
  induction items with
  | nil => simp
  | cons item items ih =>
    have hone : (keys.map fun k => if key item = k then 1 else 0).sum = 1 := by
      have hother : ∀ k, k ≠ key item → k ∈ keys → (if key item = k then 1 else 0) = 0 :=
        fun k hne _ => if_neg (Ne.symm hne)
      rw [List.sum_map_eq_nsmul_single (key item) _ hother, if_pos rfl,
        List.count_eq_one_of_mem hnodup (hmem item List.mem_cons_self)]
      rfl
    have hrest := ih fun other ho => hmem other (List.mem_cons_of_mem item ho)
    simp only [List.countP_cons, List.sum_map_add, hrest, decide_eq_true_eq, hone,
      List.length_cons]

end Grouping

namespace Report

open Grouping (FirstSeen)

variable {issues : List Issue}

theorem firstSeen_byFile (issues : List Issue) :
    FirstSeen (issues.map (·.file)) (ofIssues issues).byFile.keys := by
  rw [keys_byFile]
  exact Grouping.firstSeen_eraseDups _

theorem firstSeen_patterns (issues : List Issue) :
    FirstSeen (issues.map (·.problem)) (ofIssues issues).patterns.keys := by
  rw [keys_patterns]
  exact Grouping.firstSeen_eraseDups _

theorem byFile_entry {entry : String × List Issue} (h : entry ∈ (ofIssues issues).byFile) :
    entry.2 = issues.filter (·.file = entry.1) := by
  rw [byFile_eq] at h
  rw [(Grouping.gather_entry h).1, absorb_append, List.nil_append]

theorem patterns_entry {entry : String × Nat} (h : entry ∈ (ofIssues issues).patterns) :
    entry.2 = issues.countP (·.problem = entry.1) ∧ 1 ≤ entry.2 := by
  rw [patterns_eq] at h
  obtain ⟨hcount, hmem⟩ := Grouping.gather_entry h
  rw [absorb_count, Nat.zero_add, ← List.countP_eq_length_filter] at hcount
  refine ⟨hcount, ?_⟩
  obtain ⟨issue, hi, hproblem⟩ := List.mem_map.mp hmem
  rw [hcount]
  apply List.countP_pos_iff.mpr
  exact ⟨issue, hi, decide_eq_true hproblem⟩

theorem sum_byFile (issues : List Issue) :
    ((ofIssues issues).byFile.map (·.2.length)).sum = issues.length := by
  have hseen := firstSeen_byFile issues
  have hentries : (ofIssues issues).byFile.map (·.2.length) =
      (ofIssues issues).byFile.keys.map fun file => issues.countP (·.file = file) := by
    rw [Grouping.keys, List.map_map]
    apply List.map_congr_left
    intro entry he
    rw [byFile_entry he, Function.comp_apply, List.countP_eq_length_filter]
  rw [hentries]
  apply Grouping.sum_countP_keys hseen.nodup
  intro issue hi
  exact (hseen.mem_iff issue.file).mpr (List.mem_map_of_mem hi)

theorem sum_patterns (issues : List Issue) :
    ((ofIssues issues).patterns.map (·.2)).sum = issues.length := by
  have hseen := firstSeen_patterns issues
  have hentries : (ofIssues issues).patterns.map (·.2) =
      (ofIssues issues).patterns.keys.map fun problem => issues.countP (·.problem = problem) := by
    rw [Grouping.keys, List.map_map]
    apply List.map_congr_left
    intro entry he
    exact (patterns_entry he).1
  rw [hentries]
  apply Grouping.sum_countP_keys hseen.nodup
  intro issue hi
  exact (hseen.mem_iff issue.problem).mpr (List.mem_map_of_mem hi)

theorem length_get (issues : List Issue) (s : Severity) :
    ((ofIssues issues).bySeverity.get s).length = issues.countP (·.severity = s) := by
  rw [List.countP_eq_length_filter, get_bySeverity]

theorem sum_severities (issues : List Issue) : (ofIssues issues).summary.critical +
    (ofIssues issues).summary.major + (ofIssues issues).summary.minor = issues.length := by
  have hall : (Severity.all.map fun s => issues.countP (·.severity = s)).sum = issues.length :=
    Grouping.sum_countP_keys (by decide) fun issue _ => issue.severity.mem_all
  have hcritical := length_get issues .critical
  have hmajor := length_get issues .major
  have hminor := length_get issues .minor
  simp only [Severity.all, List.map_cons, List.map_nil, List.sum_cons, List.sum_nil] at hall
  change ((ofIssues issues).bySeverity.get .critical).length +
    ((ofIssues issues).bySeverity.get .major).length +
    ((ofIssues issues).bySeverity.get .minor).length = issues.length
  omega

section Map

variable {f : Issue → Issue}

/-- What a report counts depends on the severities, files and problems of the issues alone. -/
theorem summary_map (hseverity : ∀ issue, (f issue).severity = issue.severity)
    (hfile : ∀ issue, (f issue).file = issue.file) (issues : List Issue) :
    (ofIssues (issues.map f)).summary = (ofIssues issues).summary := by
  have hbucket : ∀ s, ((ofIssues (issues.map f)).bySeverity.get s).length =
      ((ofIssues issues).bySeverity.get s).length := by
    intro s
    rw [length_get, length_get, List.countP_map]
    simp only [Function.comp_def, hseverity]
  have hfiles : (ofIssues (issues.map f)).summary.files = (ofIssues issues).summary.files := by
    have hlength : ∀ issues : List Issue,
        (ofIssues issues).summary.files = (issues.map (·.file)).eraseDups.length := by
      intro issues
      rw [← keys_byFile, files_eq, Grouping.keys, List.length_map]
    rw [hlength, hlength, List.map_map]
    simp only [Function.comp_def, hfile]
  have hverdict : Verdict.ofIssues (issues.map f) = Verdict.ofIssues issues := by
    rw [Verdict.ofIssues, Verdict.ofIssues, List.any_map]
    simp only [Function.comp_def, hseverity]
  exact (Summary.mk.injEq ..).mpr ⟨List.length_map f, hbucket .critical, hbucket .major,
    hbucket .minor, hfiles, hverdict⟩

theorem patterns_map (hproblem : ∀ issue, (f issue).problem = issue.problem)
    (issues : List Issue) :
    (ofIssues (issues.map f)).patterns = (ofIssues issues).patterns := by
  have hcount : ∀ patterns issue, countProblem patterns (f issue) = countProblem patterns issue := by
    intro patterns issue
    rw [countProblem, countProblem, hproblem]
  rw [ofIssues, ofIssues]
  dsimp only
  rw [List.foldl_map]
  simp only [hcount]

end Map

theorem verdict_eq_fail_iff_bucket (issues : List Issue) :
    (ofIssues issues).summary.verdict = .fail ↔ (ofIssues issues).bySeverity.critical ≠ [] := by
  have hbucket : (ofIssues issues).bySeverity.critical = issues.filter (·.severity = .critical) :=
    get_bySeverity issues .critical
  rw [verdict_eq_fail_iff, hbucket, Ne, List.filter_eq_nil_iff]
  simp

theorem exitStatus_eq_one_iff (report : Report) :
    report.exitStatus = 1 ↔ report.summary.verdict = .fail := by
  rw [exitStatus]
  cases report.summary.verdict <;> simp [Verdict.exitStatus]

/-- A report deals out all issues: by severity, by file and by kind of problem, each time in the
order in which they were found and under keys in the order in which they were first seen. So its
counts agree, and it fails just when there is a critical issue. -/
theorem ofIssues_partition (issues : List Issue) :
    let report := ofIssues issues
    (∀ s, report.bySeverity.get s = issues.filter (·.severity = s)) ∧
    FirstSeen (issues.map (·.file)) report.byFile.keys ∧
    (∀ entry ∈ report.byFile, entry.2 = issues.filter (·.file = entry.1)) ∧
    FirstSeen (issues.map (·.problem)) report.patterns.keys ∧
    (∀ entry ∈ report.patterns,
      entry.2 = issues.countP (·.problem = entry.1) ∧ 1 ≤ entry.2) ∧
    report.summary.total = issues.length ∧
    report.summary.critical = report.bySeverity.critical.length ∧
    report.summary.major = report.bySeverity.major.length ∧
    report.summary.minor = report.bySeverity.minor.length ∧
    report.summary.critical + report.summary.major + report.summary.minor = issues.length ∧
    (report.byFile.map (·.2.length)).sum = issues.length ∧
    (report.patterns.map (·.2)).sum = issues.length ∧
    report.summary.files = report.byFile.keys.length ∧
    (report.summary.verdict = .fail ↔ report.bySeverity.critical ≠ []) ∧
    (report.exitStatus = 1 ↔ report.bySeverity.critical ≠ []) := by
  have hfiles : (ofIssues issues).summary.files = (ofIssues issues).byFile.keys.length := by
    rw [files_eq, Grouping.keys, List.length_map]
  have hexit : (ofIssues issues).exitStatus = 1 ↔ (ofIssues issues).bySeverity.critical ≠ [] := by
    rw [exitStatus_eq_one_iff, verdict_eq_fail_iff_bucket]
  refine ⟨Buckets.get_ofIssues issues, firstSeen_byFile issues, fun _ => byFile_entry,
    firstSeen_patterns issues, fun _ => patterns_entry, rfl, rfl, rfl, rfl, ?_⟩
  exact ⟨sum_severities issues, sum_byFile issues, sum_patterns issues, hfiles,
    verdict_eq_fail_iff_bucket issues, hexit⟩

end Report

end MarkupAudit
