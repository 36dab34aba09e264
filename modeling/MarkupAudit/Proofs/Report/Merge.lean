import MarkupAudit.Proofs.Report.Partition
import Mathlib.Data.Finset.Lattice.Lemmas

/-!
Reports put together. The report of two lists of issues, one after the other, is made from the two
reports alone (`Report.merge`): in each grouping the keys of the first come first, then those that
only the second has. So a report only grows while files are added, and which of two lists comes
first changes no count.
-/

namespace MarkupAudit

namespace Grouping

variable {α κ ν : Type} [DecidableEq κ]

/-- Two groupings as one. The values of a key that both have are combined, and what only the second
has comes behind. -/
def merge (combine : ν → ν → ν) (g h : Grouping κ ν) : Grouping κ ν :=
  (g.map fun entry => (entry.1, (h.get? entry.1).elim entry.2 (combine entry.2))) ++
    h.filter fun entry => entry.1 ∉ g.keys

section Merge

variable {combine : ν → ν → ν} {g h : Grouping κ ν} {key : κ} {fresh : ν} {change : ν → ν}

omit [DecidableEq κ] in
theorem keys_map (f : κ → ν → ν) (g : Grouping κ ν) :
    keys (g.map fun entry => (entry.1, f entry.1 entry.2)) = g.keys := by
  rw [keys, List.map_map]
  rfl

theorem keys_merge (combine : ν → ν → ν) (g h : Grouping κ ν) :
    (merge combine g h).keys = g.keys ++ h.keys.filter (· ∉ g.keys) := by
  rw [merge, keys, List.map_append, List.map_map, keys, keys, List.filter_map]
  rfl

theorem get?_cons (k : κ) (v : ν) (g : Grouping κ ν) (key : κ) :
    get? ((k, v) :: g) key = if k = key then some v else g.get? key := by
  by_cases hk : k = key <;> simp [get?, hk]

theorem get?_append (g h : Grouping κ ν) (key : κ) :
    get? (g ++ h) key = (g.get? key).or (h.get? key) := by
  rw [get?, List.find?_append, Option.map_or]
  rfl

theorem get?_map (f : κ → ν → ν) (g : Grouping κ ν) (key : κ) :
    get? (g.map fun entry => (entry.1, f entry.1 entry.2)) key = (g.get? key).map (f key) := by
  induction g with
  | nil => rfl
  | cons entry g ih =>
    rw [List.map_cons, get?_cons, get?_cons, ih]
    by_cases hk : entry.1 = key
    · rw [if_pos hk, if_pos hk, hk]
      rfl
    · rw [if_neg hk, if_neg hk]

theorem get?_filter (p : κ → Bool) (g : Grouping κ ν) (key : κ) :
    get? (g.filter fun entry => p entry.1) key = if p key then g.get? key else none := by
  induction g with
  | nil => simp [get?]
  | cons entry g ih =>
    rw [List.filter_cons, get?_cons]
    by_cases hk : entry.1 = key
    · subst hk
      by_cases hp : p entry.1 = true
      · rw [if_pos hp, get?_cons, if_pos rfl, if_pos hp, if_pos rfl]
      · rw [if_neg hp, ih, if_neg hp, if_neg hp]
    · rw [if_neg hk, ← ih]
      split
      · rw [get?_cons, if_neg hk]
      · rfl

theorem get?_eq_none_iff : g.get? key = none ↔ key ∉ g.keys := by
  rw [get?, Option.map_eq_none_iff, List.find?_eq_none, keys, List.mem_map]
  simp only [decide_eq_true_eq, not_exists, not_and]

/-- A key of one grouping alone has its value there, and a key of both has the two combined. -/
theorem get?_merge (combine : ν → ν → ν) (g h : Grouping κ ν) (key : κ) :
    (merge combine g h).get? key = Option.merge combine (g.get? key) (h.get? key) := by
  have hfirst := get?_map (fun k v => (h.get? k).elim v (combine v)) g key
  have hsecond := get?_filter (fun k => decide (k ∉ g.keys)) h key
  rw [merge, get?_append, hfirst, hsecond]
  cases hg : g.get? key with
  | none =>
    have hnew : key ∉ g.keys := get?_eq_none_iff.mp hg
    cases hh : h.get? key <;> simp [hnew]
  | some v => cases hh : h.get? key <;> rfl

theorem update_append_of_mem (hkey : key ∈ g.keys) (h : Grouping κ ν) :
    update key fresh change (g ++ h) = update key fresh change g ++ h := by
  induction g with
  | nil => cases hkey
  | cons entry g ih =>
    rw [List.cons_append, update, update]
    split
    · rfl
    · rename_i hne
      rw [keys, List.map_cons, List.mem_cons] at hkey
      rw [ih (hkey.resolve_left (Ne.symm hne)), List.cons_append]

theorem update_append_of_not_mem (hkey : key ∉ g.keys) (h : Grouping κ ν) :
    update key fresh change (g ++ h) = g ++ update key fresh change h := by
  induction g with
  | nil => rfl
  | cons entry g ih =>
    rw [keys, List.map_cons, List.mem_cons, not_or] at hkey
    rw [List.cons_append, update, if_neg (Ne.symm hkey.1), ih hkey.2, List.cons_append]

theorem update_filter (p : κ → Bool) (g : Grouping κ ν) :
    (update key fresh change g).filter (fun entry => p entry.1) =
      if p key then update key fresh change (g.filter fun entry => p entry.1)
      else g.filter fun entry => p entry.1 := by
  induction g with
  | nil => cases hp : p key <;> simp [update, hp]
  | cons entry g ih =>
    rw [update]
    by_cases hk : entry.1 = key
    · subst hk
      rw [if_pos rfl]
      cases hp : p entry.1 <;> simp [update, hp]
    · rw [if_neg hk, List.filter_cons, List.filter_cons, ih]
      cases hentry : p entry.1 <;> cases hp : p key <;> simp [update, hk]

theorem update_map (f f' : κ → ν → ν) (hnodup : g.keys.Nodup) (hmem : key ∈ g.keys)
    (hkey : ∀ v, change (f key v) = f' key v) (hother : ∀ k, k ≠ key → f k = f' k) :
    update key fresh change (g.map fun entry => (entry.1, f entry.1 entry.2)) =
      g.map fun entry => (entry.1, f' entry.1 entry.2) := by
  induction g with
  | nil => cases hmem
  | cons entry g ih =>
    obtain ⟨k, v⟩ := entry
    rw [keys, List.map_cons, List.nodup_cons] at hnodup
    rw [List.map_cons, List.map_cons, update]
    by_cases hk : k = key
    · subst hk
      -- No other entry has the key, so the rest is not touched.
      have hrest : g.map (fun entry => (entry.1, f entry.1 entry.2)) =
          g.map fun entry => (entry.1, f' entry.1 entry.2) := by
        apply List.map_congr_left
        intro entry he
        have hlater : entry.1 ∈ g.map (·.1) := List.mem_map_of_mem he
        have hne : entry.1 ≠ k := ne_of_mem_of_not_mem hlater hnodup.1
        rw [hother entry.1 hne]
      rw [if_pos rfl, hkey, hrest]
    · rw [keys, List.map_cons, List.mem_cons] at hmem
      rw [if_neg hk, ih hnodup.2 (hmem.resolve_left (Ne.symm hk)), hother k hk]

/-- To change a value of the second grouping is to change it in both as one. -/
theorem update_merge (hg : g.keys.Nodup) (hold : ∀ v w, change (combine v w) = combine v (change w))
    (hnew : ∀ v, change v = combine v (change fresh)) (h : Grouping κ ν) :
    update key fresh change (merge combine g h) =
      merge combine g (update key fresh change h) := by
  have hkeys := keys_map (fun k v => (h.get? k).elim v (combine v)) g
  rw [merge, merge, update_filter (fun k => decide (k ∉ g.keys)) h]
  by_cases hkey : key ∈ g.keys
  · rw [update_append_of_mem (hkeys ▸ hkey), if_neg (by simpa using hkey)]
    apply congrArg (· ++ _)
    refine update_map (fun k v => (h.get? k).elim v (combine v))
      (fun k v => ((update key fresh change h).get? k).elim v (combine v)) hg hkey ?_ ?_
    · intro v
      rw [get?_update, if_pos rfl]
      cases h.get? key with
      | none => exact hnew v
      | some w => exact hold v w
    · intro k hk
      rw [get?_update, if_neg hk]
  · rw [update_append_of_not_mem (hkeys ▸ hkey), if_pos (by simpa using hkey)]
    apply congrArg (· ++ _)
    apply List.map_congr_left
    intro entry he
    have hne : entry.1 ≠ key := by
      rintro rfl
      exact hkey (List.mem_map_of_mem he)
    rw [get?_update, if_neg hne]

/-- Items gathered one list after the other are the two gatherings merged. -/
theorem gather_append {key : α → κ} {add : α → ν → ν}
    (hold : ∀ item v w, add item (combine v w) = combine v (add item w))
    (hnew : ∀ item v, add item v = combine v (add item fresh)) (xs ys : List α) :
    gather key fresh add (xs ++ ys) =
      merge combine (gather key fresh add xs) (gather key fresh add ys) := by
  induction ys using List.reverseRecOn with
  | nil =>
    have hempty : merge combine (gather key fresh add xs) (gather key fresh add []) =
        (gather key fresh add xs).map (fun entry => entry) ++ [] := rfl
    rw [hempty, List.map_id', List.append_nil, List.append_nil]
  | append_singleton ys item ih =>
    have hlast : ∀ items, gather key fresh add (items ++ [item]) =
        enlist key fresh add (gather key fresh add items) item := fun _ => List.foldl_append
    rw [← List.append_assoc, hlast, hlast, ih, enlist, enlist]
    exact update_merge (nodup_keys_gather key fresh add xs) (hold item) (hnew item) _

end Merge

end Grouping

def Buckets.append (a b : Buckets) : Buckets :=
  ⟨a.critical ++ b.critical, a.major ++ b.major, a.minor ++ b.minor⟩

theorem Buckets.ofIssues_append_eq_append (xs ys : List Issue) :
    ofIssues (xs ++ ys) = (ofIssues xs).append (ofIssues ys) := by
  have hget : ∀ s, (ofIssues (xs ++ ys)).get s = (ofIssues xs).get s ++ (ofIssues ys).get s := by
    intro s
    rw [get_ofIssues, get_ofIssues, get_ofIssues, List.filter_append]
  exact (Buckets.mk.injEq ..).mpr ⟨hget .critical, hget .major, hget .minor⟩

namespace Report

/-- The report of the issues of two reports, those of the first before those of the second. -/
def merge (a b : Report) : Report where
  summary := {
    total := a.summary.total + b.summary.total
    critical := a.summary.critical + b.summary.critical
    major := a.summary.major + b.summary.major
    minor := a.summary.minor + b.summary.minor
    files := (a.byFile.keys.toFinset ∪ b.byFile.keys.toFinset).card
    verdict := if a.summary.verdict = .fail ∨ b.summary.verdict = .fail then .fail
      else .passWithWarnings }
  bySeverity := a.bySeverity.append b.bySeverity
  byFile := a.byFile.merge (· ++ ·) b.byFile
  patterns := a.patterns.merge (· + ·) b.patterns

/-- How often a kind of problem was found. -/
def count (report : Report) (problem : String) : Nat := (report.patterns.get? problem).getD 0

/-- No count of the one report is above that of the other, nor is its exit status. -/
structure Within (a b : Report) : Prop where
  total : a.summary.total ≤ b.summary.total
  critical : a.summary.critical ≤ b.summary.critical
  major : a.summary.major ≤ b.summary.major
  minor : a.summary.minor ≤ b.summary.minor
  files : a.summary.files ≤ b.summary.files
  count : ∀ problem, a.count problem ≤ b.count problem
  exitStatus : a.exitStatus ≤ b.exitStatus

theorem toFinset_keys_byFile (issues : List Issue) :
    (ofIssues issues).byFile.keys.toFinset = (issues.map (·.file)).toFinset := by
  ext file
  rw [List.mem_toFinset, List.mem_toFinset, (firstSeen_byFile issues).mem_iff]

theorem files_eq_card (issues : List Issue) :
    (ofIssues issues).summary.files = (issues.map (·.file)).toFinset.card := by
  rw [← (firstSeen_byFile issues).length_eq_card, files_eq, Grouping.keys, List.length_map]

theorem count_ofIssues (issues : List Issue) (problem : String) :
    (ofIssues issues).count problem = issues.countP (·.problem = problem) := by
  rw [count, get?_patterns]
  split
  · rename_i hzero
    rw [hzero]
    rfl
  · rfl

section Append

variable (xs ys : List Issue)

theorem byFile_append : (ofIssues (xs ++ ys)).byFile =
    (ofIssues xs).byFile.merge (· ++ ·) (ofIssues ys).byFile := by
  rw [byFile_eq, byFile_eq, byFile_eq]
  apply Grouping.gather_append
  · intro issue v w
    exact List.append_assoc v w [issue]
  · intro issue v
    rfl

theorem patterns_append : (ofIssues (xs ++ ys)).patterns =
    (ofIssues xs).patterns.merge (· + ·) (ofIssues ys).patterns := by
  rw [patterns_eq, patterns_eq, patterns_eq]
  apply Grouping.gather_append
  · intro _ v w
    exact Nat.add_assoc v w 1
  · intro _ v
    rfl

theorem verdict_append_eq_fail_iff : (ofIssues (xs ++ ys)).summary.verdict = .fail ↔
    (ofIssues xs).summary.verdict = .fail ∨ (ofIssues ys).summary.verdict = .fail := by
  simp only [verdict_eq_fail_iff, List.mem_append, or_and_right, exists_or]

theorem summary_append :
    (ofIssues (xs ++ ys)).summary = ((ofIssues xs).merge (ofIssues ys)).summary := by
  have hbuckets : ∀ s, ((ofIssues (xs ++ ys)).bySeverity.get s).length =
      ((ofIssues xs).bySeverity.get s).length + ((ofIssues ys).bySeverity.get s).length := by
    intro s
    rw [length_get, length_get, length_get, List.countP_append]
  have hfiles : (ofIssues (xs ++ ys)).summary.files =
      ((ofIssues xs).byFile.keys.toFinset ∪ (ofIssues ys).byFile.keys.toFinset).card := by
    rw [files_eq_card, List.map_append, List.toFinset_append, toFinset_keys_byFile,
      toFinset_keys_byFile]
  have hverdict : (ofIssues (xs ++ ys)).summary.verdict =
      if (ofIssues xs).summary.verdict = .fail ∨ (ofIssues ys).summary.verdict = .fail then .fail
      else .passWithWarnings := by
    have hiff := verdict_append_eq_fail_iff xs ys
    split
    · rename_i hfail
      exact hiff.mpr hfail
    · rename_i hpass
      cases h : (ofIssues (xs ++ ys)).summary.verdict with
      | fail => exact absurd (hiff.mp h) hpass
      | passWithWarnings => rfl
  exact (Summary.mk.injEq ..).mpr ⟨List.length_append, hbuckets .critical, hbuckets .major,
    hbuckets .minor, hfiles, hverdict⟩

theorem ofIssues_append_eq_merge : ofIssues (xs ++ ys) = (ofIssues xs).merge (ofIssues ys) :=
  (Report.mk.injEq ..).mpr ⟨summary_append xs ys, Buckets.ofIssues_append_eq_append xs ys,
    byFile_append xs ys, patterns_append xs ys⟩

end Append

section Perm

variable {xs ys : List Issue} (h : xs.Perm ys)
include h

/-- The order of the issues has no say in what is counted. -/
theorem summary_of_perm : (ofIssues xs).summary = (ofIssues ys).summary := by
  have hbuckets : ∀ s, ((ofIssues xs).bySeverity.get s).length =
      ((ofIssues ys).bySeverity.get s).length := by
    intro s
    rw [length_get, length_get, h.countP_eq]
  have hfiles : (ofIssues xs).summary.files = (ofIssues ys).summary.files := by
    rw [files_eq_card, files_eq_card, List.toFinset_eq_of_perm _ _ (h.map _)]
  have hverdict : Verdict.ofIssues xs = Verdict.ofIssues ys := by
    rw [Verdict.ofIssues, Verdict.ofIssues, h.any_eq]
  exact (Summary.mk.injEq ..).mpr ⟨h.length_eq, hbuckets .critical, hbuckets .major,
    hbuckets .minor, hfiles, hverdict⟩

theorem get?_patterns_of_perm (problem : String) :
    (ofIssues xs).patterns.get? problem = (ofIssues ys).patterns.get? problem := by
  rw [get?_patterns, get?_patterns, h.countP_eq]

end Perm

theorem exitStatus_mono {a b : Report} (h : a.summary.verdict = .fail → b.summary.verdict = .fail) :
    a.exitStatus ≤ b.exitStatus := by
  rw [exitStatus, exitStatus]
  cases ha : a.summary.verdict with
  | fail => rw [h ha]
  | passWithWarnings => exact Nat.zero_le _

/-- One more list of issues takes nothing back. -/
theorem within_append (xs ys : List Issue) : (ofIssues xs).Within (ofIssues (xs ++ ys)) := by
  have hsummary := summary_append xs ys
  refine ⟨?_, ?_, ?_, ?_, ?_, ?_, ?_⟩
  · rw [hsummary]
    exact Nat.le_add_right _ _
  · rw [hsummary]
    exact Nat.le_add_right _ _
  · rw [hsummary]
    exact Nat.le_add_right _ _
  · rw [hsummary]
    exact Nat.le_add_right _ _
  · rw [files_eq_card, files_eq_card, List.map_append, List.toFinset_append]
    exact Finset.card_le_card Finset.subset_union_left
  · intro problem
    rw [count_ofIssues, count_ofIssues, List.countP_append]
    exact Nat.le_add_right _ _
  · exact exitStatus_mono fun hfail => (verdict_append_eq_fail_iff xs ys).mpr (Or.inl hfail)

/-- Along files that are audited one after another the report only grows. -/
theorem within_flatten_append (blocks more : List (List Issue)) :
    (ofIssues blocks.flatten).Within (ofIssues (blocks ++ more).flatten) := by
  rw [List.flatten_append]
  exact within_append blocks.flatten more.flatten

/-- A report of issues that were found one list after the other is the merge of the two reports. So
while files are added no count falls and no failed audit passes again, and the order of the two
lists has no say in the counts. -/
theorem ofIssues_append (xs ys : List Issue) :
    ofIssues (xs ++ ys) = (ofIssues xs).merge (ofIssues ys) ∧
    (∀ file, (ofIssues (xs ++ ys)).byFile.get? file =
      Option.merge (· ++ ·) ((ofIssues xs).byFile.get? file) ((ofIssues ys).byFile.get? file)) ∧
    (ofIssues (xs ++ ys)).byFile.keys = (ofIssues xs).byFile.keys ++
      (ofIssues ys).byFile.keys.filter (· ∉ (ofIssues xs).byFile.keys) ∧
    (∀ problem, (ofIssues (xs ++ ys)).patterns.get? problem = Option.merge (· + ·)
      ((ofIssues xs).patterns.get? problem) ((ofIssues ys).patterns.get? problem)) ∧
    (ofIssues (xs ++ ys)).patterns.keys = (ofIssues xs).patterns.keys ++
      (ofIssues ys).patterns.keys.filter (· ∉ (ofIssues xs).patterns.keys) ∧
    ((ofIssues (xs ++ ys)).summary.verdict = .fail ↔
      (ofIssues xs).summary.verdict = .fail ∨ (ofIssues ys).summary.verdict = .fail) ∧
    (∀ blocks more : List (List Issue),
      (ofIssues blocks.flatten).Within (ofIssues (blocks ++ more).flatten)) ∧
    (ofIssues (xs ++ ys)).summary = (ofIssues (ys ++ xs)).summary ∧
    ∀ problem, (ofIssues (xs ++ ys)).patterns.get? problem =
      (ofIssues (ys ++ xs)).patterns.get? problem := by
  have hbyFile := byFile_append xs ys
  have hpatterns := patterns_append xs ys
  refine ⟨ofIssues_append_eq_merge xs ys, ?_, ?_, ?_, ?_, verdict_append_eq_fail_iff xs ys,
    within_flatten_append, summary_of_perm List.perm_append_comm,
    get?_patterns_of_perm List.perm_append_comm⟩
  · intro file
    rw [hbyFile, Grouping.get?_merge]
  · rw [hbyFile, Grouping.keys_merge]
  · intro problem
    rw [hpatterns, Grouping.get?_merge]
  · rw [hpatterns, Grouping.keys_merge]

end Report

end MarkupAudit
