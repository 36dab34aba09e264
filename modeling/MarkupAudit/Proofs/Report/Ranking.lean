import MarkupAudit.Proofs.Report.Partition

/-!
The most frequent kinds of problem. All kinds of a report have one ranking: by falling count, and
among kinds of one count by where they were first found (`pairwise_ranking`). The most frequent ones
are the beginning of this ranking, wherever it is cut off, so what is left out is ranked behind all
that is told.
-/

namespace MarkupAudit.Report

/-- Sorting leaves items that could stand either way in the order in which they were. -/
theorem pairwise_mergeSort_of_tied {α : Type} {le : α → α → Bool} {before : α → α → Prop}
    (htrans : ∀ a b c, le a b = true → le b c = true → le a c = true)
    (htotal : ∀ a b, (le a b || le b a) = true) {items : List α} (h : items.Pairwise before) :
    (items.mergeSort le).Pairwise fun a b => le b a = true → before a b := by
  induction items with
  | nil =>
    rw [List.mergeSort_nil]
    exact .nil
  | cons item items ih =>
    rw [List.pairwise_cons] at h
    -- The first item is put in behind items that have to stand before it.
    obtain ⟨front, back, hsorted, hrest, hfront⟩ := List.mergeSort_cons htrans htotal item items
    have hmore := ih h.2
    rw [hrest, List.pairwise_append] at hmore
    obtain ⟨hinFront, hinBack, hacross⟩ := hmore
    have hback : ∀ other ∈ back, other ∈ items := by
      intro other ho
      have hmem : other ∈ items.mergeSort le := hrest ▸ List.mem_append_right front ho
      exact List.mem_mergeSort.mp hmem
    rw [hsorted, List.pairwise_append, List.pairwise_cons]
    refine ⟨hinFront, ⟨fun other ho _ => h.1 other (hback other ho), hinBack⟩, ?_⟩
    intro a ha b hb htied
    rcases List.mem_cons.mp hb with rfl | hb
    · have hnot := hfront a ha
      rw [htied] at hnot
      cases hnot
    · exact hacross a ha b hb htied

/-- Where a kind of problem was first found. -/
def firstFound (issues : List Issue) (problem : String) : Nat :=
  (issues.map (·.problem)).idxOf problem

/-- A kind with its count has the better rank. -/
def Outranks (issues : List Issue) (a b : String × Nat) : Prop :=
  b.2 ≤ a.2 ∧ (a.2 = b.2 → firstFound issues a.1 < firstFound issues b.1)

def ranking (issues : List Issue) : List (String × Nat) :=
  (ofIssues issues).patterns.mergeSort fun a b => b.2 ≤ a.2

variable {issues : List Issue}

theorem topPatterns_eq (issues : List Issue) (limit : Nat) :
    (ofIssues issues).topPatterns limit = (ranking issues).take limit := rfl

theorem ranking_perm (issues : List Issue) :
    (ranking issues).Perm (ofIssues issues).patterns := List.mergeSort_perm ..

theorem nodup_ranking (issues : List Issue) : ((ranking issues).map (·.1)).Nodup :=
  ((ranking_perm issues).map _).nodup_iff.mpr (nodup_keys_patterns issues)

theorem length_ranking (issues : List Issue) :
    (ranking issues).length = (issues.map (·.problem)).toFinset.card := by
  rw [(ranking_perm issues).length_eq, ← (firstSeen_patterns issues).length_eq_card, Grouping.keys,
    List.length_map]

theorem pairwise_ranking (issues : List Issue) : (ranking issues).Pairwise (Outranks issues) := by
  have htrans : ∀ a b c : String × Nat, decide (b.2 ≤ a.2) = true → decide (c.2 ≤ b.2) = true →
      decide (c.2 ≤ a.2) = true := by
    intro a b c hab hbc
    rw [decide_eq_true_eq] at *
    omega
  have htotal : ∀ a b : String × Nat, (decide (b.2 ≤ a.2) || decide (a.2 ≤ b.2)) = true := by
    intro a b
    rw [Bool.or_eq_true, decide_eq_true_eq, decide_eq_true_eq]
    omega
  have hfound := List.pairwise_map.mp (firstSeen_patterns issues).ordered
  have hfalling := List.pairwise_mergeSort htrans htotal (ofIssues issues).patterns
  have htied := pairwise_mergeSort_of_tied htrans htotal hfound
  apply (hfalling.and htied).imp
  intro a b hab
  obtain ⟨hle, hfirst⟩ := hab
  refine ⟨of_decide_eq_true hle, ?_⟩
  intro heq
  exact hfirst (decide_eq_true heq.le)

theorem ranking_entry {entry : String × Nat} (h : entry ∈ ranking issues) :
    entry.1 ∈ issues.map (·.problem) ∧ entry.2 = issues.countP (·.problem = entry.1) := by
  have hmem := (ranking_perm issues).mem_iff.mp h
  exact ⟨((firstSeen_patterns issues).mem_iff entry.1).mp (List.mem_map_of_mem hmem),
    (patterns_entry hmem).1⟩

theorem mem_ranking {problem : String} (h : problem ∈ issues.map (·.problem)) :
    (problem, issues.countP (·.problem = problem)) ∈ ranking issues := by
  have hkey := ((firstSeen_patterns issues).mem_iff problem).mpr h
  obtain ⟨entry, hmem, rfl⟩ := List.mem_map.mp hkey
  obtain ⟨hcount, _⟩ := patterns_entry hmem
  rw [← hcount]
  exact (ranking_perm issues).mem_iff.mpr hmem

/-- What is left out stands behind all that is told. -/
theorem outranks_of_not_mem_topPatterns {limit : Nat} {problem : String}
    (h : problem ∈ issues.map (·.problem))
    (hout : problem ∉ ((ofIssues issues).topPatterns limit).map (·.1)) {entry : String × Nat}
    (hentry : entry ∈ (ofIssues issues).topPatterns limit) :
    Outranks issues entry (problem, issues.countP (·.problem = problem)) := by
  rw [topPatterns_eq] at hout hentry
  have hall := pairwise_ranking issues
  rw [← List.take_append_drop limit (ranking issues), List.pairwise_append] at hall
  obtain ⟨_, _, hacross⟩ := hall
  have hmem := mem_ranking h
  rw [← List.take_append_drop limit (ranking issues), List.mem_append] at hmem
  rcases hmem with htop | hrest
  · exact absurd (List.mem_map_of_mem htop) hout
  · exact hacross entry hentry _ hrest

/-- The most frequent kinds of problem: as many as there are up to the limit, each once and with its
number of issues, by falling count and then by where they were first found. A kind that is left out
has no better rank, and a higher limit only adds kinds at the end. -/
theorem topPatterns_ranked (issues : List Issue) (limit : Nat) :
    let count := fun problem => issues.countP (·.problem = problem)
    let first := (issues.map (·.problem)).idxOf
    let top := (ofIssues issues).topPatterns limit
    top.length = min limit (issues.map (·.problem)).toFinset.card ∧
    (top.map (·.1)).Nodup ∧
    (∀ entry ∈ top, entry.1 ∈ issues.map (·.problem) ∧ entry.2 = count entry.1) ∧
    top.Pairwise (fun a b => b.2 ≤ a.2) ∧
    top.Pairwise (fun a b => a.2 = b.2 → first a.1 < first b.1) ∧
    (∀ problem ∈ issues.map (·.problem), problem ∉ top.map (·.1) → ∀ entry ∈ top,
      count problem ≤ entry.2 ∧ (count problem = entry.2 → first entry.1 < first problem)) ∧
    ∀ more, top <+: (ofIssues issues).topPatterns (limit + more) := by
  have hsub : ((ofIssues issues).topPatterns limit).Sublist (ranking issues) :=
    List.take_sublist limit _
  have hranked := (pairwise_ranking issues).sublist hsub
  refine ⟨?_, (nodup_ranking issues).sublist (hsub.map _), ?_, hranked.imp (·.1), hranked.imp (·.2),
    ?_, ?_⟩
  · rw [topPatterns_eq, List.length_take, length_ranking]
  · intro entry hentry
    exact ranking_entry (hsub.subset hentry)
  · intro problem h hout entry hentry
    obtain ⟨hle, hfirst⟩ := outranks_of_not_mem_topPatterns h hout hentry
    exact ⟨hle, fun heq => hfirst heq.symm⟩
  · intro more
    exact List.take_prefix_take_left (Nat.le_add_right limit more)

/-- Two kinds of problem that are equally frequent, and one that is rarer. -/
def tied : List Issue := ["b", "a", "c", "a", "b"].map fun problem =>
  ⟨"", "", 1, .minor, "", problem, "", "", ""⟩

theorem topPatterns_ranked_tied :
    (ofIssues tied).topPatterns 1 = [("b", 2)] ∧ tied.countP (·.problem = "a") = 2 ∧
    (tied.map (·.problem)).idxOf "b" < (tied.map (·.problem)).idxOf "a" := by
  have hpatterns : (ofIssues tied).patterns = [("b", 2), ("a", 2), ("c", 1)] := by decide
  have htop : (ofIssues tied).topPatterns 1 = [("b", 2)] := by
    rw [topPatterns, hpatterns, List.mergeSort_of_pairwise (by decide)]
    rfl
  have hcount : tied.countP (·.problem = "a") = 2 := by decide
  obtain ⟨-, -, -, -, -, hout, -⟩ := topPatterns_ranked tied 1
  rw [htop] at hout
  obtain ⟨-, hfirst⟩ := hout "a" (by decide) (by decide) ("b", 2) List.mem_cons_self
  exact ⟨htop, hcount, hfirst hcount⟩

end MarkupAudit.Report
