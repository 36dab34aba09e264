import MarkupAudit.Proofs.Pattern.First
import MarkupAudit.Proofs.Text.Line
import MarkupAudit.Scan
import Mathlib.Data.List.Forall2

/-!
Where the issues of a text are. A scan gives one issue for each match of each rule, in the order of
the catalogue and then of the text. The line of an issue is the line that the match begins in, and
its snippet is that line with its neighbours (`Locates`), whatever ends the lines.
-/

namespace MarkupAudit

namespace Text

/-- The lines from one number to another, both counted from one. -/
def numbered (first last : Nat) (lines : List (List Char)) : List (List Char) :=
  (lines.take last).drop (first - 1)

theorem newlinesBefore_mono (text : List Char) {a b : Nat} (h : a ≤ b) :
    newlinesBefore a text ≤ newlinesBefore b text := by
  induction text generalizing a b with
  | nil => exact Nat.le_refl _
  | cons c rest ih =>
    by_cases ha : a = 0
    · rw [newlinesBefore, if_pos ha]
      exact Nat.zero_le _
    · have hb : b ≠ 0 := by omega
      rw [newlinesBefore, newlinesBefore, if_neg ha, if_neg hb]
      exact Nat.add_le_add_left (ih (by omega)) _

theorem lineAt_mono (text : List Char) {a b : Nat} (h : a ≤ b) : lineAt text a ≤ lineAt text b :=
  Nat.add_le_add_right (newlinesBefore_mono text h) 1

theorem around_eq_numbered (lines : List (List Char)) {number : Nat} (h : 1 ≤ number) :
    around lines number =
      numbered (max 1 (number - 1)) (min (number + 1) lines.length) lines := by
  have hfirst : max 1 (number - 1) - 1 = number - 2 := by omega
  rw [around, numbered, hfirst, List.take_eq_take_min]

theorem mem_around {lines : List (List Char)} {number : Nat} {line : List Char} (h : 1 ≤ number)
    (hl : lines[number - 1]? = some line) : line ∈ around lines number := by
  apply List.mem_of_getElem? (i := number - 1 - (number - 2))
  have hindex : number - 2 + (number - 1 - (number - 2)) = number - 1 := by omega
  rw [around, List.getElem?_drop, hindex, List.getElem?_take_of_lt (by omega)]
  exact hl

end Text

namespace Scan

open Text (byteLength lines numbered unlines)

/-- What an issue tells of a match of a rule: the line where the match begins, and the lines around
it. `front` is what comes before that line, and `column` what comes before the match in it. -/
structure Locates (file : String) (text : List Char) (rule : Rule) (span : Span) (issue : Issue) :
    Prop where
  of_rule : issue = Issue.ofRule rule file issue.line issue.snippet
  not_empty : span.start < span.stop
  place : ∃ front column c behind, text = front ++ column ++ c :: behind ∧
    byteLength (front ++ column) = span.start ∧
    (front = [] ∨ front.getLast? = some '\n') ∧ '\n' ∉ column ∧
    issue.line = 1 + (front ++ column).count '\n' ∧
    byteLength column = span.start - byteLength front ∧
    ∃ tail, (lines text)[issue.line - 1]? = some (column ++ c :: tail)
  one_le : 1 ≤ issue.line
  le_count : issue.line ≤ (lines text).length
  snippet_eq : issue.snippet = String.ofList (unlines (numbered (max 1 (issue.line - 1))
    (min (issue.line + 1) (lines text).length) (lines text)))
  shown : ∀ line, (lines text)[issue.line - 1]? = some line →
    line ∈ numbered (max 1 (issue.line - 1)) (min (issue.line + 1) (lines text).length) (lines text)

variable {file : String} {text : List Char} {rule : Rule}

theorem locates_issueAt (file : String) {span : Span} (h : rule ∈ Catalogue.rules)
    (hs : span ∈ rule.matcher.findAll text) :
    Locates file text rule span (issueAt rule file text (lines text) span.start) := by
  obtain ⟨cur, stop, ⟨before, htext, hoffset⟩, hm, rfl⟩ := Matcher.exists_of_mem_findAll hs
  obtain ⟨c, behind, hrest, hnewline, hreturn⟩ := Catalogue.exists_first h hm
  obtain ⟨front, column, rfl, hfront, hcolumn⟩ := Text.exists_column before
  have htext : text = front ++ column ++ c :: behind := hrest ▸ htext
  have hbytes : byteLength (front ++ column) = cur.offset := by
    rw [hoffset]
    exact (Nat.zero_add _).symm
  have hcount : (front ++ column).count '\n' = front.count '\n' := by
    rw [List.count_append, List.count_eq_zero_of_not_mem hcolumn, Nat.add_zero]
  have hline : Text.lineAt text cur.offset = front.count '\n' + 1 := by
    rw [htext, ← hbytes, Text.lineAt_append, hcount]
  obtain ⟨tail, htail⟩ : ∃ tail, (lines text)[front.count '\n']? = some (column ++ c :: tail) := by
    rw [htext]
    exact Text.getElem?_lines hfront hcolumn ⟨hnewline, fun _ hr => absurd hr hreturn⟩
  obtain ⟨hlt, _⟩ := List.getElem?_eq_some_iff.mp htail
  have hsnippet := Text.around_eq_numbered (lines text) (Nat.le_add_left 1 (front.count '\n'))
  have hissue : issueAt rule file text (lines text) cur.offset = Issue.ofRule rule file
      (front.count '\n' + 1)
      (String.ofList (unlines (Text.around (lines text) (front.count '\n' + 1)))) := by
    rw [issueAt, hline]
  rw [hissue]
  refine ⟨rfl, Catalogue.offset_lt h hm, ?_, Nat.le_add_left 1 _, hlt, ?_, ?_⟩
  · refine ⟨front, column, c, behind, htext, hbytes, hfront, hcolumn, ?_, ?_, tail, htail⟩
    · rw [hcount, Nat.add_comm]
      rfl
    · rw [← hbytes, Text.byteLength_append, Nat.add_sub_cancel_left]
  · exact congrArg (fun shown => String.ofList (unlines shown)) hsnippet
  · intro line hl
    have hmem := Text.mem_around (Nat.le_add_left 1 (front.count '\n')) hl
    rw [hsnippet] at hmem
    exact hmem

/-- The matches of the rules in a text, by the place of the rule in the catalogue. -/
def allFound (text : List Char) : List (Nat × Rule × Span) :=
  Catalogue.rules.zipIdx.flatMap fun entry =>
    (entry.1.matcher.findAll text).map fun span => (entry.2, entry.1, span)

theorem mem_allFound {found : Nat × Rule × Span} : found ∈ allFound text ↔
    Catalogue.rules[found.1]? = some found.2.1 ∧ found.2.2 ∈ found.2.1.matcher.findAll text := by
  obtain ⟨position, rule, span⟩ := found
  simp only [allFound, List.mem_flatMap, List.mem_map, Prod.mk.injEq, Prod.exists,
    List.mem_zipIdx_iff_getElem?]
  constructor
  · rintro ⟨rule', position', hr, span', hs, rfl, rfl, rfl⟩
    exact ⟨hr, hs⟩
  · intro h
    exact ⟨rule, position, h.1, span, h.2, rfl, rfl, rfl⟩

theorem pairwise_allFound (text : List Char) : (allFound text).Pairwise fun a b =>
    a.1 < b.1 ∨ a.1 = b.1 ∧ a.2.2.start < b.2.2.start := by
  have hpositions : Catalogue.rules.zipIdx.Pairwise (·.2 < ·.2) := by
    rw [← List.pairwise_map, List.zipIdx_map_snd]
    exact List.pairwise_lt_range'
  rw [allFound, List.pairwise_flatMap]
  constructor
  · intro entry _
    rw [List.pairwise_map]
    exact (Matcher.pairwise_findAll _ _).imp fun h => Or.inr ⟨rfl, h⟩
  · apply hpositions.imp
    intro first second hlt a ha b hb
    obtain ⟨_, _, rfl⟩ := List.mem_map.mp ha
    obtain ⟨_, _, rfl⟩ := List.mem_map.mp hb
    exact Or.inl hlt

theorem content_eq_map (file : String) (text : List Char) :
    content file text = (allFound text).map fun found =>
      issueAt found.2.1 file text (lines text) found.2.2.start := by
  have hrules : Catalogue.rules = Catalogue.rules.zipIdx.map (·.1) :=
    (List.zipIdx_map_fst 0 _).symm
  rw [content, hrules, List.flatMap_map, allFound, List.map_flatMap]
  simp only [withRule, List.map_map, Function.comp_def]

theorem nodup_rule_names : (Catalogue.rules.map (·.name)).Nodup := by decide

theorem pairwise_lines (file : String) (text : List Char) :
    (content file text).Pairwise fun a b => a.rule = b.rule → a.line ≤ b.line := by
  have hnames : Catalogue.rules.Pairwise (·.name ≠ ·.name) :=
    List.pairwise_map.mp nodup_rule_names
  rw [content, List.pairwise_flatMap]
  constructor
  · intro rule _
    rw [withRule, List.pairwise_map]
    apply (Matcher.pairwise_findAll _ _).imp
    intro a b hlt _
    exact Text.lineAt_mono text (Nat.le_of_lt hlt)
  · apply hnames.imp
    intro first second hne a ha b hb hsame
    obtain ⟨_, _, rfl⟩ := List.mem_map.mp ha
    obtain ⟨_, _, rfl⟩ := List.mem_map.mp hb
    exact absurd hsame hne

/-- A scan gives an issue for each match of each rule, in the order of the catalogue and then of the
text, and each issue tells where its match is. -/
theorem content_locates_matches (file : String) (text : List Char) :
    (∃ found : List (Nat × Span),
      found.Pairwise (fun a b => a.1 < b.1 ∨ a.1 = b.1 ∧ a.2.start < b.2.start) ∧
      (∀ position span, (position, span) ∈ found ↔ ∃ rule,
        Catalogue.rules[position]? = some rule ∧ span ∈ rule.matcher.findAll text) ∧
      List.Forall₂ (fun place issue => ∃ rule, Catalogue.rules[place.1]? = some rule ∧
        Locates file text rule place.2 issue) found (content file text)) ∧
    (content file text).Pairwise fun a b => a.rule = b.rule → a.line ≤ b.line := by
  refine ⟨⟨(allFound text).map fun found => (found.1, found.2.2), ?_, ?_, ?_⟩,
    pairwise_lines file text⟩
  · exact List.pairwise_map.mpr (pairwise_allFound text)
  · intro position span
    rw [List.mem_map]
    constructor
    · intro h
      obtain ⟨⟨_, rule, _⟩, hf, heq⟩ := h
      cases heq
      exact ⟨rule, mem_allFound.mp hf⟩
    · intro h
      obtain ⟨rule, hr, hs⟩ := h
      exact ⟨(position, rule, span), mem_allFound.mpr ⟨hr, hs⟩, rfl⟩
  · rw [content_eq_map, List.forall₂_map_left_iff, List.forall₂_map_right_iff, List.forall₂_same]
    intro found hf
    obtain ⟨hr, hs⟩ := mem_allFound.mp hf
    exact ⟨found.2.1, hr, locates_issueAt file (List.mem_of_getElem? hr) hs⟩

end Scan

end MarkupAudit
