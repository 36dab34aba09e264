import MarkupAudit.Proofs.IssueLocation
import MarkupAudit.Proofs.Pattern.LineEnd
import MarkupAudit.Proofs.Selection

/-!
The ends of lines play no part in an audit. With a carriage return before every newline all matches
move, but they stay in their order (`Match.resume_le_iff`) and in their lines; the lines themselves
are the same, and so are all issues (`content_withReturns`).
-/

namespace MarkupAudit

open Text (Returned byteLength lineAt withReturns)

namespace Text

theorem one_le_byteLength {s t passed : List Char} (h : s = passed ++ t)
    (hne : s.head? ≠ t.head?) : 1 ≤ byteLength passed := by
  cases passed with
  | nil => exact absurd (congrArg List.head? h) hne
  | cons c passed =>
    have hpos := c.utf8Size_pos
    rw [byteLength_cons]
    omega

/-- Between the return and its newline there is one byte less ahead than before both. -/
theorem Returned.byteLength {s s' : List Char} (h : Returned s s') :
    byteLength s' = byteLength s + s.count '\n' ∨
      byteLength s' + 1 = byteLength s + s.count '\n' ∧ s.head? = some '\n' := by
  rcases h with rfl | ⟨rest, rfl, rfl⟩
  · exact Or.inl (byteLength_withReturns s)
  · right
    have hsize : '\n'.utf8Size = 1 := rfl
    rw [byteLength_cons, byteLength_cons, byteLength_withReturns, List.count_cons_self]
    exact ⟨by omega, rfl⟩

end Text

/-- Places keep their order when returns come in, unless the later one stands before a newline. -/
theorem Cursor.offset_le_iff_of_returned {text : List Char} {a b a' b' : Cursor} (ha : a.In text)
    (hb : b.In text) (ha' : a'.In (withReturns text)) (hb' : b'.In (withReturns text))
    (h : Returned a.rest a'.rest) (hrest : b'.rest = withReturns b.rest)
    (hne : b.rest.head? ≠ some '\n') : a.offset ≤ b.offset ↔ a'.offset ≤ b'.offset := by
  have hoffset := offset_add_byteLength ha
  have hoffset' := offset_add_byteLength ha'
  have hend := offset_add_byteLength hb
  have hend' := offset_add_byteLength hb'
  rw [hrest, Text.byteLength_withReturns] at hend'
  -- All places are told by what is ahead of them, and that is compared by what lies between.
  have hnewlines : ∀ passed : List Char, passed.count '\n' ≤ byteLength passed :=
    fun passed => Nat.le_trans List.count_le_length (Text.length_le_byteLength passed)
  rcases le_or_le ha hb with ⟨passed, hr, _⟩ | ⟨passed, hr, _⟩
  · have hbytes := congrArg byteLength hr
    have hcount := congrArg (List.count '\n') hr
    rw [Text.byteLength_append] at hbytes
    rw [List.count_append] at hcount
    rcases h.byteLength with hahead | ⟨hahead, hhead⟩
    · omega
    · have hpassed := Text.one_le_byteLength hr (hhead ▸ hne.symm)
      omega
  · have hbytes := congrArg byteLength hr
    have hcount := congrArg (List.count '\n') hr
    rw [Text.byteLength_append] at hbytes
    rw [List.count_append] at hcount
    rcases h.byteLength with hahead | ⟨hahead, hhead⟩
    · have hpassed := hnewlines passed
      omega
    · have hpassed := Text.one_le_byteLength hr (hhead ▸ hne)
      omega

/-- The second match is where the first one is when returns come in. -/
structure Match.Moved (text : List Char) (found found' : Match) : Prop where
  start_in : found.start.In text
  start_in' : found'.start.In (withReturns text)
  forward : found.start ≤ found.stop
  forward' : found'.start ≤ found'.stop
  start : found'.start.rest = withReturns found.start.rest
  not_newline : found.start.rest.head? ≠ some '\n'
  stop : Returned found.stop.rest found'.stop.rest

namespace Match

variable {text : List Char} {found found' other other' : Match}

/-- A search goes on before a later match in one text just when it does in the other. -/
theorem resume_le_iff (h : Moved text found found') (ho : Moved text other other') :
    found.resume ≤ other.start.offset ↔ found'.resume ≤ other'.start.offset := by
  have hstop := Cursor.offset_le_iff_of_returned (Cursor.le_trans h.start_in h.forward)
    ho.start_in (Cursor.le_trans h.start_in' h.forward') ho.start_in' h.stop ho.start ho.not_newline
  have hstart := Cursor.offset_le_iff_of_returned ho.start_in h.start_in ho.start_in' h.start_in'
    (Or.inl ho.start) h.start h.not_newline
  rw [resume, resume, Nat.max_le, Nat.max_le]
  omega

theorem Moved.lineAt (h : Moved text found found') :
    lineAt (withReturns text) found'.start.offset = lineAt text found.start.offset := by
  obtain ⟨before, htext, hoffset⟩ := Cursor.exists_before h.start_in
  obtain ⟨before', htext', hoffset'⟩ := Cursor.exists_before h.start_in'
  have hbefore : before' = withReturns before := by
    rw [h.start, htext, Text.withReturns_append] at htext'
    exact (List.append_cancel_right htext').symm
  rw [htext', hoffset', Text.lineAt_append, hbefore, Text.count_withReturns, hoffset, htext,
    Text.lineAt_append]

end Match

namespace Matcher

variable {m : Matcher}

theorem candidatesFrom_eq_of_none {n : Nat} {c : Char} {rest : List Char}
    (h : m.matchAt ⟨n, c :: rest⟩ = none) :
    m.candidatesFrom ⟨n, c :: rest⟩ = m.candidatesFrom ⟨n + c.utf8Size, rest⟩ := by
  rw [candidatesFrom_cons, h]
  rfl

/-- The matches of the two texts correspond, since none begins at the end of a line. -/
theorem candidatesFrom_withReturns (hm : m.Respects Returned)
    (hrefuses : ∀ next ∈ [none, some '\n', some '\r'], m.refuses next = true) {text : List Char}
    {n n' : Nat} {rest : List Char} (hin : (⟨n, rest⟩ : Cursor).In text)
    (hin' : (⟨n', withReturns rest⟩ : Cursor).In (withReturns text)) :
    List.Forall₂ (Match.Moved text) (m.candidatesFrom ⟨n, rest⟩)
      (m.candidatesFrom ⟨n', withReturns rest⟩) := by
  have hnone : ∀ (n : Nat) (rest : List Char),
      rest.head? ∈ [none, some '\n', some '\r'] → m.matchAt ⟨n, rest⟩ = none :=
    fun n rest h => matchAt_of_refuses (hrefuses _ h)
  induction rest generalizing n n' with
  | nil =>
    have hempty : ∀ n, m.candidatesFrom ⟨n, []⟩ = [] := by
      intro n
      rw [candidatesFrom, List.filterMap_eq_nil_iff]
      intro place hp
      rw [Cursor.eq_of_le_end (Cursor.mem_onward.mp hp), hnone _ _ (by simp)]
      rfl
    rw [show withReturns [] = [] from rfl, hempty, hempty]
    exact .nil
  | cons c rest ih =>
    have hnext := Cursor.le_trans hin Cursor.le_next
    by_cases hc : c = '\n'
    · subst hc
      rw [Text.withReturns_newline] at hin' ⊢
      have hmiddle := Cursor.le_trans hin' Cursor.le_next
      rw [candidatesFrom_eq_of_none (hnone _ _ (by simp)),
        candidatesFrom_eq_of_none (hnone _ _ (by simp)),
        candidatesFrom_eq_of_none (hnone _ _ (by simp))]
      exact ih hnext (Cursor.le_trans hmiddle Cursor.le_next)
    · have hrest := Text.withReturns_cons hc rest
      rw [hrest] at hin' ⊢
      rw [candidatesFrom_cons, candidatesFrom_cons]
      refine List.rel_append ?_ (ih hnext (Cursor.le_trans hin' Cursor.le_next))
      apply forall₂_match_here hm (Or.inl hrest.symm)
      intro stop stop' hle hle' hstop
      exact ⟨hin, hin', hle, hle', hrest.symm, by simpa using hc, hstop⟩

theorem select_withReturns (hm : m.Respects Returned)
    (hrefuses : ∀ next ∈ [none, some '\n', some '\r'], m.refuses next = true) (text : List Char) :
    List.Forall₂ (Match.Moved text) (Match.select 0 (m.candidates text))
      (Match.select 0 (m.candidates (withReturns text))) := by
  rw [candidates_eq_from, candidates_eq_from]
  apply Match.select_forall₂ fun _ _ _ _ => Match.resume_le_iff
  · exact candidatesFrom_withReturns hm hrefuses (Cursor.le_refl _) (Cursor.le_refl _)
  · simp

end Matcher

namespace Scan

theorem withRule_withReturns (file : String) {text : List Char} (h : ¬['\r', '\n'] <:+: text)
    {rule : Rule} (hr : rule ∈ Catalogue.rules) :
    withRule file (withReturns text) rule = withRule file text rule := by
  have hmatches := Matcher.select_withReturns (Catalogue.respects_returned hr)
    (Catalogue.refuses_line_end rule hr) text
  rw [withRule, withRule, Matcher.findAll, Matcher.findAll, List.map_map, List.map_map,
    Text.lines_withReturns h, ← List.forall₂_eq_eq_eq, List.forall₂_map_left_iff,
    List.forall₂_map_right_iff]
  apply hmatches.flip.imp
  intro found' found hmoved
  change issueAt rule file (withReturns text) _ found'.start.offset =
    issueAt rule file text _ found.start.offset
  rw [issueAt, issueAt, hmoved.lineAt]

/-- A text in which no carriage return stands before a newline has the same issues, to the letter,
when one is put before every newline. -/
theorem content_withReturns (file : String) (text : List Char) (h : ¬['\r', '\n'] <:+: text) :
    content file (withReturns text) = content file text := by
  apply List.flatMap_congr
  intro rule hr
  exact withRule_withReturns file h hr

/-- Newlines in a tag and between headings, with a lone return behind one of them. -/
theorem content_withReturns_tags :
    ¬['\r', '\n'] <:+: "<img\n\rsrc=a\n>\n<h1>a</h1>\n\n<h3>".toList ∧
    content "a.html" "<img\r\n\rsrc=a\r\n>\r\n<h1>a</h1>\r\n\r\n<h3>".toList =
      content "a.html" "<img\n\rsrc=a\n>\n<h1>a</h1>\n\n<h3>".toList ∧
    (content "a.html" "<img\n\rsrc=a\n>\n<h1>a</h1>\n\n<h3>".toList).map
      (fun issue => (issue.rule, issue.line)) = [("missing_alt", 1), ("heading_skip", 4)] := by
  have h : ¬['\r', '\n'] <:+: "<img\n\rsrc=a\n>\n<h1>a</h1>\n\n<h3>".toList := by
    decide +kernel
  have hreturns : withReturns "<img\n\rsrc=a\n>\n<h1>a</h1>\n\n<h3>".toList =
      "<img\r\n\rsrc=a\r\n>\r\n<h1>a</h1>\r\n\r\n<h3>".toList := by
    decide +kernel
  have hsame := content_withReturns "a.html" _ h
  rw [hreturns] at hsame
  refine ⟨h, hsame, ?_⟩
  decide +kernel

end Scan

end MarkupAudit
