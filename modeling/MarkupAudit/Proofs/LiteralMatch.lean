import MarkupAudit.Proofs.CompleteSearch
import MarkupAudit.Proofs.HeadingSkip.Loop
import MarkupAudit.Proofs.Pattern.Reading
import Mathlib.Data.List.Pairwise
import Mathlib.Data.List.TakeWhile

/-!
Rules whose matches say nothing but a few words. Two matches of such a rule do not overlap, so each of
them is reported (`findAll_eq_everywhere`): none hides another. Only the matches of one rule can meet,
where the closing bracket of a link is the opening one of the next; there the second is left out
exactly when the first is reported (`literal_matches_complete`).
-/

namespace MarkupAudit

open Pattern Catalogue
open Matcher (plain matchAt_plain matchAt_concat_split mem_reach_of_matchAt)

namespace Cursor

/-- The place behind a quotation mark, if there is one. -/
def skipQuote (cur : Cursor) : Cursor := cur.quote?.getD cur

/-- What passes one class is refused by another that shares no character with it. -/
theorem pass?_eq_none {accepts other : Char → Bool} (h : ∀ c, accepts c = true → other c = false)
    {cur : Cursor} (hcur : Pattern.passes accepts cur = true) : cur.pass? other = none := by
  obtain ⟨n, rest⟩ := cur
  cases rest with
  | nil => cases hcur
  | cons c rest =>
    rw [passes_cons] at hcur
    rw [pass?, passes_cons, h c hcur, if_neg Bool.false_ne_true]

theorem passes_of_pass? {accepts : Char → Bool} {cur stop : Cursor}
    (h : cur.pass? accepts = some stop) : Pattern.passes accepts cur = true := by
  rw [pass?] at h
  split at h
  · assumption
  · cases h

theorem pass?_eq_none_of_quote? {other : Char → Bool} (hdouble : other '"' = false)
    (hsingle : other '\'' = false) {cur stop : Cursor} (h : cur.quote? = some stop) :
    cur.pass? other = none := by
  refine pass?_eq_none ?_ (passes_of_pass? h)
  intro c hc
  rcases List.mem_pair.mp (List.contains_iff_mem.mp hc) with rfl | rfl
  · exact hdouble
  · exact hsingle

/-- The stretches from all places of a text from which a reader reads, from left to right. -/
def everywhere (reader : Cursor → Option Cursor) (text : List Char) : List Span :=
  (places text).filterMap fun cur => (reader cur).map fun stop => ⟨cur.offset, stop.offset⟩

end Cursor

/-! ### Nothing is hidden -/

namespace Matcher

variable {m : Matcher}

theorem map_span_candidates (m : Matcher) (text : List Char) :
    (m.candidates text).map (·.span) = Cursor.everywhere m.matchAt text := by
  rw [candidates_eq, Match.among, List.map_filterMap, Cursor.everywhere]
  apply List.filterMap_congr
  intro cur _
  cases m.matchAt cur <;> rfl

/-- Every match is over when another begins. -/
def Apart (m : Matcher) : Prop := ∀ a b stop stop', m.matchAt a = some stop →
  m.matchAt b = some stop' → a ≤ b → a.offset < b.offset → stop.offset ≤ b.offset

/-- Matches that do not overlap are all reported. -/
theorem findAll_eq_everywhere (h : m.Apart) (text : List Char) :
    m.findAll text = Cursor.everywhere m.matchAt text := by
  have hordered : (m.candidates text).Pairwise fun a b => a.resume ≤ b.start.offset := by
    apply (m.pairwise_candidates text).imp_of_mem
    intro a b ha hb hlt
    obtain ⟨hina, ha⟩ := mem_candidates.mp ha
    obtain ⟨hinb, hb⟩ := mem_candidates.mp hb
    have hle := Cursor.le_of_offset_le hina hinb (Nat.le_of_lt hlt)
    have hstop := h a.start b.start a.stop b.stop ha hb hle hlt
    rw [Match.resume]
    omega
  rw [findAll, Match.select_eq_self hordered (fun _ _ => Nat.zero_le _), map_span_candidates]

/-- A match is reported when the search goes on before it from all that is reported earlier. -/
theorem mem_findAll_of_restart_le {text : List Char} {cur stop : Cursor} (hin : cur.In text)
    (hmatch : m.matchAt cur = some stop) (h : ∀ span ∈ m.findAll text, span.start < cur.offset →
      span.restart text ≤ cur.offset) : ⟨cur.offset, stop.offset⟩ ∈ m.findAll text := by
  obtain ⟨found, more, hcut, hfound, hmore⟩ : ∃ found more, m.findAll text = found ++ more ∧
      (∀ span ∈ found, span.start < cur.offset) ∧
      ∀ next, more.head? = some next → ¬next.start < cur.offset := by
    let before : Span → Bool := fun span => decide (span.start < cur.offset)
    refine ⟨_, _, (List.takeWhile_append_dropWhile (p := before)).symm, ?_, ?_⟩
    · intro span hs
      exact of_decide_eq_true (List.mem_takeWhile_imp (p := before) hs)
    · intro next hnext
      have hnot := List.head?_dropWhile_not before (m.findAll text)
      rw [hnext] at hnot
      exact of_decide_eq_false hnot
  have hrestart : Span.restartBehind text found ≤ cur.offset := by
    rw [Span.restartBehind]
    cases hlast : found.getLast? with
    | none => exact Nat.zero_le _
    | some span =>
      have hmem := List.mem_of_getLast? hlast
      exact h span (hcut ▸ List.mem_append_left more hmem) (hfound span hmem)
  by_contra hmissing
  have hnone := matchAt_eq_none_of_before_next hcut hin hrestart
  rw [hmatch] at hnone
  refine absurd (hnone ?_) (Option.some_ne_none stop)
  intro next hnext
  have hstart := hmore next hnext
  have hmem : next ∈ m.findAll text := by
    rw [hcut]
    exact List.mem_append_right found (List.mem_of_head? hnext)
  by_contra hover
  -- Only one stretch begins at a place.
  obtain ⟨place, last, hplace, hlast, rfl⟩ := exists_of_mem_findAll hmem
  simp only at hstart hover
  obtain rfl : cur = place := Cursor.eq_of_offset_eq
    (Cursor.le_of_offset_le hin hplace (by omega)) (by omega)
  rw [hmatch] at hlast
  cases hlast
  exact hmissing hmem

/-- Of two reported stretches one ends before the other begins. -/
theorem stop_le_of_mem_findAll {text : List Char} {span other : Span} (hs : span ∈ m.findAll text)
    (ho : other ∈ m.findAll text) (hne : span ≠ other) :
    span.stop ≤ other.start ∨ other.stop ≤ span.start := by
  have : Std.Symm fun a b : Span => a.stop ≤ b.start ∨ b.stop ≤ a.start := ⟨fun _ _ => Or.symm⟩
  have hapart : (m.findAll text).Pairwise fun a b => a.stop ≤ b.start ∨ b.stop ≤ a.start :=
    (m.pairwise_findAll_apart text).imp fun hab => Or.inl hab.1
  exact hapart.forall hs ho hne

theorem apart_of_leads {p : Pattern} {letter : Char} (h : p.Leads letter) : (plain p).Apart := by
  intro a b stop stop' ha hb hle hlt
  have hhead := h.head b stop' (mem_reach_of_matchAt hb)
  exact Cursor.offset_le (h.le_of_atLetter (mem_reach_of_matchAt ha) hle hlt hhead)

end Matcher

/-! ### What the rules read -/

namespace Pattern

variable {p q r : Pattern} {reader other : Cursor → Option Cursor}

theorem matchAt_of_reads (h : p.Reads reader) (cur : Cursor) :
    (plain p).matchAt cur = reader cur := by
  rw [matchAt_plain, h cur, Option.head?_toList]

theorem Single.matchAt_eq_some_iff (h : p.Single) {a b : Cursor} :
    (plain p).matchAt a = some b ↔ b ∈ p.reach a := by
  constructor
  · exact mem_reach_of_matchAt
  · intro hb
    rw [matchAt_plain]
    cases hreach : p.reach a with
    | nil =>
      rw [hreach] at hb
      cases hb
    | cons c more =>
      have hc : c ∈ p.reach a := by
        rw [hreach]
        exact List.mem_cons_self
      rw [List.head?_cons, h a b c hb hc]

theorem reads_choice {words : List String} (h : words.Pairwise fun word other =>
    ¬word.toList.map Text.fold <+: other.toList.map Text.fold ∧
      ¬other.toList.map Text.fold <+: word.toList.map Text.fold) :
    (choice (words.map literal)).Reads fun cur =>
      words.findSome? fun word => cur.spell? word.toList := by
  induction words with
  | nil => exact fun cur => List.map_eq_nil_iff.mpr rfl
  | cons word words ih =>
    rw [List.pairwise_cons] at h
    intro cur
    rw [List.map_cons, reach_choice_cons, reach_literal, ih h.2]
    beta_reduce
    rw [List.findSome?_cons]
    cases hword : cur.spell? word.toList with
    | none => rfl
    | some stop =>
      -- No other word is spelled at the same place.
      have hnone : (words.findSome? fun word => cur.spell? word.toList) = none := by
        apply List.findSome?_eq_none_iff.mpr
        intro other ho
        apply Option.eq_none_iff_forall_ne_some.mpr
        intro stop' hother
        rcases Cursor.prefix_of_spell? hword hother with hle | hle
        · exact (h.1 other ho).1 hle
        · exact (h.1 other ho).2 hle
      rw [hnone]
      rfl

/-- An optional thing leaves no choice before what cannot begin as it does. -/
theorem reads_optional (hp : p.Reads reader) (hq : q.Reads other)
    (h : ∀ cur stop, reader cur = some stop → other cur = none) :
    (seq (optional p) q).Reads fun cur => other ((reader cur).getD cur) := by
  intro cur
  rw [reach_seq, optional, reach_either, reach_empty, hp cur, List.flatMap_append,
    List.flatMap_singleton, hq cur]
  beta_reduce
  cases hcur : reader cur with
  | none => rfl
  | some stop =>
    rw [h cur stop hcur, Option.toList_some, List.flatMap_singleton, hq stop]
    exact List.append_nil _

theorem head?_reach_optional (p : Pattern) (cur : Cursor) :
    ((optional p).reach cur).head? = some ((p.reach cur).head?.getD cur) := by
  rw [optional, reach_either, reach_empty]
  cases p.reach cur <;> rfl

/-- The last place of a run comes first. -/
theorem exists_reach_run (accepts : Char → Bool) (cur : Cursor) : ∃ more,
    (star (char accepts)).reach cur = cur.skipWhile accepts :: more := by
  obtain ⟨n, rest⟩ := cur
  rw [reach_star_of_step (steps_char accepts)]
  induction rest generalizing n with
  | nil => exact ⟨[], rfl⟩
  | cons c rest ih =>
    rw [Cursor.stretch_cons, List.reverse_cons, passes_cons, Cursor.skipWhile_cons]
    split
    · obtain ⟨more, hmore⟩ := ih (n + c.utf8Size)
      exact ⟨more ++ [⟨n, c :: rest⟩], by rw [hmore, List.cons_append]⟩
    · exact ⟨[], rfl⟩

/-- A run is taken as far as it goes when what comes behind it can be left out. -/
theorem head?_reach_run_optional {accepts : Char → Bool} (hp : p.Reads reader) (cur : Cursor) :
    ((seq (star (char accepts)) (optional p)).reach cur).head? =
      some ((reader (cur.skipWhile accepts)).getD (cur.skipWhile accepts)) := by
  obtain ⟨more, hrun⟩ := exists_reach_run accepts cur
  rw [reach_seq, hrun, List.head?_flatMap, List.findSome?_cons, head?_reach_optional, hp,
    Option.head?_toList]

end Pattern

namespace Catalogue

/-- The words that stand for any picture. -/
def placeholders : List String := ["image", "photo", "picture", "icon", "logo", "graphic", "img"]

/-- A quoted placeholder as the text of a picture, at the end of its tag. -/
def placeholder? (cur : Cursor) : Option Cursor := do
  let behind ← cur.spell? "alt=".toList
  let behind ← behind.quote?
  let behind ← placeholders.findSome? fun word => behind.spell? word.toList
  let behind := (← behind.quote?).skipWhile Text.isBlank
  ((behind.pass? (· == '/')).getD behind).pass? (· == '>')

/-- A place in the tab order: a number that does not begin with zero, with quotation marks or
without. -/
def tabOrder? (cur : Cursor) : Option Cursor := do
  let behind ← cur.spell? "tabIndex=".toList
  let behind ← behind.skipQuote.pass? fun c => '1' ≤ c && c ≤ '9'
  return (behind.skipWhile Text.isDigit).skipQuote

/-- The value that an attribute has when it is set. -/
def truth? (cur : Cursor) : Option Cursor := do
  let behind ← cur.pass? (· == '=')
  let behind ← behind.skipQuote.spell? "true".toList
  return behind.skipQuote

/-- The attribute that takes the focus, with its value if it is given one. -/
def focus? (cur : Cursor) : Option Cursor := do
  let behind ← cur.spell? "autoFocus".toList
  return (truth? behind).getD behind

/-- The words that tell nothing about where a link leads. -/
def vagueLabels : List String := ["click here", "read more", "more", "link", "here", "go"]

/-- The letters of a vague label between the brackets of its link. -/
def linkText (label : String) : List Char := '>' :: label.toList ++ "</a>".toList

/-- A vague label between the brackets of its link comes next, and the second place is behind it. -/
def VagueLink (cur stop : Cursor) : Prop :=
  ∃ label ∈ vagueLabels, cur.spell? (linkText label) = some stop

theorem reads_placeholder : (concat [literal "alt=", quote, choice (placeholders.map literal), quote,
    star blank, optional (exactly '/'), exactly '>']).Reads placeholder? := by
  have hend := reads_optional (reads_char (· == '/')) (reads_char (· == '>')) fun cur stop h =>
    Cursor.pass?_eq_none (by simp) (Cursor.passes_of_pass? h)
  have hblank := reads_skip hend fun cur (hcur : passes Text.isBlank cur = true) => by
    have hnone : ∀ c, Text.isBlank c = true → (c == '/') = false ∧ (c == '>') = false := by
      intro c hc
      refine ⟨?_, ?_⟩ <;>
      · rw [beq_eq_false_iff_ne]
        rintro rfl
        cases hc
    rw [Cursor.pass?_eq_none (fun c hc => (hnone c hc).1) hcur, Option.getD_none,
      Cursor.pass?_eq_none (fun c hc => (hnone c hc).2) hcur]
  have hwords : (choice (placeholders.map literal)).Reads _ := reads_choice (by decide)
  exact reads_seq (reads_literal "alt=") <| reads_seq reads_quote <| reads_seq hwords <|
    reads_seq reads_quote hblank

theorem matchAt_genericAlt (cur : Cursor) : genericAlt.matcher.matchAt cur = placeholder? cur :=
  matchAt_of_reads reads_placeholder cur

theorem matchAt_positiveTabindex (cur : Cursor) :
    positiveTabindex.matcher.matchAt cur = tabOrder? cur := by
  have hdigit := reads_optional reads_quote (reads_char fun c => '1' ≤ c && c ≤ '9')
    fun cur stop h => Cursor.pass?_eq_none_of_quote? rfl rfl h
  have hopening := reads_seq (reads_literal "tabIndex=") hdigit
  have hnumber : (fun place => ((seq (star digit) (optional quote)).reach place).head?) =
      fun place => some (place.skipWhile Text.isDigit).skipQuote :=
    funext (head?_reach_run_optional reads_quote)
  have hmatch := matchAt_concat_split 3 [literal "tabIndex=", optional quote, between '1' '9',
    star digit, optional quote] cur
  rw [matchAt_plain (.seq _ _)] at hmatch
  refine hmatch.trans ((hopening.head?_reach_seq (seq (star digit) (optional quote)) cur).trans ?_)
  rw [hnumber, Option.bind_assoc]
  rfl

theorem reads_truth : (concat [exactly '=', optional quote, literal "true"]).Reads fun cur =>
    (cur.pass? (· == '=')).bind fun behind => behind.skipQuote.spell? "true".toList := by
  refine reads_seq (reads_char _) (reads_optional reads_quote (reads_literal "true") ?_)
  intro cur stop h
  have hrejects : rejects 't' (['"', '\''].contains ·) = true := by decide
  exact spell?_eq_none hrejects (Cursor.passes_of_pass? h)

theorem head?_reach_truth (cur : Cursor) : ((concat [exactly '=', optional quote, literal "true",
    optional quote]).reach cur).head? = truth? cur := by
  have hsplit := reach_concat_append [exactly '=', optional quote, literal "true"]
    [optional quote] cur
  have hquote : (fun place => ((optional quote).reach place).head?) =
      fun place => some place.skipQuote := by
    funext place
    rw [head?_reach_optional, reads_quote place, Option.head?_toList]
    rfl
  refine (congrArg List.head? (hsplit.trans (reach_seq _ _ cur).symm)).trans ?_
  refine (reads_truth.head?_reach_seq (optional quote) cur).trans ?_
  rw [hquote, Option.bind_assoc]
  rfl

theorem matchAt_unnecessaryAutofocus (cur : Cursor) :
    unnecessaryAutofocus.matcher.matchAt cur = focus? cur := by
  refine (matchAt_plain _ cur).trans (((reads_literal "autoFocus").head?_reach_seq _ cur).trans ?_)
  simp only [head?_reach_optional, head?_reach_truth]
  rfl

/-- Behind its sign of equality a placeholder has none, and only its last character is a bracket. -/
theorem apart_genericAlt : genericAlt.matcher.Apart := by
  intro a b stop stop' ha hb hle hlt
  have hfirst := mem_reach_of_matchAt ha
  have hsecond := mem_reach_of_matchAt hb
  obtain ⟨last, hlast, hstop⟩ := List.mem_flatMap.mp (reach_concat_append
    [literal "alt=", quote, choice (placeholders.map literal), quote, star blank,
      optional (exactly '/')] [exactly '>'] a ▸ hfirst)
  rw [reach_concat_cons, List.mem_flatMap] at hfirst hsecond
  obtain ⟨value, hvalue, hfirst⟩ := hfirst
  obtain ⟨value', hvalue', _⟩ := hsecond
  have hopening : (literal "alt=").Leads 'a' := leads_literal rfl (by decide)
  have hbehind := hopening.le_of_atLetter hvalue hle hlt (hopening.head b value' hvalue')
  obtain ⟨mark, hmark, hequal⟩ := List.mem_flatMap.mp (reach_concat_append
    [char (Text.sameLetter 'a'), char (Text.sameLetter 'l'), char (Text.sameLetter 't')]
    [char (Text.sameLetter '=')] b ▸ hvalue')
  by_contra hover
  rcases Nat.lt_or_ge mark.offset stop.offset with hinside | hbeyond
  · -- The second sign of equality would be in the first match.
    have hlacks : atLetter '=' mark = false := lacks_of_everyClass (by decide) value stop hfirst mark
      (Cursor.le_trans hbehind (le_of_mem_reach hmark)) hinside
    rw [(leads_char fun _ h => h).head mark value' hequal] at hlacks
    cases hlacks
  · -- The bracket would be in the word before the second sign of equality.
    have hbracket : b ≤ last := by
      rcases Cursor.lt_or_le (le_of_mem_reach hlast) hle with hbefore | hback
      · exact Cursor.le_of_offset_le hle (le_of_mem_reach hlast) (Nat.le_of_lt hbefore)
      · obtain ⟨n, c, rest, rfl, _, rfl⟩ := mem_reach_char hstop
        rw [eq_of_lt_next hback (Nat.lt_of_not_le hover)]
        exact Cursor.le_refl _
    have hlt' := (leads_exactly '>').lt last stop hstop
    have hlacks : atLetter '>' last = false := lacks_of_everyClass (by decide) b mark hmark last
      hbracket (by omega)
    rw [(leads_exactly '>').head last stop hstop] at hlacks
    cases hlacks

theorem apart_positiveTabindex : positiveTabindex.matcher.Apart :=
  Matcher.apart_of_leads
    (leads_concat_cons (leads_literal rfl (by decide)) (lacks_of_everyClass (by decide)))

theorem apart_unnecessaryAutofocus : unnecessaryAutofocus.matcher.Apart :=
  Matcher.apart_of_leads (leads_seq (leads_literal rfl (by decide)) (lacks_of_everyClass (by decide)))

/-! ### Links -/

theorem mem_reach_ambiguousLink {cur stop : Cursor} :
    stop ∈ (concat [exactly '>', choice (vagueLabels.map literal), literal "</a>"]).reach cur ↔
      VagueLink cur stop := by
  have hbracket : exactly '>' = literal ">" := exactly_eq_char (by decide)
  have hspell : ∀ label : String, cur.spell? (linkText label) = some stop ↔
      ∃ opened, cur.spell? ">".toList = some opened ∧ ∃ named,
        opened.spell? label.toList = some named ∧ named.spell? "</a>".toList = some stop := by
    intro label
    have hopening := Cursor.spell?_append ">".toList (label.toList ++ "</a>".toList) cur
    rw [funext (Cursor.spell?_append label.toList "</a>".toList)] at hopening
    rw [show linkText label = ">".toList ++ (label.toList ++ "</a>".toList) from rfl, hopening,
      Option.bind_eq_some_iff]
    simp only [Option.bind_eq_some_iff]
  rw [hbracket, show concat [literal ">", choice (vagueLabels.map literal), literal "</a>"] =
    seq (literal ">") (seq (choice (vagueLabels.map literal)) (literal "</a>")) from rfl]
  simp only [reach_seq, List.mem_flatMap, mem_reach_literal, mem_reach_choice, VagueLink, hspell]
  constructor
  · rintro ⟨opened, hopened, named, ⟨_, hp, hnamed⟩, hstop⟩
    obtain ⟨label, hlabel, rfl⟩ := List.mem_map.mp hp
    exact ⟨label, hlabel, opened, hopened, named, mem_reach_literal.mp hnamed, hstop⟩
  · rintro ⟨label, hlabel, opened, hopened, named, hnamed, hstop⟩
    exact ⟨opened, hopened, named,
      ⟨literal label, List.mem_map_of_mem hlabel, mem_reach_literal.mpr hnamed⟩, hstop⟩

theorem matchAt_ambiguousLink {cur stop : Cursor} :
    ambiguousLink.matcher.matchAt cur = some stop ↔ VagueLink cur stop := by
  have hlabels : (choice (vagueLabels.map literal)).Single := single_choice (by decide)
  have hsingle := single_seq (single_char (· == '>')) (single_seq hlabels (single_literal "</a>"))
  exact hsingle.matchAt_eq_some_iff.trans mem_reach_ambiguousLink

section VagueLink

variable {a b cur stop : Cursor}

theorem VagueLink.lt (h : VagueLink cur stop) : cur.offset + 1 < stop.offset := by
  obtain ⟨label, _, hspell⟩ := h
  obtain ⟨passed, _, hoffset, hpassed⟩ := Cursor.spell?_eq_some_iff.mp hspell
  have hlength := hpassed.length_eq
  have hbytes := Text.length_le_byteLength passed
  simp only [linkText, List.length_cons, List.length_append] at hlength
  have hclosing : "</a>".toList.length = 4 := rfl
  omega

/-- All but the last bracket of a link comes before that bracket. -/
theorem VagueLink.exists_last (h : VagueLink a b) : ∃ last, atLetter '>' a = true ∧
    (∀ place, a ≤ place → a.offset < place.offset → atLetter '>' place = true → last ≤ place) ∧
      last.spell? ['>'] = some b := by
  obtain ⟨label, hlabel, hspell⟩ := h
  have hsplit := Cursor.spell?_append ('>' :: label.toList ++ "</a".toList) ['>'] a
  rw [show ('>' :: label.toList ++ "</a".toList) ++ ['>'] = linkText label by
    rw [linkText, List.append_assoc]; rfl, hspell] at hsplit
  obtain ⟨last, hlast, hb⟩ := Option.bind_eq_some_iff.mp hsplit.symm
  -- The bracket is nowhere in the label and what is before the last bracket.
  have hlacks : ∀ label ∈ vagueLabels, (concat ((label.toList ++ "</a".toList).map
      fun c => char (Text.sameLetter c))).everyClass (rejects '>') = true := by decide
  have hleads : (concat (('>' :: label.toList ++ "</a".toList).map
      fun c => char (Text.sameLetter c))).Leads '>' :=
    leads_concat_cons (leads_char fun _ h => h) (lacks_of_everyClass (hlacks label hlabel))
  have hreach : last ∈ (concat (('>' :: label.toList ++ "</a".toList).map
      fun c => char (Text.sameLetter c))).reach a := by
    rw [reach_concat_spell, hlast]
    exact Option.mem_toList.mpr rfl
  exact ⟨last, hleads.head a last hreach, fun place => hleads.le_of_atLetter hreach, hb⟩

/-- Where a link begins inside of another, the bracket that closes the one opens the other. -/
theorem VagueLink.meets (h : VagueLink a b) (hcur : VagueLink cur stop) (hle : a ≤ cur)
    (hlt : a.offset < cur.offset) (hinside : cur.offset < b.offset) : b.offset = cur.offset + 1 := by
  obtain ⟨last, _, hbehind, hb⟩ := h.exists_last
  obtain ⟨_, hbracket, _⟩ := hcur.exists_last
  have hlast := hbehind cur hle hlt hbracket
  obtain ⟨n, rest⟩ := last
  cases rest with
  | nil => cases hb
  | cons c rest =>
    rw [Cursor.spell?_cons] at hb
    split at hb
    · rename_i hc
      have hmem := Text.mem_spellings hc
      rw [show Text.spellings '>' = ['>'] by decide, List.mem_singleton] at hmem
      subst hmem
      cases hb
      rw [eq_of_lt_next hlast hinside]
      rfl
    · cases hb

end VagueLink

section Listed

variable {text : List Char} {cur stop : Cursor}

theorem exists_of_mem_ambiguousLink {span : Span} (h : span ∈ ambiguousLink.matcher.findAll text) :
    ∃ cur stop, cur.In text ∧ VagueLink cur stop ∧ span = ⟨cur.offset, stop.offset⟩ := by
  obtain ⟨cur, stop, hin, hmatch, hspan⟩ := Matcher.exists_of_mem_findAll h
  exact ⟨cur, stop, hin, matchAt_ambiguousLink.mp hmatch, hspan⟩

variable (hin : cur.In text) (h : VagueLink cur stop)
include hin h

/-- A link is reported unless the bracket that it begins with closes a reported one. -/
theorem mem_findAll_ambiguousLink : ⟨cur.offset, stop.offset⟩ ∈ ambiguousLink.matcher.findAll text ↔
    ∀ span ∈ ambiguousLink.matcher.findAll text, span.stop ≠ cur.offset + 1 := by
  have hlong := h.lt
  constructor
  · intro hmem span hspan hstop
    have hne : span ≠ ⟨cur.offset, stop.offset⟩ := by
      rintro rfl
      simp only at hstop
      omega
    obtain ⟨place, last, _, hlink, rfl⟩ := exists_of_mem_ambiguousLink hspan
    have hplace := hlink.lt
    have hapart := Matcher.stop_le_of_mem_findAll hspan hmem hne
    simp only at hapart hstop
    omega
  · intro hnone
    apply Matcher.mem_findAll_of_restart_le hin (matchAt_ambiguousLink.mpr h)
    intro span hspan hstart
    have hne := hnone span hspan
    obtain ⟨place, last, hplace, hlink, rfl⟩ := exists_of_mem_ambiguousLink hspan
    have hplace' := hlink.lt
    simp only at hstart hne
    rw [Span.restart, if_neg (by simp only; omega)]
    by_contra hover
    have hle := Cursor.le_of_offset_le hplace hin (Nat.le_of_lt hstart)
    exact hne (hlink.meets h hle hstart (Nat.lt_of_not_le hover))

end Listed

/-- Rules of a few words lose nothing. Of placeholders, places in the tab order and attributes that
take the focus every one is reported, from left to right, each as far as it can be read. Of links with
a vague label every one is reported but those that begin with the last byte of a reported one. -/
theorem literal_matches_complete (text : List Char) :
    (genericAlt.matcher.findAll text = Cursor.everywhere genericAlt.matcher.matchAt text ∧
      ∀ cur, genericAlt.matcher.matchAt cur = placeholder? cur) ∧
    (positiveTabindex.matcher.findAll text =
        Cursor.everywhere positiveTabindex.matcher.matchAt text ∧
      ∀ cur, positiveTabindex.matcher.matchAt cur = tabOrder? cur) ∧
    (unnecessaryAutofocus.matcher.findAll text =
        Cursor.everywhere unnecessaryAutofocus.matcher.matchAt text ∧
      ∀ cur, unnecessaryAutofocus.matcher.matchAt cur = focus? cur) ∧
    ((ambiguousLink.matcher.findAll text).Pairwise (·.start < ·.start) ∧
      (∀ span ∈ ambiguousLink.matcher.findAll text, ∃ cur stop, cur.In text ∧ VagueLink cur stop ∧
        span = ⟨cur.offset, stop.offset⟩) ∧
      ∀ cur stop, cur.In text → VagueLink cur stop →
        (⟨cur.offset, stop.offset⟩ ∈ ambiguousLink.matcher.findAll text ↔
          ∀ span ∈ ambiguousLink.matcher.findAll text, span.stop ≠ cur.offset + 1)) := by
  refine ⟨⟨?_, matchAt_genericAlt⟩, ⟨?_, matchAt_positiveTabindex⟩,
    ⟨?_, matchAt_unnecessaryAutofocus⟩, Matcher.pairwise_findAll _ text, ?_, ?_⟩
  · exact Matcher.findAll_eq_everywhere apart_genericAlt text
  · exact Matcher.findAll_eq_everywhere apart_positiveTabindex text
  · exact Matcher.findAll_eq_everywhere apart_unnecessaryAutofocus text
  · exact fun span => exists_of_mem_ambiguousLink
  · exact fun cur stop => mem_findAll_ambiguousLink

/-- The bracket that closes one link opens another, and digits of another script end a number. -/
theorem literal_matches_complete_chained :
    (⟨8, ">go</a>".toList⟩ : Cursor).In ">here</a>go</a>".toList ∧
    VagueLink ⟨8, ">go</a>".toList⟩ ⟨15, []⟩ ∧
    ambiguousLink.matcher.findAll ">here</a>go</a>".toList = [⟨0, 9⟩] ∧
    ⟨8, 15⟩ ∉ ambiguousLink.matcher.findAll ">here</a>go</a>".toList ∧
    positiveTabindex.matcher.findAll "tabIndex='1２'".toList =
      Cursor.everywhere positiveTabindex.matcher.matchAt "tabIndex='1２'".toList ∧
    positiveTabindex.matcher.findAll "tabIndex='1２'".toList = [⟨0, 15⟩] := by
  have hin : (⟨8, ">go</a>".toList⟩ : Cursor).In ">here</a>go</a>".toList :=
    ⟨">here</a".toList, rfl, rfl⟩
  have hlink : VagueLink ⟨8, ">go</a>".toList⟩ ⟨15, []⟩ :=
    ⟨"go", by decide, by decide +kernel⟩
  have hfound : ambiguousLink.matcher.findAll ">here</a>go</a>".toList = [⟨0, 9⟩] := by
    decide +kernel
  obtain ⟨_, _, _, _, _, hlisted⟩ := literal_matches_complete ">here</a>go</a>".toList
  obtain ⟨_, ⟨hnumbers, _⟩, _⟩ := literal_matches_complete "tabIndex='1２'".toList
  refine ⟨hin, hlink, hfound, ?_, hnumbers, by decide +kernel⟩
  intro hmem
  refine (hlisted _ _ hin hlink).mp hmem ⟨0, 9⟩ ?_ rfl
  rw [hfound]
  exact List.mem_singleton_self _

end Catalogue

end MarkupAudit
