import MarkupAudit.Proofs.AttributeRun
import MarkupAudit.Proofs.Pattern.Until

/-!
Inputs without a label. An input counts as labelled if its tag names it, or if the tag has an `id`
and the text goes on to a label with `for`. The second case reads on past the tag: through the value
of the `id`, which may contain a bracket, then to the next closing bracket and from there to the
next opening one. At each of these a pattern with backtracking has no choice, so the guard comes to
a few searches for the first of some characters (`matchesAt_labelled`).
-/

namespace MarkupAudit

open Pattern Catalogue

namespace Cursor

theorem IsRun.rest_ne_nil {cur : Cursor} (h : cur.IsRun) : cur.rest ≠ [] := by
  obtain ⟨run, _, heq⟩ := h
  simp [heq]

theorem meets_extend {cs : List Char} {cur : Cursor} (h : cur.rest ≠ []) (more : List Char) :
    (cur.extend more).meets cs = cur.meets cs := by
  rw [meets, meets, extend, List.head?_append_of_ne_nil cur.rest h]

theorem next?_extend {cur : Cursor} (h : cur.rest ≠ []) (more : List Char) :
    (cur.extend more).next? = cur.next?.map (extend more) := by
  obtain ⟨n, rest⟩ := cur
  cases rest with
  | nil => exact absurd rfl h
  | cons c rest => rfl

end Cursor

namespace InputLabel

/-- The place behind the quote that opens the value of an `id`. -/
def idValue? (cur : Cursor) : Option Cursor := do
  let quoted ← cur.spell? "id=".toList
  if quoted.meets ['"', '\''] then quoted.next? else none

/-- The place behind `<label`, if that is what opens next. The value here is read to its first
quote, the tag from there on to its first closing bracket, the text to its first opening one. -/
def labelName? (value : Cursor) : Option Cursor := do
  let attributes ← value.behindFirst? ['"', '\'']
  let content ← attributes.behindFirst? ['>']
  let label ← content.firstOf? ['<']
  label.spell? "<label".toList

/-- The label says what it is for. -/
def hasFor (name : Cursor) : Bool :=
  (name.before ['>']).any fun later => (later.spell? "for=".toList).isSome

/-- An `id` opens here in a piece, and a label with `for` comes next in the text. -/
def leadsToLabel (more : List Char) (cur : Cursor) : Bool :=
  (idValue? cur).any fun value => (labelName? (value.extend more)).any hasFor

/-- The rest of the piece, or else the text behind it, gives the input a label. -/
def isSuppressed (more : List Char) (behind : Cursor) : Bool :=
  (behind.onward.any fun later => (later.spell? "aria-label".toList).isSome) ||
    behind.onward.any (leadsToLabel more)

/-- What the guard reads behind `<label`. -/
def forAhead : Pattern := seq (star (noneOf ['>'])) (literal "for=")

/-- What it reads behind the tag. -/
def labelAhead : Pattern := seq (star (noneOf ['<'])) (seq (literal "<label") forAhead)

/-- What it reads from the value of an `id` on. -/
def valueAhead : Pattern :=
  seq (star (noneOf ['"', '\''])) (seq quote (seq (star (noneOf ['>'])) (seq (exactly '>')
    labelAhead)))

theorem labelled_eq : labelled = either (mentions ["aria-label"])
    (seq (star (noneOf ['>'])) (seq (literal "id=") (seq quote valueAhead))) := rfl

theorem matchesAt_forAhead (name : Cursor) : forAhead.matchesAt name = hasFor name := by
  have hfor : ∀ cur, (literal "for=").matchesAt cur = true → cur.meets ['>'] = false := by
    intro cur hmatch
    rw [matchesAt_literal, Option.isSome_iff_exists] at hmatch
    obtain ⟨stop, hs⟩ := hmatch
    exact Cursor.meets_of_spell? rfl hs
  rw [forAhead, matchesAt_run_of_not_meets hfor, hasFor]
  congr 1
  funext later
  exact matchesAt_literal "for=" later

theorem matchesAt_labelAhead (content : Cursor) : labelAhead.matchesAt content =
    ((content.firstOf? ['<']).bind (Cursor.spell? "<label".toList)).any hasFor := by
  have hname : ∀ cur, (seq (literal "<label") forAhead).matchesAt cur =
      (cur.spell? "<label".toList).any hasFor := by
    intro cur
    rw [matchesAt_seq_literal, funext matchesAt_forAhead]
  have hopens : ∀ cur, (seq (literal "<label") forAhead).matchesAt cur = true →
      cur.meets ['<'] = true := by
    intro cur hmatch
    rw [hname] at hmatch
    cases hs : cur.spell? "<label".toList with
    | none =>
      rw [hs] at hmatch
      cases hmatch
    | some name => exact Cursor.meets_of_spell? rfl hs
  rw [labelAhead, matchesAt_run_of_meets hopens, funext hname]
  cases content.firstOf? ['<'] <;> rfl

theorem matchesAt_valueAhead (value : Cursor) :
    valueAhead.matchesAt value = (labelName? value).any hasFor := by
  rw [valueAhead, quote, exactly_eq_anyOf, matchesAt_run_anyOf, labelName?]
  cases value.behindFirst? ['"', '\''] with
  | none => rfl
  | some attributes =>
    rw [Option.any_some, matchesAt_run_anyOf]
    cases hc : attributes.behindFirst? ['>'] with
    | none => simp [hc]
    | some content =>
      rw [Option.any_some, matchesAt_labelAhead]
      simp [hc]

/-- An `id` with its opening quote lies inside of the piece. -/
theorem matchesAt_id {cur : Cursor} (h : cur.IsRun) (more : List Char) :
    (seq (literal "id=") (seq quote valueAhead)).matchesAt (cur.extend more) =
      leadsToLabel more cur := by
  have hplain : TagSearch.IsPlain "id=" := TagSearch.isPlain_of_decide (by decide)
  obtain ⟨hspell, hrun⟩ := h.spell? hplain.2 more
  rw [matchesAt_seq_literal, hspell, leadsToLabel, idValue?]
  cases hs : cur.spell? "id=".toList with
  | none => rfl
  | some quoted =>
    have hne := (hrun quoted hs).rest_ne_nil
    rw [Option.map_some, Option.any_some, quote, matchesAt_seq_anyOf, Cursor.meets_extend hne,
      Cursor.next?_extend hne, funext matchesAt_valueAhead]
    by_cases hq : quoted.meets ['"', '\''] = true
    · simp [hq, Option.any_map]
    · simp [hq]

theorem leadsToLabel_finish (more : List Char) (cur : Cursor) :
    leadsToLabel more cur.finish = false := rfl

/-- The run before an `id` ends in the piece, so only places of the piece come into question. -/
theorem matchesAt_idAhead (more : List Char) {behind : Cursor} (h : behind.IsRun) :
    (seq (star (noneOf ['>'])) (seq (literal "id=") (seq quote valueAhead))).matchesAt
      (behind.extend more) = behind.onward.any (leadsToLabel more) := by
  have hstarts : ∀ later ∈ behind.starts,
      (seq (literal "id=") (seq quote valueAhead)).matchesAt (later.extend more) =
        leadsToLabel more later := by
    intro later hl
    obtain ⟨hle, hne⟩ := Cursor.mem_starts.mp hl
    exact matchesAt_id (h.of_le hle hne) more
  rw [matchesAt_seq, reach_run, TagSearch.stretch_run h, List.any_reverse, List.any_map,
    Cursor.onward_eq_starts, List.any_append, List.any_cons, leadsToLabel_finish, List.any_nil,
    Bool.or_false, Bool.or_false, Bool.eq_iff_iff, List.any_eq_true, List.any_eq_true]
  constructor
  · intro hfound
    obtain ⟨later, hl, hmatch⟩ := hfound
    exact ⟨later, hl, (hstarts later hl).symm.trans hmatch⟩
  · intro hfound
    obtain ⟨later, hl, hleads⟩ := hfound
    exact ⟨later, hl, (hstarts later hl).trans hleads⟩

/-- The guard sees what the piece names and where it leads. -/
theorem matchesAt_labelled (more : List Char) (behind : Cursor) (h : behind.IsRun) :
    labelled.matchesAt (behind.extend more) = isSuppressed more behind := by
  have hname : ∀ marker ∈ ["aria-label"], TagSearch.IsPlain marker := by
    intro marker hm
    rw [List.mem_singleton.mp hm]
    exact TagSearch.isPlain_of_decide (by decide)
  rw [labelled_eq, matchesAt_either, AttributeRun.matchesAt_eq_isMarked hname more behind h,
    matchesAt_idAhead more h, isSuppressed, AttributeRun.isMarked]
  simp

/-- The text is cut right after every bracket. The rule for inputs without a label reports, in each
piece that ends in a bracket, the stretch from the first input that is not suppressed on, and nothing
else; what follows the piece in the text counts only for the label that an `id` leads to. -/
theorem findAll_input_of_pieces (text : List Char) :
    (∃ (runs : List (List Char)) (last : List Char), (∀ run ∈ runs, '>' ∉ run) ∧ '>' ∉ last ∧
      Text.pieces text = runs.map (· ++ ['>']) ++ [last] ∧ (Text.pieces text).flatten = text) ∧
    (Cursor.piecesBefore text).map (·.1) = Cursor.pieces text ∧
    (∀ part ∈ Cursor.piecesBefore text, (part.1.extend part.2).In text) ∧
    inputNoLabel.matcher.findAll text = (Cursor.piecesBefore text).filterMap fun part =>
      TagSearch.firstSpan? (TagSearch.opens "<input" (isSuppressed part.2)) part.1 := by
  obtain ⟨runs, last, hruns, hlast, heq⟩ := Text.pieces_eq text
  refine ⟨⟨runs, last, hruns, hlast, heq, Text.flatten_pieces text⟩, ?_, ?_, ?_⟩
  · exact Cursor.map_fst_placedBefore 0 (Text.pieces text)
  · intro part hp
    have hle := Cursor.le_extend_of_mem_placedBefore hp
    rw [Text.flatten_pieces] at hle
    exact hle
  · exact TagSearch.findAll_tag (TagSearch.isPlain_of_decide (by decide)) matchesAt_labelled text

/-- The value of the `id` ends in the next piece. -/
example : inputNoLabel.matcher.findAll "<input id='a>b'><label for='a'>".toList = [] := by
  decide +kernel

end InputLabel

end MarkupAudit
