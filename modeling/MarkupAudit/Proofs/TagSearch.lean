import MarkupAudit.Proofs.Lookahead
import MarkupAudit.Proofs.Text.Piece

/-!
Guarded tags, piece by piece. A tag ends with the piece in which it opens, so all matches of a
guarded tag that begin in one piece end at one place: the search reports the first of them and goes
on behind the piece. Its searches, refusals and retries so come to one passage over the pieces,
whatever the guard looks at (`findAll_tag`).
-/

namespace MarkupAudit

open Pattern Catalogue

namespace TagSearch

def IsPlain (word : String) : Prop := word.toList ≠ [] ∧ ∀ c ∈ word.toList, Text.fold c ≠ '>'

/-- The tag opens here, and is not refused for what is behind its opening. -/
def opens (opening : String) (refuses : Cursor → Bool) (cur : Cursor) : Bool :=
  match cur.spell? opening.toList with
  | none => false
  | some behind => !refuses behind

/-- The stretch from the first place of a closed piece where a tag opens to the end of the piece. -/
def firstSpan? (opens : Cursor → Bool) (piece : Cursor) : Option Span :=
  if piece.rest.getLast? = some '>' then
    (piece.onward.find? opens).map fun cur => ⟨cur.offset, piece.finish.offset⟩
  else none

/-- The matches that begin in a closed piece, all of which end with it. -/
def candidatesIn (opens : Cursor → Bool) (piece : Cursor) (more : List Char) : List Match :=
  (piece.starts.filter opens).map fun cur => ⟨cur.extend more, piece.finish.extend more⟩

theorem isPlain_of_decide {word : String} (h : (word.toList.isEmpty ||
    word.toList.any fun c => Text.fold c == '>') = false) : IsPlain word := by
  simpa [IsPlain] using h

theorem spell?_finish {word : String} (h : IsPlain word) (cur : Cursor) :
    cur.finish.spell? word.toList = none := by
  obtain ⟨letter, letters, heq⟩ := List.exists_cons_of_ne_nil h.1
  rw [heq]
  rfl

theorem stretch_run {cur : Cursor} (h : cur.IsRun) (more : List Char) :
    (cur.extend more).stretch passesRun = cur.starts.map (Cursor.extend more) := by
  obtain ⟨n, rest⟩ := cur
  obtain ⟨run, hrun, heq⟩ := h
  simp only at heq
  subst heq
  induction run generalizing n with
  | nil =>
    rw [List.nil_append, Cursor.extend, List.singleton_append, Cursor.stretch_cons,
      if_neg (by simp [passesRun_cons])]
    rfl
  | cons c run ih =>
    rw [List.mem_cons, not_or] at hrun
    rw [List.cons_append, Cursor.starts_cons, List.map_cons, ← ih _ hrun.2, Cursor.extend,
      List.cons_append, Cursor.stretch_cons,
      if_pos ((passesRun_cons _ _ _).mpr (Ne.symm hrun.1))]
    rfl

theorem reach_tagEnd_run {cur : Cursor} (h : cur.IsRun) (more : List Char) :
    tagEnd.reach (cur.extend more) = [cur.finish.extend more] := by
  obtain ⟨n, rest⟩ := cur
  obtain ⟨run, hrun, heq⟩ := h
  simp only at heq
  subst heq
  induction run generalizing n with
  | nil =>
    rw [List.nil_append, Cursor.extend, List.singleton_append, reach_tagEnd_cons, if_pos rfl]
    rfl
  | cons c run ih =>
    rw [List.mem_cons, not_or] at hrun
    rw [List.cons_append, Cursor.finish_cons, ← ih _ hrun.2, Cursor.extend, List.cons_append,
      reach_tagEnd_cons, if_neg (Ne.symm hrun.1)]
    rfl

variable {opening : String} {guard : Pattern}

theorem matchAt_of_not_mem {text : List Char} (h : '>' ∉ text) (n : Nat) :
    (Matcher.guarded (tag opening) guard).matchAt ⟨n, text⟩ = none := by
  rw [matchAt_guarded_tag]
  cases hs : (⟨n, text⟩ : Cursor).spell? opening.toList with
  | none => rfl
  | some behind =>
    have hb : '>' ∉ behind.rest := Cursor.not_mem_rest_of_le (Cursor.le_of_spell? hs) h
    rw [Option.bind_some, show tagEnd.reach behind = [] from reach_tagEnd_of_not_mem hb _]
    split <;> rfl

theorem candidatesFrom_last {text : List Char} (h : '>' ∉ text) (n : Nat) :
    (Matcher.guarded (tag opening) guard).candidatesFrom ⟨n, text⟩ = [] := by
  apply List.filterMap_eq_nil_iff.mpr
  intro place hp
  have hplace : '>' ∉ place.rest := Cursor.not_mem_rest_of_le (Cursor.mem_onward.mp hp) h
  rw [show place = ⟨place.offset, place.rest⟩ from rfl, matchAt_of_not_mem hplace]
  rfl

theorem firstSpan?_last {opens : Cursor → Bool} {text : List Char} (h : '>' ∉ text) (n : Nat) :
    firstSpan? opens ⟨n, text⟩ = none := by
  unfold firstSpan?
  apply if_neg
  intro hlast
  exact h (List.mem_of_getLast? hlast)

theorem mem_candidatesIn {opens : Cursor → Bool} {piece : Cursor} {more : List Char}
    {found : Match} (h : found ∈ candidatesIn opens piece more) :
    piece.offset ≤ found.start.offset ∧ found.start.offset < piece.finish.offset ∧
      found.stop.offset = piece.finish.offset := by
  obtain ⟨cur, hc, rfl⟩ := List.mem_map.mp h
  obtain ⟨hle, hne⟩ := Cursor.mem_starts.mp (List.mem_filter.mp hc).1
  have hoffset := Cursor.offset_le hle
  have hlt := Cursor.offset_lt_finish hne
  rw [Cursor.finish_of_le hle] at hlt
  exact ⟨hoffset, hlt, rfl⟩

variable (ho : IsPlain opening)
include ho

theorem opens_finish (refuses : Cursor → Bool) (cur : Cursor) :
    opens opening refuses cur.finish = false := by
  rw [opens, spell?_finish ho]

theorem firstSpan?_eq_head (refuses : Cursor → Bool) {piece : Cursor} (h : piece.IsRun)
    (more : List Char) : firstSpan? (opens opening refuses) piece =
      (candidatesIn (opens opening refuses) piece more).head?.map (·.span) := by
  obtain ⟨run, _, heq⟩ := h
  have hlast : piece.rest.getLast? = some '>' := by simp [heq]
  rw [firstSpan?, if_pos hlast, Cursor.onward_eq_starts, List.find?_append, List.find?_singleton,
    opens_finish ho, candidatesIn, List.head?_map, List.head?_filter, Option.map_map]
  simp only [Bool.false_eq_true, if_false, Option.or_none]
  rfl

variable {refuses : List Char → Cursor → Bool}
  (hg : ∀ (more : List Char) (behind : Cursor), behind.IsRun →
    guard.matchesAt (behind.extend more) = refuses more behind)
include hg

/-- In a closed piece a place is reported just when the tag opens there and is not refused. -/
theorem matchAt_run {cur : Cursor} (h : cur.IsRun) (more : List Char) :
    (Matcher.guarded (tag opening) guard).matchAt (cur.extend more) =
      if opens opening (refuses more) cur then some (cur.finish.extend more) else none := by
  obtain ⟨hspell, hrun⟩ := h.spell? ho.2 more
  rw [matchAt_guarded_tag, hspell, opens]
  cases hs : cur.spell? opening.toList with
  | none => rfl
  | some behind =>
    have hb := hrun behind hs
    have hfinish := Cursor.finish_of_le (Cursor.le_of_spell? hs)
    rw [Option.map_some, Option.bind_some, reach_tagEnd_run hb, List.head?_cons, hfinish,
      hg more behind hb]
    by_cases hrefused : refuses more behind = true
    · simp [hrefused]
    · simp [hrefused]

theorem candidatesFrom_run {piece : Cursor} (h : piece.IsRun) (more : List Char) :
    (Matcher.guarded (tag opening) guard).candidatesFrom (piece.extend more) =
      candidatesIn (opens opening (refuses more)) piece more ++
        (Matcher.guarded (tag opening) guard).candidatesFrom (piece.finish.extend more) := by
  rw [Matcher.candidatesFrom, Cursor.onward_extend, List.filterMap_append, List.filterMap_map]
  apply congrArg (· ++ _)
  rw [candidatesIn, ← List.filterMap_eq_map, ← List.filterMap_eq_filter, List.filterMap_filterMap]
  apply List.filterMap_congr
  intro cur hc
  obtain ⟨hle, hne⟩ := Cursor.mem_starts.mp hc
  rw [Function.comp_apply, matchAt_run ho hg (h.of_le hle hne), Cursor.finish_of_le hle]
  by_cases hb : opens opening (refuses more) cur = true
  · simp [Option.guard, hb]
  · simp [Option.guard, hb]

/-- Piece by piece: the search goes on where a piece ends, from wherever it came there. -/
theorem select_pieces (text : List Char) : ∀ n lower, lower ≤ n →
      (Match.select lower ((Matcher.guarded (tag opening) guard).candidatesFrom
        ⟨n, text⟩)).map (·.span) =
      (Cursor.placedBefore n (Text.pieces text)).filterMap fun part =>
        firstSpan? (opens opening (refuses part.2)) part.1 := by
  induction text using Text.piece_induction with
  | last text h =>
    intro n lower _
    rw [candidatesFrom_last h, Text.pieces_of_not_mem h, Cursor.placedBefore, Cursor.placedBefore,
      List.filterMap_cons, firstSpan?_last h]
    rfl
  | closed run rest h ih =>
    intro n lower hlower
    have hrun : (⟨n, run ++ ['>']⟩ : Cursor).IsRun := ⟨run, h, rfl⟩
    have hsplit : (⟨n, run ++ '>' :: rest⟩ : Cursor) =
        (⟨n, run ++ ['>']⟩ : Cursor).extend rest := by
      simp [Cursor.extend]
    have hnext : (⟨n, run ++ ['>']⟩ : Cursor).finish.extend rest =
        ⟨n + Text.byteLength (run ++ ['>']), rest⟩ := rfl
    have hin : ∀ found ∈ candidatesIn (opens opening (refuses rest)) ⟨n, run ++ ['>']⟩ rest,
        lower ≤ found.start.offset ∧
          found.start.offset < (⟨n, run ++ ['>']⟩ : Cursor).finish.offset ∧
          found.stop.offset = (⟨n, run ++ ['>']⟩ : Cursor).finish.offset := by
      intro found hf
      obtain ⟨hle, hlt, hstop⟩ := mem_candidatesIn hf
      exact ⟨Nat.le_trans hlower hle, hlt, hstop⟩
    -- All matches of the piece end with it, so of the first one on the search is behind the piece.
    rw [hsplit, candidatesFrom_run ho hg hrun, Match.select_append hin, List.map_append, hnext,
      Text.pieces_append h, Cursor.placedBefore, List.filterMap_cons, ← ih, Text.flatten_pieces]
    · rw [firstSpan?_eq_head ho (refuses rest) hrun rest]
      cases (candidatesIn (opens opening (refuses rest)) ⟨n, run ++ ['>']⟩ rest).head? <;> rfl
    · split
      · have := Nat.le_add_right n (Text.byteLength (run ++ ['>']))
        omega
      · exact Nat.le_refl _

/-- A guarded tag is reported once in each closed piece in which it opens and is not refused, from
the first such place on. -/
theorem findAll_tag (text : List Char) : (Matcher.guarded (tag opening) guard).findAll text =
    (Cursor.piecesBefore text).filterMap fun part =>
      firstSpan? (opens opening (refuses part.2)) part.1 := by
  rw [Matcher.findAll, Matcher.candidates_eq_from]
  exact select_pieces ho hg text 0 0 (Nat.le_refl 0)

end TagSearch

end MarkupAudit
