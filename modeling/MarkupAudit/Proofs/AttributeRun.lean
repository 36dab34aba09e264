import MarkupAudit.Proofs.TagSearch

/-!
Tags without an attribute. In each piece of a text that ends in a bracket, a rule that looks for a
tag without certain words reports the stretch from the first bare tag to the bracket: a bare tag is
one behind which none of the words begins any more.
-/

namespace MarkupAudit

open Pattern Catalogue

namespace AttributeRun

open TagSearch

/-- The tag opens here, and no marker begins behind it. -/
def isBare (opening : String) (markers : List String) (cur : Cursor) : Bool :=
  match cur.spell? opening.toList with
  | none => false
  | some behind => behind.onward.all fun later =>
      markers.all fun marker => (later.spell? marker.toList).isNone

/-- The stretch from the first bare tag of a closed piece to the end of the piece. -/
def span? (opening : String) (markers : List String) (piece : Cursor) : Option Span :=
  if piece.rest.getLast? = some '>' then
    (piece.onward.find? (isBare opening markers)).map fun cur => ⟨cur.offset, piece.finish.offset⟩
  else none

/-- One of the markers begins in the rest of the piece. -/
def isMarked (markers : List String) (behind : Cursor) : Bool :=
  behind.onward.any fun later => markers.any fun marker => (later.spell? marker.toList).isSome

variable {opening : String} {markers : List String}

/-- The guard of a tag sees the markers that begin in the rest of the piece. -/
theorem matchesAt_mentions (hm : ∀ marker ∈ markers, IsPlain marker) {cur : Cursor}
    (h : cur.IsRun) (more : List Char) : (mentions markers).matchesAt (cur.extend more) = true ↔
      ∃ later ∈ cur.onward, ∃ marker ∈ markers, later.spell? marker.toList ≠ none := by
  have hreach : (mentions markers).reach (cur.extend more) =
      (cur.starts.map (Cursor.extend more)).reverse.flatMap (choice (markers.map literal)).reach := by
    rw [mentions, reach_seq, reach_run, stretch_run h]
  rw [matchesAt_iff, hreach]
  constructor
  · intro hfound
    obtain ⟨stop, hs⟩ := hfound
    obtain ⟨place, hp, hs⟩ := List.mem_flatMap.mp hs
    obtain ⟨later, hl, rfl⟩ := List.mem_map.mp (List.mem_reverse.mp hp)
    obtain ⟨p, hp, hs⟩ := mem_reach_choice.mp hs
    obtain ⟨marker, hmarker, rfl⟩ := List.mem_map.mp hp
    obtain ⟨hle, hne⟩ := Cursor.mem_starts.mp hl
    refine ⟨later, Cursor.mem_onward.mpr hle, marker, hmarker, ?_⟩
    rw [reach_literal, ((h.of_le hle hne).spell? (hm marker hmarker).2 more).1] at hs
    intro hnone
    rw [hnone] at hs
    cases hs
  · intro hfound
    obtain ⟨later, hl, marker, hmarker, hspell⟩ := hfound
    have hle := Cursor.mem_onward.mp hl
    have hne : later.rest ≠ [] := by
      intro hnil
      apply hspell
      have : later = later.finish := by
        obtain ⟨n, rest⟩ := later
        simp only at hnil
        subst hnil
        rfl
      rw [this]
      exact spell?_finish (hm marker hmarker) later
    obtain ⟨stop, hs⟩ := Option.ne_none_iff_exists'.mp hspell
    refine ⟨stop.extend more, List.mem_flatMap.mpr ⟨later.extend more, ?_, ?_⟩⟩
    · apply List.mem_reverse.mpr
      exact List.mem_map_of_mem (Cursor.mem_starts.mpr ⟨hle, hne⟩)
    · refine mem_reach_choice.mpr ⟨literal marker, List.mem_map_of_mem hmarker, ?_⟩
      rw [reach_literal, ((h.of_le hle hne).spell? (hm marker hmarker).2 more).1, hs]
      exact List.mem_singleton_self _

theorem matchesAt_eq_isMarked (hm : ∀ marker ∈ markers, IsPlain marker) (more : List Char)
    (behind : Cursor) (h : behind.IsRun) :
    (mentions markers).matchesAt (behind.extend more) = isMarked markers behind := by
  rw [Bool.eq_iff_iff, matchesAt_mentions hm h]
  simp [isMarked, Option.isSome_iff_ne_none]

theorem isBare_eq_opens : isBare opening markers = opens opening (isMarked markers) := by
  funext cur
  rw [isBare, opens]
  cases cur.spell? opening.toList with
  | none => rfl
  | some behind => simp [isMarked, List.all_eq_not_any_not]

theorem span?_eq_firstSpan? :
    span? opening markers = firstSpan? (opens opening (isMarked markers)) := by
  rw [← isBare_eq_opens]
  rfl

theorem span?_last {text : List Char} (h : '>' ∉ text) (n : Nat) :
    span? opening markers ⟨n, text⟩ = none := by
  rw [span?_eq_firstSpan?, firstSpan?_last h]

theorem findAll_eq_pieces (ho : IsPlain opening) (hm : ∀ marker ∈ markers, IsPlain marker)
    (text : List Char) : (Matcher.guarded (tag opening) (mentions markers)).findAll text =
      (Cursor.pieces text).filterMap (span? opening markers) := by
  rw [findAll_tag ho (matchesAt_eq_isMarked hm), Cursor.piecesBefore, Cursor.pieces,
    ← Cursor.map_fst_placedBefore, List.filterMap_map, span?_eq_firstSpan?]
  rfl

/-- The text is cut right after every bracket, and a rule for a bare tag reports, in each piece that
ends in a bracket, the stretch from the first bare tag on, and nothing else. -/
theorem findAll_bare_tag_of_pieces (text : List Char) :
    (∃ (runs : List (List Char)) (last : List Char), (∀ run ∈ runs, '>' ∉ run) ∧ '>' ∉ last ∧
      Text.pieces text = runs.map (· ++ ['>']) ++ [last] ∧ (Text.pieces text).flatten = text) ∧
    missingAlt.matcher.findAll text = (Cursor.pieces text).filterMap (span? "<img" ["alt="]) ∧
    missingLang.matcher.findAll text = (Cursor.pieces text).filterMap (span? "<html" ["lang="]) ∧
    headingComponentLevel.matcher.findAll text =
      (Cursor.pieces text).filterMap (span? "<Heading" ["as=", "level="]) := by
  have plain : ∀ word ∈ ["<img", "alt=", "<html", "lang=", "<Heading", "as=", "level="],
      IsPlain word := by
    intro word hw
    apply isPlain_of_decide
    revert word
    decide
  obtain ⟨runs, last, hruns, hlast, heq⟩ := Text.pieces_eq text
  refine ⟨⟨runs, last, hruns, hlast, heq, Text.flatten_pieces text⟩, ?_, ?_, ?_⟩
  · exact findAll_eq_pieces (plain _ (by simp)) (fun _ h => plain _ (by simp_all)) text
  · exact findAll_eq_pieces (plain _ (by simp)) (fun _ h => plain _ (by simp_all)) text
  · apply findAll_eq_pieces (plain _ (by simp))
    intro marker h
    apply plain
    simp only [List.mem_cons, List.not_mem_nil, or_false] at h
    rcases h with rfl | rfl <;> simp

end AttributeRun

end MarkupAudit
