import MarkupAudit.Proofs.Pattern.Extend
import MarkupAudit.Proofs.Pattern.Lead
import MarkupAudit.Proofs.Search
import MarkupAudit.Proofs.Selection

/-!
Texts split at a character. A pattern that passes over a character nowhere has its matches inside of
the pieces between the places of that character, and what is around a piece does not change them
(`matchAt_extend_of_lacks`). So all its matches in a text are found piece by piece
(`findAll_between`).
-/

namespace MarkupAudit

open Pattern Text

namespace Cursor

/-- The places where texts begin that follow one another from a byte on, with a mark between any two. -/
def apart (mark : Char) : Nat → List (List Char) → List Cursor
  | _, [] => []
  | offset, piece :: more =>
    ⟨offset, piece⟩ :: apart mark (offset + byteLength piece + mark.utf8Size) more

/-- The pieces of a text between the places of a mark, with no mark in them. -/
def between (mark : Char) (text : List Char) : List Cursor := apart mark 0 (text.splitOn mark)

variable {mark : Char}

theorem not_mem_rest_of_mem_apart (text : List Char) (n : Nat) {piece : Cursor}
    (h : piece ∈ apart mark n (text.splitOn mark)) : mark ∉ piece.rest := by
  induction text using split_induction mark generalizing n with
  | single text htext =>
    rw [List.splitOn_eq_singleton htext] at h
    rw [List.mem_singleton.mp h]
    exact htext
  | split run rest hrun ih =>
    rw [List.splitOn_append_cons_self_of_not_mem hrun, apart] at h
    rcases List.mem_cons.mp h with rfl | h
    · exact hrun
    · exact ih _ h

theorem le_finish (cur : Cursor) : cur ≤ cur.finish := ⟨cur.rest, (List.append_nil _).symm, rfl⟩

/-- The places of a text are those of its first piece and those behind the mark that ends it. -/
theorem onward_split (n : Nat) (run rest : List Char) : (⟨n, run ++ mark :: rest⟩ : Cursor).onward =
    (⟨n, run⟩ : Cursor).onward.map (extend (mark :: rest)) ++
      (⟨n + byteLength run + mark.utf8Size, rest⟩ : Cursor).onward := by
  have hsplit := onward_extend (mark :: rest) ⟨n, run⟩
  rw [onward_eq_starts ⟨n, run⟩, List.map_append, List.append_assoc]
  exact hsplit

end Cursor

namespace Match

/-- The same match when more text follows. -/
def extend (more : List Char) (m : Match) : Match := ⟨m.start.extend more, m.stop.extend more⟩

/-- Where all matches begin behind two bytes, it is the same from which of them they are chosen. -/
theorem select_eq_of_le {lower lower' : Nat} {ms : List Match}
    (h : ∀ m ∈ ms, lower ≤ m.start.offset ∧ lower' ≤ m.start.offset) :
    select lower ms = select lower' ms := by
  cases ms with
  | nil => rfl
  | cons m ms =>
    obtain ⟨hle, hle'⟩ := h m List.mem_cons_self
    rw [select, select, if_pos hle, if_pos hle']

/-- Matches that let the search go on before a byte leave those behind it to a search of their own. -/
theorem select_append_of_le {lower bound : Nat} (hlower : lower ≤ bound) {ms more : List Match}
    (hms : ∀ m ∈ ms, m.resume ≤ bound) (hmore : ∀ m ∈ more, bound ≤ m.start.offset) :
    select lower (ms ++ more) = select lower ms ++ select bound more := by
  induction ms generalizing lower with
  | nil =>
    apply select_eq_of_le
    intro m hm
    exact ⟨Nat.le_trans hlower (hmore m hm), hmore m hm⟩
  | cons m ms ih =>
    have hrest : ∀ n ∈ ms, n.resume ≤ bound := fun n hn => hms n (List.mem_cons_of_mem m hn)
    rw [List.cons_append, select, select]
    split
    · rw [ih (hms m List.mem_cons_self) hrest, List.cons_append]
    · exact ih hlower hrest

theorem select_map_extend (lower : Nat) (more : List Char) (ms : List Match) :
    select lower (ms.map (extend more)) = (select lower ms).map (extend more) := by
  apply select_map
  · exact fun _ _ => Iff.rfl
  · exact fun _ => Iff.rfl

end Match

section Lacks

variable {p : Pattern} {mark : Char} (hp : p.lookFree = true) (hlacks : p.Lacks mark)
include hp hlacks

theorem Pattern.reach_extend_of_lacks (cur : Cursor) (rest : List Char) :
    p.reach (cur.extend (mark :: rest)) = (p.reach cur).map (Cursor.extend (mark :: rest)) := by
  rw [← reach_extend hp cur (mark :: rest), upToByte]
  symm
  apply List.filter_eq_self.mpr
  intro stop hs
  by_contra hover
  have hlt : cur.finish.offset < stop.offset := by simpa using hover
  -- The match would pass over the mark that comes right behind the piece.
  have hmark := hlacks _ stop hs _ (Cursor.extend_le cur.le_finish (mark :: rest)) hlt
  change sameLetter mark mark = false at hmark
  rw [sameLetter_self] at hmark
  cases hmark

namespace Matcher

theorem matchAt_extend_of_lacks (cur : Cursor) (rest : List Char) :
    (plain p).matchAt (cur.extend (mark :: rest)) =
      ((plain p).matchAt cur).map (Cursor.extend (mark :: rest)) := by
  rw [matchAt_plain, matchAt_plain, reach_extend_of_lacks hp hlacks, List.head?_map]

theorem candidatesFrom_split (n : Nat) (run rest : List Char) :
    (plain p).candidatesFrom ⟨n, run ++ mark :: rest⟩ =
      ((plain p).candidatesFrom ⟨n, run⟩).map (Match.extend (mark :: rest)) ++
        (plain p).candidatesFrom ⟨n + byteLength run + mark.utf8Size, rest⟩ := by
  rw [candidatesFrom, Cursor.onward_split, List.filterMap_append, List.filterMap_map, candidatesFrom,
    List.map_filterMap]
  apply congrArg (· ++ _)
  apply List.filterMap_congr
  intro place _
  rw [Function.comp_apply, matchAt_extend_of_lacks hp hlacks]
  cases (plain p).matchAt place <;> rfl

omit hp hlacks in
/-- The matches of a piece, as if there were nothing around it. -/
def findIn (m : Matcher) (piece : Cursor) : List Span :=
  (Match.select piece.offset (m.candidatesFrom piece)).map (·.span)

omit hp hlacks in
theorem findIn_eq (m : Matcher) (piece : Cursor) {lower : Nat} (h : lower ≤ piece.offset) :
    m.findIn piece = (Match.select lower (m.candidatesFrom piece)).map (·.span) := by
  rw [findIn]
  apply congrArg
  apply Match.select_eq_of_le
  intro found hf
  have hle := Cursor.offset_le (mem_candidatesFrom.mp hf).1
  exact ⟨hle, Nat.le_trans h hle⟩

theorem select_between (text : List Char) {n lower : Nat} (hlower : lower ≤ n) :
    (Match.select lower ((plain p).candidatesFrom ⟨n, text⟩)).map (·.span) =
      (Cursor.apart mark n (text.splitOn mark)).flatMap (plain p).findIn := by
  induction text using split_induction mark generalizing n lower with
  | single text h =>
    rw [List.splitOn_eq_singleton h, Cursor.apart, Cursor.apart, List.flatMap_singleton,
      findIn_eq _ _ hlower]
  | split run rest h ih =>
    have hpos := mark.utf8Size_pos
    have hbound : lower ≤ n + byteLength run + mark.utf8Size := by omega
    have hrun : ∀ found ∈ ((plain p).candidatesFrom ⟨n, run⟩).map (Match.extend (mark :: rest)),
        found.resume ≤ n + byteLength run + mark.utf8Size := by
      intro found hf
      obtain ⟨inner, hi, rfl⟩ := List.mem_map.mp hf
      obtain ⟨hle, hmatch⟩ := mem_candidatesFrom.mp hi
      have hstart := Cursor.offset_le_finish hle
      have hstop := Cursor.offset_le_finish (Cursor.le_trans hle (le_of_matchAt hmatch))
      simp only [Match.resume, Match.extend, Cursor.offset_extend, Cursor.finish] at hstart hstop ⊢
      omega
    have hrest : ∀ found ∈ (plain p).candidatesFrom ⟨n + byteLength run + mark.utf8Size, rest⟩,
        n + byteLength run + mark.utf8Size ≤ found.start.offset :=
      fun found hf => Cursor.offset_le (mem_candidatesFrom.mp hf).1
    rw [candidatesFrom_split hp hlacks, Match.select_append_of_le hbound hrun hrest,
      Match.select_map_extend, List.map_append, List.map_map,
      List.splitOn_append_cons_self_of_not_mem h, Cursor.apart, List.flatMap_cons,
      ih (Nat.le_refl _), findIn_eq _ _ hlower]
    rfl

/-- All matches of a pattern that nowhere passes over the mark are found between the marks. -/
theorem findAll_between (text : List Char) :
    (plain p).findAll text = (Cursor.between mark text).flatMap (plain p).findIn := by
  rw [findAll, candidates_eq_from]
  exact select_between hp hlacks text (Nat.le_refl 0)

end Matcher

end Lacks

end MarkupAudit
