import MarkupAudit.Proofs.Pattern.Spelling
import MarkupAudit.Proofs.Search

/-!
Sections behind closing tags. The section at a place runs to the next level-two heading, and what
the rule looks for is its last deeper heading: the first that is found when one goes back from the
end of the section (`deepest_eq`). The state machine of the rule passes over the text once, but it
comes to the same as going from closing tag to closing tag (`skipEnd_outside`).
-/

namespace MarkupAudit

namespace Cursor

theorem pairwise_stretch (passable : Cursor → Bool) (cur : Cursor) :
    (cur.stretch passable).Pairwise (·.offset < ·.offset) := by
  obtain ⟨n, rest⟩ := cur
  induction rest generalizing n with
  | nil => exact List.pairwise_singleton ..
  | cons c rest ih =>
    rw [stretch_cons, List.pairwise_cons]
    split
    · refine ⟨?_, ih _⟩
      intro later hl
      exact lt_of_next_le (mem_stretch.mp hl).1
    · exact ⟨by simp, .nil⟩

end Cursor

namespace HeadingSkip

open Pattern Cursor
open Matcher (plain matchAt_plain mem_reach_of_matchAt isSome_matchAt_plain matchAt_plain_eq_none)

theorem isTag : ∀ word ∈ ["</h1>", "<h2", "<h3", "<h4", "<h5", "<h6"], IsTag word := by
  intro word hw
  simp only [List.mem_cons, List.not_mem_nil, or_false] at hw
  rcases hw with rfl | rfl | rfl | rfl | rfl | rfl <;> exact isTag_of_all rfl (by decide)

theorem tags_closing : closing.Tags ["</h1>"] := tags_literal (isTag "</h1>" (by simp))

theorem tags_levelTwo : levelTwo.Tags ["<h2"] := tags_literal (isTag "<h2" (by simp))

theorem eq_of_deep {c : Char} (h : '3' ≤ c ∧ c ≤ '6') : c = '3' ∨ c = '4' ∨ c = '5' ∨ c = '6' := by
  have hc : c.toNat = 51 ∨ c.toNat = 52 ∨ c.toNat = 53 ∨ c.toNat = 54 := by
    have h1 : 51 ≤ c.toNat := h.1
    have h2 : c.toNat ≤ 54 := h.2
    omega
  rw [← Char.ofNat_toNat c]
  rcases hc with hc | hc | hc | hc <;> rw [hc] <;> decide

theorem spells_deeper {a b : Cursor} (hb : b ∈ deeper.reach a) :
    ∃ word ∈ ["<h3", "<h4", "<h5", "<h6"], a.spell? word.toList = some b := by
  rw [deeper, reach_seq, reach_literal] at hb
  obtain ⟨⟨n, rest⟩, hm, hb⟩ := List.mem_flatMap.mp hb
  rw [Option.mem_toList] at hm
  rw [between, reach_char] at hb
  cases rest with
  | nil => simp [passes] at hb
  | cons c rest =>
    have hpasses : passes (fun c => decide ('3' ≤ c) && decide (c ≤ '6')) ⟨n, c :: rest⟩ =
        (decide ('3' ≤ c) && decide (c ≤ '6')) := rfl
    rw [hpasses, Cursor.next?] at hb
    split at hb
    · rename_i hc
      simp only [Bool.and_eq_true, decide_eq_true_eq] at hc
      have hdigit : (⟨n, c :: rest⟩ : Cursor).spell? [c] = some b := by
        rw [spell?_cons, if_pos (Text.sameLetter_self c), List.mem_singleton.mp hb]
        rfl
      have hword : a.spell? ("<h".toList ++ [c]) = some b := by
        rw [spell?_append, hm]
        exact hdigit
      rcases eq_of_deep hc with rfl | rfl | rfl | rfl
      · exact ⟨"<h3", by simp, hword⟩
      · exact ⟨"<h4", by simp, hword⟩
      · exact ⟨"<h5", by simp, hword⟩
      · exact ⟨"<h6", by simp, hword⟩
    · cases hb

theorem tags_deeper : deeper.Tags ["<h3", "<h4", "<h5", "<h6"] where
  spells _ _ := spells_deeper
  isTag word hw := isTag word (by simp_all)

theorem not_closing_of_levelTwo {cur : Cursor} (h : levelTwo.matchesAt cur = true) :
    closing.matchesAt cur = false := tags_levelTwo.exclude tags_closing (by decide) h

theorem not_deeper_of_levelTwo {cur : Cursor} (h : levelTwo.matchesAt cur = true) :
    deeper.matchesAt cur = false := tags_levelTwo.exclude tags_deeper (by decide) h

def deepest (cur : Cursor) : Option Cursor := lastDeeper cur.offset cur.rest

theorem deepest_cons (n : Nat) (c : Char) (rest : List Char) : deepest ⟨n, c :: rest⟩ =
    if levelTwo.matchesAt ⟨n, c :: rest⟩ then none
    else (deepest ⟨n + c.utf8Size, rest⟩).or ((plain deeper).matchAt ⟨n, c :: rest⟩) := rfl

/-- The section of a place is that of a later one when no tag opens between them. -/
theorem deepest_eq_of_not_atTag {a b : Cursor} (hab : a ≤ b)
    (h : ∀ m, a ≤ m → m.offset < b.offset → ¬m.AtTag) : deepest a = deepest b := by
  obtain ⟨n, rest⟩ := a
  induction rest generalizing n with
  | nil => rw [eq_of_le_end hab]
  | cons c rest ih =>
    rcases eq_or_next_le hab with rfl | hnext
    · rfl
    · have hno := h _ (Cursor.le_refl _) (lt_of_next_le hnext)
      rw [deepest_cons, tags_levelTwo.not_matchesAt hno,
        matchAt_plain_eq_none (tags_deeper.not_matchesAt hno), Option.or_none]
      apply ih _ hnext
      intro m hm hlt
      exact h m (Cursor.le_trans le_next hm) hlt

/-- The way back through a section: as far as no level-two heading comes in between. -/
def clear (cur : Cursor) : Bool := !levelTwo.matchesAt cur

theorem deepest_eq (cur : Cursor) :
    deepest cur = (cur.stretch clear).reverse.findSome? (plain deeper).matchAt := by
  obtain ⟨n, rest⟩ := cur
  induction rest generalizing n with
  | nil => rfl
  | cons c rest ih =>
    rw [deepest_cons, stretch_cons, List.reverse_cons, List.findSome?_append,
      List.findSome?_singleton]
    by_cases h2 : levelTwo.matchesAt ⟨n, c :: rest⟩ = true
    · rw [if_pos h2, if_neg (by simp [clear, h2]),
        matchAt_plain_eq_none (not_deeper_of_levelTwo h2)]
      rfl
    · rw [if_neg h2, if_pos (by simp [clear, h2]), ih]

/-- Where the last deeper heading ends behind the first closing tag whose section has one. -/
def firstSection (cur : Cursor) : Option Cursor :=
  cur.onward.findSome? fun close => ((plain closing).matchAt close).bind deepest

theorem firstSection_cons (n : Nat) (c : Char) (rest : List Char) :
    firstSection ⟨n, c :: rest⟩ =
      (((plain closing).matchAt ⟨n, c :: rest⟩).bind deepest).or
        (firstSection ⟨n + c.utf8Size, rest⟩) := by
  rw [firstSection, onward, after_cons, List.findSome?_cons]
  cases ((plain closing).matchAt ⟨n, c :: rest⟩).bind deepest <;> rfl

theorem deepest_of_closing {n : Nat} {c : Char} {rest : List Char} {closed : Cursor}
    (h : (plain closing).matchAt ⟨n, c :: rest⟩ = some closed) :
    deepest ⟨n + c.utf8Size, rest⟩ = deepest closed := by
  have hmem := mem_reach_of_matchAt h
  apply deepest_eq_of_not_atTag (tags_closing.next_le hmem)
  intro m hm hmc
  exact tags_closing.not_atTag_behind hmem hm hmc

/-- The state machine goes from closing tag to closing tag, and inside of a section it has its
last deeper heading before all of what follows. -/
theorem skipEnd_eq (cur : Cursor) : skipEnd false cur.offset cur.rest = firstSection cur ∧
    skipEnd true cur.offset cur.rest = (deepest cur).or (firstSection cur) := by
  -- Neither half goes through alone: a closing tag leads from the one state into the other, and a
  -- level-two heading back.
  obtain ⟨n, rest⟩ := cur
  induction rest generalizing n with
  | nil => exact ⟨rfl, rfl⟩
  | cons c rest ih =>
    obtain ⟨outside, inside⟩ := ih (n + c.utf8Size)
    simp only at outside inside
    have hclosing : closing.matchesAt ⟨n, c :: rest⟩ =
        ((plain closing).matchAt ⟨n, c :: rest⟩).isSome := (isSome_matchAt_plain _ _).symm
    have hdeeper : deeper.matchesAt ⟨n, c :: rest⟩ =
        ((plain deeper).matchAt ⟨n, c :: rest⟩).isSome := (isSome_matchAt_plain _ _).symm
    rw [firstSection_cons]
    constructor
    · rw [skipEnd, hclosing]
      cases hm : (plain closing).matchAt ⟨n, c :: rest⟩ with
      | none => exact outside
      | some closed => rw [Option.isSome_some, inside, deepest_of_closing hm, Option.bind_some]
    · rw [skipEnd, deepest_cons]
      by_cases h2 : levelTwo.matchesAt ⟨n, c :: rest⟩ = true
      · rw [if_pos h2, if_pos h2, matchAt_plain_eq_none (not_closing_of_levelTwo h2)]
        exact outside
      · rw [if_neg h2, if_neg h2, hdeeper]
        cases hd : (plain deeper).matchAt ⟨n, c :: rest⟩ with
        | none =>
          rw [Option.isSome_none, if_neg (by simp), inside, Option.or_none]
          cases hm : (plain closing).matchAt ⟨n, c :: rest⟩ with
          | none => rfl
          | some closed =>
            rw [Option.bind_some, ← deepest_of_closing hm]
            cases deepest ⟨n + c.utf8Size, rest⟩ <;> rfl
        | some stop =>
          have hlast : lastDeeper n (c :: rest) =
              (deepest ⟨n + c.utf8Size, rest⟩).or (some stop) := by
            rw [← hd]
            exact if_neg h2
          rw [Option.isSome_some, if_pos rfl, hlast]
          cases deepest ⟨n + c.utf8Size, rest⟩ <;> rfl

end HeadingSkip

end MarkupAudit
