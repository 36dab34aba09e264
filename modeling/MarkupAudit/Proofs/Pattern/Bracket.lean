import MarkupAudit.Proofs.Pattern.Spelling

/-!
The rest of a tag. Behind the name of a tag a pattern reads on to the first closing bracket, and no
other place will do: there is one way at most to end a tag (`toList_head?_reach_tagEnd`).
-/

namespace MarkupAudit.Pattern

/-- The rest of a tag, up to and with its closing bracket. -/
def tagEnd : Pattern := concat [star (noneOf ['>']), exactly '>']

def passesRun (cur : Cursor) : Bool := passes (fun c => !(['>'].contains c)) cur

theorem passesRun_cons (n : Nat) (c : Char) (rest : List Char) :
    passesRun ⟨n, c :: rest⟩ = true ↔ c ≠ '>' := by
  simp [passesRun, passes]

theorem reach_run (cur : Cursor) :
    (star (noneOf ['>'])).reach cur = (cur.stretch passesRun).reverse :=
  reach_star_of_step (steps_char _) cur

theorem reach_exactly (n : Nat) (c : Char) (rest : List Char) : (exactly '>').reach ⟨n, c :: rest⟩ =
    if c = '>' then [⟨n + c.utf8Size, rest⟩] else [] := by
  rw [exactly, reach_char]
  by_cases hc : c = '>'
  · simp [passes, Cursor.next?, hc]
  · simp [passes, hc]

theorem reach_tagEnd (cur : Cursor) :
    tagEnd.reach cur = (cur.stretch passesRun).reverse.flatMap (exactly '>').reach := by
  rw [tagEnd, reach_concat_cons, reach_run]
  rfl

theorem reach_tagEnd_end (n : Nat) : tagEnd.reach ⟨n, []⟩ = [] := rfl

theorem reach_tagEnd_cons (n : Nat) (c : Char) (rest : List Char) :
    tagEnd.reach ⟨n, c :: rest⟩ =
      if c = '>' then [⟨n + c.utf8Size, rest⟩] else tagEnd.reach ⟨n + c.utf8Size, rest⟩ := by
  rw [reach_tagEnd, Cursor.stretch_cons]
  by_cases hc : c = '>'
  · rw [if_pos hc, if_neg (by simp [passesRun_cons, hc]), List.reverse_singleton,
      List.flatMap_singleton, reach_exactly, if_pos hc]
  · rw [if_neg hc, if_pos ((passesRun_cons _ _ _).mpr hc), List.reverse_cons,
      List.flatMap_append, List.flatMap_singleton, reach_exactly, if_neg hc, List.append_nil,
      ← reach_tagEnd]

theorem reach_tagEnd_of_not_mem {text : List Char} (h : '>' ∉ text) (n : Nat) :
    tagEnd.reach ⟨n, text⟩ = [] := by
  induction text generalizing n with
  | nil => exact reach_tagEnd_end n
  | cons c rest ih =>
    rw [List.mem_cons, not_or] at h
    rw [reach_tagEnd_cons, if_neg (Ne.symm h.1), ih h.2]

theorem toList_head?_reach_tagEnd (cur : Cursor) :
    (tagEnd.reach cur).head?.toList = tagEnd.reach cur := by
  obtain ⟨n, rest⟩ := cur
  induction rest generalizing n with
  | nil => rfl
  | cons c rest ih =>
    rw [reach_tagEnd_cons]
    split
    · rfl
    · exact ih _

end MarkupAudit.Pattern
