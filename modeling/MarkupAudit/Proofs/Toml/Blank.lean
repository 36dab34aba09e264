import MarkupAudit.Proofs.RelatedOutcome
import MarkupAudit.Toml.Blank
import Mathlib.Data.List.TakeWhile

/-!
What stands at the end of a line and says nothing: blanks and a comment. Lines of nothing else are
passed over together (`skipSpace_lines`).
-/

namespace MarkupAudit

namespace Cursor

variable {n : Nat} {c d : Char} {rest : List Char} {accepts : Char → Bool}

theorem uncons_cons : (⟨n, c :: rest⟩ : Cursor).uncons = some (c, ⟨n + c.utf8Size, rest⟩) := rfl

theorem expect_cons : (⟨n, c :: rest⟩ : Cursor).expect d =
    if c = d then some ⟨n + c.utf8Size, rest⟩ else none := rfl

theorem fst_takeWhile (accepts : Char → Bool) (cur : Cursor) :
    (cur.takeWhile accepts).1 = cur.rest.takeWhile accepts := by
  obtain ⟨n, rest⟩ := cur
  rw [takeWhile]
  dsimp only
  induction rest generalizing n with
  | nil => rfl
  | cons c rest ih =>
    rw [takeRun, List.takeWhile_cons]
    split
    · exact congrArg (c :: ·) (ih (n + c.utf8Size))
    · rfl

theorem rest_takeWhile (accepts : Char → Bool) (cur : Cursor) :
    (cur.takeWhile accepts).2.rest = cur.rest.dropWhile accepts := by
  obtain ⟨n, rest⟩ := cur
  rw [takeWhile]
  dsimp only
  induction rest generalizing n with
  | nil => rfl
  | cons c rest ih =>
    rw [takeRun, List.dropWhile_cons]
    split
    · exact ih (n + c.utf8Size)
    · rfl

theorem rest_skipWhile (accepts : Char → Bool) (cur : Cursor) :
    (cur.skipWhile accepts).rest = cur.rest.dropWhile accepts :=
  rest_takeWhile accepts cur

theorem skipWhile_of_not (h : accepts c = false) :
    (⟨n, c :: rest⟩ : Cursor).skipWhile accepts = ⟨n, c :: rest⟩ := by
  rw [skipWhile, takeWhile, takeRun, if_neg (by rw [h]; exact Bool.false_ne_true)]

end Cursor

namespace Toml

open Cursor (uncons_cons expect_cons rest_skipWhile)

inductive IsNewline : List Char → Prop where
  | lineFeed : IsNewline ['\n']
  | withReturn : IsNewline ['\r', '\n']

/-- Blanks up to the end of a line, and a comment or none. -/
inductive IsRemark : List Char → Prop where
  | blank {blanks : List Char} (h : ∀ c ∈ blanks, isBlank c = true) : IsRemark blanks
  | comment {blanks text : List Char} (h : ∀ c ∈ blanks, isBlank c = true)
      (htext : ∀ c ∈ text, isPlain c = true) : IsRemark (blanks ++ '#' :: text)

/-- Whole lines of which each is a remark. -/
inductive IsLines : List Char → Prop where
  | nil : IsLines []
  | cons {remark mark more : List Char} (hremark : IsRemark remark) (hmark : IsNewline mark)
      (h : IsLines more) : IsLines (remark ++ (mark ++ more))

/-- What may stand behind the last statement of a document. -/
inductive IsEnding : List Char → Prop where
  | intro {lines remark : List Char} (h : IsLines lines) (hremark : IsRemark remark) :
      IsEnding (lines ++ remark)

/-- The same text follows. -/
def Abreast (a b : Cursor) : Prop := a.rest = b.rest

section Newline

variable {mark rest : List Char} {c : Char} {cur next a b : Cursor} {n : Nat}

theorem newline_append (h : IsNewline mark) (n : Nat) (rest : List Char) :
    ∃ m, newline ⟨n, mark ++ rest⟩ = some ⟨m, rest⟩ := by
  cases h <;> exact ⟨_, rfl⟩

theorem newline_of_ne (hfeed : c ≠ '\n') (hreturn : c ≠ '\r') : newline ⟨n, c :: rest⟩ = none := by
  rw [newline, expect_cons, if_neg hfeed, Option.none_or, Cursor.expectAll, expect_cons,
    if_neg hreturn]
  rfl

theorem exists_newline (h : newline cur = some next) :
    ∃ mark, IsNewline mark ∧ cur.rest = mark ++ next.rest := by
  obtain ⟨n, _ | ⟨c, rest⟩⟩ := cur
  · cases h
  by_cases hfeed : c = '\n'
  · rw [newline, expect_cons, if_pos hfeed, Option.some_or] at h
    cases h
    exact ⟨['\n'], .lineFeed, by rw [hfeed]; rfl⟩
  by_cases hreturn : c = '\r'
  · rw [newline, expect_cons, if_neg hfeed, Option.none_or, Cursor.expectAll, expect_cons,
      if_pos hreturn, Option.bind_some, Cursor.expectAll] at h
    obtain ⟨behind, hbehind, h⟩ := Option.bind_eq_some_iff.mp h
    cases h
    cases rest with
    | nil => cases hbehind
    | cons d rest =>
      rw [expect_cons] at hbehind
      split at hbehind
      · rename_i hd
        cases hbehind
        exact ⟨['\r', '\n'], .withReturn, by rw [hreturn, hd]; rfl⟩
      · cases hbehind
  · rw [newline_of_ne hfeed hreturn] at h
    cases h

theorem length_lt_of_newline (h : newline cur = some next) :
    next.rest.length < cur.rest.length := by
  obtain ⟨mark, hmark, hrest⟩ := exists_newline h
  rw [hrest, List.length_append]
  cases hmark <;> simp

theorem Abreast.newline (h : Abreast a b) : Option.Rel Abreast (newline a) (newline b) := by
  obtain ⟨n, rest⟩ := a
  obtain ⟨m, _⟩ := b
  obtain rfl : rest = _ := h
  refine rel_of_forall (fun next ha => ?_) (fun next hb => ?_)
  · obtain ⟨mark, hmark, rfl⟩ := exists_newline ha
    obtain ⟨k, hk⟩ := newline_append hmark m next.rest
    exact ⟨_, hk, rfl⟩
  · obtain ⟨mark, hmark, rfl⟩ := exists_newline hb
    obtain ⟨k, hk⟩ := newline_append hmark n next.rest
    exact ⟨_, hk⟩

end Newline

section Skip

variable {cur a b : Cursor} {c : Char} {n m fuel fuel' : Nat} {rest : List Char}

theorem skipBlanks_cons (h : isBlank c = true) (m : Nat) :
    Abreast (skipBlanks ⟨n, c :: rest⟩) (skipBlanks ⟨m, rest⟩) := by
  rw [Abreast, skipBlanks, skipBlanks, rest_skipWhile, rest_skipWhile, List.dropWhile_cons, if_pos h]

theorem skipBlanks_of_not (h : isBlank c = false) :
    skipBlanks ⟨n, c :: rest⟩ = ⟨n, c :: rest⟩ := Cursor.skipWhile_of_not h

theorem Abreast.skipBlanks (h : Abreast a b) : Abreast (skipBlanks a) (skipBlanks b) := by
  rw [Abreast, Toml.skipBlanks, Toml.skipBlanks, rest_skipWhile, rest_skipWhile, h]

theorem skipComment_of_ne (h : c ≠ '#') : skipComment ⟨n, c :: rest⟩ = ⟨n, c :: rest⟩ := by
  rw [skipComment, expect_cons, if_neg h]

theorem rest_skipComment (n : Nat) (rest : List Char) :
    (skipComment ⟨n, '#' :: rest⟩).rest = rest.dropWhile isPlain := by
  rw [skipComment, expect_cons, if_pos rfl]
  exact rest_skipWhile isPlain _

theorem Abreast.skipComment (h : Abreast a b) : Abreast (skipComment a) (skipComment b) := by
  obtain ⟨n, rest⟩ := a
  obtain ⟨m, _⟩ := b
  obtain rfl : rest = _ := h
  cases rest with
  | nil => rfl
  | cons c rest =>
    by_cases hc : c = '#'
    · rw [hc, Abreast, rest_skipComment, rest_skipComment]
    · rw [skipComment_of_ne hc, skipComment_of_ne hc]
      rfl

theorem length_skipBlanks_le (cur : Cursor) :
    (skipBlanks cur).rest.length ≤ cur.rest.length := by
  rw [skipBlanks, rest_skipWhile]
  exact List.length_dropWhile_le _ _

theorem length_skipComment_le (cur : Cursor) :
    (skipComment cur).rest.length ≤ cur.rest.length := by
  obtain ⟨n, _ | ⟨c, rest⟩⟩ := cur
  · exact Nat.le_refl 0
  by_cases hc : c = '#'
  · rw [hc, rest_skipComment]
    exact Nat.le_succ_of_le (List.length_dropWhile_le _ _)
  · rw [skipComment_of_ne hc]

/-- The place behind the end of a line on which nothing more is said. -/
def nextLine (cur : Cursor) : Option Cursor := newline (skipComment (skipBlanks cur))

theorem length_lt_of_nextLine {next : Cursor} (h : nextLine cur = some next) :
    next.rest.length < cur.rest.length := by
  have hlt := length_lt_of_newline h
  have hcomment := length_skipComment_le (skipBlanks cur)
  have hblanks := length_skipBlanks_le cur
  omega

/-- The bound of the recursion is not reached. -/
theorem skipLines_congr (h : cur.rest.length < fuel) (h' : cur.rest.length < fuel') :
    skipLines fuel cur = skipLines fuel' cur := by
  induction fuel generalizing cur fuel' with
  | zero => cases h
  | succ fuel ih =>
    obtain ⟨fuel', rfl⟩ := Nat.exists_eq_succ_of_ne_zero (Nat.ne_zero_of_lt h')
    rw [skipLines, skipLines]
    cases hnext : newline (skipComment (skipBlanks cur)) with
    | none => rfl
    | some next =>
      have hlt := length_lt_of_nextLine hnext
      exact ih (by omega) (by omega)

theorem skipSpace_eq (cur : Cursor) :
    skipSpace cur = match nextLine cur with
      | none => skipBlanks cur
      | some next => skipSpace next := by
  rw [skipSpace, skipLines, nextLine]
  cases hnext : newline (skipComment (skipBlanks cur)) with
  | none => rfl
  | some next =>
    have hlt := length_lt_of_nextLine hnext
    exact skipLines_congr (by omega) (by omega)

theorem skipSpace_of_nextLine {next : Cursor} (h : nextLine cur = some next) :
    skipSpace cur = skipSpace next := by
  rw [skipSpace_eq, h]

theorem skipSpace_of_nextLine_eq_none (h : nextLine cur = none) :
    skipSpace cur = skipBlanks cur := by
  rw [skipSpace_eq, h]

/-- Blanks in front make no difference. -/
theorem abreast_skipSpace (h : Abreast (skipBlanks a) (skipBlanks b)) :
    Abreast (skipSpace a) (skipSpace b) := by
  induction hk : a.rest.length using Nat.strong_induction_on generalizing a b with
  | _ k ih =>
    have hnext : Option.Rel Abreast (nextLine a) (nextLine b) := h.skipComment.newline
    cases ha : nextLine a with
    | none =>
      rw [ha] at hnext
      cases hb : nextLine b with
      | none =>
        rw [skipSpace_of_nextLine_eq_none ha, skipSpace_of_nextLine_eq_none hb]
        exact h
      | some y =>
        rw [hb] at hnext
        cases hnext
    | some x =>
      rw [ha] at hnext
      have hlt := length_lt_of_nextLine ha
      cases hb : nextLine b with
      | none =>
        rw [hb] at hnext
        cases hnext
      | some y =>
        rw [hb, Option.rel_some_some] at hnext
        rw [skipSpace_of_nextLine ha, skipSpace_of_nextLine hb]
        exact ih _ (by omega) hnext.skipBlanks rfl

theorem length_skipSpace_le (cur : Cursor) :
    (skipSpace cur).rest.length ≤ cur.rest.length := by
  induction hk : cur.rest.length using Nat.strong_induction_on generalizing cur with
  | _ k ih =>
    cases hnext : nextLine cur with
    | none =>
      rw [skipSpace_of_nextLine_eq_none hnext]
      have hle := length_skipBlanks_le cur
      omega
    | some next =>
      rw [skipSpace_of_nextLine hnext]
      have hlt := length_lt_of_nextLine hnext
      have hle := ih _ (by omega) next rfl
      omega

end Skip

section Remark

variable {n : Nat} {remark mark text rest : List Char}

/-- The end of a line, or of the text. -/
def EndsLine (rest : List Char) : Prop := ∀ c, rest.head? = some c → c = '\n' ∨ c = '\r'

theorem endsLine_newline (h : IsNewline mark) (rest : List Char) : EndsLine (mark ++ rest) := by
  intro c hc
  cases h
  · exact Or.inl (Option.some.inj hc).symm
  · exact Or.inr (Option.some.inj hc).symm

theorem endsLine_nil : EndsLine [] := by
  intro c hc
  cases hc

theorem EndsLine.dropWhile_eq {accepts : Char → Bool} (h : EndsLine rest)
    (hfeed : accepts '\n' = false) (hreturn : accepts '\r' = false) :
    rest.dropWhile accepts = rest := by
  cases rest with
  | nil => rfl
  | cons c rest =>
    have hc : accepts c = false := by
      rcases h c rfl with rfl | rfl
      · exact hfeed
      · exact hreturn
    rw [List.dropWhile_cons, if_neg (by rw [hc]; exact Bool.false_ne_true)]

theorem rest_skipRemark (h : IsRemark remark) (hends : EndsLine rest) :
    (skipComment (skipBlanks ⟨n, remark ++ rest⟩)).rest = rest := by
  have hskip (cur : Cursor) (l : List Char) (hcur : cur.rest = l) :
      (skipComment cur).rest = (skipComment ⟨0, l⟩).rest :=
    Abreast.skipComment (a := cur) (b := ⟨0, l⟩) hcur
  cases h with
  | blank h =>
    have hblanks : (skipBlanks ⟨n, remark ++ rest⟩).rest = rest := by
      rw [skipBlanks, rest_skipWhile, List.dropWhile_append_of_pos h, hends.dropWhile_eq rfl rfl]
    rw [hskip _ _ hblanks]
    cases rest with
    | nil => rfl
    | cons c rest =>
      have hc : c ≠ '#' := by
        rintro rfl
        rcases hends '#' rfl with h | h <;> cases h
      rw [skipComment_of_ne hc]
  | @comment blanks text h htext =>
    have hblanks : (skipBlanks ⟨n, (blanks ++ '#' :: text) ++ rest⟩).rest = '#' :: (text ++ rest) := by
      rw [skipBlanks, rest_skipWhile, List.append_assoc, List.dropWhile_append_of_pos h]
      rfl
    rw [hskip _ _ hblanks, rest_skipComment, List.dropWhile_append_of_pos htext,
      hends.dropWhile_eq rfl rfl]

theorem nextLine_append (h : IsRemark remark) (hmark : IsNewline mark) (n : Nat)
    (rest : List Char) : ∃ m, nextLine ⟨n, remark ++ (mark ++ rest)⟩ = some ⟨m, rest⟩ := by
  obtain ⟨m, hm⟩ := newline_append hmark 0 rest
  have habreast : Abreast (skipComment (skipBlanks ⟨n, remark ++ (mark ++ rest)⟩))
      ⟨0, mark ++ rest⟩ := rest_skipRemark h (endsLine_newline hmark rest)
  have hnext := habreast.newline
  rw [hm] at hnext
  cases hfound : nextLine ⟨n, remark ++ (mark ++ rest)⟩ with
  | none =>
    rw [nextLine] at hfound
    rw [hfound] at hnext
    cases hnext
  | some next =>
    rw [nextLine] at hfound
    rw [hfound, Option.rel_some_some] at hnext
    obtain ⟨k, l⟩ := next
    obtain rfl : l = rest := hnext
    exact ⟨k, rfl⟩

theorem nextLine_remark (h : IsRemark remark) (n : Nat) : nextLine ⟨n, remark⟩ = none := by
  have hrest := rest_skipRemark (n := n) h endsLine_nil
  rw [List.append_nil] at hrest
  have hend (cur : Cursor) (hcur : cur.rest = []) : newline cur = none := by
    obtain ⟨m, rest⟩ := cur
    rw [show rest = [] from hcur]
    rfl
  exact hend _ hrest

theorem IsRemark.dropWhile (h : IsRemark remark) : IsRemark (remark.dropWhile isBlank) := by
  cases h with
  | blank h =>
    rw [List.dropWhile_eq_nil_iff.mpr h]
    exact .blank (by simp)
  | @comment blanks text h htext =>
    rw [List.dropWhile_append_of_pos h]
    have hnone : ∀ c ∈ ([] : List Char), isBlank c = true := by simp
    exact .comment hnone htext

theorem skipSpace_lines {lines : List Char} (h : IsLines lines) (n m : Nat) (rest : List Char) :
    Abreast (skipSpace ⟨n, lines ++ rest⟩) (skipSpace ⟨m, rest⟩) := by
  induction h generalizing n with
  | nil => exact abreast_skipSpace (Abreast.skipBlanks rfl)
  | @cons remark mark more hremark hmark _ ih =>
    obtain ⟨k, hk⟩ := nextLine_append hremark hmark n (more ++ rest)
    rw [← List.append_assoc, ← List.append_assoc] at hk
    rw [← List.append_assoc, skipSpace_of_nextLine hk]
    exact ih k

theorem isRemark_skipSpace {ending : List Char} (h : IsEnding ending) (n : Nat) :
    IsRemark (skipSpace ⟨n, ending⟩).rest := by
  obtain ⟨hlines, hremark⟩ := h
  rename_i lines remark
  rw [skipSpace_lines hlines n n remark, skipSpace_of_nextLine_eq_none (nextLine_remark hremark n),
    skipBlanks, rest_skipWhile]
  exact hremark.dropWhile

end Remark

end Toml

end MarkupAudit
