import MarkupAudit.Proofs.Toml.Layout
import MarkupAudit.Toml.Moment
import MarkupAudit.Toml.Number

/-!
Numbers, dates and times in texts that are alike but for remarks: they are written with ordinary
characters only, so both sides read the same.
-/

namespace MarkupAudit

namespace Toml

open Cursor (uncons_cons expect_cons)

variable {a b : Cursor} {accepts : Char → Bool} {c : Char}

def unmarked : List Char := ['"', '\'', '#', '\n', '\r', ' ', '\t']

theorem isMark_eq_false_iff : isMark c = false ↔ c ∈ unmarked := by
  simp only [isMark, isOrdinary, isBlank, unmarked, Bool.and_eq_false_iff, bne_eq_false_iff_eq,
    Bool.not_eq_false', Bool.or_eq_true, beq_iff_eq, List.mem_cons, List.not_mem_nil, or_assoc,
    or_false]

theorem isMark_of_accepts (hnot : unmarked.any accepts = false) (h : accepts c = true) :
    isMark c = true := by
  cases hc : isMark c with
  | true => rfl
  | false => exact absurd h (List.any_eq_false.mp hnot c (isMark_eq_false_iff.mp hc))

theorem not_accepts (hnot : unmarked.any accepts = false) (h : isMark c = false) :
    ¬accepts c = true := List.any_eq_false.mp hnot c (isMark_eq_false_iff.mp h)

theorem not_isDigit_unmarked : unmarked.any Char.isDigit = false := by decide

/-! ### Dates and times -/

section Moment

variable {low high : Nat}

theorem upto_read (count acc : Nat) (h : AlikeButRemarks a.rest b.rest) :
    Option.Rel (Told Eq (Upto AlikeButRemarks a b)) (numeral.read low high count acc a)
      (numeral.read low high count acc b) := by
  induction count generalizing acc a b with
  | zero =>
    rw [numeral.read, numeral.read]
    split
    · exact .some ⟨rfl, upto_self h⟩
    · exact .none
  | succ count ih =>
    rw [numeral.read, numeral.read]
    refine rel_uncons (Or.inl h) ?_ ?_ ?_
    · intro c x y _ hxy
      dsimp only
      split
      · exact rel_mono (ih _ hxy.alike) fun _ _ huv => ⟨huv.1, (hxy.upto_past huv.2).upto⟩
      · exact .none
    all_goals exact fun c x hc => if_neg (not_accepts not_isDigit_unmarked hc)

theorem rel_numeral (count : Nat) (h : AlikeButRemarks a.rest b.rest) :
    Option.Rel (Told Eq (Past a b)) (numeral (count + 1) low high a)
      (numeral (count + 1) low high b) := by
  rw [numeral, numeral, numeral.read, numeral.read]
  refine rel_uncons (Or.inl h) ?_ ?_ ?_
  · intro c x y _ hxy
    dsimp only
    split
    · exact rel_mono (upto_read count _ hxy.alike) fun _ _ huv => ⟨huv.1, hxy.upto_past huv.2⟩
    · exact .none
  all_goals exact fun c x hc => if_neg (not_accepts not_isDigit_unmarked hc)

theorem rel_date (h : AlikeButRemarks a.rest b.rest) :
    Option.Rel (Past a b) (date a) (date b) := by
  refine rel_bind (rel_numeral 3 h) ?_
  rintro ⟨year, a₁⟩ ⟨_, b₁⟩ ⟨rfl, h₁⟩
  refine rel_bind (rel_expect (Or.inl h₁.alike) rfl) fun a₂ b₂ h₂ => ?_
  refine rel_bind (rel_numeral 1 h₂.alike) ?_
  rintro ⟨month, a₃⟩ ⟨_, b₃⟩ ⟨rfl, h₃⟩
  refine rel_bind (rel_expect (Or.inl h₃.alike) rfl) fun a₄ b₄ h₄ => ?_
  refine rel_bind (rel_numeral 1 h₄.alike) ?_
  rintro ⟨day, a₅⟩ ⟨_, b₅⟩ ⟨rfl, h₅⟩
  exact .some (h₁.trans (h₂.trans (h₃.trans (h₄.trans h₅))))

theorem rel_time (h : AlikeButRemarks a.rest b.rest) :
    Option.Rel (Past a b) (time a) (time b) := by
  refine rel_bind (rel_numeral 1 h) ?_
  rintro ⟨hour, a₁⟩ ⟨_, b₁⟩ ⟨rfl, h₁⟩
  refine rel_bind (rel_expect (Or.inl h₁.alike) rfl) fun a₂ b₂ h₂ => ?_
  refine rel_bind (rel_numeral 1 h₂.alike) ?_
  rintro ⟨minute, a₃⟩ ⟨_, b₃⟩ ⟨rfl, h₃⟩
  refine rel_bind (rel_expect (Or.inl h₃.alike) rfl) fun a₄ b₄ h₄ => ?_
  refine rel_bind (rel_numeral 1 h₄.alike) ?_
  rintro ⟨second, a₅⟩ ⟨_, b₅⟩ ⟨rfl, h₅⟩
  have hsecond : Past a b a₅ b₅ := h₁.trans (h₂.trans (h₃.trans (h₄.trans h₅)))
  have hpoint := rel_expect (Or.inl h₅.alike) (c := '.') rfl
  dsimp only
  generalize a₅.expect '.' = x, b₅.expect '.' = y at hpoint
  cases hpoint with
  | none => exact .some hsecond
  | some hxy =>
    obtain ⟨htake, hrest⟩ := rel_takeWhile hxy.alike
      fun c => isMark_of_accepts not_isDigit_unmarked (c := c)
    dsimp only
    rw [htake]
    split
    · exact .none
    · exact .some (hsecond.trans (hxy.upto_past hrest))

theorem rel_offset (h : AlikeButRemarks a.rest b.rest) :
    Option.Rel (Past a b) (offset a) (offset b) := by
  have hnone (c : Char) (x : Cursor) (y : Option Cursor) (hc : isMark c = false) :
      (if c = 'Z' ∨ c = 'z' then some x else if c = '+' ∨ c = '-' then y else none) = none := by
    rw [isMark_eq_false_iff] at hc
    rw [if_neg, if_neg]
    · rintro (rfl | rfl) <;> revert hc <;> decide
    · rintro (rfl | rfl) <;> revert hc <;> decide
  rw [offset, offset]
  refine rel_uncons (Or.inl h) ?_ (fun c x => hnone c x _) (fun c x => hnone c x _)
  intro c a₁ b₁ _ h₁
  dsimp only
  split
  · exact .some h₁
  split
  · refine rel_bind (rel_numeral 1 h₁.alike) ?_
    rintro ⟨hour, a₂⟩ ⟨_, b₂⟩ ⟨rfl, h₂⟩
    refine rel_bind (rel_expect (Or.inl h₂.alike) rfl) fun a₃ b₃ h₃ => ?_
    refine rel_bind (rel_numeral 1 h₃.alike) ?_
    rintro ⟨minute, a₄⟩ ⟨_, b₄⟩ ⟨rfl, h₄⟩
    exact .some (h₁.trans (h₂.trans (h₃.trans h₄)))
  · exact .none

theorem time_of_not_begins {cur : Cursor} (h : ¬Begins cur.rest) : time cur = none := by
  have hnumeral : numeral 2 0 23 cur = none := by
    rw [numeral, numeral.read]
    cases hc : cur.uncons with
    | none => rfl
    | some found =>
      have hmark := uncons_of_not_begins h found.1 found.2 hc
      exact if_neg (not_accepts not_isDigit_unmarked hmark)
  rw [time, hnumeral]
  rfl

/-- Behind a blank there can be a time only if something begins there. -/
theorem blank_time_eq_none {n : Nat} {rest : List Char}
    (h : ∀ more, rest = ' ' :: more → ¬Solid more) :
    ((⟨n, rest⟩ : Cursor).expect ' ').bind time = none := by
  cases rest with
  | nil => rfl
  | cons c rest =>
    rw [expect_cons]
    split
    · rename_i hc
      exact time_of_not_begins fun hbegins => h rest (by rw [hc]) hbegins.solid
    · rfl

theorem IsRemark.tail {blank : Char} {remark : List Char} (h : IsRemark (blank :: remark))
    (hblank : isBlank blank = true) : IsRemark remark := by
  generalize htext : blank :: remark = text at h
  cases h with
  | blank h =>
    subst htext
    exact .blank fun c hc => h c (List.mem_cons_of_mem _ hc)
  | @comment blanks _ h hcomment =>
    cases blanks with
    | nil =>
      obtain ⟨rfl, _⟩ := List.cons.inj htext
      cases hblank
    | cons c blanks =>
      obtain ⟨_, rfl⟩ := List.cons.inj htext
      exact .comment (fun c hc => h c (List.mem_cons_of_mem _ hc)) hcomment

theorem not_solid_behind_lines {l rest more : List Char} (h : IsLines l) (hne : l ≠ [])
    (hl : l ++ rest = ' ' :: more) : ¬Solid more := by
  cases h with
  | nil => exact absurd rfl hne
  | @cons remark mark l hremark hmark =>
    rw [List.append_assoc, List.append_assoc] at hl
    cases remark with
    | nil => cases hmark <;> cases hl
    | cons c remark =>
      obtain ⟨rfl, rfl⟩ := List.cons.inj hl
      exact not_solid_remark (hremark.tail rfl) (not_solid_newline hmark _)

theorem not_solid_behind_ending {ending more : List Char} (h : IsEnding ending)
    (hl : ending = ' ' :: more) : ¬Solid more := by
  obtain ⟨hlines, hremark⟩ := h
  rename_i lines remark
  by_cases hne : lines = []
  · rw [hne, List.nil_append] at hl
    subst hl
    rw [← List.append_nil more]
    exact not_solid_remark (hremark.tail rfl) not_solid_nil
  · exact not_solid_behind_lines hlines hne hl

theorem rel_blank_time (h : AlikeButRemarks a.rest b.rest) :
    Option.Rel (Past a b) ((a.expect ' ').bind time) ((b.expect ' ').bind time) := by
  obtain ⟨n, a⟩ := a
  obtain ⟨m, b⟩ := b
  dsimp only at h
  have hchar {c : Char} {x y : List Char} (h : AlikeButRemarks x y) :
      Option.Rel (Past ⟨n, c :: x⟩ ⟨m, c :: y⟩) (((⟨n, c :: x⟩ : Cursor).expect ' ').bind time)
        (((⟨m, c :: y⟩ : Cursor).expect ' ').bind time) := by
    rw [expect_cons, expect_cons]
    split
    · refine rel_mono (rel_time (a := ⟨_, x⟩) (b := ⟨_, y⟩) h) fun u v huv => ?_
      exact ⟨huv.alike, Nat.lt_succ_of_lt huv.left, Nat.lt_succ_of_lt huv.right⟩
    · exact .none
  cases h with
  | same =>
    cases a with
    | nil => exact .none
    | cons c rest => exact hchar (.same rest)
  | char _ h => exact hchar h
  | string hq =>
    obtain ⟨quote, rest, hquote, rfl⟩ := hq.exists_quote
    have hne : quote ≠ ' ' := by rcases hquote with rfl | rfl <;> decide
    rw [List.cons_append, List.cons_append, expect_cons, expect_cons, if_neg hne, if_neg hne]
    exact .none
  | lines hl hl' hne hne' =>
    rw [blank_time_eq_none fun more hmore => not_solid_behind_lines hl hne hmore,
      blank_time_eq_none fun more hmore => not_solid_behind_lines hl' hne' hmore]
    exact .none
  | ending ha hb =>
    rw [blank_time_eq_none fun more hmore => not_solid_behind_ending ha hmore,
      blank_time_eq_none fun more hmore => not_solid_behind_ending hb hmore]
    exact .none

theorem rel_bind_time (h : AlikeButRemarks a.rest b.rest) :
    Option.Rel (Past a b) ((dateTimeMark a).bind time) ((dateTimeMark b).bind time) := by
  have hletter {x y : Option Cursor} (hxy : Option.Rel (Past a b) x y) :
      Option.Rel (Past a b) (x.bind time) (y.bind time) :=
    rel_bind hxy fun u v huv => rel_mono (rel_time huv.alike) fun _ _ => huv.trans
  have hupper := rel_expect (Or.inl h) (c := 'T') rfl
  have hlower := rel_expect (Or.inl h) (c := 't') rfl
  rw [dateTimeMark, dateTimeMark]
  generalize a.expect 'T' = x, b.expect 'T' = y at hupper
  cases hupper with
  | some hxy => exact hletter (.some hxy)
  | none =>
    generalize a.expect 't' = x, b.expect 't' = y at hlower
    cases hlower with
    | some hxy => exact hletter (.some hxy)
    | none => exact rel_blank_time h

theorem rel_moment (h : AlikeButRemarks a.rest b.rest) :
    Option.Rel (Past a b) (moment a) (moment b) := by
  have hdate := rel_date h
  rw [moment, moment]
  generalize date a = x, date b = y at hdate
  cases hdate with
  | none => exact rel_time h
  | @some afterDate afterDate' hd =>
    have htime := rel_bind_time hd.alike
    dsimp only
    generalize (dateTimeMark afterDate).bind time = x, (dateTimeMark afterDate').bind time = y
      at htime
    cases htime with
    | none => exact .some hd
    | @some afterTime afterTime' ht =>
      have hoffset := rel_offset ht.alike
      dsimp only
      generalize offset afterTime = x, offset afterTime' = y at hoffset
      cases hoffset with
      | none => exact .some (hd.trans ht)
      | some ho => exact .some (hd.trans (ht.trans ho))

end Moment

/-! ### Numbers -/

section Number

theorem moreDigits_of_ne {rest : List Char} (n : Nat) (hc : c ≠ '_') :
    moreDigits accepts n (c :: rest) =
      if accepts c then
        (c :: (moreDigits accepts (n + c.utf8Size) rest).1,
          (moreDigits accepts (n + c.utf8Size) rest).2)
      else ([], ⟨n, c :: rest⟩) := by
  rw [moreDigits]
  exact fun d more hunder => absurd hunder hc

theorem moreDigits_of_underscore {d : Char} {rest : List Char} (n : Nat) :
    moreDigits accepts n ('_' :: d :: rest) =
      if accepts d then
        (d :: (moreDigits accepts (n + 1 + d.utf8Size) rest).1,
          (moreDigits accepts (n + 1 + d.utf8Size) rest).2)
      else ([], ⟨n, '_' :: d :: rest⟩) := by
  rw [moreDigits]

theorem moreDigits_stop {rest : List Char} (hnot : unmarked.any accepts = false) (n : Nat)
    (h : ¬Begins rest) : moreDigits accepts n rest = ([], ⟨n, rest⟩) := by
  cases rest with
  | nil => rfl
  | cons c rest =>
    rw [begins_cons_iff, Bool.not_eq_true] at h
    have hc : c ≠ '_' := by
      rintro rfl
      cases h
    rw [moreDigits_of_ne n hc, if_neg (not_accepts hnot h)]

theorem moreDigits_stop_underscore {rest : List Char} (hnot : unmarked.any accepts = false)
    (hunder : accepts '_' = false) (n : Nat) (h : ¬Begins rest) :
    moreDigits accepts n ('_' :: rest) = ([], ⟨n, '_' :: rest⟩) := by
  cases rest with
  | nil => simp [moreDigits, hunder]
  | cons c rest =>
    rw [begins_cons_iff, Bool.not_eq_true] at h
    rw [moreDigits_of_underscore, if_neg (not_accepts hnot h)]

/-- The same digits, and places behind them. -/
theorem told_moreDigits {x y : List Char} (hnot : unmarked.any accepts = false)
    (hunder : accepts '_' = false) (h : AlikeButRemarks x y) (n m : Nat) :
    Told Eq (Upto AlikeButRemarks ⟨n, x⟩ ⟨m, y⟩) (moreDigits accepts n x) (moreDigits accepts m y) := by
  induction hk : x.length using Nat.strong_induction_on generalizing x y n m with
  | _ k ih =>
    have hdigit {c : Char} {x' y' : List Char} {n' m' : Nat} (h : AlikeButRemarks x' y')
        (hx : x'.length < x.length) (hy : y'.length < y.length) :
        Told Eq (Upto AlikeButRemarks ⟨n, x⟩ ⟨m, y⟩) (c :: (moreDigits accepts n' x').1, (moreDigits accepts n' x').2)
          (c :: (moreDigits accepts m' y').1, (moreDigits accepts m' y').2) := by
      obtain ⟨hdigits, hplaces⟩ := ih x'.length (by omega) h n' m' rfl
      exact ⟨congrArg (c :: ·) hdigits, hplaces.alike,
        Nat.le_trans hplaces.left (Nat.le_of_lt hx), Nat.le_trans hplaces.right (Nat.le_of_lt hy)⟩
    have hstay : Told Eq (Upto AlikeButRemarks ⟨n, x⟩ ⟨m, y⟩) (([] : List Char), (⟨n, x⟩ : Cursor))
        (([] : List Char), (⟨m, y⟩ : Cursor)) := ⟨rfl, upto_self (a := ⟨n, x⟩) (b := ⟨m, y⟩) h⟩
    rcases h.step with ⟨c, x', y', _, rfl, rfl, hmore⟩ | ⟨hx, hy⟩
    · by_cases hc : c = '_'
      · subst hc
        rcases hmore.step with ⟨d, x'', y'', _, rfl, rfl, hrest⟩ | ⟨hx, hy⟩
        · rw [moreDigits_of_underscore, moreDigits_of_underscore]
          split
          · refine hdigit hrest ?_ ?_
            · simp only [List.length_cons]
              omega
            · simp only [List.length_cons]
              omega
          · exact hstay
        · rw [moreDigits_stop_underscore hnot hunder n hx,
            moreDigits_stop_underscore hnot hunder m hy]
          exact hstay
      · rw [moreDigits_of_ne n hc, moreDigits_of_ne m hc]
        split
        · exact hdigit hmore (Nat.lt_succ_self _) (Nat.lt_succ_self _)
        · exact hstay
    · rw [moreDigits_stop hnot n hx, moreDigits_stop hnot m hy]
      exact hstay

theorem rel_digits (hnot : unmarked.any accepts = false) (hunder : accepts '_' = false)
    (h : AlikeButRemarks a.rest b.rest) :
    Option.Rel (Told Eq (Past a b)) (digits accepts a) (digits accepts b) := by
  refine rel_uncons (Or.inl h) ?_ ?_ ?_
  · intro c x y _ hxy
    dsimp only
    split
    · obtain ⟨hdigits, hplaces⟩ := told_moreDigits hnot hunder hxy.alike x.offset y.offset
      exact .some ⟨congrArg (c :: ·) hdigits, hxy.upto_past hplaces⟩
    · exact .none
  all_goals exact fun c x hc => if_neg (not_accepts hnot hc)

theorem rel_decimals (h : AlikeButRemarks a.rest b.rest) :
    Option.Rel (Told Eq (Past a b)) (digits Char.isDigit a) (digits Char.isDigit b) :=
  rel_digits not_isDigit_unmarked rfl h

theorem told_sign (h : AlikeButRemarks a.rest b.rest) :
    Told Eq (Upto AlikeButRemarks a b) (sign a) (sign b) := by
  have hminus := rel_expect (Or.inl h) (c := '-') rfl
  have hplus := rel_expect (Or.inl h) (c := '+') rfl
  rw [sign, sign]
  generalize a.expect '-' = x, b.expect '-' = y at hminus
  generalize a.expect '+' = x', b.expect '+' = y' at hplus
  cases hminus with
  | some hxy => exact ⟨rfl, hxy.upto⟩
  | none =>
    cases hplus with
    | some hxy => exact ⟨rfl, hxy.upto⟩
    | none => exact ⟨rfl, upto_self h⟩

theorem rel_wholeDigits (h : AlikeButRemarks a.rest b.rest) :
    Option.Rel (Told Eq (Past a b)) (wholeDigits a) (wholeDigits b) := by
  have hzero := rel_expect (Or.inl h) (c := '0') rfl
  rw [wholeDigits, wholeDigits]
  generalize a.expect '0' = x, b.expect '0' = y at hzero
  cases hzero with
  | some hxy => exact .some ⟨rfl, hxy⟩
  | none => exact rel_decimals h

theorem rel_fraction (h : AlikeButRemarks a.rest b.rest) :
    Option.Rel (Told Eq (Past a b)) (fraction a) (fraction b) := by
  refine rel_bind (rel_expect (Or.inl h) rfl) fun x y hxy => ?_
  exact rel_mono (rel_decimals hxy.alike) fun _ _ huv => ⟨huv.1, hxy.trans huv.2⟩

theorem rel_power (h : AlikeButRemarks a.rest b.rest) :
    Option.Rel (Told Eq (Past a b)) (power a) (power b) := by
  have hletter := rel_or (rel_expect (Or.inl h) (c := 'e') rfl)
    (rel_expect (Or.inl h) (c := 'E') rfl)
  refine rel_bind hletter fun x y hxy => ?_
  obtain ⟨hsign, hplaces⟩ := told_sign hxy.alike
  dsimp only
  rw [hsign]
  refine rel_bind (rel_decimals hplaces.alike) ?_
  rintro ⟨ds, u⟩ ⟨_, v⟩ ⟨rfl, huv⟩
  exact .some ⟨rfl, hxy.trans (hplaces.past huv)⟩

theorem rel_finite {u v : Cursor} (x : Decimal.Binary64) (h : Past a b u v) :
    Option.Rel (Told Eq (Past a b)) ((finiteOrNegative x).bind fun x => some (x, u))
      ((finiteOrNegative x).bind fun x => some (x, v)) := by
  cases finiteOrNegative x with
  | none => exact .none
  | some x => exact .some ⟨rfl, h⟩

theorem rel_float (h : AlikeButRemarks a.rest b.rest) :
    Option.Rel (Told Eq (Past a b)) (float a) (float b) := by
  obtain ⟨hsign, hplaces⟩ := told_sign h
  have hinf := rel_expectAll "inf".toList (Or.inl hplaces.alike) (by decide) (by decide)
  have hnan := rel_expectAll "nan".toList (Or.inl hplaces.alike) (by decide) (by decide)
  rw [float, float]
  dsimp only
  rw [hsign]
  generalize Cursor.expectAll "inf".toList (sign a).2 = x,
    Cursor.expectAll "inf".toList (sign b).2 = y at hinf
  generalize Cursor.expectAll "nan".toList (sign a).2 = x',
    Cursor.expectAll "nan".toList (sign b).2 = y' at hnan
  cases hinf with
  | some hxy => exact .some ⟨rfl, hplaces.past hxy⟩
  | none =>
    cases hnan with
    | some hxy => exact .some ⟨rfl, hplaces.past hxy⟩
    | none =>
      refine rel_bind (rel_wholeDigits hplaces.alike) ?_
      rintro ⟨whole, a₁⟩ ⟨_, b₁⟩ ⟨rfl, h₁⟩
      have h₁ := hplaces.past h₁
      have hfraction := rel_fraction h₁.alike
      dsimp only
      generalize fraction a₁ = x, fraction b₁ = y at hfraction
      cases hfraction with
      | none =>
        have hpower := rel_power h₁.alike
        dsimp only
        generalize power a₁ = x, power b₁ = y at hpower
        cases hpower with
        | none => exact .none
        | @some u v huv =>
          obtain ⟨exponent, a₂⟩ := u
          obtain ⟨_, b₂⟩ := v
          obtain ⟨rfl, h₂⟩ := huv
          exact rel_finite _ (h₁.trans h₂)
      | @some u v huv =>
        obtain ⟨places, a₂⟩ := u
        obtain ⟨_, b₂⟩ := v
        obtain ⟨rfl, h₂⟩ := huv
        have h₂ := h₁.trans h₂
        have hpower := rel_power h₂.alike
        dsimp only
        generalize power a₂ = x, power b₂ = y at hpower
        cases hpower with
        | none => exact rel_finite _ h₂
        | @some u v huv =>
          obtain ⟨exponent, a₃⟩ := u
          obtain ⟨_, b₃⟩ := v
          obtain ⟨rfl, h₃⟩ := huv
          exact rel_finite _ (h₂.trans h₃)

/-- The base that a letter announces, and its digits. -/
def baseOf (letter : Char) : Option (Nat × (Char → Bool)) :=
  if letter = 'x' then some (16, isHex)
  else if letter = 'o' then some (8, isOctal)
  else if letter = 'b' then some (2, isBinary)
  else none

theorem digits_of_baseOf {letter : Char} {base : Nat} (h : baseOf letter = some (base, accepts)) :
    (unmarked.any accepts = false) ∧ accepts '_' = false ∧ isMark letter = true := by
  rw [baseOf] at h
  split at h
  · cases h
    subst letter
    decide
  split at h
  · cases h
    subst letter
    decide
  split at h
  · cases h
    subst letter
    decide
  · cases h

theorem based_eq (cur : Cursor) : based cur =
    (cur.expect '0').bind fun next => next.uncons.bind fun x =>
      (baseOf x.1).bind fun found => (digits found.2 x.2).map fun y => (valueIn found.1 y.1, y.2) := by
  rw [based]
  congr 1
  funext next
  cases next.uncons with
  | none => rfl
  | some x =>
    obtain ⟨letter, behind⟩ := x
    simp only [Option.bind_eq_bind, Option.bind_some, baseOf]
    split
    case h_4 hx ho hb =>
      rw [if_neg hx, if_neg ho, if_neg hb]
      rfl
    all_goals
      simp only [Option.map_eq_bind]
      rfl

theorem rel_based (h : AlikeButRemarks a.rest b.rest) :
    Option.Rel (Told Eq (Past a b)) (based a) (based b) := by
  have hnone (c : Char) (hc : isMark c = false) : baseOf c = none := by
    cases hbase : baseOf c with
    | none => rfl
    | some found =>
      rw [(digits_of_baseOf hbase).2.2] at hc
      cases hc
  rw [based_eq, based_eq]
  refine rel_bind (rel_expect (Or.inl h) rfl) fun a₁ b₁ h₁ => ?_
  refine rel_uncons (Or.inl h₁.alike) ?_ ?_ ?_
  · intro letter a₂ b₂ _ h₂
    dsimp only
    cases hbase : baseOf letter with
    | none => exact .none
    | some found =>
      obtain ⟨hnot, hunder, _⟩ := digits_of_baseOf hbase
      refine rel_map (rel_digits hnot hunder h₂.alike) fun u v huv => ?_
      exact ⟨congrArg (valueIn found.1) huv.1, h₁.trans (h₂.trans huv.2)⟩
  all_goals
    intro c x hc
    dsimp only
    rw [hnone c hc]
    rfl

/-- A number of the kinds without a fraction, whatever its size. -/
def anyInteger (cur : Cursor) : Option (Int × Cursor) :=
  match based cur with
  | some (n, next) => some (n, next)
  | none => (wholeDigits (sign cur).2).map fun x =>
      (if (sign cur).1 then -(valueIn 10 x.1 : Int) else valueIn 10 x.1, x.2)

theorem integer_eq (cur : Cursor) :
    integer cur = (anyInteger cur).bind fun x => if fits x.1 then some x else none := by
  rw [integer, anyInteger]
  cases based cur with
  | some found => rfl
  | none =>
    dsimp only
    cases wholeDigits (sign cur).2 with
    | none => rfl
    | some found => rfl

theorem rel_integer (h : AlikeButRemarks a.rest b.rest) :
    Option.Rel (Told Eq (Past a b)) (integer a) (integer b) := by
  have hany : Option.Rel (Told Eq (Past a b)) (anyInteger a) (anyInteger b) := by
    have hbased := rel_based h
    rw [anyInteger, anyInteger]
    generalize based a = x, based b = y at hbased
    cases hbased with
    | some huv => exact .some ⟨congrArg Int.ofNat huv.1, huv.2⟩
    | none =>
      obtain ⟨hsign, hplaces⟩ := told_sign h
      refine rel_map (rel_wholeDigits hplaces.alike) fun u v huv => ?_
      rw [hsign, huv.1]
      exact ⟨rfl, hplaces.past huv.2⟩
  rw [integer_eq, integer_eq]
  refine rel_bind hany fun u v huv => ?_
  rw [huv.1]
  split
  · exact .some huv
  · exact .none

end Number

end Toml

end MarkupAudit
