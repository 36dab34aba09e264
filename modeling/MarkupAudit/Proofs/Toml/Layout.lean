import MarkupAudit.Proofs.Toml.Quotation

/-!
Texts that differ in comments, empty lines and the blanks at the ends of lines only
(`AlikeButRemarks`). Readers go through two such texts side by side: both read the same characters,
and what follows is alike again.
-/

namespace MarkupAudit

namespace Toml

open Cursor (uncons_cons expect_cons rest_skipWhile fst_takeWhile rest_takeWhile)

/-- Outside of strings and comments such a character is what it is, whatever stands around it. -/
def isOrdinary (c : Char) : Bool := c != '"' && c != '\'' && c != '#' && c != '\n' && c != '\r'

def isMark (c : Char) : Bool := isOrdinary c && !isBlank c

/-- Such a character is neither a blank nor the beginning of a comment or of a newline. -/
def isSolid (c : Char) : Bool := !isBlank c && c != '#' && c != '\n' && c != '\r'

inductive AlikeButRemarks : List Char → List Char → Prop where
  | same (text : List Char) : AlikeButRemarks text text
  | char {c : Char} {a b : List Char} (hc : isOrdinary c = true) (h : AlikeButRemarks a b) :
      AlikeButRemarks (c :: a) (c :: b)
  | string {q a b : List Char} (hq : IsString q) (ha : Unquoted a) (hb : Unquoted b)
      (h : AlikeButRemarks a b) : AlikeButRemarks (q ++ a) (q ++ b)
  | lines {l l' a b : List Char} (hl : IsLines l) (hl' : IsLines l') (hne : l ≠ []) (hne' : l' ≠ [])
      (h : AlikeButRemarks a b) : AlikeButRemarks (l ++ a) (l' ++ b)
  | ending {a b : List Char} (ha : IsEnding a) (hb : IsEnding b) : AlikeButRemarks a b

/-- The same quote comes next, but it begins no string. -/
inductive Stuck : List Char → List Char → Prop where
  | intro {quote : Char} (h : IsQuote quote) (a b : List Char) : Stuck (quote :: a) (quote :: b)

/-! ### The next character -/

section Step

variable {a b l rest remark mark : List Char} {c : Char}

theorem isSolid_iff : isSolid c = true ↔ isBlank c = false ∧ c ≠ '#' ∧ c ≠ '\n' ∧ c ≠ '\r' := by
  simp [isSolid, and_assoc]

theorem isSolid_of_isMark (h : isMark c = true) : isSolid c = true := by
  simp only [isMark, isOrdinary, Bool.and_eq_true] at h
  simp only [isSolid, Bool.and_eq_true]
  exact ⟨⟨⟨h.2, h.1.1.1.2⟩, h.1.1.2⟩, h.1.2⟩

theorem isSolid_of_isQuote (h : IsQuote c) : isSolid c = true := by
  rcases h with rfl | rfl <;> decide

/-- An ordinary character is a blank, or it is solid. -/
theorem isSolid_of_not_isBlank (hc : isOrdinary c = true) (h : isBlank c = false) :
    isSolid c = true := by
  apply isSolid_of_isMark
  rw [isMark, hc, h]
  rfl

/-- The next character is solid. -/
def Solid (text : List Char) : Prop := ∃ c rest, text = c :: rest ∧ isSolid c = true

/-- The next character counts wherever it stands. -/
def Begins (text : List Char) : Prop := ∃ c rest, text = c :: rest ∧ isMark c = true

theorem Begins.solid (h : Begins a) : Solid a := by
  obtain ⟨c, rest, rfl, hc⟩ := h
  exact ⟨c, rest, rfl, isSolid_of_isMark hc⟩

theorem solid_cons_iff : Solid (c :: rest) ↔ isSolid c = true := by
  constructor
  · rintro ⟨_, _, h, hc⟩
    cases h
    exact hc
  · exact fun hc => ⟨c, rest, rfl, hc⟩

theorem begins_cons_iff : Begins (c :: rest) ↔ isMark c = true := by
  constructor
  · rintro ⟨_, _, h, hc⟩
    cases h
    exact hc
  · exact fun hc => ⟨c, rest, rfl, hc⟩

theorem not_solid_nil : ¬Solid [] := by
  rintro ⟨c, rest, h, _⟩
  cases h

theorem not_solid_newline (h : IsNewline mark) (rest : List Char) : ¬Solid (mark ++ rest) := by
  cases h
  all_goals
    intro hsolid
    cases solid_cons_iff.mp hsolid

theorem not_solid_remark (h : IsRemark remark) (hrest : ¬Solid rest) :
    ¬Solid (remark ++ rest) := by
  have hblank {c : Char} {more : List Char} (hc : isBlank c = true) : ¬Solid (c :: more) := by
    rw [solid_cons_iff, isSolid_iff, hc]
    exact fun h => Bool.false_ne_true h.1.symm
  cases h with
  | blank h =>
    cases remark with
    | nil => exact hrest
    | cons c remark => exact hblank (h c List.mem_cons_self)
  | @comment blanks text h =>
    cases blanks with
    | nil =>
      rw [List.nil_append, List.cons_append, solid_cons_iff]
      decide
    | cons c blanks => exact hblank (h c List.mem_cons_self)

theorem not_solid_lines (h : IsLines l) (hne : l ≠ []) (rest : List Char) :
    ¬Solid (l ++ rest) := by
  cases h with
  | nil => exact absurd rfl hne
  | cons hremark hmark h =>
    rw [List.append_assoc, List.append_assoc]
    exact not_solid_remark hremark (not_solid_newline hmark _)

theorem not_solid_ending (h : IsEnding a) : ¬Solid a := by
  obtain ⟨hlines, hremark⟩ := h
  rename_i lines remark
  by_cases hne : lines = []
  · rw [hne, List.nil_append, ← List.append_nil remark]
    exact not_solid_remark hremark not_solid_nil
  · exact not_solid_lines hlines hne remark

theorem unquoted_of_not_solid (h : ¬Solid a) : Unquoted a := by
  have hquote {quote : Char} (hquote : IsQuote quote) : a.head? ≠ some quote := by
    intro hhead
    obtain ⟨rest, rfl⟩ := List.head?_eq_some_iff.mp hhead
    exact h (solid_cons_iff.mpr (isSolid_of_isQuote hquote))
  exact ⟨hquote (Or.inl rfl), hquote (Or.inr rfl)⟩

theorem not_begins_quote (h : IsQuote c) (rest : List Char) : ¬Begins (c :: rest) := by
  rw [begins_cons_iff]
  rcases h with rfl | rfl <;> decide

/-- Both texts begin with the same character, or with none that counts. -/
theorem AlikeButRemarks.step (h : AlikeButRemarks a b) :
    (∃ c a' b', isMark c = true ∧ a = c :: a' ∧ b = c :: b' ∧ AlikeButRemarks a' b') ∨
      ¬Begins a ∧ ¬Begins b := by
  cases h with
  | same =>
    cases a with
    | nil => exact Or.inr ⟨fun h => not_solid_nil h.solid, fun h => not_solid_nil h.solid⟩
    | cons c a =>
      by_cases hc : isMark c = true
      · exact Or.inl ⟨c, a, a, hc, rfl, rfl, .same a⟩
      · have hnot : ¬Begins (c :: a) := fun h => hc (begins_cons_iff.mp h)
        exact Or.inr ⟨hnot, hnot⟩
  | @char c a b _ h =>
    by_cases hc : isMark c = true
    · exact Or.inl ⟨c, a, b, hc, rfl, rfl, h⟩
    · exact Or.inr ⟨fun ha => hc (begins_cons_iff.mp ha), fun hb => hc (begins_cons_iff.mp hb)⟩
  | string hq =>
    obtain ⟨quote, rest, hquote, rfl⟩ := hq.exists_quote
    exact Or.inr ⟨not_begins_quote hquote _, not_begins_quote hquote _⟩
  | lines hl hl' hne hne' =>
    exact Or.inr ⟨fun h => not_solid_lines hl hne _ h.solid,
      fun h => not_solid_lines hl' hne' _ h.solid⟩
  | ending ha hb =>
    exact Or.inr ⟨fun h => not_solid_ending ha h.solid, fun h => not_solid_ending hb h.solid⟩

theorem Stuck.not_begins (h : Stuck a b) : ¬Begins a ∧ ¬Begins b := by
  obtain ⟨hquote⟩ := h
  exact ⟨not_begins_quote hquote _, not_begins_quote hquote _⟩

end Step

/-! ### Places side by side -/

/-- The texts are alike, or no more can be read as a key. -/
def AlikeOrStuck (a b : List Char) : Prop := AlikeButRemarks a b ∨ Stuck a b

theorem AlikeButRemarks.orStuck {a b : List Char} (h : AlikeButRemarks a b) : AlikeOrStuck a b :=
  Or.inl h

/-- From two places readers have gone on to two others with related texts behind them. -/
structure Upto (r : List Char → List Char → Prop) (a b x y : Cursor) : Prop where
  alike : r x.rest y.rest
  left : x.rest.length ≤ a.rest.length
  right : y.rest.length ≤ b.rest.length

/-- On both sides something has been read, and what follows is alike. -/
structure Past (a b x y : Cursor) : Prop where
  alike : AlikeButRemarks x.rest y.rest
  left : x.rest.length < a.rest.length
  right : y.rest.length < b.rest.length

section Places

variable {r s : List Char → List Char → Prop} {a b x y z w : Cursor}

theorem upto_self (h : r a.rest b.rest) : Upto r a b a b := ⟨h, Nat.le_refl _, Nat.le_refl _⟩

theorem Past.upto (h : Past a b x y) : Upto AlikeButRemarks a b x y :=
  ⟨h.alike, Nat.le_of_lt h.left, Nat.le_of_lt h.right⟩

theorem Upto.trans (h : Upto s a b x y) (h' : Upto r x y z w) : Upto r a b z w :=
  ⟨h'.alike, Nat.le_trans h'.left h.left, Nat.le_trans h'.right h.right⟩

theorem Upto.past (h : Upto s a b x y) (h' : Past x y z w) : Past a b z w :=
  ⟨h'.alike, Nat.lt_of_lt_of_le h'.left h.left, Nat.lt_of_lt_of_le h'.right h.right⟩

theorem Past.upto_past (h : Past a b x y) (h' : Upto AlikeButRemarks x y z w) : Past a b z w :=
  ⟨h'.alike, Nat.lt_of_le_of_lt h'.left h.left, Nat.lt_of_le_of_lt h'.right h.right⟩

theorem Past.trans (h : Past a b x y) (h' : Past x y z w) : Past a b z w := h.upto.past h'

end Places

/-- What is read is related, and so are the places behind it. -/
def Told {α β : Type} (r : α → β → Prop) (places : Cursor → Cursor → Prop) (x : α × Cursor)
    (y : β × Cursor) : Prop := r x.1 y.1 ∧ places x.2 y.2

section Expect

variable {a b : Cursor} {c : Char} {accepts : Char → Bool}

theorem uncons_of_not_begins {cur : Cursor} (h : ¬Begins cur.rest) :
    ∀ c next, cur.uncons = some (c, next) → isMark c = false := by
  intro c next hc
  obtain ⟨n, _ | ⟨d, rest⟩⟩ := cur
  · cases hc
  · cases hc
    exact Bool.eq_false_iff.mpr fun hd => h (begins_cons_iff.mpr hd)

/-- Reading a character and going on with it, if it is one that counts. -/
theorem rel_uncons {γ δ : Type} {s : γ → δ → Prop} {f : Char × Cursor → Option γ}
    {g : Char × Cursor → Option δ}
    (h : AlikeOrStuck a.rest b.rest)
    (hfg : ∀ c x y, isMark c = true → Past a b x y → Option.Rel s (f (c, x)) (g (c, y)))
    (hf : ∀ c x, isMark c = false → f (c, x) = none)
    (hg : ∀ c x, isMark c = false → g (c, x) = none) :
    Option.Rel s (a.uncons.bind f) (b.uncons.bind g) := by
  have hnone {ε : Type} {k : Char × Cursor → Option ε} {cur : Cursor} (hcur : ¬Begins cur.rest)
      (hk : ∀ c x, isMark c = false → k (c, x) = none) : cur.uncons.bind k = none := by
    cases hc : cur.uncons with
    | none => rfl
    | some found => exact hk found.1 found.2 (uncons_of_not_begins hcur _ _ hc)
  have hstep : (∃ c a' b', isMark c = true ∧ a.rest = c :: a' ∧ b.rest = c :: b' ∧
      AlikeButRemarks a' b') ∨ ¬Begins a.rest ∧ ¬Begins b.rest := by
    rcases h with h | h
    · exact h.step
    · exact Or.inr h.not_begins
  rcases hstep with ⟨c, a', b', hc, ha, hb, halike⟩ | ⟨ha, hb⟩
  · obtain ⟨n, _⟩ := a
    obtain ⟨m, _⟩ := b
    obtain rfl : _ = c :: a' := ha
    obtain rfl : _ = c :: b' := hb
    exact hfg c ⟨n + c.utf8Size, a'⟩ ⟨m + c.utf8Size, b'⟩ hc
      ⟨halike, Nat.lt_succ_self _, Nat.lt_succ_self _⟩
  · rw [hnone ha hf, hnone hb hg]
    exact .none

theorem expect_eq_bind (c : Char) (cur : Cursor) :
    cur.expect c = cur.uncons.bind fun x => if x.1 = c then some x.2 else none := by
  rw [Cursor.expect]
  cases cur.uncons <;> rfl

theorem rel_expect (h : AlikeOrStuck a.rest b.rest)
    (hc : isMark c = true) : Option.Rel (Past a b) (a.expect c) (b.expect c) := by
  have hne (d : Char) (x : Cursor) (hd : isMark d = false) :
      (if d = c then some x else none) = none := by
    rw [if_neg]
    rintro rfl
    rw [hc] at hd
    cases hd
  rw [expect_eq_bind, expect_eq_bind]
  refine rel_uncons h ?_ hne hne
  intro d x y _ hxy
  dsimp only
  split
  · exact .some hxy
  · exact .none

theorem rel_expectAll (word : List Char) (h : AlikeOrStuck a.rest b.rest)
    (hword : word.all isMark = true) (hne : word ≠ []) :
    Option.Rel (Past a b) (Cursor.expectAll word a) (Cursor.expectAll word b) := by
  induction word generalizing a b with
  | nil => exact absurd rfl hne
  | cons c word ih =>
    rw [List.all_cons, Bool.and_eq_true] at hword
    refine rel_bind (rel_expect h hword.1) fun x y hxy => ?_
    by_cases hmore : word = []
    · rw [hmore]
      exact .some hxy
    · exact rel_mono (ih (Or.inl hxy.alike) hword.2 hmore) fun _ _ => hxy.trans

theorem takeWhile_of_not_begins {text : List Char}
    (haccepts : ∀ c, accepts c = true → isMark c = true) (h : ¬Begins text) :
    text.takeWhile accepts = [] ∧ text.dropWhile accepts = text := by
  cases text with
  | nil => exact ⟨rfl, rfl⟩
  | cons c text =>
    have hc : ¬accepts c = true := fun hc => h (begins_cons_iff.mpr (haccepts c hc))
    rw [List.takeWhile_cons, List.dropWhile_cons, if_neg hc, if_neg hc]
    exact ⟨rfl, rfl⟩

theorem takeWhile_of_alike {text text' : List Char}
    (haccepts : ∀ c, accepts c = true → isMark c = true) (h : AlikeButRemarks text text') :
    text.takeWhile accepts = text'.takeWhile accepts ∧
      AlikeButRemarks (text.dropWhile accepts) (text'.dropWhile accepts) := by
  induction text generalizing text' with
  | nil =>
    rcases h.step with ⟨_, _, _, _, hnil, _⟩ | ⟨_, hb⟩
    · cases hnil
    · obtain ⟨htake, hdrop⟩ := takeWhile_of_not_begins haccepts hb
      rw [htake, hdrop]
      exact ⟨rfl, h⟩
  | cons c text ih =>
    rcases h.step with ⟨_, _, b, _, hc, rfl, hmore⟩ | ⟨ha, hb⟩
    · obtain ⟨rfl, rfl⟩ := List.cons.inj hc
      simp only [List.takeWhile_cons, List.dropWhile_cons]
      split
      · obtain ⟨htake, hdrop⟩ := ih hmore
        exact ⟨congrArg (c :: ·) htake, hdrop⟩
      · exact ⟨rfl, h⟩
    · obtain ⟨htake, hdrop⟩ := takeWhile_of_not_begins haccepts ha
      obtain ⟨htake', hdrop'⟩ := takeWhile_of_not_begins haccepts hb
      rw [htake, htake', hdrop, hdrop']
      exact ⟨rfl, h⟩

theorem rel_takeWhile (h : AlikeButRemarks a.rest b.rest)
    (haccepts : ∀ c, accepts c = true → isMark c = true) :
    Told Eq (Upto AlikeButRemarks a b) (a.takeWhile accepts) (b.takeWhile accepts) := by
  have hlength (cur : Cursor) : (cur.takeWhile accepts).2.rest.length ≤ cur.rest.length := by
    rw [rest_takeWhile]
    exact List.length_dropWhile_le _ _
  obtain ⟨htake, hdrop⟩ := takeWhile_of_alike haccepts h
  refine ⟨?_, ?_, hlength a, hlength b⟩
  · rw [fst_takeWhile, fst_takeWhile, htake]
  · rw [rest_takeWhile, rest_takeWhile]
    exact hdrop

end Expect

/-! ### Blanks and ends of lines -/

section Blank

variable {a b : List Char} {l rest remark mark : List Char} {c : Char} {n m : Nat}

theorem not_isBlank_of_isQuote (h : IsQuote c) : isBlank c = false := by
  rcases h with rfl | rfl <;> rfl

theorem dropBlanks_remark (h : IsRemark remark) (hmark : IsNewline mark) (rest : List Char) :
    (remark ++ (mark ++ rest)).dropWhile isBlank = remark.dropWhile isBlank ++ (mark ++ rest) := by
  cases h with
  | blank h =>
    rw [List.dropWhile_append_of_pos h, List.dropWhile_eq_nil_iff.mpr h,
      (endsLine_newline hmark rest).dropWhile_eq rfl rfl]
    rfl
  | comment h =>
    rw [List.append_assoc, List.dropWhile_append_of_pos h, List.dropWhile_append_of_pos h]
    rfl

theorem dropBlanks_lines (h : IsLines l) (hne : l ≠ []) : ∃ l', IsLines l' ∧ l' ≠ [] ∧
    ∀ rest, (l ++ rest).dropWhile isBlank = l' ++ rest := by
  cases h with
  | nil => exact absurd rfl hne
  | @cons remark mark more hremark hmark h =>
    refine ⟨_, .cons hremark.dropWhile hmark h, ?_, fun rest => ?_⟩
    · cases hmark <;> simp
    · rw [List.append_assoc, List.append_assoc, dropBlanks_remark hremark hmark]
      simp only [List.append_assoc]

theorem isEnding_remark (h : IsRemark remark) : IsEnding remark := .intro .nil h

theorem IsEnding.dropBlanks (h : IsEnding a) : IsEnding (a.dropWhile isBlank) := by
  obtain ⟨hlines, hremark⟩ := h
  rename_i lines remark
  by_cases hne : lines = []
  · rw [hne, List.nil_append]
    exact isEnding_remark hremark.dropWhile
  · obtain ⟨l, hl, _, hdrop⟩ := dropBlanks_lines hlines hne
    rw [hdrop]
    exact .intro hl hremark

theorem AlikeButRemarks.dropBlanks (h : AlikeButRemarks a b) :
    AlikeButRemarks (a.dropWhile isBlank) (b.dropWhile isBlank) := by
  induction h with
  | same text => exact .same _
  | @char c a b hc h ih =>
    rw [List.dropWhile_cons, List.dropWhile_cons]
    split
    · exact ih
    · exact .char hc h
  | @string q a b hq ha hb h =>
    have hstay (more : List Char) : (q ++ more).dropWhile isBlank = q ++ more := by
      obtain ⟨quote, rest, hquote, rfl⟩ := hq.exists_quote
      rw [List.cons_append, List.dropWhile_cons, not_isBlank_of_isQuote hquote]
      rfl
    rw [hstay, hstay]
    exact .string hq ha hb h
  | lines hl hl' hne hne' h =>
    obtain ⟨k, hk, hk0, hdrop⟩ := dropBlanks_lines hl hne
    obtain ⟨k', hk', hk0', hdrop'⟩ := dropBlanks_lines hl' hne'
    rw [hdrop, hdrop']
    exact .lines hk hk' hk0 hk0' h
  | ending ha hb => exact .ending ha.dropBlanks hb.dropBlanks

theorem upto_skipBlanks {a b : Cursor} (h : AlikeButRemarks a.rest b.rest) :
    Upto AlikeButRemarks a b (skipBlanks a) (skipBlanks b) := by
  refine ⟨?_, length_skipBlanks_le a, length_skipBlanks_le b⟩
  rw [skipBlanks, skipBlanks, rest_skipWhile, rest_skipWhile]
  exact h.dropBlanks

theorem Stuck.skipBlanks_eq {a b : Cursor} (h : Stuck a.rest b.rest) :
    skipBlanks a = a ∧ skipBlanks b = b := by
  obtain ⟨n, _⟩ := a
  obtain ⟨m, _⟩ := b
  dsimp only at h
  obtain ⟨hquote⟩ := h
  exact ⟨skipBlanks_of_not (not_isBlank_of_isQuote hquote),
    skipBlanks_of_not (not_isBlank_of_isQuote hquote)⟩

theorem skipRemark_of_isSolid (h : isSolid c = true) :
    skipComment (skipBlanks ⟨n, c :: rest⟩) = ⟨n, c :: rest⟩ := by
  obtain ⟨hblank, hsharp, _⟩ := isSolid_iff.mp h
  rw [skipBlanks_of_not hblank, skipComment_of_ne hsharp]

theorem nextLine_of_isSolid (h : isSolid c = true) : nextLine ⟨n, c :: rest⟩ = none := by
  obtain ⟨_, _, hfeed, hreturn⟩ := isSolid_iff.mp h
  rw [nextLine, skipRemark_of_isSolid h, newline_of_ne hfeed hreturn]

theorem skipSpace_of_isSolid (h : isSolid c = true) :
    skipSpace ⟨n, c :: rest⟩ = ⟨n, c :: rest⟩ := by
  rw [skipSpace_of_nextLine_eq_none (nextLine_of_isSolid h),
    skipBlanks_of_not (isSolid_iff.mp h).1]

theorem trailing_of_isSolid (h : isSolid c = true) : trailing ⟨n, c :: rest⟩ = none := by
  obtain ⟨_, _, hfeed, hreturn⟩ := isSolid_iff.mp h
  rw [trailing, skipRemark_of_isSolid h, lineEnd, newline_of_ne hfeed hreturn]
  rfl

theorem alike_skipSpace (h : AlikeButRemarks a b) (n m : Nat) :
    AlikeButRemarks (skipSpace ⟨n, a⟩).rest (skipSpace ⟨m, b⟩).rest := by
  induction h generalizing n m with
  | same text =>
    have habreast : Abreast (skipSpace ⟨n, text⟩) (skipSpace ⟨m, text⟩) :=
      abreast_skipSpace (Abreast.skipBlanks rfl)
    rw [habreast]
    exact .same _
  | @char c a b hc h ih =>
    cases hblank : isBlank c with
    | true =>
      have hskip (k : Nat) (more : List Char) :
          Abreast (skipSpace ⟨k, c :: more⟩) (skipSpace ⟨k, more⟩) :=
        abreast_skipSpace (skipBlanks_cons hblank k)
      rw [hskip n a, hskip m b]
      exact ih n m
    | false =>
      have hsolid := isSolid_of_not_isBlank hc hblank
      rw [skipSpace_of_isSolid hsolid, skipSpace_of_isSolid hsolid]
      exact .char hc h
  | @string q a b hq ha hb h =>
    have hstay (k : Nat) (more : List Char) : (skipSpace ⟨k, q ++ more⟩).rest = q ++ more := by
      obtain ⟨quote, rest, hquote, rfl⟩ := hq.exists_quote
      rw [List.cons_append, skipSpace_of_isSolid (isSolid_of_isQuote hquote)]
    rw [hstay, hstay]
    exact .string hq ha hb h
  | lines hl hl' _ _ _ ih =>
    rw [skipSpace_lines hl n n, skipSpace_lines hl' m m]
    exact ih n m
  | ending ha hb =>
    exact .ending (isEnding_remark (isRemark_skipSpace ha n))
      (isEnding_remark (isRemark_skipSpace hb m))

theorem upto_skipSpace {a b : Cursor} (h : AlikeButRemarks a.rest b.rest) :
    Upto AlikeButRemarks a b (skipSpace a) (skipSpace b) :=
  ⟨alike_skipSpace h a.offset b.offset, length_skipSpace_le a, length_skipSpace_le b⟩

end Blank

/-! ### The beginning of a line -/

/-- At the beginning of a line, lines that say nothing may come first. -/
inductive AlikeFromLine : List Char → List Char → Prop where
  | intro {l l' a b : List Char} (hl : IsLines l) (hl' : IsLines l') (h : AlikeButRemarks a b) :
      AlikeFromLine (l ++ a) (l' ++ b)

theorem AlikeButRemarks.fromLine {a b : List Char} (h : AlikeButRemarks a b) : AlikeFromLine a b :=
  .intro .nil .nil h

section Trailing

variable {a b l rest remark mark : List Char} {n m : Nat} {cur next : Cursor}

theorem trailing_of_nextLine (h : nextLine cur = some next) : trailing cur = some next := by
  have hne : (skipComment (skipBlanks cur)).rest.isEmpty = false := by
    have hlt := length_lt_of_newline h
    rw [List.isEmpty_eq_false_iff, ← List.length_pos_iff]
    omega
  rw [trailing, lineEnd, hne]
  exact h

theorem map_rest_congr {x y : Option Cursor} (h : Option.Rel Abreast x y) :
    x.map (·.rest) = y.map (·.rest) := by
  cases h with
  | none => rfl
  | some h => exact congrArg some h

/-- Blanks in front make no difference. -/
theorem rest_trailing_congr {x y : Cursor} (h : Abreast (skipBlanks x) (skipBlanks y)) :
    (trailing x).map (·.rest) = (trailing y).map (·.rest) := by
  have hcomment := h.skipComment
  rw [trailing, trailing, lineEnd, lineEnd, hcomment]
  split
  · exact congrArg some hcomment
  · exact map_rest_congr hcomment.newline

theorem length_trailing_le (h : trailing cur = some next) :
    next.rest.length ≤ cur.rest.length := by
  have hcomment := length_skipComment_le (skipBlanks cur)
  have hblanks := length_skipBlanks_le cur
  rw [trailing, lineEnd] at h
  split at h
  · cases h
    omega
  · have hlt := length_lt_of_newline h
    omega

theorem trailing_remark (h : IsRemark remark) (n : Nat) :
    ∃ m, trailing ⟨n, remark⟩ = some ⟨m, []⟩ := by
  have hrest := rest_skipRemark (n := n) h endsLine_nil
  rw [List.append_nil] at hrest
  obtain ⟨m, hm⟩ := Cursor.exists_offset hrest
  exact ⟨m, by rw [trailing, hm]; rfl⟩

theorem exists_trailing_lines (h : IsLines l) (hne : l ≠ []) : ∃ more, IsLines more ∧
    ∀ n rest, (trailing ⟨n, l ++ rest⟩).map (·.rest) = some (more ++ rest) := by
  cases h with
  | nil => exact absurd rfl hne
  | @cons remark mark more hremark hmark h =>
    refine ⟨more, h, fun n rest => ?_⟩
    obtain ⟨m, hm⟩ := nextLine_append hremark hmark n (more ++ rest)
    rw [List.append_assoc, List.append_assoc, trailing_of_nextLine hm]
    rfl

theorem exists_trailing_ending (h : IsEnding a) (n : Nat) :
    ∃ rest, (trailing ⟨n, a⟩).map (·.rest) = some rest ∧ IsEnding rest := by
  obtain ⟨hlines, hremark⟩ := h
  rename_i lines remark
  by_cases hne : lines = []
  · obtain ⟨m, hm⟩ := trailing_remark hremark n
    rw [hne, List.nil_append, hm]
    exact ⟨[], rfl, isEnding_remark (.blank (by simp))⟩
  · obtain ⟨more, hmore, htrailing⟩ := exists_trailing_lines hlines hne
    exact ⟨_, htrailing n remark, .intro hmore hremark⟩

theorem alike_trailing (h : AlikeButRemarks a b) (n m : Nat) :
    Option.Rel AlikeFromLine ((trailing ⟨n, a⟩).map (·.rest)) ((trailing ⟨m, b⟩).map (·.rest)) := by
  induction h generalizing n m with
  | same text =>
    rw [rest_trailing_congr (x := ⟨n, text⟩) (y := ⟨m, text⟩) (Abreast.skipBlanks rfl)]
    cases (trailing ⟨m, text⟩).map (·.rest) with
    | none => exact .none
    | some rest => exact .some (AlikeButRemarks.same rest).fromLine
  | @char c a b hc h ih =>
    cases hblank : isBlank c with
    | true =>
      rw [rest_trailing_congr (skipBlanks_cons (n := n) hblank n),
        rest_trailing_congr (skipBlanks_cons (n := m) hblank m)]
      exact ih n m
    | false =>
      have hsolid := isSolid_of_not_isBlank hc hblank
      rw [trailing_of_isSolid hsolid, trailing_of_isSolid hsolid]
      exact .none
  | @string q a b hq ha hb h =>
    have hnone (k : Nat) (more : List Char) : trailing ⟨k, q ++ more⟩ = none := by
      obtain ⟨quote, rest, hquote, rfl⟩ := hq.exists_quote
      exact trailing_of_isSolid (isSolid_of_isQuote hquote)
    rw [hnone, hnone]
    exact .none
  | lines hl hl' hne hne' h =>
    obtain ⟨more, hmore, htrailing⟩ := exists_trailing_lines hl hne
    obtain ⟨more', hmore', htrailing'⟩ := exists_trailing_lines hl' hne'
    rw [htrailing, htrailing']
    exact .some (.intro hmore hmore' h)
  | ending ha hb =>
    obtain ⟨rest, hrest, hending⟩ := exists_trailing_ending ha n
    obtain ⟨rest', hrest', hending'⟩ := exists_trailing_ending hb m
    rw [hrest, hrest']
    exact .some (AlikeButRemarks.ending hending hending').fromLine

theorem rel_trailing {x y : Cursor} (h : AlikeButRemarks x.rest y.rest) :
    Option.Rel (Upto AlikeFromLine x y) (trailing x) (trailing y) := by
  have halike := alike_trailing h x.offset y.offset
  cases hx : trailing x <;> cases hy : trailing y <;> rw [hx, hy] at halike
  · exact .none
  · cases halike
  · cases halike
  · cases halike with
    | some halike => exact .some ⟨halike, length_trailing_le hx, length_trailing_le hy⟩

end Trailing

end Toml

end MarkupAudit
