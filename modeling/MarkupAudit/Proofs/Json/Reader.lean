import MarkupAudit.Proofs.Json.Quotation
import Mathlib.Data.List.TakeWhile

/-!
A reader of JSON documents. It reads a value in the order of the text, and reads just the documents
(`read_eq_some_iff`), so a text is a document of one value at most.
-/

namespace MarkupAudit.Json

def skipBlank (text : List Char) : List Char := text.dropWhile isBlank

section Series

variable {α : Type} (readItem : List Char → Option (α × List Char)) (closing : Char)

def readSeries : Nat → List Char → Option (List α × List Char)
  | 0, _ => none
  | bound + 1, text =>
    (readItem (skipBlank text)).bind fun (item, rest) =>
      match skipBlank rest with
      | [] => none
      | c :: rest =>
        if c = closing then some ([item], rest)
        else if c = ',' then (readSeries bound rest).map fun (items, rest) => (item :: items, rest)
        else none

/-- Items up to a closing bracket. -/
def readBracketed (text : List Char) : Option (List α × List Char) :=
  if (skipBlank text).head? = some closing then some ([], (skipBlank text).tail)
  else readSeries readItem closing text.length text

def readMember (readValue : List Char → Option (α × List Char)) (text : List Char) :
    Option ((List Char × α) × List Char) :=
  (readString text).bind fun (key, rest) =>
    match skipBlank rest with
    | [] => none
    | c :: rest =>
      if c = ':' then (readValue (skipBlank rest)).map fun (value, rest) => ((key, value), rest)
      else none

end Series

section Value

/-- A character of a number or of one of the three words. -/
def isScalarChar (c : Char) : Bool := c.isAlphanum || c == '+' || c == '-' || c == '.'

def scalar? (word : List Char) : Option Value :=
  if isNumber word then some (.number word)
  else if word = "null".toList then some .null
  else if word = "true".toList then some (.bool true)
  else if word = "false".toList then some (.bool false)
  else none

def readScalar (text : List Char) : Option (Value × List Char) :=
  (scalar? (text.takeWhile isScalarChar)).map (·, text.dropWhile isScalarChar)

def readValue : Nat → List Char → Option (Value × List Char)
  | 0, _ => none
  | bound + 1, text =>
    match text with
    | [] => none
    | c :: rest =>
      if c = '"' then (readString text).map fun (text, rest) => (.string text, rest)
      else if c = '[' then
        (readBracketed (readValue bound) ']' rest).map fun (items, rest) => (.array items, rest)
      else if c = '\x7b' then
        (readBracketed (readMember (readValue bound)) '\x7d' rest).map fun (members, rest) =>
          (.object members, rest)
      else readScalar text

/-- The value of a document. -/
def read (text : List Char) : Option Value :=
  (readValue text.length (skipBlank text)).bind fun (value, rest) =>
    if skipBlank rest = [] then some value else none

end Value

section Blank

variable {blank text rest : List Char} {c : Char}

theorem skipBlank_append (hblank : IsBlank blank)
    (hrest : ∀ c, rest.head? = some c → isBlank c = false) : skipBlank (blank ++ rest) = rest :=
  dropWhile_append_stop hblank hrest

theorem skipBlank_append_cons (hblank : IsBlank blank) (hc : isBlank c = false) :
    skipBlank (blank ++ c :: rest) = c :: rest := by
  refine skipBlank_append hblank ?_
  intro d hd
  cases hd
  exact hc

theorem skipBlank_of_isBlank (hblank : IsBlank blank) : skipBlank blank = [] := by
  rw [← List.append_nil blank]
  exact skipBlank_append hblank (by simp)

theorem exists_blank (text : List Char) :
    ∃ blank, text = blank ++ skipBlank text ∧ IsBlank blank := by
  refine ⟨text.takeWhile isBlank, (List.takeWhile_append_dropWhile).symm, ?_⟩
  intro c hc
  exact List.mem_takeWhile_imp hc

/-- Where a number or a word ends. -/
def Ends (text : List Char) : Prop := ∀ c, text.head? = some c → isScalarChar c = false

theorem not_scalar_of_blank (h : isBlank c = true) : isScalarChar c = false := by
  simp only [isBlank, Bool.or_eq_true, decide_eq_true_eq] at h
  rcases h with ((rfl | rfl) | rfl) | rfl <;> rfl

theorem ends_append_cons (hblank : IsBlank blank) (hc : isScalarChar c = false)
    (rest : List Char) :
    Ends (blank ++ c :: rest) := by
  intro d hd
  cases blank with
  | nil =>
    cases hd
    exact hc
  | cons b blank =>
    cases hd
    exact not_scalar_of_blank (hblank d List.mem_cons_self)

theorem ends_of_isBlank (hblank : IsBlank blank) : Ends blank := by
  intro d hd
  exact not_scalar_of_blank (hblank d (List.mem_of_head? hd))

end Blank

section Item

variable {α : Type}

/-- What is read is spelled by the text that was passed. -/
def ReadsOnly (readItem : List Char → Option (α × List Char)) (Item : α → List Char → Prop) :
    Prop :=
  ∀ ⦃text item rest⦄, readItem text = some (item, rest) →
    ∃ spelling, text = spelling ++ rest ∧ Item item spelling

/-- Each item is read back from a text that spells it and is not longer than the bound. -/
def ReadsAll (readItem : List Char → Option (α × List Char)) (Item : α → List Char → Prop)
    (bound : Nat) : Prop :=
  ∀ ⦃item spelling rest⦄, Item item spelling → spelling.length ≤ bound → Ends rest →
    readItem (spelling ++ rest) = some (item, rest)

/-- No item is spelled by a text that begins with white space or with a closing bracket. -/
def BeginsItems (Item : α → List Char → Prop) : Prop :=
  ∀ ⦃item spelling⦄, Item item spelling →
    ∃ c more, spelling = c :: more ∧ isBlank c = false ∧ c ≠ ']' ∧ c ≠ '\x7d'

variable {readItem : List Char → Option (α × List Char)} {Item : α → List Char → Prop}
  {closing : Char} {items : List α} {text spelling rest : List Char} {bound : Nat}

section Sound

variable (hread : ReadsOnly readItem Item)
include hread

theorem series_of_readSeries :
    ∀ {bound text items}, readSeries readItem closing bound text = some (items, rest) →
      ∃ spelling, text = spelling ++ closing :: rest ∧ Series Item items spelling := by
  intro bound
  induction bound with
  | zero =>
    intro text items h
    cases h
  | succ bound ih =>
    intro text items h
    rw [readSeries] at h
    obtain ⟨⟨item, behind⟩, hitem, hmore⟩ := Option.bind_eq_some_iff.mp h
    obtain ⟨before, htext, hbefore⟩ := exists_blank text
    obtain ⟨spelling, hskip, hspelled⟩ := hread hitem
    obtain ⟨after, hbehind, hafter⟩ := exists_blank behind
    dsimp only at hmore
    split at hmore
    · cases hmore
    rename_i c further hsign
    rw [hsign] at hbehind
    have htext : text = before ++ spelling ++ after ++ c :: further := by
      rw [htext, hskip, hbehind]
      simp
    split at hmore
    · rename_i hc
      obtain ⟨rfl, rfl⟩ := Prod.mk.inj (Option.some.inj hmore)
      rw [hc] at htext
      exact ⟨_, htext, .last hbefore hspelled hafter⟩
    split at hmore
    · rename_i hc
      obtain ⟨more, hseries, rfl⟩ := exists_of_map_read hmore
      obtain ⟨tail, rfl, htail⟩ := ih hseries
      refine ⟨before ++ spelling ++ after ++ ',' :: tail, ?_, .more hbefore hspelled hafter htail⟩
      rw [htext, hc]
      simp
    · cases hmore

theorem bracketed_of_readBracketed (opening : Char)
    (h : readBracketed readItem closing text = some (items, rest)) :
    ∃ spelling, opening :: text = spelling ++ rest ∧
      Bracketed Item opening closing items spelling := by
  rw [readBracketed] at h
  split at h
  · rename_i hhead
    obtain ⟨behind, hskip⟩ := List.head?_eq_some_iff.mp hhead
    rw [hskip] at h
    obtain ⟨rfl, rfl⟩ := Prod.mk.inj (Option.some.inj h)
    obtain ⟨blank, htext, hblank⟩ := exists_blank text
    rw [hskip] at htext
    exact ⟨opening :: blank ++ [closing], by simp [htext], .empty hblank⟩
  · obtain ⟨spelling, rfl, hseries⟩ := series_of_readSeries hread h
    exact ⟨opening :: spelling ++ [closing], by simp, .items hseries⟩

theorem readMember_readsOnly : ReadsOnly (readMember readItem) (SpelledMember Item) := by
  intro text member rest h
  obtain ⟨⟨key, behind⟩, hkey, hmore⟩ := Option.bind_eq_some_iff.mp h
  obtain ⟨name, rfl, hname⟩ := exists_spelled_of_readString hkey
  obtain ⟨before, hbehind, hbefore⟩ := exists_blank behind
  dsimp only at hmore
  split at hmore
  · cases hmore
  rename_i c further hsign
  split at hmore
  · rename_i hc
    obtain ⟨value, hvalue, rfl⟩ := exists_of_map_read hmore
    obtain ⟨after, hfurther, hafter⟩ := exists_blank further
    obtain ⟨spelling, hskip, hspelled⟩ := hread hvalue
    refine ⟨name ++ before ++ ':' :: after ++ spelling, ?_, .intro hname hbefore hafter hspelled⟩
    rw [hbehind, hsign, hc, hfurther, hskip]
    simp
  · cases hmore

end Sound

section Complete

variable (hbegins : BeginsItems Item) (hread : ReadsAll readItem Item bound)
include hbegins hread

theorem readItem_append {item : α} {before tail : List Char} (hbefore : IsBlank before)
    (h : Item item spelling) (hbound : spelling.length ≤ bound) (hends : Ends tail) :
    readItem (skipBlank (before ++ (spelling ++ tail))) = some (item, tail) := by
  obtain ⟨c, more, hspelling, hc, -⟩ := hbegins h
  have hskip : skipBlank (before ++ (spelling ++ tail)) = spelling ++ tail := by
    rw [hspelling]
    exact skipBlank_append_cons hbefore hc
  rw [hskip]
  exact hread h hbound hends

theorem readSeries_of_series (hclosing : closing = ']' ∨ closing = '\x7d')
    (h : Series Item items spelling) (hbound : spelling.length ≤ bound) :
    ∀ {fuel}, spelling.length < fuel →
      readSeries readItem closing fuel (spelling ++ closing :: rest) = some (items, rest) := by
  have hsign : isBlank closing = false ∧ isScalarChar closing = false ∧ closing ≠ ',' := by
    rcases hclosing with rfl | rfl <;> decide
  induction h with
  | @last item before spelling after hbefore hitem hafter =>
    intro fuel hfuel
    obtain ⟨fuel, rfl⟩ := Nat.exists_eq_succ_of_ne_zero (Nat.ne_zero_of_lt hfuel)
    have hsplit : before ++ spelling ++ after ++ closing :: rest =
        before ++ (spelling ++ (after ++ closing :: rest)) := by simp
    simp only [List.length_append] at hbound
    have hends : Ends (after ++ closing :: rest) := ends_append_cons hafter hsign.2.1 rest
    rw [readSeries, hsplit, readItem_append hbegins hread hbefore hitem (by omega) hends,
      Option.bind_some]
    dsimp only
    rw [skipBlank_append_cons hafter hsign.1]
    exact if_pos rfl
  | @more item items before spelling after tail hbefore hitem hafter _ ih =>
    intro fuel hfuel
    obtain ⟨fuel, rfl⟩ := Nat.exists_eq_succ_of_ne_zero (Nat.ne_zero_of_lt hfuel)
    have hsplit : before ++ spelling ++ after ++ ',' :: tail ++ closing :: rest =
        before ++ (spelling ++ (after ++ ',' :: (tail ++ closing :: rest))) := by simp
    simp only [List.length_append, List.length_cons] at hbound hfuel
    have hends : Ends (after ++ ',' :: (tail ++ closing :: rest)) := ends_append_cons hafter rfl _
    rw [readSeries, hsplit, readItem_append hbegins hread hbefore hitem (by omega) hends,
      Option.bind_some]
    dsimp only
    rw [skipBlank_append_cons hafter rfl]
    dsimp only
    rw [if_neg hsign.2.2.symm, if_pos rfl, ih (by omega) (by omega)]
    rfl

omit hread in
theorem exists_begin_of_series (h : Series Item items spelling) :
    ∃ blank c more, spelling = blank ++ c :: more ∧ IsBlank blank ∧ isBlank c = false ∧
      c ≠ ']' ∧ c ≠ '\x7d' := by
  cases h with
  | @last item before spelling after hbefore hitem hafter =>
    obtain ⟨c, more, rfl, hc⟩ := hbegins hitem
    exact ⟨before, c, more ++ after, by simp, hbefore, hc⟩
  | @more item items before spelling after tail hbefore hitem hafter =>
    obtain ⟨c, more, rfl, hc⟩ := hbegins hitem
    exact ⟨before, c, more ++ after ++ ',' :: tail, by simp, hbefore, hc⟩

theorem readBracketed_of_bracketed {opening : Char} (hclosing : closing = ']' ∨ closing = '\x7d')
    (h : Bracketed Item opening closing items spelling) (hbound : spelling.length ≤ bound + 1)
    (rest : List Char) :
    ∃ more, spelling = opening :: more ∧
      readBracketed readItem closing (more ++ rest) = some (items, rest) := by
  have hblank : isBlank closing = false := by rcases hclosing with rfl | rfl <;> rfl
  cases h with
  | @empty blank hempty =>
    refine ⟨blank ++ [closing], rfl, ?_⟩
    rw [readBracketed, List.append_assoc, List.singleton_append,
      skipBlank_append_cons hempty hblank]
    exact if_pos rfl
  | @items _ body hseries =>
    refine ⟨body ++ [closing], rfl, ?_⟩
    obtain ⟨blank, c, more, hbody, hempty, hc, hclose⟩ := exists_begin_of_series hbegins hseries
    have hhead : (skipBlank (body ++ closing :: rest)).head? ≠ some closing := by
      rw [hbody, List.append_assoc, List.cons_append, skipBlank_append_cons hempty hc,
        List.head?_cons, ne_eq, Option.some.injEq]
      rcases hclosing with rfl | rfl
      · exact hclose.1
      · exact hclose.2
    simp only [List.length_append, List.length_cons] at hbound
    rw [readBracketed, List.append_assoc, List.singleton_append, if_neg hhead]
    refine readSeries_of_series hbegins hread hclosing hseries (by omega) ?_
    rw [List.length_append, List.length_cons]
    omega

theorem readMember_readsAll : ReadsAll (readMember readItem) (SpelledMember Item) bound := by
  intro member spelling rest h hlength hends
  obtain ⟨hname, hbefore, hafter, hvalue⟩ := h
  rename_i key value name before after spelling
  have hsplit : name ++ before ++ ':' :: after ++ spelling ++ rest =
      name ++ (before ++ ':' :: (after ++ (spelling ++ rest))) := by simp
  simp only [List.length_append, List.length_cons] at hlength
  rw [hsplit, readMember, readString_of_spelled hname, Option.bind_some]
  dsimp only
  rw [skipBlank_append_cons hbefore rfl]
  dsimp only
  rw [if_pos rfl, readItem_append hbegins hread hafter hvalue (by omega) hends]
  rfl

end Complete

end Item

section Scalar

variable {c : Char} {word digits rest : List Char} {value : Value} {bound : Nat}

theorem isScalarChar_of_isDigit (h : c.isDigit = true) : isScalarChar c = true := by
  simp [isScalarChar, Char.isAlphanum, h]

theorem IsFraction.scalar (h : IsFraction digits) : ∀ c ∈ digits, isScalarChar c = true := by
  cases h with
  | absent => simp
  | present h =>
    rw [List.forall_mem_cons]
    exact ⟨rfl, fun c hc => isScalarChar_of_isDigit (h.2 c hc)⟩

theorem IsExponent.scalar (h : IsExponent digits) : ∀ c ∈ digits, isScalarChar c = true := by
  cases h with
  | absent => simp
  | @present e sign digits he hsign h =>
    rw [List.forall_mem_append, List.forall_mem_cons]
    refine ⟨⟨?_, ?_⟩, fun c hc => isScalarChar_of_isDigit (h.2 c hc)⟩
    · rcases he with rfl | rfl <;> rfl
    · rcases hsign with rfl | rfl | rfl <;> simp [isScalarChar]

theorem IsNumber.scalar (h : IsNumber digits) : ∀ c ∈ digits, isScalarChar c = true := by
  obtain ⟨sign, whole, fraction, exponent, rfl, hsign, hwhole, hfraction, hexponent⟩ := h
  rw [List.forall_mem_append, List.forall_mem_append, List.forall_mem_append]
  refine ⟨⟨⟨?_, ?_⟩, hfraction.scalar⟩, hexponent.scalar⟩
  · rcases hsign with rfl | rfl <;> simp [isScalarChar]
  · exact fun c hc => isScalarChar_of_isDigit (hwhole.1.2 c hc)

theorem spelled_of_scalar? (h : scalar? word = some value) : Spelled value word := by
  rw [scalar?] at h
  split at h
  · rename_i hnumber
    cases h
    exact .number (isNumber_iff.mp hnumber)
  split at h
  · rename_i hword
    cases h
    exact hword ▸ .null
  split at h
  · rename_i hword
    cases h
    exact hword ▸ .boolTrue
  split at h
  · rename_i hword
    cases h
    exact hword ▸ .boolFalse
  · cases h

theorem exists_word_of_readScalar {text : List Char} (h : readScalar text = some (value, rest)) :
    ∃ word, text = word ++ rest ∧ scalar? word = some value := by
  obtain ⟨_, hscalar, heq⟩ := Option.map_eq_some_iff.mp h
  obtain ⟨rfl, rfl⟩ := Prod.mk.inj heq
  exact ⟨_, List.takeWhile_append_dropWhile.symm, hscalar⟩

theorem readScalar_append (hscalar : scalar? word = some value)
    (hword : ∀ c ∈ word, isScalarChar c = true) (hends : Ends rest) :
    readScalar (word ++ rest) = some (value, rest) := by
  rw [readScalar, takeWhile_append_stop hword hends, dropWhile_append_stop hword hends, hscalar]
  rfl

theorem readValue_cons_of_scalar (hc : isScalarChar c = true) :
    readValue (bound + 1) (c :: rest) = readScalar (c :: rest) := by
  have hquote : c ≠ '"' := by
    rintro rfl
    cases hc
  have hopen : c ≠ '[' := by
    rintro rfl
    cases hc
  have hbrace : c ≠ '\x7b' := by
    rintro rfl
    cases hc
  rw [readValue]
  dsimp only
  rw [if_neg hquote, if_neg hopen, if_neg hbrace]

theorem readValue_of_scalar (hscalar : scalar? word = some value)
    (hword : ∀ c ∈ word, isScalarChar c = true) (hends : Ends rest) :
    readValue (bound + 1) (word ++ rest) = some (value, rest) := by
  cases word with
  | nil => cases hscalar
  | cons c word =>
    rw [List.cons_append, readValue_cons_of_scalar (hword c List.mem_cons_self), ← List.cons_append]
    exact readScalar_append hscalar hword hends

end Scalar

section Document

variable {value : Value} {text spelling rest : List Char} {bound : Nat}

theorem exists_cons_of_scalar (hword : ∀ c ∈ text, isScalarChar c = true) (hne : text ≠ []) :
    ∃ c more, text = c :: more ∧ isBlank c = false ∧ c ≠ ']' ∧ c ≠ '\x7d' := by
  obtain ⟨c, more, rfl⟩ := List.exists_cons_of_ne_nil hne
  have hc := hword c List.mem_cons_self
  refine ⟨c, more, rfl, ?_, ?_, ?_⟩
  · rw [Bool.eq_false_iff]
    intro hblank
    rw [not_scalar_of_blank hblank] at hc
    cases hc
  · rintro rfl
    cases hc
  · rintro rfl
    cases hc

theorem IsNumber.ne_nil (h : IsNumber text) : text ≠ [] := by
  rintro rfl
  have h := isNumber_iff.mpr h
  cases h

theorem spelled_begins : BeginsItems Spelled := by
  intro value spelling h
  cases h with
  | null => exact ⟨'n', _, rfl, by decide⟩
  | boolTrue => exact ⟨'t', _, rfl, by decide⟩
  | boolFalse => exact ⟨'f', _, rfl, by decide⟩
  | number h => exact exists_cons_of_scalar h.scalar h.ne_nil
  | string h =>
    obtain ⟨-⟩ := h
    exact ⟨'"', _, rfl, by decide⟩
  | array h => cases h <;> exact ⟨'[', _, rfl, by decide⟩
  | object h => cases h <;> exact ⟨'\x7b', _, rfl, by decide⟩

theorem spelledMember_begins : BeginsItems (SpelledMember Spelled) := by
  intro member spelling h
  obtain ⟨hname, -, -, -⟩ := h
  obtain ⟨-⟩ := hname
  exact ⟨'"', _, rfl, by decide⟩

theorem readValue_readsOnly : ReadsOnly (readValue bound) Spelled := by
  induction bound with
  | zero =>
    intro text value rest h
    cases h
  | succ bound ih =>
    intro text value rest h
    rw [readValue.eq_def] at h
    dsimp only at h
    split at h
    · cases h
    rename_i c further
    split at h
    · obtain ⟨chars, hstring, rfl⟩ := exists_of_map_read h
      obtain ⟨spelling, hspelling, hspelled⟩ := exists_spelled_of_readString hstring
      exact ⟨spelling, hspelling, .string hspelled⟩
    split at h
    · rename_i hopen
      obtain ⟨items, hitems, rfl⟩ := exists_of_map_read h
      obtain ⟨spelling, hspelling, hspelled⟩ := bracketed_of_readBracketed ih c hitems
      exact ⟨spelling, hspelling, .array (hopen ▸ hspelled)⟩
    split at h
    · rename_i hopen
      obtain ⟨members, hmembers, rfl⟩ := exists_of_map_read h
      obtain ⟨spelling, hspelling, hspelled⟩ :=
        bracketed_of_readBracketed (readMember_readsOnly ih) c hmembers
      exact ⟨spelling, hspelling, .object (hopen ▸ hspelled)⟩
    · obtain ⟨word, hword, hscalar⟩ := exists_word_of_readScalar h
      exact ⟨word, hword, spelled_of_scalar? hscalar⟩

theorem readValue_readsAll (bound : Nat) : ReadsAll (readValue bound) Spelled bound := by
  induction bound with
  | zero =>
    intro value spelling rest h hlength
    obtain ⟨c, more, rfl, -⟩ := spelled_begins h
    cases hlength
  | succ bound ih =>
    intro value spelling rest h hlength hends
    -- The opening bracket pays for the step, so the bound still covers what is inside.
    cases h with
    | null => exact readValue_of_scalar rfl (List.all_eq_true.mp rfl) hends
    | boolTrue => exact readValue_of_scalar rfl (List.all_eq_true.mp rfl) hends
    | boolFalse => exact readValue_of_scalar rfl (List.all_eq_true.mp rfl) hends
    | number h =>
      exact readValue_of_scalar (if_pos (isNumber_iff.mpr h)) h.scalar hends
    | @string chars _ h =>
      have hread := readString_of_spelled h rest
      obtain ⟨-⟩ := h
      change (readString _).map _ = _
      rw [hread]
      rfl
    | array h =>
      obtain ⟨more, rfl, hread⟩ :=
        readBracketed_of_bracketed spelled_begins ih (Or.inl rfl) h hlength rest
      change (readBracketed (readValue bound) ']' (more ++ rest)).map _ = _
      rw [hread]
      rfl
    | object h =>
      obtain ⟨more, rfl, hread⟩ := readBracketed_of_bracketed spelledMember_begins
        (readMember_readsAll spelled_begins ih) (Or.inr rfl) h hlength rest
      change (readBracketed (readMember (readValue bound)) '\x7d' (more ++ rest)).map _ = _
      rw [hread]
      rfl

theorem read_eq_some_iff : read text = some value ↔ Document value text := by
  constructor
  · intro h
    obtain ⟨⟨_, rest⟩, hread, hrest⟩ := Option.bind_eq_some_iff.mp h
    dsimp only at hrest
    split at hrest
    · rename_i hskip
      cases hrest
      obtain ⟨before, htext, hbefore⟩ := exists_blank text
      obtain ⟨spelling, hspelling, hspelled⟩ := readValue_readsOnly hread
      obtain ⟨after, hafter, hblank⟩ := exists_blank rest
      rw [hskip, List.append_nil] at hafter
      rw [htext, hspelling, ← List.append_assoc, hafter]
      exact .intro hbefore hspelled hblank
    · cases hrest
  · intro h
    obtain ⟨hbefore, hspelled, hafter⟩ := h
    rename_i before spelling after
    obtain ⟨c, more, hspelling, hc, -⟩ := spelled_begins hspelled
    have hskip : skipBlank (before ++ spelling ++ after) = spelling ++ after := by
      rw [List.append_assoc, hspelling]
      exact skipBlank_append_cons hbefore hc
    have hlength : spelling.length ≤ (before ++ spelling ++ after).length := by
      simp only [List.length_append]
      omega
    rw [read, hskip, readValue_readsAll _ hspelled hlength (ends_of_isBlank hafter),
      Option.bind_some]
    exact if_pos (skipBlank_of_isBlank hafter)

example : read " [-1.5e3, \x7b \"\\u00e9\": null, \"b\": [ ] \x7d]\n".toList =
    some (.array [.number "-1.5e3".toList,
      .object [("é".toList, .null), ("b".toList, .array [])]]) := by rfl

/-- A text is a document of one value at most. -/
theorem Document.unique {value' : Value} (h : Document value text) (h' : Document value' text) :
    value = value' := by
  rw [← read_eq_some_iff] at h h'
  exact Option.some.inj (h.symm.trans h')

end Document

end MarkupAudit.Json
