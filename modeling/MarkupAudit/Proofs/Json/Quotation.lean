import MarkupAudit.Proofs.Json.Number

/-!
Reading the strings of JSON documents. What a character of a string is spelled with is read back
(`readChar_of_spelled`), and what is read is spelled so (`exists_spelled_of_readChar`); a string
goes on to the first quote that stands without a backslash (`readString_of_spelled`,
`exists_spelled_of_readString`).
-/

namespace MarkupAudit.Json

def readHex (text : List Char) : Option (Nat × List Char) :=
  (hexNumber? (text.take 4)).map (·, text.drop 4)

/-- The second half of a character, after a high surrogate. -/
def readLowSurrogate : List Char → Option (Nat × List Char)
  | '\\' :: 'u' :: rest => (readHex rest).filter fun (low, _) => isLowSurrogate low
  | _ => none

/-- The character of the number that stands behind a backslash and a `u`. -/
def readCode (n : Nat) (rest : List Char) : Option (Char × List Char) :=
  if isHighSurrogate n then
    (readLowSurrogate rest).map fun (low, rest) => (Char.ofNat (joinSurrogates n low), rest)
  else if isLowSurrogate n then none
  else some (Char.ofNat n, rest)

def readEscape (letter : Char) (rest : List Char) : Option (Char × List Char) :=
  if letter = 'u' then (readHex rest).bind fun (n, rest) => readCode n rest
  else (shortEscapes.lookup letter).map (·, rest)

/-- A character of a string. -/
def readChar : List Char → Option (Char × List Char)
  | [] => none
  | c :: rest =>
    if c = '\\' then rest.head?.bind fun letter => readEscape letter rest.tail
    else if c = '"' ∨ c.toNat < 0x20 then none
    else some (c, rest)

/-- The characters of a string up to its closing quote. -/
def readChars : Nat → List Char → Option (List Char × List Char)
  | 0, _ => none
  | bound + 1, text =>
    if text.head? = some '"' then some ([], text.tail)
    else
      (readChar text).bind fun (c, rest) =>
        (readChars bound rest).map fun (chars, rest) => (c :: chars, rest)

def readString (text : List Char) : Option (List Char × List Char) :=
  if text.head? = some '"' then readChars text.length text.tail else none

/-- When what is read is passed on in another form, the rest is the same. -/
theorem exists_of_map_read {α β : Type} {reading : Option (α × List Char)} {f : α → β} {b : β}
    {rest : List Char} (h : (reading.map fun (a, rest) => (f a, rest)) = some (b, rest)) :
    ∃ a, reading = some (a, rest) ∧ f a = b := by
  obtain ⟨⟨a, _⟩, hread, heq⟩ := Option.map_eq_some_iff.mp h
  obtain ⟨rfl, rfl⟩ := Prod.mk.inj heq
  exact ⟨a, hread, rfl⟩

section Hex

variable {digits text rest : List Char} {n : Nat}

theorem toNat_le {a b : Char} (h : a ≤ b) : a.toNat ≤ b.toNat :=
  UInt32.le_iff_toNat_le.mp (Char.le_def.mp h)

theorem hexDigit?_lt {c : Char} (h : hexDigit? c = some n) : n < 16 := by
  have hzero : '0'.toNat = 48 := rfl
  have hsmall : 'a'.toNat = 97 ∧ 'f'.toNat = 102 := ⟨rfl, rfl⟩
  have hlarge : 'A'.toNat = 65 ∧ 'F'.toNat = 70 := ⟨rfl, rfl⟩
  rw [hexDigit?] at h
  split at h
  · rename_i hc
    have hc := (Char.isDigit_iff_toNat.mp hc).2
    have hnine : '9'.toNat = 57 := rfl
    cases h
    omega
  split at h
  · rename_i hc
    have hc := toNat_le hc.2
    cases h
    omega
  split at h
  · rename_i hc
    have hc := toNat_le hc.2
    cases h
    omega
  · cases h

theorem hexNumber?_length (h : hexNumber? digits = some n) : digits.length = 4 := by
  unfold hexNumber? at h
  split at h
  · rfl
  · cases h

theorem hexNumber?_lt (h : hexNumber? digits = some n) : n < 65536 := by
  unfold hexNumber? at h
  split at h
  · simp only [bind, Option.bind_eq_some_iff, pure, Option.some.injEq] at h
    obtain ⟨a, ha, b, hb, c, hc, d, hd, rfl⟩ := h
    have ha := hexDigit?_lt ha
    have hb := hexDigit?_lt hb
    have hc := hexDigit?_lt hc
    have hd := hexDigit?_lt hd
    omega
  · cases h

theorem readHex_append (h : hexNumber? digits = some n) :
    readHex (digits ++ rest) = some (n, rest) := by
  have hlength := hexNumber?_length h
  rw [readHex, List.take_left' hlength, List.drop_left' hlength, h]
  rfl

theorem exists_digits_of_readHex (h : readHex text = some (n, rest)) :
    ∃ digits, text = digits ++ rest ∧ hexNumber? digits = some n := by
  obtain ⟨m, hm, heq⟩ := Option.map_eq_some_iff.mp h
  obtain ⟨rfl, rfl⟩ := Prod.mk.inj heq
  exact ⟨_, (List.take_append_drop 4 text).symm, hm⟩

end Hex

section Surrogate

variable {n high low : Nat}

theorem toNat_ofNat {n : Nat} (h : n.isValidChar) : (Char.ofNat n).toNat = n := by
  rw [Char.ofNat, dif_pos h]
  rfl

theorem isHighSurrogate_iff : isHighSurrogate n = true ↔ 0xD800 ≤ n ∧ n ≤ 0xDBFF := by
  simp [isHighSurrogate]

theorem isLowSurrogate_iff : isLowSurrogate n = true ↔ 0xDC00 ≤ n ∧ n ≤ 0xDFFF := by
  simp [isLowSurrogate]

theorem not_surrogate (c : Char) :
    isHighSurrogate c.toNat = false ∧ isLowSurrogate c.toNat = false := by
  have hc : c.toNat < 0xD800 ∨ 0xDFFF < c.toNat ∧ c.toNat < 0x110000 := c.valid
  rw [Bool.eq_false_iff, Bool.eq_false_iff, ne_eq, ne_eq, isHighSurrogate_iff, isLowSurrogate_iff]
  omega

theorem isValidChar_of_not_surrogate (hlt : n < 65536) (hhigh : isHighSurrogate n = false)
    (hlow : isLowSurrogate n = false) : n.isValidChar := by
  rw [Bool.eq_false_iff, ne_eq, isHighSurrogate_iff] at hhigh
  rw [Bool.eq_false_iff, ne_eq, isLowSurrogate_iff] at hlow
  rw [Nat.isValidChar]
  omega

theorem isValidChar_joinSurrogates (hhigh : isHighSurrogate high = true)
    (hlow : isLowSurrogate low = true) : (joinSurrogates high low).isValidChar := by
  rw [isHighSurrogate_iff] at hhigh
  rw [isLowSurrogate_iff] at hlow
  have hmin : 0x10000 ≤ joinSurrogates high low :=
    Nat.le_add_right_of_le (Nat.le_add_right 0x10000 _)
  have hmax : joinSurrogates high low < 0x110000 := by
    unfold joinSurrogates
    omega
  exact Or.inr ⟨by omega, hmax⟩

end Surrogate

section Character

variable {c : Char} {text spelling rest : List Char}

theorem readLowSurrogate_append {second : List Char} {low : Nat}
    (h : hexNumber? second = some low) (hlow : isLowSurrogate low = true) :
    readLowSurrogate ('\\' :: 'u' :: second ++ rest) = some (low, rest) := by
  change (readHex (second ++ rest)).filter _ = _
  rw [readHex_append h, Option.filter_some, if_pos hlow]

theorem exists_digits_of_readLowSurrogate {low : Nat}
    (h : readLowSurrogate text = some (low, rest)) :
    ∃ second, text = '\\' :: 'u' :: second ++ rest ∧ hexNumber? second = some low ∧
      isLowSurrogate low = true := by
  rw [readLowSurrogate.eq_def] at h
  split at h
  · obtain ⟨hread, hlow⟩ := Option.filter_eq_some_iff.mp h
    obtain ⟨second, rfl, hsecond⟩ := exists_digits_of_readHex hread
    exact ⟨second, rfl, hsecond, hlow⟩
  · cases h

theorem readCode_toNat (c : Char) (rest : List Char) : readCode c.toNat rest = some (c, rest) := by
  obtain ⟨hhigh, hlow⟩ := not_surrogate c
  rw [readCode, hhigh, hlow, Char.ofNat_toNat]
  rfl

theorem lookup_shortEscapes_iff {letter : Char} :
    shortEscapes.lookup letter = some c ↔ (letter, c) ∈ shortEscapes := by
  constructor
  · intro h
    obtain ⟨before, after, hsplit, -⟩ := List.lookup_eq_some_iff.mp h
    rw [hsplit]
    exact List.mem_append_right before List.mem_cons_self
  · intro h
    simp only [shortEscapes, List.mem_cons, List.not_mem_nil, or_false, Prod.mk.injEq] at h
    rcases h with ⟨rfl, rfl⟩ | ⟨rfl, rfl⟩ | ⟨rfl, rfl⟩ | ⟨rfl, rfl⟩ | ⟨rfl, rfl⟩ | ⟨rfl, rfl⟩ |
      ⟨rfl, rfl⟩ | ⟨rfl, rfl⟩ <;> rfl

theorem readChar_of_spelled (h : SpelledChar c spelling) :
    readChar (spelling ++ rest) = some (c, rest) := by
  cases h with
  | plain hquote hslash hcontrol =>
    change (if c = '\\' then _ else if c = '"' ∨ c.toNat < 0x20 then none else some (c, rest)) = _
    rw [if_neg hslash, if_neg (by simp [hquote]; omega)]
  | @short letter h =>
    have hletter : letter ≠ 'u' := by
      rintro rfl
      revert h
      simp [shortEscapes]
    change readEscape letter rest = _
    rw [readEscape, if_neg hletter, lookup_shortEscapes_iff.mpr h]
    rfl
  | @code digits h =>
    change (readHex (digits ++ rest)).bind _ = _
    rw [readHex_append h]
    exact readCode_toNat c rest
  | @pair first second high low hfirst hsecond hhigh hlow h =>
    change (readHex (first ++ '\\' :: 'u' :: second ++ rest)).bind _ = _
    rw [List.append_assoc, readHex_append hfirst, Option.bind_some]
    dsimp only
    rw [readCode, if_pos hhigh, readLowSurrogate_append hsecond hlow, Option.map_some]
    dsimp only
    rw [← h, Char.ofNat_toNat]

theorem exists_spelled_of_readEscape {letter : Char} (h : readEscape letter text = some (c, rest)) :
    ∃ spelling, letter :: text = spelling ++ rest ∧ SpelledChar c ('\\' :: spelling) := by
  rw [readEscape] at h
  split at h
  · rename_i hletter
    subst hletter
    obtain ⟨⟨n, behind⟩, hread, hcode⟩ := Option.bind_eq_some_iff.mp h
    obtain ⟨digits, rfl, hdigits⟩ := exists_digits_of_readHex hread
    dsimp only at hcode
    rw [readCode] at hcode
    split at hcode
    · rename_i hhigh
      obtain ⟨⟨low, _⟩, hlow, heq⟩ := Option.map_eq_some_iff.mp hcode
      obtain ⟨rfl, rfl⟩ := Prod.mk.inj heq
      obtain ⟨second, rfl, hsecond, hlow⟩ := exists_digits_of_readLowSurrogate hlow
      refine ⟨'u' :: digits ++ '\\' :: 'u' :: second, by simp, ?_⟩
      exact .pair hdigits hsecond hhigh hlow (toNat_ofNat (isValidChar_joinSurrogates hhigh hlow))
    split at hcode
    · cases hcode
    · rename_i hhigh hlow
      obtain ⟨rfl, rfl⟩ := Prod.mk.inj (Option.some.inj hcode)
      refine ⟨'u' :: digits, rfl, .code ?_⟩
      have hvalid := isValidChar_of_not_surrogate (hexNumber?_lt hdigits) (by simpa using hhigh)
        (by simpa using hlow)
      rw [hdigits, toNat_ofNat hvalid]
  · obtain ⟨d, hd, heq⟩ := Option.map_eq_some_iff.mp h
    obtain ⟨rfl, rfl⟩ := Prod.mk.inj heq
    exact ⟨[letter], rfl, .short (lookup_shortEscapes_iff.mp hd)⟩

theorem exists_spelled_of_readChar (h : readChar text = some (c, rest)) :
    ∃ spelling, text = spelling ++ rest ∧ SpelledChar c spelling := by
  cases text with
  | nil => cases h
  | cons first text =>
    rw [readChar] at h
    split at h
    · rename_i hfirst
      subst hfirst
      obtain ⟨letter, hletter, hescape⟩ := Option.bind_eq_some_iff.mp h
      obtain ⟨spelling, htext, hspelled⟩ := exists_spelled_of_readEscape hescape
      obtain ⟨behind, rfl⟩ := List.head?_eq_some_iff.mp hletter
      rw [List.tail_cons] at htext
      exact ⟨'\\' :: spelling, by rw [htext]; rfl, hspelled⟩
    split at h
    · cases h
    · rename_i hslash hplain
      obtain ⟨rfl, rfl⟩ := Prod.mk.inj (Option.some.inj h)
      rw [not_or, Nat.not_lt] at hplain
      exact ⟨[first], rfl, .plain hplain.1 hslash hplain.2⟩

/-- What spells a character does not begin with a quote. -/
theorem SpelledChar.exists_cons (h : SpelledChar c spelling) :
    ∃ first more, spelling = first :: more ∧ first ≠ '"' := by
  cases h with
  | plain hquote => exact ⟨c, [], rfl, hquote⟩
  | @short letter => exact ⟨'\\', [letter], rfl, by decide⟩
  | code => exact ⟨'\\', _, rfl, by decide⟩
  | pair => exact ⟨'\\', _, rfl, by decide⟩

end Character

section Characters

variable {chars text spelling rest : List Char} {bound : Nat}

theorem readChars_of_spelled (h : SpelledChars chars spelling) :
    ∀ {bound}, spelling.length < bound →
      readChars bound (spelling ++ '"' :: rest) = some (chars, rest) := by
  induction h with
  | nil =>
    intro bound hbound
    obtain ⟨bound, rfl⟩ := Nat.exists_eq_succ_of_ne_zero (Nat.ne_of_gt hbound)
    rfl
  | @cons c chars spelling more hc _ ih =>
    intro bound hbound
    obtain ⟨first, behind, hspelling, hfirst⟩ := hc.exists_cons
    have hlength : spelling.length = behind.length + 1 := by rw [hspelling, List.length_cons]
    rw [List.length_append] at hbound
    obtain ⟨bound, rfl⟩ := Nat.exists_eq_succ_of_ne_zero (show bound ≠ 0 by omega)
    have hhead : (spelling ++ more ++ '"' :: rest).head? ≠ some '"' := by
      rw [hspelling]
      simpa using hfirst
    rw [readChars, if_neg hhead, List.append_assoc, readChar_of_spelled hc, Option.bind_some]
    dsimp only
    rw [ih (by omega)]
    rfl

theorem exists_spelled_of_readChars :
    ∀ {bound text chars}, readChars bound text = some (chars, rest) →
      ∃ spelling, text = spelling ++ '"' :: rest ∧ SpelledChars chars spelling := by
  intro bound
  induction bound with
  | zero =>
    intro text chars h
    cases h
  | succ bound ih =>
    intro text chars h
    rw [readChars] at h
    split at h
    · rename_i hhead
      obtain ⟨behind, rfl⟩ := List.head?_eq_some_iff.mp hhead
      obtain ⟨rfl, rfl⟩ := Prod.mk.inj (Option.some.inj h)
      exact ⟨[], rfl, .nil⟩
    · obtain ⟨⟨c, behind⟩, hread, hmap⟩ := Option.bind_eq_some_iff.mp h
      obtain ⟨more, hmore, rfl⟩ := exists_of_map_read hmap
      obtain ⟨spelling, rfl, hc⟩ := exists_spelled_of_readChar hread
      obtain ⟨tail, rfl, htail⟩ := ih hmore
      exact ⟨spelling ++ tail, by simp, .cons hc htail⟩

theorem readString_of_spelled (h : SpelledString chars spelling) (rest : List Char) :
    readString (spelling ++ rest) = some (chars, rest) := by
  obtain ⟨hspelled⟩ := h
  rename_i spelling
  have htail : ('"' :: spelling ++ ['"'] ++ rest).tail = spelling ++ '"' :: rest := by simp
  have hhead : ('"' :: spelling ++ ['"'] ++ rest).head? = some '"' := rfl
  rw [readString, if_pos hhead, htail]
  refine readChars_of_spelled hspelled ?_
  simp only [List.length_append, List.length_cons]
  omega

theorem exists_spelled_of_readString (h : readString text = some (chars, rest)) :
    ∃ spelling, text = spelling ++ rest ∧ SpelledString chars spelling := by
  rw [readString] at h
  split at h
  · rename_i hhead
    obtain ⟨behind, rfl⟩ := List.head?_eq_some_iff.mp hhead
    obtain ⟨spelling, htail, hspelled⟩ := exists_spelled_of_readChars h
    rw [List.tail_cons] at htail
    exact ⟨'"' :: spelling ++ ['"'], by simp [htail], .intro hspelled⟩
  · cases h

end Characters

end MarkupAudit.Json
