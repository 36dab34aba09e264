import MarkupAudit.Json.Printer
import MarkupAudit.Proofs.Toml.LayoutDocument

/-!
Strings and arrays of strings as they may be written in a document. Each character of a string in
double quotes is written as it is or by one of its escapes, and what is written is read back
(`quotation_of_spelled`, `items_of_spelled`).
-/

namespace MarkupAudit.Toml

open Cursor (uncons_cons expect_cons rest_skipWhile fst_takeWhile rest_takeWhile)

/-- The characters that a single letter stands for behind a backslash. -/
def shortEscapes : List (Char × Char) :=
  [('b', '\x08'), ('t', '\t'), ('n', '\n'), ('f', '\x0c'), ('r', '\r'), ('"', '"'), ('\\', '\\')]

/-- The number that hexadecimal digits stand for behind others. -/
def hexNumber? (acc : Nat) (digits : List Char) : Option Nat :=
  digits.foldlM (fun n c => (hexDigit? c).map (16 * n + ·)) acc

inductive SpelledChar : Char → List Char → Prop where
  | plain {c : Char} (h : isPlain c = true) (hquote : c ≠ '"') (hslash : c ≠ '\\') :
      SpelledChar c [c]
  | short {c letter : Char} (h : (letter, c) ∈ shortEscapes) : SpelledChar c ['\\', letter]
  | code {c : Char} {digits : List Char} (hlength : digits.length = 4)
      (h : hexNumber? 0 digits = some c.toNat) : SpelledChar c ('\\' :: 'u' :: digits)
  | longCode {c : Char} {digits : List Char} (hlength : digits.length = 8)
      (h : hexNumber? 0 digits = some c.toNat) : SpelledChar c ('\\' :: 'U' :: digits)

inductive SpelledChars : List Char → List Char → Prop where
  | nil : SpelledChars [] []
  | cons {c : Char} {text spelling more : List Char} (h : SpelledChar c spelling)
      (hmore : SpelledChars text more) : SpelledChars (c :: text) (spelling ++ more)

inductive SpelledString : String → List Char → Prop where
  | intro {text : String} {spelling : List Char} (h : SpelledChars text.toList spelling) :
      SpelledString text ('"' :: spelling ++ ['"'])

section Character

variable {c : Char} {digits spelling rest : List Char} {n : Nat}

theorem hexDigits_append {acc : Nat} (h : hexNumber? acc digits = some n) (k : Nat)
    (rest : List Char) :
    ∃ m, hexDigits digits.length acc ⟨k, digits ++ rest⟩ = some (n, ⟨m, rest⟩) := by
  induction digits generalizing acc k with
  | nil =>
    cases h
    exact ⟨k, rfl⟩
  | cons c digits ih =>
    obtain ⟨middle, hmiddle, h⟩ := Option.bind_eq_some_iff.mp h
    obtain ⟨d, hd, rfl⟩ := Option.map_eq_some_iff.mp hmiddle
    obtain ⟨m, hm⟩ := ih h (k + c.utf8Size)
    refine ⟨m, ?_⟩
    rw [List.length_cons, List.cons_append, hexDigits, uncons_cons]
    simp only [Option.bind_eq_bind, Option.bind_some, hd]
    exact hm

theorem codePoint_append (h : hexNumber? 0 digits = some c.toNat) (k : Nat) (rest : List Char) :
    ∃ m, codePoint digits.length ⟨k, digits ++ rest⟩ = some (c, ⟨m, rest⟩) := by
  obtain ⟨m, hm⟩ := hexDigits_append h k rest
  refine ⟨m, ?_⟩
  have hvalid : c.toNat.isValidChar := c.valid
  simp only [codePoint, hm, Option.bind_eq_bind, Option.bind_some]
  rw [if_pos hvalid, Char.ofNat_toNat]

theorem escape_short {letter : Char} (h : (letter, c) ∈ shortEscapes) (k : Nat)
    (rest : List Char) :
    ∃ m, escape ⟨k, letter :: rest⟩ = some (c, ⟨m, rest⟩) := by
  simp only [shortEscapes, List.mem_cons, Prod.mk.injEq, List.not_mem_nil, or_false] at h
  rcases h with ⟨rfl, rfl⟩ | ⟨rfl, rfl⟩ | ⟨rfl, rfl⟩ | ⟨rfl, rfl⟩ | ⟨rfl, rfl⟩ | ⟨rfl, rfl⟩ | ⟨rfl, rfl⟩
  all_goals exact ⟨_, rfl⟩

theorem basicText_of_escape {k m fuel : Nat} (h : escape ⟨k + '\\'.utf8Size, rest⟩ = some (c, ⟨m, digits⟩)) :
    basicText (fuel + 1) ⟨k, '\\' :: rest⟩ =
      (basicText fuel ⟨m, digits⟩).map fun (text, last) => (c :: text, last) := by
  rw [basicText, uncons_cons]
  simp only [Option.bind_eq_bind, Option.bind_some, h, Option.map_eq_bind]
  rfl

/-- One character is read from what it is written with. -/
theorem basicText_spelledChar (h : SpelledChar c spelling) (fuel k : Nat) (rest : List Char) :
    ∃ m, basicText (fuel + 1) ⟨k, spelling ++ rest⟩ =
      (basicText fuel ⟨m, rest⟩).map fun (text, last) => (c :: text, last) := by
  cases h with
  | plain h hquote hslash =>
    refine ⟨k + c.utf8Size, ?_⟩
    rw [List.singleton_append, basicText, uncons_cons]
    simp only [Option.bind_eq_bind, Option.bind_some, hquote, hslash, h, if_false, if_true,
      Option.map_eq_bind]
    rfl
  | short h =>
    obtain ⟨m, hm⟩ := escape_short h (k + '\\'.utf8Size) rest
    exact ⟨m, basicText_of_escape hm⟩
  | code hlength h =>
    obtain ⟨m, hm⟩ := codePoint_append h (k + '\\'.utf8Size + 'u'.utf8Size) rest
    rw [hlength] at hm
    exact ⟨m, basicText_of_escape hm⟩
  | longCode hlength h =>
    obtain ⟨m, hm⟩ := codePoint_append h (k + '\\'.utf8Size + 'U'.utf8Size) rest
    rw [hlength] at hm
    exact ⟨m, basicText_of_escape hm⟩

theorem length_pos_of_spelledChar (h : SpelledChar c spelling) : 0 < spelling.length := by
  cases h <;> simp

theorem basicText_of_spelled {text : List Char} (h : SpelledChars text spelling) {fuel : Nat}
    (hfuel : spelling.length < fuel) (k : Nat) :
    ∃ m, basicText fuel ⟨k, spelling ++ ['"']⟩ = some (text, ⟨m, []⟩) := by
  induction h generalizing fuel k with
  | nil =>
    obtain ⟨fuel, rfl⟩ := Nat.exists_eq_succ_of_ne_zero (Nat.ne_zero_of_lt hfuel)
    exact ⟨_, rfl⟩
  | @cons c text spelling more h _ ih =>
    obtain ⟨fuel, rfl⟩ := Nat.exists_eq_succ_of_ne_zero (Nat.ne_zero_of_lt hfuel)
    have hpos := length_pos_of_spelledChar h
    rw [List.length_append] at hfuel
    obtain ⟨j, hj⟩ := basicText_spelledChar h fuel k (more ++ ['"'])
    have hmore : more.length < fuel := by omega
    obtain ⟨m, hm⟩ := ih hmore j
    refine ⟨m, ?_⟩
    rw [List.append_assoc, hj, hm]
    rfl

end Character

section String

variable {text : String} {spelling rest : List Char}

theorem shortQuotation_of_spelled (h : SpelledString text spelling) (k : Nat) :
    ∃ m, shortQuotation ⟨k, spelling⟩ = some (text.toList, ⟨m, []⟩) := by
  obtain ⟨h⟩ := h
  rename_i spelling
  have hfuel : spelling.length < (spelling ++ ['"']).length := by simp
  obtain ⟨m, hm⟩ := basicText_of_spelled h hfuel (k + '"'.utf8Size)
  exact ⟨m, hm⟩

/-- A string is read back, however it is written. -/
theorem quotation_of_spelled (h : SpelledString text spelling) (hrest : Unquoted rest) (n : Nat) :
    ∃ m, quotation ⟨n, spelling ++ rest⟩ = some (text.toList, ⟨m, rest⟩) := by
  obtain ⟨m, hm⟩ := shortQuotation_of_spelled h 0
  exact quotation_of_short hrest hm n

end String

/-! ### Arrays -/

/-- What may stand between the items of an array: lines that say nothing, and blanks. -/
inductive IsSpace : List Char → Prop where
  | intro {lines blanks : List Char} (hlines : IsLines lines)
      (hblanks : ∀ c ∈ blanks, isBlank c = true) : IsSpace (lines ++ blanks)

/-- Strings up to the bracket that closes their array. -/
inductive SpelledItems : List String → List Char → Prop where
  | nil {before : List Char} (hbefore : IsSpace before) : SpelledItems [] (before ++ [']'])
  | last {text : String} {before spelling after : List Char} (hbefore : IsSpace before)
      (h : SpelledString text spelling) (hafter : IsSpace after) :
      SpelledItems [text] (before ++ (spelling ++ (after ++ [']'])))
  | cons {text : String} {texts : List String} {before spelling after more : List Char}
      (hbefore : IsSpace before) (h : SpelledString text spelling) (hafter : IsSpace after)
      (hmore : SpelledItems texts more) :
      SpelledItems (text :: texts) (before ++ (spelling ++ (after ++ ',' :: more)))

inductive SpelledArray : List String → List Char → Prop where
  | intro {texts : List String} {spelling : List Char} (h : SpelledItems texts spelling) :
      SpelledArray texts ('[' :: spelling)

section Array

variable {text : String} {texts : List String} {space spelling rest : List Char} {c : Char}

theorem skipSpace_of_isSpace (h : IsSpace space) (hc : isSolid c = true) (n : Nat)
    (rest : List Char) : ∃ m, skipSpace ⟨n, space ++ c :: rest⟩ = ⟨m, c :: rest⟩ := by
  obtain ⟨hlines, hblanks⟩ := h
  rename_i lines blanks
  have hskip : Abreast (skipBlanks ⟨n, blanks ++ c :: rest⟩) (skipBlanks ⟨n, c :: rest⟩) := by
    rw [Abreast, skipBlanks, skipBlanks, rest_skipWhile, rest_skipWhile,
      List.dropWhile_append_of_pos hblanks]
  have hblank := abreast_skipSpace hskip
  rw [skipSpace_of_isSolid hc] at hblank
  apply Cursor.exists_offset
  rw [List.append_assoc, skipSpace_lines hlines n n, hblank]

theorem unquoted_of_isSpace (h : IsSpace space) (hc : isMark c = true) (rest : List Char) :
    Unquoted (space ++ c :: rest) := by
  obtain ⟨hlines, hblanks⟩ := h
  rename_i lines blanks
  by_cases hne : lines = []
  · subst hne
    cases blanks with
    | nil => exact unquoted_of_isOrdinary (Bool.and_eq_true_iff.mp hc).1 rest
    | cons b blanks =>
      have hb := hblanks b List.mem_cons_self
      apply unquoted_of_not_solid
      rw [List.nil_append, List.cons_append, solid_cons_iff, isSolid_iff, hb]
      exact fun h => Bool.noConfusion h.1
  · rw [List.append_assoc]
    exact unquoted_of_not_solid (not_solid_lines hlines hne _)

theorem value_of_spelled (depth : Nat) (h : SpelledString text spelling) (hrest : Unquoted rest)
    (n : Nat) :
    ∃ m, value depth ⟨n, spelling ++ rest⟩ = some (.scalar (.string text.toList), ⟨m, rest⟩) := by
  obtain ⟨m, hm⟩ := quotation_of_spelled h hrest n
  have hscalar : scalar ⟨n, spelling ++ rest⟩ = some (.string text.toList, ⟨m, rest⟩) := by
    rw [scalar, hm]
  refine ⟨m, ?_⟩
  obtain ⟨h⟩ := h
  cases depth with
  | zero =>
    rw [value, hscalar]
    rfl
  | succ depth =>
    rw [value, hscalar]
    rfl

theorem spanned_of_spelled (depth : Nat) (h : SpelledString text spelling) (hrest : Unquoted rest)
    (n : Nat) :
    ∃ span m, spanned (value depth) ⟨n, spelling ++ rest⟩ =
      some (span, .scalar (.string text.toList), ⟨m, rest⟩) := by
  obtain ⟨m, hm⟩ := value_of_spelled depth h hrest n
  exact ⟨⟨n, m⟩, m, by rw [spanned, hm]; rfl⟩

theorem expect_quote_eq_none {n : Nat} {d : Char} (h : SpelledString text spelling) (hd : d ≠ '"') :
    (⟨n, spelling ++ rest⟩ : Cursor).expect d = none := by
  obtain ⟨h⟩ := h
  rw [List.cons_append, List.cons_append, expect_cons, if_neg hd.symm]

theorem isSolid_of_spelled (h : SpelledString text spelling) :
    ∃ c more, spelling = c :: more ∧ isSolid c = true := by
  obtain ⟨h⟩ := h
  exact ⟨'"', _, rfl, by decide⟩

/-- Nodes of strings. -/
def stringNodes (texts : List String) : List Node :=
  texts.map fun text => .scalar (.string text.toList)

/-- One item is read, and the sign behind it tells whether there are more. -/
theorem items_of_item (depth : Nat) {before after : List Char} (hbefore : IsSpace before)
    (h : SpelledString text spelling) (hafter : IsSpace after) {sign : Char}
    (hsign : isMark sign = true) (fuel n : Nat) (rest : List Char) : ∃ span m,
      items (value depth) (fuel + 1) ⟨n, before ++ (spelling ++ (after ++ sign :: rest))⟩ =
        if sign = ',' then (items (value depth) fuel ⟨m, rest⟩).map fun x =>
          ((some span, .scalar (.string text.toList)) :: x.1, x.2)
        else if sign = ']' then some ([(some span, .scalar (.string text.toList))], ⟨m, rest⟩)
        else none := by
  have hsolid := isSolid_of_isMark hsign
  obtain ⟨c, tail, hspelling, hc⟩ := isSolid_of_spelled h
  obtain ⟨k, hk⟩ := skipSpace_of_isSpace hbefore hc n (tail ++ (after ++ sign :: rest))
  rw [← List.cons_append, ← hspelling] at hk
  obtain ⟨span, l, hl⟩ := spanned_of_spelled depth h
    (unquoted_of_isSpace hafter hsign rest) k
  obtain ⟨m, hm⟩ := skipSpace_of_isSpace hafter hsolid l rest
  refine ⟨span, m + sign.utf8Size, ?_⟩
  rw [items, hk]
  dsimp only
  rw [expect_quote_eq_none h (by decide), hl]
  simp only [Option.bind_eq_bind, Option.bind_some, hm, expect_cons]
  by_cases hcomma : sign = ','
  · simp only [hcomma, if_true, Option.map_eq_bind]
    rfl
  · by_cases hbracket : sign = ']'
    · simp [hbracket]
    · simp [hcomma, hbracket]

/-- The strings of an array are read back in their order. -/
theorem items_of_spelled (depth : Nat) (h : SpelledItems texts spelling) {fuel : Nat}
    (hfuel : spelling.length < fuel) (n : Nat) (rest : List Char) :
    ∃ found m, items (value depth) fuel ⟨n, spelling ++ rest⟩ = some (found, ⟨m, rest⟩) ∧
      found.map (·.2) = stringNodes texts := by
  induction h generalizing fuel n with
  | nil hbefore =>
    obtain ⟨fuel, rfl⟩ := Nat.exists_eq_succ_of_ne_zero (Nat.ne_zero_of_lt hfuel)
    obtain ⟨m, hm⟩ := skipSpace_of_isSpace hbefore (c := ']') (by decide) n rest
    refine ⟨[], m + ']'.utf8Size, ?_, rfl⟩
    rw [List.append_assoc, List.singleton_append, items, hm]
    rfl
  | last hbefore h hafter =>
    obtain ⟨fuel, rfl⟩ := Nat.exists_eq_succ_of_ne_zero (Nat.ne_zero_of_lt hfuel)
    have hsign : isMark ']' = true := by decide
    obtain ⟨span, m, hm⟩ := items_of_item depth hbefore h hafter hsign fuel n rest
    refine ⟨[(some span, _)], m, ?_, rfl⟩
    simp only [List.append_assoc, List.singleton_append, Nat.succ_eq_add_one]
    exact hm
  | @cons text texts before spelling after more hbefore h hafter _ ih =>
    obtain ⟨fuel, rfl⟩ := Nat.exists_eq_succ_of_ne_zero (Nat.ne_zero_of_lt hfuel)
    have hsign : isMark ',' = true := by decide
    obtain ⟨span, k, hk⟩ := items_of_item depth hbefore h hafter hsign fuel n (more ++ rest)
    have hmore : more.length < fuel := by
      simp only [List.length_append, List.length_cons] at hfuel
      omega
    obtain ⟨found, m, hm, hfound⟩ := ih hmore k
    refine ⟨(some span, .scalar (.string text.toList)) :: found, m, ?_, ?_⟩
    · simp only [List.append_assoc, List.cons_append, Nat.succ_eq_add_one]
      rw [hk, if_pos rfl, hm]
      rfl
    · rw [List.map_cons, hfound]
      rfl

theorem value_of_spelledArray (depth : Nat) (h : SpelledArray texts spelling) (n : Nat)
    (rest : List Char) :
    ∃ found m, value (depth + 1) ⟨n, spelling ++ rest⟩ = some (.list found, ⟨m, rest⟩) ∧
      found.map (·.2) = stringNodes texts := by
  obtain ⟨h⟩ := h
  rename_i spelling
  have hfuel : spelling.length < (spelling ++ rest).length + 1 := by
    rw [List.length_append]
    omega
  obtain ⟨found, m, hm, hfound⟩ := items_of_spelled depth h hfuel (n + '['.utf8Size) rest
  refine ⟨found, m, ?_, hfound⟩
  rw [List.cons_append, value, expect_cons, if_pos rfl]
  simp only [Option.bind_eq_bind, hm]
  rfl

end Array

/-! ### Entries -/

/-- A line with a key and its array. -/
inductive SpelledEntry (name : List Char) (texts : List String) : List Char → Prop where
  | intro {spelling : List Char} (h : SpelledArray texts spelling) :
      SpelledEntry name texts (name ++ ' ' :: '=' :: ' ' :: (spelling ++ ['\n']))

/-- Such a name needs no quotes. -/
def IsBareKey (name : List Char) : Prop := name ≠ [] ∧ name.all isKeyChar = true

section Entry

variable {name spelling rest : List Char} {texts : List String}

theorem isMark_of_isKeyChar {c : Char} (h : isKeyChar c = true) : isMark c = true :=
  isMark_of_accepts not_isKeyChar_unmarked h

theorem simpleKey_of_isBareKey (h : IsBareKey name) (n : Nat) (rest : List Char) :
    ∃ span m, simpleKey ⟨n, name ++ ' ' :: rest⟩ = some (⟨name, span⟩, ⟨m, ' ' :: rest⟩) := by
  obtain ⟨hne, hkey⟩ := h
  rw [List.all_eq_true] at hkey
  have hunquoted : Unquoted (name ++ ' ' :: rest) := by
    obtain ⟨c, more, rfl⟩ := List.exists_cons_of_ne_nil hne
    have hc := isMark_of_isKeyChar (hkey c List.mem_cons_self)
    exact unquoted_of_isOrdinary (Bool.and_eq_true_iff.mp hc).1 _
  have htake : (Cursor.takeWhile isKeyChar ⟨n, name ++ ' ' :: rest⟩).1 = name := by
    rw [fst_takeWhile, List.takeWhile_append_of_pos hkey]
    exact List.append_nil name
  obtain ⟨m, hm⟩ := Cursor.exists_offset (rest_takeWhile isKeyChar ⟨n, name ++ ' ' :: rest⟩)
  rw [List.dropWhile_append_of_pos hkey] at hm
  refine ⟨⟨n, m⟩, m, ?_⟩
  rw [simpleKey, shortQuotation_of_unquoted hunquoted]
  dsimp only
  rw [htake, hm, if_neg (by simpa using hne)]
  rfl

theorem dottedKey_of_isBareKey (h : IsBareKey name) (n : Nat) (rest : List Char) :
    ∃ span m, dottedKey ⟨n, name ++ ' ' :: '=' :: rest⟩ = some ([], ⟨name, span⟩, ⟨m, '=' :: rest⟩) := by
  obtain ⟨span, k, hk⟩ := simpleKey_of_isBareKey h n ('=' :: rest)
  have hfirst : skipBlanks ⟨n, name ++ ' ' :: '=' :: rest⟩ = ⟨n, name ++ ' ' :: '=' :: rest⟩ := by
    obtain ⟨c, more, rfl⟩ := List.exists_cons_of_ne_nil h.1
    have hc := isMark_of_isKeyChar (List.all_eq_true.mp h.2 c List.mem_cons_self)
    exact skipBlanks_of_not (isSolid_iff.mp (isSolid_of_isMark hc)).1
  have hskip : skipBlanks ⟨k, ' ' :: '=' :: rest⟩ = ⟨k + ' '.utf8Size, '=' :: rest⟩ := rfl
  have hmore : moreKeys ('=' :: rest).length ⟨k + ' '.utf8Size, '=' :: rest⟩ =
      some ([], ⟨k + ' '.utf8Size, '=' :: rest⟩) := moreKeys_of_expect_eq_none rfl _
  refine ⟨span, k + ' '.utf8Size, ?_⟩
  rw [dottedKey, hfirst, hk]
  simp only [Option.bind_eq_bind, Option.bind_some, hskip, hmore]
  rfl

theorem entry_of_spelled (hname : IsBareKey name) (h : SpelledArray texts spelling) (n : Nat)
    (rest : List Char) : ∃ place span found m,
      entry (value depthLimit) ⟨n, name ++ ' ' :: '=' :: ' ' :: (spelling ++ rest)⟩ =
        some ([], ⟨name, place⟩, span, .list found, ⟨m, rest⟩) ∧
      found.map (·.2) = stringNodes texts := by
  obtain ⟨place, k, hk⟩ := dottedKey_of_isBareKey hname n (' ' :: (spelling ++ rest))
  have hblank : skipBlanks ⟨k + '='.utf8Size, ' ' :: (spelling ++ rest)⟩ =
      ⟨k + '='.utf8Size + ' '.utf8Size, spelling ++ rest⟩ := by
    obtain ⟨h⟩ := h
    rfl
  obtain ⟨found, m, hm, hfound⟩ := value_of_spelledArray 78 h
    (k + '='.utf8Size + ' '.utf8Size) rest
  refine ⟨place, ⟨k + '='.utf8Size + ' '.utf8Size, m⟩, found, m, ?_, hfound⟩
  rw [entry, hk]
  simp only [Option.bind_eq_bind, Option.bind_some, expect_cons, if_true, hblank]
  rw [spanned, depthLimit, hm]
  rfl

theorem statements_of_spelled (hname : IsBareKey name) (h : SpelledEntry name texts spelling)
    (fuel n : Nat) (rest : List Char) : ∃ place span found m,
      statements (fuel + 1) ⟨n, spelling ++ rest⟩ =
        (statements fuel ⟨m, rest⟩).map (.entry [] ⟨name, place⟩ span (.list found) :: ·) ∧
      found.map (·.2) = stringNodes texts := by
  obtain ⟨h⟩ := h
  rename_i spelling
  obtain ⟨place, span, found, m, hm, hfound⟩ := entry_of_spelled hname h n ('\n' :: rest)
  refine ⟨place, span, found, m + '\n'.utf8Size, ?_, hfound⟩
  obtain ⟨c, more, rfl⟩ := List.exists_cons_of_ne_nil hname.1
  have hc := isMark_of_isKeyChar (List.all_eq_true.mp hname.2 c List.mem_cons_self)
  have hbracket : c ≠ '[' := by
    rintro rfl
    have hkey := List.all_eq_true.mp hname.2 '[' List.mem_cons_self
    cases hkey
  simp only [List.append_assoc, List.cons_append, List.nil_append] at hm ⊢
  rw [statements_of_isSolid (isSolid_of_isMark hc), statement_of_ne hbracket, hm, Option.map_some,
    Option.bind_some]
  rfl

end Entry

/-! ### One way to write them -/

section Spell

def spellChar (c : Char) : List Char :=
  if c = '"' ∨ c = '\\' then ['\\', c]
  else if isPlain c then [c]
  else '\\' :: 'u' :: Json.hex4 c.toNat

def spellString (text : String) : List Char := '"' :: text.toList.flatMap spellChar ++ ['"']

def spellItems : List String → List Char
  | [] => [']']
  | text :: texts => spellString text ++ ',' :: spellItems texts

def spellArray (texts : List String) : List Char := '[' :: spellItems texts

theorem hexNumber?_hex4 {n : Nat} (h : n < 65536) : hexNumber? 0 (Json.hex4 n) = some n := by
  have hdigit (m : Nat) : hexDigit? (Nat.digitChar (m % 16)) = some (m % 16) := by
    have hall : ∀ d < 16, hexDigit? (Nat.digitChar d) = some d := by decide
    exact hall _ (Nat.mod_lt m (by decide))
  simp only [Json.hex4, hexNumber?, List.foldlM_cons, List.foldlM_nil, hdigit, Option.map_some,
    Option.bind_eq_bind, Option.bind_some, Option.pure_def, Option.some.injEq]
  omega

theorem spelledChar_spellChar (c : Char) : SpelledChar c (spellChar c) := by
  rw [spellChar]
  split_ifs with hescaped hplain
  · apply SpelledChar.short
    rcases hescaped with rfl | rfl <;> decide
  · rw [not_or] at hescaped
    exact .plain hplain hescaped.1 hescaped.2
  · have hsmall : c.toNat < 65536 := by
      simp only [isPlain, Bool.or_eq_true, decide_eq_true_eq, Bool.and_eq_true, not_or] at hplain
      omega
    exact .code rfl (hexNumber?_hex4 hsmall)

theorem spelledString_spellString (text : String) : SpelledString text (spellString text) := by
  refine .intro ?_
  induction text.toList with
  | nil => exact .nil
  | cons c text ih => exact .cons (spelledChar_spellChar c) ih

theorem isSpace_nil : IsSpace [] := .intro .nil (by simp)

theorem spelledArray_spellArray (texts : List String) : SpelledArray texts (spellArray texts) := by
  refine .intro ?_
  induction texts with
  | nil => exact .nil isSpace_nil
  | cons text texts ih =>
    exact .cons isSpace_nil (spelledString_spellString text) isSpace_nil ih

end Spell

end MarkupAudit.Toml
