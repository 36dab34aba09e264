import MarkupAudit.Json.Value

/-!
The texts that are JSON documents, and the values that they spell. White space stands
around values, names and the signs between them; a string spells each of its characters as it is or
by an escape, and two escapes together spell a character outside of the basic plane. Members of an
object keep their order, and nothing is said of names that come twice.
-/

namespace MarkupAudit.Json

def isBlank (c : Char) : Bool := c = ' ' || c = '\t' || c = '\n' || c = '\r'

def IsBlank (text : List Char) : Prop := ∀ c ∈ text, isBlank c = true

section Number

def IsDigits (text : List Char) : Prop := text ≠ [] ∧ ∀ c ∈ text, c.isDigit = true

/-- Digits without a zero in front of others. -/
def IsWhole (text : List Char) : Prop := IsDigits text ∧ (text.head? = some '0' → text = ['0'])

inductive IsFraction : List Char → Prop where
  | absent : IsFraction []
  | present {digits : List Char} (h : IsDigits digits) : IsFraction ('.' :: digits)

inductive IsExponent : List Char → Prop where
  | absent : IsExponent []
  | present {e : Char} {sign digits : List Char} (he : e = 'e' ∨ e = 'E')
      (hsign : sign = [] ∨ sign = ['+'] ∨ sign = ['-']) (h : IsDigits digits) :
      IsExponent (e :: sign ++ digits)

def IsNumber (text : List Char) : Prop :=
  ∃ sign whole fraction exponent, text = sign ++ whole ++ fraction ++ exponent ∧
    (sign = [] ∨ sign = ['-']) ∧ IsWhole whole ∧ IsFraction fraction ∧ IsExponent exponent

end Number

section String

/-- The characters that a single letter stands for behind a backslash. -/
def shortEscapes : List (Char × Char) :=
  [('"', '"'), ('\\', '\\'), ('/', '/'), ('b', '\x08'), ('f', '\x0c'), ('n', '\n'), ('r', '\r'),
   ('t', '\t')]

def hexDigit? (c : Char) : Option Nat :=
  if c.isDigit then some (c.toNat - '0'.toNat)
  else if 'a' ≤ c ∧ c ≤ 'f' then some (c.toNat - 'a'.toNat + 10)
  else if 'A' ≤ c ∧ c ≤ 'F' then some (c.toNat - 'A'.toNat + 10)
  else none

/-- The number that four hexadecimal digits stand for. -/
def hexNumber? : List Char → Option Nat
  | [a, b, c, d] => do
    return 4096 * (← hexDigit? a) + 256 * (← hexDigit? b) + 16 * (← hexDigit? c) + (← hexDigit? d)
  | _ => none

def isHighSurrogate (n : Nat) : Bool := 0xD800 ≤ n && n ≤ 0xDBFF

def isLowSurrogate (n : Nat) : Bool := 0xDC00 ≤ n && n ≤ 0xDFFF

def joinSurrogates (high low : Nat) : Nat := 0x10000 + 0x400 * (high - 0xD800) + (low - 0xDC00)

inductive SpelledChar : Char → List Char → Prop where
  | plain {c : Char} (hquote : c ≠ '"') (hslash : c ≠ '\\') (hcontrol : 0x20 ≤ c.toNat) :
      SpelledChar c [c]
  | short {c letter : Char} (h : (letter, c) ∈ shortEscapes) : SpelledChar c ['\\', letter]
  | code {c : Char} {digits : List Char} (h : hexNumber? digits = some c.toNat) :
      SpelledChar c ('\\' :: 'u' :: digits)
  | pair {c : Char} {first second : List Char} {high low : Nat}
      (hfirst : hexNumber? first = some high) (hsecond : hexNumber? second = some low)
      (hhigh : isHighSurrogate high = true) (hlow : isLowSurrogate low = true)
      (h : c.toNat = joinSurrogates high low) :
      SpelledChar c ('\\' :: 'u' :: first ++ '\\' :: 'u' :: second)

inductive SpelledChars : List Char → List Char → Prop where
  | nil : SpelledChars [] []
  | cons {c : Char} {text spelling more : List Char} (h : SpelledChar c spelling)
      (hmore : SpelledChars text more) : SpelledChars (c :: text) (spelling ++ more)

inductive SpelledString : List Char → List Char → Prop where
  | intro {text spelling : List Char} (h : SpelledChars text spelling) :
      SpelledString text ('"' :: spelling ++ ['"'])

end String

section Series

variable {α : Type}

/-- Items with commas between them, and white space around each. -/
inductive Series (Item : α → List Char → Prop) : List α → List Char → Prop where
  | last {item : α} {before spelling after : List Char} (hbefore : IsBlank before)
      (h : Item item spelling) (hafter : IsBlank after) :
      Series Item [item] (before ++ spelling ++ after)
  | more {item : α} {items : List α} {before spelling after rest : List Char}
      (hbefore : IsBlank before) (h : Item item spelling) (hafter : IsBlank after)
      (hrest : Series Item items rest) :
      Series Item (item :: items) (before ++ spelling ++ after ++ ',' :: rest)

inductive Bracketed (Item : α → List Char → Prop) (opening closing : Char) :
    List α → List Char → Prop where
  | empty {blank : List Char} (h : IsBlank blank) :
      Bracketed Item opening closing [] (opening :: blank ++ [closing])
  | items {items : List α} {spelling : List Char} (h : Series Item items spelling) :
      Bracketed Item opening closing items (opening :: spelling ++ [closing])

inductive SpelledMember (Spelled : α → List Char → Prop) : List Char × α → List Char → Prop where
  | intro {key : List Char} {value : α} {name before after spelling : List Char}
      (hname : SpelledString key name) (hbefore : IsBlank before) (hafter : IsBlank after)
      (h : Spelled value spelling) :
      SpelledMember Spelled (key, value) (name ++ before ++ ':' :: after ++ spelling)

end Series

/-- A text spells a value, without white space around it. -/
inductive Spelled : Value → List Char → Prop where
  | null : Spelled .null "null".toList
  | boolTrue : Spelled (.bool true) "true".toList
  | boolFalse : Spelled (.bool false) "false".toList
  | number {digits : List Char} (h : IsNumber digits) : Spelled (.number digits) digits
  | string {text spelling : List Char} (h : SpelledString text spelling) :
      Spelled (.string text) spelling
  | array {items : List Value} {spelling : List Char}
      (h : Bracketed Spelled '[' ']' items spelling) : Spelled (.array items) spelling
  | object {members : List (List Char × Value)} {spelling : List Char}
      (h : Bracketed (SpelledMember Spelled) '\x7b' '\x7d' members spelling) :
      Spelled (.object members) spelling

/-- The text is a document that spells the value. -/
inductive Document (value : Value) : List Char → Prop where
  | intro {before spelling after : List Char} (hbefore : IsBlank before)
      (h : Spelled value spelling) (hafter : IsBlank after) :
      Document value (before ++ spelling ++ after)

end MarkupAudit.Json
