import MarkupAudit.Proofs.Json.Grammar
import Mathlib.Data.List.Basic

/-!
Telling numbers of JSON documents. A text is cut into its sign, its whole part, its fraction and its
exponent at the first character that cannot go on (`takeWhile_append_stop`), so it can be decided
whether it is a number (`isNumber_iff`).
-/

namespace MarkupAudit.Json

def isDigits (text : List Char) : Bool := !text.isEmpty && text.all Char.isDigit

def isWhole (text : List Char) : Bool :=
  isDigits text && (text.head? != some '0' || text == ['0'])

def isFraction : List Char → Bool
  | [] => true
  | c :: digits => c == '.' && isDigits digits

/-- The rest of a text behind one of some signs, if it begins with one. -/
def dropSign (signs text : List Char) : List Char :=
  match text with
  | [] => []
  | c :: rest => if c ∈ signs then rest else c :: rest

def isExponentSign (c : Char) : Bool := c == 'e' || c == 'E'

def isExponent : List Char → Bool
  | [] => true
  | c :: rest => isExponentSign c && isDigits (dropSign ['+', '-'] rest)

def isNumber (text : List Char) : Bool :=
  let unsigned := dropSign ['-'] text
  let behind := unsigned.dropWhile Char.isDigit
  isWhole (unsigned.takeWhile Char.isDigit) && isFraction (behind.takeWhile (!isExponentSign ·)) &&
    isExponent (behind.dropWhile (!isExponentSign ·))

section Stop

variable {p : Char → Bool} {a b : List Char} (ha : ∀ c ∈ a, p c = true)
  (hb : ∀ c, b.head? = some c → p c = false)
include ha hb

/-- Where the first character that fails begins the second part, the first part is cut off. -/
theorem takeWhile_append_stop : (a ++ b).takeWhile p = a := by
  rw [List.takeWhile_append_of_pos ha]
  cases b with
  | nil => exact List.append_nil a
  | cons c b => rw [List.takeWhile_cons_of_neg (by simp [hb c rfl]), List.append_nil]

theorem dropWhile_append_stop : (a ++ b).dropWhile p = b := by
  rw [List.dropWhile_append_of_pos ha]
  cases b with
  | nil => rfl
  | cons c b => rw [List.dropWhile_cons_of_neg (by simp [hb c rfl])]

end Stop

variable {text : List Char}

theorem isDigits_iff : isDigits text = true ↔ IsDigits text := by
  simp [isDigits, IsDigits]

theorem isWhole_iff : isWhole text = true ↔ IsWhole text := by
  simp [isWhole, IsWhole, isDigits_iff, or_iff_not_imp_left]

theorem isFraction_iff : isFraction text = true ↔ IsFraction text := by
  cases text with
  | nil => exact iff_of_true rfl .absent
  | cons c digits =>
    rw [isFraction, Bool.and_eq_true, beq_iff_eq, isDigits_iff]
    constructor
    · rintro ⟨rfl, h⟩
      exact .present h
    · intro h
      cases h with
      | present h => exact ⟨rfl, h⟩

theorem isExponentSign_iff {c : Char} : isExponentSign c = true ↔ c = 'e' ∨ c = 'E' := by
  simp [isExponentSign]

theorem exists_sign (signs text : List Char) : ∃ sign, text = sign ++ dropSign signs text ∧
    (sign = [] ∨ ∃ c ∈ signs, sign = [c]) := by
  cases text with
  | nil => exact ⟨[], rfl, Or.inl rfl⟩
  | cons c rest =>
    rw [dropSign]
    split
    · rename_i hc
      exact ⟨[c], rfl, Or.inr ⟨c, hc, rfl⟩⟩
    · exact ⟨[], rfl, Or.inl rfl⟩

theorem IsDigits.exists_head (h : IsDigits text) :
    ∃ c, text.head? = some c ∧ c.isDigit = true := by
  obtain ⟨c, rest, rfl⟩ := List.exists_cons_of_ne_nil h.1
  exact ⟨c, rfl, h.2 c List.mem_cons_self⟩

theorem dropSign_append {signs sign : List Char} (hsigns : ∀ c ∈ signs, c.isDigit = false)
    (hsign : sign = [] ∨ ∃ c ∈ signs, sign = [c]) {rest : List Char}
    (hrest : ∃ c, rest.head? = some c ∧ c.isDigit = true) :
    dropSign signs (sign ++ rest) = rest := by
  obtain ⟨d, hd, hdigit⟩ := hrest
  obtain ⟨more, rfl⟩ := List.head?_eq_some_iff.mp hd
  rcases hsign with rfl | ⟨c, hc, rfl⟩
  · have hnot : d ∉ signs := by
      intro hmem
      rw [hsigns d hmem] at hdigit
      cases hdigit
    rw [List.nil_append, dropSign, if_neg hnot]
  · rw [List.singleton_append, dropSign, if_pos hc]

theorem isExponent_iff : isExponent text = true ↔ IsExponent text := by
  cases text with
  | nil => exact iff_of_true rfl .absent
  | cons c rest =>
    rw [isExponent, Bool.and_eq_true, isExponentSign_iff, isDigits_iff]
    constructor
    · intro h
      obtain ⟨hc, hdigits⟩ := h
      obtain ⟨sign, hrest, hsign⟩ := exists_sign ['+', '-'] rest
      rw [hrest]
      refine .present hc ?_ hdigits
      simpa using hsign
    · intro h
      generalize htext : c :: rest = text at h
      cases h with
      | absent => cases htext
      | @present e sign digits he hsign hdigits =>
        obtain ⟨rfl, rfl⟩ := List.cons.inj htext
        have hsign : sign = [] ∨ ∃ c ∈ ['+', '-'], sign = [c] := by simpa using hsign
        change _ ∧ IsDigits (dropSign _ (sign ++ digits))
        rw [dropSign_append (by simp) hsign hdigits.exists_head]
        exact ⟨he, hdigits⟩

theorem IsFraction.not_exponent (h : IsFraction text) : ∀ c ∈ text, (!isExponentSign c) = true := by
  cases h with
  | absent => simp
  | present h =>
    rw [List.forall_mem_cons]
    refine ⟨rfl, ?_⟩
    intro c hc
    have hdigit := h.2 c hc
    rw [Bool.not_eq_true', Bool.eq_false_iff, ne_eq, isExponentSign_iff]
    rintro (rfl | rfl) <;> cases hdigit

theorem IsExponent.head? (h : IsExponent text) :
    ∀ c, text.head? = some c → (!isExponentSign c) = false := by
  cases h with
  | absent => simp
  | present he =>
    intro c hc
    cases hc
    rw [Bool.not_eq_false', isExponentSign_iff]
    exact he

theorem head?_fraction_exponent {fraction exponent : List Char} (hf : IsFraction fraction)
    (he : IsExponent exponent) :
    ∀ c, (fraction ++ exponent).head? = some c → c.isDigit = false := by
  intro c hc
  cases hf with
  | absent =>
    cases he with
    | absent => cases hc
    | present he =>
      cases hc
      rcases he with rfl | rfl <;> rfl
  | present h =>
    cases hc
    rfl

theorem isNumber_iff : isNumber text = true ↔ IsNumber text := by
  simp only [isNumber, Bool.and_eq_true, isWhole_iff, isFraction_iff, isExponent_iff]
  constructor
  · intro h
    obtain ⟨⟨hwhole, hfraction⟩, hexponent⟩ := h
    obtain ⟨sign, htext, hsign⟩ := exists_sign ['-'] text
    refine ⟨sign, _, _, _, ?_, by simpa using hsign, hwhole, hfraction, hexponent⟩
    rw [List.append_assoc, List.append_assoc, List.takeWhile_append_dropWhile,
      List.takeWhile_append_dropWhile]
    exact htext
  · intro h
    obtain ⟨sign, whole, fraction, exponent, rfl, hsign, hwhole, hfraction, hexponent⟩ := h
    have hsign : sign = [] ∨ ∃ c ∈ ['-'], sign = [c] := by simpa using hsign
    obtain ⟨c, hc, hdigit⟩ := hwhole.1.exists_head
    have hhead : (whole ++ (fraction ++ exponent)).head? = some c := by
      rw [List.head?_append, hc]
      rfl
    have hstop := head?_fraction_exponent hfraction hexponent
    rw [List.append_assoc, List.append_assoc,
      dropSign_append (by simp) hsign ⟨c, hhead, hdigit⟩,
      takeWhile_append_stop hwhole.1.2 hstop, dropWhile_append_stop hwhole.1.2 hstop,
      takeWhile_append_stop hfraction.not_exponent hexponent.head?,
      dropWhile_append_stop hfraction.not_exponent hexponent.head?]
    exact ⟨⟨hwhole, hfraction⟩, hexponent⟩

end MarkupAudit.Json
