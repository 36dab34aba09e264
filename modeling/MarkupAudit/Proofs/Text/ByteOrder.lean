import Mathlib.Data.List.Basic

/-!
The order of texts by their bytes. In UTF-8 a character of a greater code point has greater bytes, at
the first byte where the two differ, so texts in the order of their code points are in the order of
their bytes (`bytes_lt_bytes`).
-/

namespace MarkupAudit.Text

def bytes (text : List Char) : List UInt8 := text.flatMap String.utf8EncodeChar

theorem bytes_cons (c : Char) (rest : List Char) :
    bytes (c :: rest) = String.utf8EncodeChar c ++ bytes rest := List.flatMap_cons

section Byte

variable {m n : Nat} {l r : List UInt8}

theorem byte_cons_lt (hn : n < 256) (h : m < n) : UInt8.ofNat m :: l < UInt8.ofNat n :: r := by
  apply List.cons_lt_cons_iff.mpr
  left
  rw [UInt8.lt_iff_toNat_lt, UInt8.toNat_ofNat', UInt8.toNat_ofNat']
  omega

theorem byte_cons_lt_of_eq (h : m = n) (hlr : l < r) : UInt8.ofNat m :: l < UInt8.ofNat n :: r := by
  rw [h]
  exact List.cons_lt_cons_iff.mpr (Or.inr ⟨rfl, hlr⟩)

/-- Bytes that go on, with six bits each: the greater number has the greater bits first. -/
theorem tail_lt_of_lt (h : m < n) (hm : m / 64 = n / 64) :
    UInt8.ofNat (m % 64 + 128) :: l < UInt8.ofNat (n % 64 + 128) :: r :=
  byte_cons_lt (by omega) (by omega)

theorem tail_pair_lt_of_lt (h : m < n) (hm : m / 4096 = n / 4096) :
    UInt8.ofNat (m / 64 % 64 + 128) :: UInt8.ofNat (m % 64 + 128) :: l <
      UInt8.ofNat (n / 64 % 64 + 128) :: UInt8.ofNat (n % 64 + 128) :: r := by
  by_cases heq : m / 64 = n / 64
  · exact byte_cons_lt_of_eq (by omega) (tail_lt_of_lt h heq)
  · exact byte_cons_lt (by omega) (by omega)

theorem tail_triple_lt_of_lt (h : m < n) (hm : m / 262144 = n / 262144) :
    UInt8.ofNat (m / 4096 % 64 + 128) :: UInt8.ofNat (m / 64 % 64 + 128) ::
        UInt8.ofNat (m % 64 + 128) :: l <
      UInt8.ofNat (n / 4096 % 64 + 128) :: UInt8.ofNat (n / 64 % 64 + 128) ::
        UInt8.ofNat (n % 64 + 128) :: r := by
  by_cases heq : m / 4096 = n / 4096
  · exact byte_cons_lt_of_eq (by omega) (tail_pair_lt_of_lt h heq)
  · exact byte_cons_lt (by omega) (by omega)

end Byte

theorem toNat_lt (c : Char) : c.val.toNat < 0x110000 := by
  have hvalid := c.valid
  simp only [UInt32.isValidChar, Nat.isValidChar] at hvalid
  omega

/-- The first byte tells how many there are, and more bytes stand for greater code points. -/
theorem encode_append_lt {c d : Char} (h : c < d) (l r : List UInt8) :
    String.utf8EncodeChar c ++ l < String.utf8EncodeChar d ++ r := by
  have hlt : c.val.toNat < d.val.toNat := h
  have hmax := toNat_lt d
  unfold String.utf8EncodeChar
  simp only
  -- From here on it is about two numbers: one case for each length of the greater one's encoding.
  generalize c.val.toNat = v at *
  generalize d.val.toNat = w at *
  by_cases hw1 : w ≤ 0x7f
  · rw [if_pos hw1, if_pos (by omega)]
    exact byte_cons_lt (by omega) hlt
  rw [if_neg hw1]
  by_cases hw2 : w ≤ 0x7ff
  · rw [if_pos hw2]
    split
    · exact byte_cons_lt (by omega) (by omega)
    · rw [if_pos (by omega)]
      by_cases heq : v / 64 = w / 64
      · exact byte_cons_lt_of_eq (by omega) (tail_lt_of_lt hlt heq)
      · exact byte_cons_lt (by omega) (by omega)
  rw [if_neg hw2]
  by_cases hw3 : w ≤ 0xffff
  · rw [if_pos hw3]
    split
    · exact byte_cons_lt (by omega) (by omega)
    · split
      · exact byte_cons_lt (by omega) (by omega)
      · rw [if_pos (by omega)]
        by_cases heq : v / 4096 = w / 4096
        · exact byte_cons_lt_of_eq (by omega) (tail_pair_lt_of_lt hlt heq)
        · exact byte_cons_lt (by omega) (by omega)
  · rw [if_neg hw3]
    split
    · exact byte_cons_lt (by omega) (by omega)
    · split
      · exact byte_cons_lt (by omega) (by omega)
      · split
        · exact byte_cons_lt (by omega) (by omega)
        · by_cases heq : v / 262144 = w / 262144
          · exact byte_cons_lt_of_eq (by omega) (tail_triple_lt_of_lt hlt heq)
          · exact byte_cons_lt (by omega) (by omega)

theorem append_lt_append {p l r : List UInt8} (h : l < r) : p ++ l < p ++ r := by
  induction p with
  | nil => exact h
  | cons x p ih => exact List.cons_lt_cons_iff.mpr (Or.inr ⟨rfl, ih⟩)

theorem bytes_lt_bytes {a b : List Char} (h : a < b) : bytes a < bytes b := by
  induction a generalizing b with
  | nil =>
    cases b with
    | nil => exact absurd h (List.lt_irrefl [])
    | cons d b =>
      rw [bytes_cons]
      obtain ⟨x, more, heq⟩ := List.exists_cons_of_ne_nil (String.utf8EncodeChar_ne_nil (c := d))
      rw [heq]
      exact List.nil_lt_cons x (more ++ bytes b)
  | cons c a ih =>
    cases b with
    | nil => exact absurd h (List.not_lt_nil (c :: a))
    | cons d b =>
      rw [bytes_cons, bytes_cons]
      rcases List.cons_lt_cons_iff.mp h with hlt | ⟨rfl, hlt⟩
      · exact encode_append_lt hlt _ _
      · exact append_lt_append (ih hlt)

end MarkupAudit.Text
