/-!
Places in a text. A cursor holds the number of bytes before it, counted in UTF-8, and the
characters that follow, so it always stands between two characters. `a ≤ b` says that `b` is
reached from `a` by passing over some characters.
-/

namespace MarkupAudit

namespace Text

def byteLength : List Char → Nat
  | [] => 0
  | c :: rest => c.utf8Size + byteLength rest

@[simp] theorem byteLength_nil : byteLength [] = 0 := rfl

@[simp] theorem byteLength_cons (c : Char) (rest : List Char) :
    byteLength (c :: rest) = c.utf8Size + byteLength rest := rfl

theorem byteLength_append (a b : List Char) :
    byteLength (a ++ b) = byteLength a + byteLength b := by
  induction a with
  | nil => simp
  | cons c a ih => simp [ih, Nat.add_assoc]

theorem length_le_byteLength (text : List Char) : text.length ≤ byteLength text := by
  induction text with
  | nil => simp
  | cons c text ih => have := c.utf8Size_pos; simp; omega

end Text

structure Cursor where
  offset : Nat
  rest : List Char
deriving DecidableEq, Repr

namespace Cursor

def ofText (text : List Char) : Cursor := ⟨0, text⟩

def next? (cur : Cursor) : Option Cursor :=
  match cur.rest with
  | [] => none
  | c :: rest => some ⟨cur.offset + c.utf8Size, rest⟩

def uncons (cur : Cursor) : Option (Char × Cursor) :=
  match cur.rest with
  | [] => none
  | c :: rest => some (c, ⟨cur.offset + c.utf8Size, rest⟩)

/-- The place after the next character, which must be `c`. -/
def expect (c : Char) (cur : Cursor) : Option Cursor :=
  match cur.uncons with
  | none => none
  | some (d, next) => if d = c then some next else none

def expectAll : List Char → Cursor → Option Cursor
  | [], cur => some cur
  | c :: word, cur => (cur.expect c).bind (expectAll word)

/-- The longest run of accepted characters and the place after it. -/
def takeRun (accepts : Char → Bool) : Nat → List Char → List Char × Cursor
  | offset, [] => ([], ⟨offset, []⟩)
  | offset, c :: rest =>
    if accepts c then
      let (run, after) := takeRun accepts (offset + c.utf8Size) rest
      (c :: run, after)
    else ([], ⟨offset, c :: rest⟩)

def takeWhile (accepts : Char → Bool) (cur : Cursor) : List Char × Cursor :=
  takeRun accepts cur.offset cur.rest

def skipWhile (accepts : Char → Bool) (cur : Cursor) : Cursor := (cur.takeWhile accepts).2

def placesAfter : Nat → List Char → List Cursor
  | _, [] => []
  | offset, c :: rest => ⟨offset + c.utf8Size, rest⟩ :: placesAfter (offset + c.utf8Size) rest

def after (cur : Cursor) : List Cursor := placesAfter cur.offset cur.rest

def onward (cur : Cursor) : List Cursor := cur :: cur.after

def places (text : List Char) : List Cursor := (ofText text).onward

instance : LE Cursor where
  le a b := ∃ passed, a.rest = passed ++ b.rest ∧ b.offset = a.offset + Text.byteLength passed

/-- The cursor stands at a place of `text`. -/
def In (cur : Cursor) (text : List Char) : Prop := ofText text ≤ cur

variable {a b c : Cursor}

theorem le_refl (a : Cursor) : a ≤ a := ⟨[], by simp⟩

theorem le_trans (hab : a ≤ b) (hbc : b ≤ c) : a ≤ c := by
  obtain ⟨p, hp, ho⟩ := hab
  obtain ⟨q, hq, hc⟩ := hbc
  exact ⟨p ++ q, by rw [hp, hq, List.append_assoc],
    by rw [hc, ho, Text.byteLength_append, Nat.add_assoc]⟩

theorem le_next {n : Nat} {x : Char} {rest : List Char} :
    (⟨n, x :: rest⟩ : Cursor) ≤ ⟨n + x.utf8Size, rest⟩ := ⟨[x], by simp⟩

theorem offset_le (h : a ≤ b) : a.offset ≤ b.offset := by
  obtain ⟨p, _, ho⟩ := h
  omega

theorem length_le (h : a ≤ b) : b.rest.length ≤ a.rest.length := by
  obtain ⟨p, hp, _⟩ := h
  simp [hp]

theorem length_lt (h : a ≤ b) (hlt : a.offset < b.offset) : b.rest.length < a.rest.length := by
  obtain ⟨p, hp, ho⟩ := h
  cases p with
  | nil => simp at ho; omega
  | cons x p =>
    rw [hp]
    simp only [List.cons_append, List.length_cons, List.length_append]
    omega

theorem eq_of_offset_eq (h : a ≤ b) (ho : a.offset = b.offset) : a = b := by
  obtain ⟨p, hp, hb⟩ := h
  cases p with
  | nil =>
    obtain ⟨n, rest⟩ := a
    obtain ⟨m, rest'⟩ := b
    simp_all
  | cons x p =>
    have := x.utf8Size_pos
    simp at hb
    omega

theorem offset_lt_iff (h : a ≤ b) : a.offset < b.offset ↔ b.rest.length < a.rest.length := by
  refine ⟨length_lt h, fun hlt => Nat.lt_of_le_of_ne (offset_le h) fun heq => ?_⟩
  rw [eq_of_offset_eq h heq] at hlt
  exact Nat.lt_irrefl _ hlt

theorem le_antisymm (hab : a ≤ b) (hba : b ≤ a) : a = b := by
  have h1 := offset_le hab
  have h2 := offset_le hba
  exact eq_of_offset_eq hab (by omega)

theorem eq_or_next_le {n : Nat} {x : Char} {rest : List Char}
    (h : (⟨n, x :: rest⟩ : Cursor) ≤ b) :
    b = ⟨n, x :: rest⟩ ∨ (⟨n + x.utf8Size, rest⟩ : Cursor) ≤ b := by
  obtain ⟨passed, hp, ho⟩ := h
  cases passed with
  | nil =>
    left
    obtain ⟨m, rest'⟩ := b
    simp_all
  | cons y passed =>
    right
    simp only [List.cons_append, List.cons.injEq] at hp
    obtain ⟨rfl, hp⟩ := hp
    exact ⟨passed, hp, by simp only [Text.byteLength_cons] at ho; simp only [ho]; omega⟩

theorem eq_of_le_end {n : Nat} (h : (⟨n, []⟩ : Cursor) ≤ b) : b = ⟨n, []⟩ := by
  obtain ⟨passed, hp, ho⟩ := h
  obtain ⟨m, rest⟩ := b
  cases passed <;> simp_all

@[simp] theorem after_end (n : Nat) : (⟨n, []⟩ : Cursor).after = [] := rfl

theorem after_cons (n : Nat) (x : Char) (rest : List Char) :
    (⟨n, x :: rest⟩ : Cursor).after = (⟨n + x.utf8Size, rest⟩ : Cursor).onward := rfl

theorem mem_onward : b ∈ a.onward ↔ a ≤ b := by
  obtain ⟨n, rest⟩ := a
  induction rest generalizing n with
  | nil =>
    simp only [onward, after_end, List.mem_singleton]
    exact ⟨fun h => h ▸ le_refl _, eq_of_le_end⟩
  | cons x rest ih =>
    rw [onward, after_cons, List.mem_cons, ih]
    exact ⟨fun h => h.elim (fun h => h ▸ le_refl _) (le_trans le_next), eq_or_next_le⟩

theorem mem_after : b ∈ a.after ↔ a ≤ b ∧ a.offset < b.offset := by
  obtain ⟨n, rest⟩ := a
  cases rest with
  | nil =>
    simp only [after_end, List.not_mem_nil, false_iff, not_and]
    intro h
    simp [eq_of_le_end h]
  | cons x rest =>
    rw [after_cons, mem_onward]
    have hx := x.utf8Size_pos
    constructor
    · intro h
      have := offset_le h
      exact ⟨le_trans le_next h, by simp only at this ⊢; omega⟩
    · intro hfound
      obtain ⟨h, hlt⟩ := hfound
      rcases eq_or_next_le h with rfl | h
      · omega
      · exact h

theorem mem_places {text : List Char} : b ∈ places text ↔ b.In text := mem_onward

theorem pairwise_onward (a : Cursor) : a.onward.Pairwise (·.offset < ·.offset) := by
  obtain ⟨n, rest⟩ := a
  induction rest generalizing n with
  | nil => simp [onward]
  | cons x rest ih =>
    rw [onward, List.pairwise_cons, after_cons]
    exact ⟨fun b hb => (mem_after.1 hb).2, ih _⟩

end Cursor

end MarkupAudit
