import MarkupAudit.Proofs.Pattern.Spelling

/-!
Pieces of a text. A text is cut right after every closing bracket; a piece is a place that has only
the characters of the piece before it. `Cursor.extend` sets a place of a piece back into the text,
and `onward_extend` says that the places of the text are those of its first piece and those behind
it.
-/

namespace MarkupAudit

namespace Text

/-- A text cut right after every closing bracket. The last piece has none and may be empty. -/
def pieces : List Char → List (List Char)
  | [] => [[]]
  | c :: rest =>
    if c = '>' then [c] :: pieces rest
    else
      match pieces rest with
      | [] => [[c]]
      | piece :: more => (c :: piece) :: more

theorem pieces_ne_nil (text : List Char) : pieces text ≠ [] := by
  cases text with
  | nil => simp [pieces]
  | cons c rest =>
    rw [pieces]
    split
    · simp
    · split <;> simp

theorem pieces_bracket (rest : List Char) : pieces ('>' :: rest) = ['>'] :: pieces rest := rfl

theorem pieces_cons {c : Char} (hc : c ≠ '>') {rest piece : List Char} {more : List (List Char)}
    (h : pieces rest = piece :: more) : pieces (c :: rest) = (c :: piece) :: more := by
  rw [pieces, if_neg hc, h]

theorem pieces_of_not_mem {text : List Char} (h : '>' ∉ text) : pieces text = [text] := by
  induction text with
  | nil => rfl
  | cons c rest ih =>
    rw [List.mem_cons, not_or] at h
    exact pieces_cons (Ne.symm h.1) (ih h.2)

theorem pieces_append {run : List Char} (h : '>' ∉ run) (rest : List Char) :
    pieces (run ++ '>' :: rest) = (run ++ ['>']) :: pieces rest := by
  induction run with
  | nil => rfl
  | cons c run ih =>
    rw [List.mem_cons, not_or] at h
    exact pieces_cons (Ne.symm h.1) (ih h.2)

/-- What holds of a text without the mark, and of a text when it holds behind its first mark, holds of
every text. -/
theorem split_induction (mark : Char) {P : List Char → Prop}
    (single : ∀ text, mark ∉ text → P text)
    (split : ∀ run rest, mark ∉ run → P rest → P (run ++ mark :: rest)) (text : List Char) :
    P text := by
  by_cases h : mark ∈ text
  · obtain ⟨run, rest, heq, hrun⟩ := List.eq_append_cons_of_mem h
    have : rest.length < text.length := by
      rw [heq, List.length_append, List.length_cons]
      omega
    rw [heq]
    exact split run rest hrun (split_induction mark single split rest)
  · exact single text h
termination_by text.length

/-- The same for the bracket, where the text is cut into its pieces. -/
theorem piece_induction {P : List Char → Prop} (last : ∀ text, '>' ∉ text → P text)
    (closed : ∀ run rest, '>' ∉ run → P rest → P (run ++ '>' :: rest)) (text : List Char) :
    P text := split_induction '>' last closed text

theorem flatten_pieces (text : List Char) : (pieces text).flatten = text := by
  induction text with
  | nil => rfl
  | cons c rest ih =>
    by_cases hc : c = '>'
    · subst c
      rw [pieces_bracket, List.flatten_cons, ih]
      rfl
    · obtain ⟨piece, more, hp⟩ := List.exists_cons_of_ne_nil (pieces_ne_nil rest)
      rw [hp] at ih
      rw [pieces_cons hc hp, List.flatten_cons, List.cons_append, ← List.flatten_cons, ih]

/-- Every piece but the last ends in its only bracket, and the last piece has none. -/
theorem pieces_eq (text : List Char) : ∃ (runs : List (List Char)) (last : List Char),
    (∀ run ∈ runs, '>' ∉ run) ∧ '>' ∉ last ∧
      pieces text = runs.map (· ++ ['>']) ++ [last] := by
  induction text with
  | nil => exact ⟨[], [], by simp, by simp, rfl⟩
  | cons c rest ih =>
    obtain ⟨runs, last, hruns, hlast, heq⟩ := ih
    by_cases hc : c = '>'
    · subst c
      refine ⟨[] :: runs, last, ?_, hlast, by rw [pieces_bracket, heq]; rfl⟩
      intro run hr
      rcases List.mem_cons.mp hr with rfl | hr
      · simp
      · exact hruns run hr
    · cases runs with
      | nil =>
        refine ⟨[], c :: last, by simp, ?_, pieces_cons hc heq⟩
        simp [hlast, Ne.symm hc]
      | cons run runs =>
        refine ⟨(c :: run) :: runs, last, ?_, hlast, pieces_cons hc heq⟩
        intro other ho
        rcases List.mem_cons.mp ho with rfl | ho
        · simp [hruns run List.mem_cons_self, Ne.symm hc]
        · exact hruns other (List.mem_cons_of_mem run ho)

end Text

namespace Cursor

/-- The places where pieces begin that follow one another from a byte on. -/
def placed : Nat → List (List Char) → List Cursor
  | _, [] => []
  | offset, piece :: more => ⟨offset, piece⟩ :: placed (offset + Text.byteLength piece) more

def pieces (text : List Char) : List Cursor := placed 0 (Text.pieces text)

/-- The same with all that follows each piece. -/
def placedBefore : Nat → List (List Char) → List (Cursor × List Char)
  | _, [] => []
  | offset, piece :: more =>
    (⟨offset, piece⟩, more.flatten) :: placedBefore (offset + Text.byteLength piece) more

def piecesBefore (text : List Char) : List (Cursor × List Char) := placedBefore 0 (Text.pieces text)

/-- The same place when more text follows. -/
def extend (more : List Char) (cur : Cursor) : Cursor := ⟨cur.offset, cur.rest ++ more⟩

def startsFrom : Nat → List Char → List Cursor
  | _, [] => []
  | offset, c :: rest => ⟨offset, c :: rest⟩ :: startsFrom (offset + c.utf8Size) rest

def starts (cur : Cursor) : List Cursor := startsFrom cur.offset cur.rest

def finish (cur : Cursor) : Cursor := ⟨cur.offset + Text.byteLength cur.rest, []⟩

theorem map_fst_placedBefore (n : Nat) (pieces : List (List Char)) :
    (placedBefore n pieces).map (·.1) = placed n pieces := by
  induction pieces generalizing n with
  | nil => rfl
  | cons piece pieces ih => rw [placedBefore, placed, List.map_cons, ih]

/-- A piece and what follows it are what is ahead of a place of the text. -/
theorem le_extend_of_mem_placedBefore {n : Nat} {pieces : List (List Char)}
    {part : Cursor × List Char} (h : part ∈ placedBefore n pieces) :
    (⟨n, pieces.flatten⟩ : Cursor) ≤ part.1.extend part.2 := by
  induction pieces generalizing n with
  | nil => cases h
  | cons piece pieces ih =>
    rw [placedBefore] at h
    rcases List.mem_cons.mp h with rfl | h
    · exact le_refl _
    · exact le_trans ⟨piece, rfl, rfl⟩ (ih h)

theorem starts_cons (n : Nat) (c : Char) (rest : List Char) : (⟨n, c :: rest⟩ : Cursor).starts =
    ⟨n, c :: rest⟩ :: (⟨n + c.utf8Size, rest⟩ : Cursor).starts := rfl

theorem finish_cons (n : Nat) (c : Char) (rest : List Char) :
    (⟨n, c :: rest⟩ : Cursor).finish = (⟨n + c.utf8Size, rest⟩ : Cursor).finish := by
  simp [finish, Nat.add_assoc]

theorem onward_extend (more : List Char) (cur : Cursor) : (cur.extend more).onward =
    cur.starts.map (extend more) ++ (cur.finish.extend more).onward := by
  obtain ⟨n, rest⟩ := cur
  induction rest generalizing n with
  | nil => rfl
  | cons c rest ih =>
    rw [starts_cons, finish_cons, List.map_cons, List.cons_append, ← ih]
    rfl

theorem onward_eq_starts (cur : Cursor) : cur.onward = cur.starts ++ [cur.finish] := by
  obtain ⟨n, rest⟩ := cur
  induction rest generalizing n with
  | nil => rfl
  | cons c rest ih =>
    rw [starts_cons, finish_cons, List.cons_append, ← ih]
    rfl

theorem finish_of_le {a b : Cursor} (h : a ≤ b) : b.finish = a.finish := by
  obtain ⟨passed, hr, ho⟩ := h
  rw [finish, finish, hr, ho, Text.byteLength_append, Nat.add_assoc]

theorem mem_starts {a b : Cursor} : b ∈ a.starts ↔ a ≤ b ∧ b.rest ≠ [] := by
  obtain ⟨n, rest⟩ := a
  induction rest generalizing n with
  | nil =>
    constructor
    · intro h
      cases h
    · intro h
      obtain ⟨hle, hne⟩ := h
      rw [eq_of_le_end hle] at hne
      exact absurd rfl hne
  | cons c rest ih =>
    rw [starts_cons, List.mem_cons, ih]
    constructor
    · rintro (rfl | ⟨hle, hne⟩)
      · exact ⟨le_refl _, by simp⟩
      · exact ⟨le_trans le_next hle, hne⟩
    · intro h
      obtain ⟨hle, hne⟩ := h
      rcases eq_or_next_le hle with rfl | hle
      · exact Or.inl rfl
      · exact Or.inr ⟨hle, hne⟩

theorem not_mem_rest_of_le {c : Char} {a b : Cursor} (h : a ≤ b) (hc : c ∉ a.rest) :
    c ∉ b.rest := by
  obtain ⟨passed, heq, _⟩ := h
  intro hmem
  apply hc
  rw [heq]
  exact List.mem_append_right passed hmem

theorem offset_lt_finish {cur : Cursor} (h : cur.rest ≠ []) : cur.offset < cur.finish.offset := by
  obtain ⟨c, rest, heq⟩ := List.exists_cons_of_ne_nil h
  have hpos := c.utf8Size_pos
  rw [finish, heq, Text.byteLength_cons]
  simp only
  omega

/-- What is ahead is the rest of a closed piece. -/
def IsRun (cur : Cursor) : Prop := ∃ run, '>' ∉ run ∧ cur.rest = run ++ ['>']

theorem IsRun.of_le {a b : Cursor} (ha : a.IsRun) (h : a ≤ b) (hb : b.rest ≠ []) : b.IsRun := by
  obtain ⟨run, hrun, heq⟩ := ha
  obtain ⟨passed, hr, _⟩ := h
  rw [heq, ← List.dropLast_append_getLast hb, ← List.append_assoc] at hr
  obtain ⟨hfront, hlast⟩ := List.append_inj' hr rfl
  refine ⟨b.rest.dropLast, ?_, ?_⟩
  · intro hmem
    exact hrun (hfront ▸ List.mem_append_right passed hmem)
  · rw [hlast, List.dropLast_append_getLast]

/-- A word without a bracket is spelled inside of the piece. -/
theorem IsRun.spell? {cur : Cursor} (h : cur.IsRun) {word : List Char}
    (hw : ∀ letter ∈ word, Text.fold letter ≠ '>') (more : List Char) :
    (cur.extend more).spell? word = (cur.spell? word).map (extend more) ∧
      ∀ b, cur.spell? word = some b → b.IsRun := by
  obtain ⟨n, rest⟩ := cur
  obtain ⟨run, hrun, heq⟩ := h
  simp only at heq
  subst heq
  induction word generalizing n run with
  | nil =>
    refine ⟨rfl, ?_⟩
    intro b hb
    cases hb
    exact ⟨run, hrun, rfl⟩
  | cons letter word ih =>
    have hl := hw letter List.mem_cons_self
    have hw := fun other ho => hw other (List.mem_cons_of_mem letter ho)
    cases run with
    | nil =>
      have hno : Text.sameLetter letter '>' = false := by
        rw [Bool.eq_false_iff]
        intro hsame
        exact hl (Text.sameLetter_iff.mp hsame).symm
      rw [List.nil_append, spell?_cons, extend, List.singleton_append, spell?_cons, hno]
      exact ⟨rfl, fun b hb => by cases hb⟩
    | cons c run =>
      rw [List.mem_cons, not_or] at hrun
      rw [List.cons_append, spell?_cons, extend, List.cons_append, spell?_cons]
      split
      · exact ih hw _ run hrun.2
      · exact ⟨rfl, fun b hb => by cases hb⟩

end Cursor

end MarkupAudit
