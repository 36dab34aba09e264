import MarkupAudit.Proofs.Text.Line

/-!
Texts whose lines end in a carriage return and a newline. `withReturns` puts a return before every
newline of a text. It changes no line (`lines_withReturns`), provided that the text had none before a
newline. `Returned` relates what comes next at a place of the one text and of the other, also between
a return and its newline.
-/

namespace MarkupAudit.Text

/-- The text with a carriage return before every newline. -/
def withReturns (text : List Char) : List Char :=
  text.flatMap fun c => if c = '\n' then ['\r', '\n'] else [c]

theorem withReturns_newline (rest : List Char) :
    withReturns ('\n' :: rest) = '\r' :: '\n' :: withReturns rest := rfl

theorem withReturns_cons {c : Char} (hc : c ≠ '\n') (rest : List Char) :
    withReturns (c :: rest) = c :: withReturns rest := by
  rw [withReturns, List.flatMap_cons, if_neg hc]
  rfl

theorem withReturns_append (front rest : List Char) :
    withReturns (front ++ rest) = withReturns front ++ withReturns rest := List.flatMap_append

theorem count_withReturns (text : List Char) :
    (withReturns text).count '\n' = text.count '\n' := by
  induction text with
  | nil => rfl
  | cons c rest ih =>
    by_cases hc : c = '\n'
    · subst hc
      rw [withReturns_newline, List.count_cons_of_ne (by decide), List.count_cons_self,
        List.count_cons_self, ih]
    · rw [withReturns_cons hc, List.count_cons_of_ne hc, List.count_cons_of_ne hc, ih]

theorem byteLength_withReturns (text : List Char) :
    byteLength (withReturns text) = byteLength text + text.count '\n' := by
  induction text with
  | nil => rfl
  | cons c rest ih =>
    by_cases hc : c = '\n'
    · subst hc
      have hsize : '\r'.utf8Size = 1 := rfl
      rw [withReturns_newline, byteLength_cons, byteLength_cons, byteLength_cons,
        List.count_cons_self, ih]
      omega
    · rw [withReturns_cons hc, byteLength_cons, byteLength_cons, List.count_cons_of_ne hc, ih,
        Nat.add_assoc]

theorem head?_withReturns_ne (text : List Char) : (withReturns text).head? ≠ some '\n' := by
  cases text with
  | nil => simp [withReturns]
  | cons c rest =>
    by_cases hc : c = '\n'
    · subst hc
      rw [withReturns_newline, List.head?_cons]
      simp
    · rw [withReturns_cons hc, List.head?_cons]
      simpa using hc

theorem lines_withReturns {text : List Char} (h : ¬['\r', '\n'] <:+: text) :
    lines (withReturns text) = lines text := by
  induction text with
  | nil => rfl
  | cons c rest ih =>
    have ih := ih fun hrest => h (List.infix_cons hrest)
    by_cases hc : c = '\n'
    · subst hc
      rw [withReturns_newline, lines_return, lines_newline, lines_newline, ih]
    · have hgoes : GoesOn c rest := by
        refine ⟨hc, ?_⟩
        rintro more rfl rfl
        exact h ⟨[], more, rfl⟩
      have hgoes' : GoesOn c (withReturns rest) := by
        refine ⟨hc, ?_⟩
        intro more _ hmore
        apply head?_withReturns_ne rest
        rw [hmore, List.head?_cons]
      rw [withReturns_cons hc, lines_cons hgoes', lines_cons hgoes, ih]

/-- The second text comes next with returns where the first does without, or it begins with a newline
whose return has been passed. -/
def Returned (s s' : List Char) : Prop :=
  s' = withReturns s ∨ ∃ rest, s = '\n' :: rest ∧ s' = '\n' :: withReturns rest

theorem returned_withReturns (s : List Char) : Returned s (withReturns s) := Or.inl rfl

theorem Returned.nil_left {s' : List Char} (h : Returned [] s') : s' = [] := by
  rcases h with rfl | ⟨_, h, _⟩
  · rfl
  · cases h

theorem Returned.cons_left {c : Char} (hc : c ≠ '\n') {rest s' : List Char}
    (h : Returned (c :: rest) s') : s' = c :: withReturns rest := by
  rcases h with rfl | ⟨_, h, _⟩
  · exact withReturns_cons hc rest
  · exact absurd (List.cons.inj h).1 hc

theorem Returned.newline_left {rest s' : List Char} (h : Returned ('\n' :: rest) s') :
    s' = '\r' :: '\n' :: withReturns rest ∨ s' = '\n' :: withReturns rest := by
  rcases h with rfl | ⟨_, h, rfl⟩
  · exact Or.inl rfl
  · rw [(List.cons.inj h).2]
    exact Or.inr rfl

theorem returned_newline (rest : List Char) :
    Returned ('\n' :: rest) ('\n' :: withReturns rest) := Or.inr ⟨rest, rfl, rfl⟩

end MarkupAudit.Text
