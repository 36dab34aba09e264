import MarkupAudit.CommandLine.Parse

/-!
A command line argument by argument. An option waits for its value, which is the next argument unless
this is an option itself (`readAll_value`, `readAll_waiting`), or has it with a sign of equality
(`readAll_option`, `readAll_option_eq`).
-/

namespace MarkupAudit.CommandLine

/-- An option as it is written. -/
def ValueOption.text : ValueOption → List Char
  | json => "--json".toList
  | config => "--config".toList
  | ext => "--ext".toList
  | exclude => "--exclude".toList

/-- An argument that does not make the rest positional. -/
def readOne (state : State) : List Char → Reading State
  | '-' :: '-' :: text => readLong state text
  | ['-'] => readPlain state ['-']
  | '-' :: names => readShort state names
  | text => readPlain state text

/-- No option, so it can be the value of one. -/
def IsPlain (text : List Char) : Prop := text = ['-'] ∨ text.head? ≠ some '-'

theorem bind_bind {α β γ : Type} (x : Reading α) (f : α → Reading β) (g : β → Reading γ) :
    (x.bind f).bind g = x.bind fun a => (f a).bind g := by
  cases x <;> rfl

variable {arg value : List Char}

theorem readOne_of_isPlain (h : IsPlain arg) (state : State) :
    readOne state arg = readPlain state arg := by
  rcases h with rfl | h
  · rfl
  · cases arg with
    | nil => rfl
    | cons c rest =>
      have hc : c ≠ '-' := fun hc => h (congrArg some hc)
      simp [readOne, hc]

theorem readAll_cons (h : arg ≠ "--".toList) (state : State) (rest : List (List Char)) :
    readAll state (arg :: rest) = (readOne state arg).bind fun next => readAll next rest := by
  match arg with
  | [] => rfl
  | [c] =>
    by_cases hc : c = '-'
    · subst hc
      rfl
    · simp [readAll, readOne, hc]
      rfl
  | c :: d :: text =>
    by_cases hc : c = '-'
    · subst hc
      by_cases hd : d = '-'
      · subst hd
        cases text with
        | nil => exact absurd rfl h
        | cons e text => rfl
      · simp [readAll, readOne, hd]
        rfl
    · simp [readAll, readOne, hc]
      rfl

theorem readAll_value (h : IsPlain value) (choices : Choices) (option : ValueOption)
    (rest : List (List Char)) : readAll ⟨choices, some option⟩ (value :: rest) =
      (setValue choices value option).bind fun next => readAll ⟨next, none⟩ rest := by
  have hne : value ≠ "--".toList := by
    rintro rfl
    rcases h with h | h
    · cases h
    · exact h rfl
  have hplain : readPlain ⟨choices, some option⟩ value =
      (setValue choices value option).bind fun next => .ok ⟨next, none⟩ := rfl
  rw [readAll_cons hne, readOne_of_isPlain h, hplain, bind_bind]
  rfl

section Waiting

variable {option : ValueOption} (hoption : option ≠ .json) (choices : Choices)
include hoption

theorem settle_waiting : settle ⟨choices, some option⟩ = .error .misused := by
  cases option with
  | json => exact absurd rfl hoption
  | config => rfl
  | ext => rfl
  | exclude => rfl

theorem readLong_waiting (text : List Char) :
    readLong ⟨choices, some option⟩ text = .error .misused := by
  rw [readLong, settle_waiting hoption]
  dsimp only
  split <;> rfl

theorem readShort_waiting (name : Char) (rest : List Char) :
    readShort ⟨choices, some option⟩ (name :: rest) = .error .misused := by
  rw [readShort, settle_waiting hoption]
  split <;> rfl

/-- An option is no value of another. -/
theorem readAll_waiting (h : ¬IsPlain value) (rest : List (List Char)) :
    readAll ⟨choices, some option⟩ (value :: rest) = .error .misused := by
  by_cases hne : value = "--".toList
  · subst hne
    change (settle ⟨choices, some option⟩).bind _ = _
    rw [settle_waiting hoption]
    rfl
  rw [IsPlain, not_or, ne_eq, Decidable.not_not] at h
  obtain ⟨hhyphen, hhead⟩ := h
  obtain ⟨text, rfl⟩ := List.head?_eq_some_iff.mp hhead
  have hone : readOne ⟨choices, some option⟩ ('-' :: text) = .error .misused := by
    cases text with
    | nil => exact absurd rfl hhyphen
    | cons c text =>
      by_cases hc : c = '-'
      · subst hc
        exact readLong_waiting hoption choices text
      · rw [← readShort_waiting hoption choices c text]
        simp [readOne, hc]
  rw [readAll_cons hne, hone]
  rfl

end Waiting

theorem readAll_option (option : ValueOption) (state : State) (rest : List (List Char)) :
    readAll state (option.text :: rest) =
      (settle state).bind fun choices => readAll ⟨choices, some option⟩ rest := by
  have hne : option.text ≠ "--".toList := by cases option <;> decide
  have hone : readOne state option.text =
      (settle state).bind fun choices => .ok ⟨choices, some option⟩ := by
    cases option <;> rfl
  rw [readAll_cons hne, hone, bind_bind]
  rfl

theorem readAll_option_eq (option : ValueOption) (state : State) (value : List Char)
    (rest : List (List Char)) : readAll state ((option.text ++ '=' :: value) :: rest) =
      (settle state).bind fun choices =>
        (setValue choices value option).bind fun choices => readAll ⟨choices, none⟩ rest := by
  have hne : option.text ++ '=' :: value ≠ "--".toList := by
    intro heq
    cases option <;> cases heq
  have hone : readOne state (option.text ++ '=' :: value) = (settle state).bind fun choices =>
      (setValue choices value option).bind fun choices => .ok ⟨choices, none⟩ := by
    cases option <;> rfl
  rw [readAll_cons hne, hone]
  simp only [bind_bind]
  rfl

end MarkupAudit.CommandLine
