import MarkupAudit.Proofs.CommandLine.Argument

/-!
The values of the options that may be given more than once. If nothing is wrong with a command line,
those that are given in it are those that are chosen, in their order (`listed_of_parse`).
-/

namespace MarkupAudit.CommandLine

/-- The options that may be given more than once. -/
inductive ValueOption.IsRepeatable : ValueOption → Prop where
  | ext : IsRepeatable ext
  | exclude : IsRepeatable exclude

/-- What is chosen with an option that may be given more than once. -/
def Choices.listed (choices : Choices) : ValueOption → List (List Char)
  | .ext => choices.extensions
  | .exclude => choices.exclude
  | .json => []
  | .config => []

/-- The values of an option among arguments, of which the first is one if the option waits for it.
After two hyphens alone there are no options. -/
def valuesOf (option : ValueOption) : Bool → List (List Char) → List (List Char)
  | _, [] => []
  | true, value :: rest => value :: valuesOf option false rest
  | false, arg :: rest =>
    let (name, value) := splitEquals arg
    if arg = "--".toList then []
    else if name ≠ option.text then valuesOf option false rest
    else
      match value with
      | some value => value :: valuesOf option false rest
      | none => valuesOf option true rest

/-- What holds where a reading goes on. Where it is settled, nothing is to be audited. -/
inductive Yields {α : Type} (p : α → Prop) : Reading α → Prop where
  | ok {a : α} (h : p a) : Yields p (.ok a)
  | settled {request : Request} (h : ∀ path choices, request ≠ .audit path choices) :
      Yields p (.error request)

namespace Yields

variable {α β : Type} {p : α → Prop} {q : β → Prop} {x : Reading α}

theorem bind {f : α → Reading β} (h : Yields p x) (hf : ∀ a, p a → Yields q (f a)) :
    Yields q (x.bind f) := by
  cases h with
  | ok h => exact hf _ h
  | settled h => exact .settled h

theorem imp {p' : α → Prop} (h : Yields p x) (hp : ∀ a, p a → p' a) : Yields p' x := by
  cases h with
  | ok h => exact .ok (hp _ h)
  | settled h => exact .settled h

theorem misused : Yields p (.error .misused) := .settled fun _ _ h => by cases h

end Yields

theorem yields_nonempty (path : List Char) : Yields (fun _ => True) (nonempty path) := by
  rw [nonempty]
  split
  · exact .misused
  · exact .ok trivial

theorem yields_once {α : Type} (old : Option α) (new : α) :
    Yields (fun _ => True) (once old new) := by
  cases old with
  | none => exact .ok trivial
  | some old => exact .misused

section Step

variable {option : ValueOption} (hoption : option.IsRepeatable) {choices : Choices} {state : State}
include hoption

theorem yields_setValue (value : List Char) :
    Yields (fun after => after.listed option = choices.listed option ++ [value])
      (setValue choices value option) := by
  cases hoption <;> exact .ok rfl

theorem yields_setValue_of_ne {other : ValueOption} (h : other ≠ option) (value : List Char) :
    Yields (fun after => after.listed option = choices.listed option)
      (setValue choices value other) := by
  cases other with
  | json =>
    refine (yields_nonempty value).bind fun target _ => ?_
    refine (yields_once choices.json target).bind fun json _ => ?_
    cases hoption <;> exact .ok rfl
  | config =>
    refine (yields_nonempty value).bind fun target _ => ?_
    refine (yields_once choices.config target).bind fun config _ => ?_
    cases hoption <;> exact .ok rfl
  | ext =>
    cases hoption with
    | ext => exact absurd rfl h
    | exclude => exact .ok rfl
  | exclude =>
    cases hoption with
    | ext => exact .ok rfl
    | exclude => exact absurd rfl h

theorem yields_setSwitch (switch : Switch) :
    Yields (fun after => after.listed option = choices.listed option)
      (setSwitch choices switch) := by
  cases switch with
  | listRules =>
    rw [setSwitch]
    split
    · exact .misused
    · cases hoption <;> exact .ok rfl
  | verbose =>
    rw [setSwitch]
    split
    · exact .misused
    · cases hoption <;> exact .ok rfl
  | help => exact .settled fun _ _ h => by cases h
  | version => exact .settled fun _ _ h => by cases h

theorem yields_settle : Yields (fun after => after.listed option = state.choices.listed option)
    (settle state) := by
  obtain ⟨choices, pending⟩ := state
  cases pending with
  | none => exact .ok rfl
  | some other =>
    cases other with
    | json =>
      have hjson : ValueOption.json ≠ option := by
        rintro rfl
        cases hoption
      exact yields_setValue_of_ne hoption hjson defaultReport
    | config => exact .misused
    | ext => exact .misused
    | exclude => exact .misused

theorem yields_readPath (path : List Char) :
    Yields (fun after => after.listed option = choices.listed option) (readPath choices path) := by
  refine (yields_nonempty path).bind fun path _ => ?_
  refine (yields_once choices.path path).bind fun path _ => ?_
  cases hoption <;> exact .ok rfl

theorem yields_readPaths (paths : List (List Char)) :
    Yields (fun after => after.listed option = choices.listed option)
      (readPaths choices paths) := by
  induction paths generalizing choices with
  | nil => exact .ok rfl
  | cons path rest ih =>
    refine (yields_readPath hoption path).bind fun next hnext => ?_
    rw [← hnext]
    exact ih

end Step

/-! ### An argument with none of the values -/

/-- Nothing is added to what is chosen with the option, and the option does not wait. -/
def Passes (option : ValueOption) (state next : State) : Prop :=
  next.choices.listed option = state.choices.listed option ∧ next.pending ≠ some option

section Argument

variable {option : ValueOption} (hoption : option.IsRepeatable) {state : State} {arg : List Char}

theorem splitEquals_cons {c : Char} (h : c ≠ '=') (rest : List Char) :
    splitEquals (c :: rest) = (c :: (splitEquals rest).1, (splitEquals rest).2) := by
  rw [splitEquals, if_neg h]

theorem eq_or_of_splitEquals {name : List Char} (h : (splitEquals arg).1 = name) :
    arg = name ∨ ∃ value, arg = name ++ '=' :: value := by
  induction arg generalizing name with
  | nil => exact Or.inl h
  | cons c rest ih =>
    by_cases hc : c = '='
    · subst hc
      subst h
      exact Or.inr ⟨rest, rfl⟩
    · rw [splitEquals_cons hc] at h
      subst h
      rcases ih rfl with hrest | ⟨value, hrest⟩
      · exact Or.inl (congrArg (c :: ·) hrest)
      · exact Or.inr ⟨value, congrArg (c :: ·) hrest⟩

theorem text_of_longOption? {name : List Char} (h : longOption? name = some (.inl option)) :
    option.text = '-' :: '-' :: name := by
  unfold longOption? at h
  repeat' split at h
  all_goals first | (cases h; subst name; rfl) | cases h

theorem shortOption?_ne (hoption : option.IsRepeatable) (name : Char) :
    shortOption? name ≠ some (.inl option) := by
  intro h
  unfold shortOption? at h
  cases hoption <;> (repeat' split at h) <;> cases h

include hoption

theorem passes_readPlain (hpending : state.pending ≠ some option) (text : List Char) :
    Yields (Passes option state) (readPlain state text) := by
  obtain ⟨choices, pending⟩ := state
  cases pending with
  | none =>
    refine (yields_readPath hoption text).bind fun next hnext => ?_
    exact .ok ⟨hnext, (Option.some_ne_none option).symm⟩
  | some other =>
    have hne : other ≠ option := fun heq => hpending (congrArg some heq)
    refine (yields_setValue_of_ne hoption hne text).bind fun next hnext => ?_
    exact .ok ⟨hnext, (Option.some_ne_none option).symm⟩

theorem passes_readShort (hpending : state.pending ≠ some option) (names : List Char) :
    Yields (Passes option state) (readShort state names) := by
  induction names generalizing state with
  | nil => exact .ok ⟨rfl, hpending⟩
  | cons name rest ih =>
    rw [readShort]
    split
    · exact .misused
    · refine (yields_settle hoption).bind fun choices hchoices => ?_
      refine (yields_setSwitch hoption _).bind fun next hnext => ?_
      have hnone : (⟨next, none⟩ : State).pending ≠ some option := (Option.some_ne_none option).symm
      refine (ih hnone).imp fun last hlast => ?_
      exact ⟨hlast.1.trans (hnext.trans hchoices), hlast.2⟩
    · rename_i other hother
      have hne : other ≠ option := by
        rintro rfl
        exact shortOption?_ne hoption name hother
      refine (yields_settle hoption).bind fun choices hchoices => ?_
      split
      · exact .ok ⟨hchoices, fun heq => hne (Option.some.inj heq)⟩
      · refine (yields_setValue_of_ne hoption hne _).bind fun next hnext => ?_
        exact .ok ⟨hnext.trans hchoices, (Option.some_ne_none option).symm⟩
      · refine (yields_setValue_of_ne hoption hne _).bind fun next hnext => ?_
        exact .ok ⟨hnext.trans hchoices, (Option.some_ne_none option).symm⟩

theorem passes_readLong {text : List Char} (hname : '-' :: '-' :: (splitEquals text).1 ≠ option.text) :
    Yields (Passes option state) (readLong state text) := by
  have hne {other : ValueOption} (h : longOption? (splitEquals text).1 = some (.inl other)) :
      other ≠ option := by
    rintro rfl
    exact hname (text_of_longOption? h).symm
  rw [readLong]
  dsimp only
  split
  · rename_i other value hother _
    refine (yields_settle hoption).bind fun choices hchoices => ?_
    refine (yields_setValue_of_ne hoption (hne hother) _).bind fun next hnext => ?_
    exact .ok ⟨hnext.trans hchoices, (Option.some_ne_none option).symm⟩
  · rename_i other hother _
    refine (yields_settle hoption).bind fun choices hchoices => ?_
    exact .ok ⟨hchoices, fun heq => hne hother (Option.some.inj heq)⟩
  · refine (yields_settle hoption).bind fun choices hchoices => ?_
    refine (yields_setSwitch hoption _).bind fun next hnext => ?_
    exact .ok ⟨hnext.trans hchoices, (Option.some_ne_none option).symm⟩
  · exact .misused
  · exact .misused

theorem passes_readOne (hpending : state.pending ≠ some option)
    (hname : (splitEquals arg).1 ≠ option.text) :
    Yields (Passes option state) (readOne state arg) := by
  rw [readOne.eq_def]
  split
  · exact passes_readLong hoption hname
  · exact passes_readPlain hoption hpending _
  · exact passes_readShort hoption hpending _
  · exact passes_readPlain hoption hpending _

end Argument

/-! ### All arguments -/

section Arguments

variable {option : ValueOption} {state : State} {arg : List Char}

theorem valuesOf_option (option : ValueOption) (rest : List (List Char)) :
    valuesOf option false (option.text :: rest) = valuesOf option true rest := by
  cases option <;> rfl

theorem valuesOf_option_eq (option : ValueOption) (value : List Char) (rest : List (List Char)) :
    valuesOf option false ((option.text ++ '=' :: value) :: rest) =
      value :: valuesOf option false rest := by
  cases option <;> rfl

theorem valuesOf_other (hne : arg ≠ "--".toList) (hname : (splitEquals arg).1 ≠ option.text)
    (rest : List (List Char)) :
    valuesOf option false (arg :: rest) = valuesOf option false rest := by
  rw [valuesOf]
  dsimp only
  rw [if_neg hne, if_pos hname]

/-- All values of an option are chosen that are given in the arguments. -/
def ListsAll (option : ValueOption) (state : State) (args : List (List Char)) : Prop :=
  Yields (fun choices => choices.listed option = state.choices.listed option ++
    valuesOf option (state.pending = some option) args) (readAll state args)

variable (hoption : option.IsRepeatable)
include hoption

theorem listsAll_hyphens (hpending : state.pending ≠ some option) (paths : List (List Char)) :
    ListsAll option state ("--".toList :: paths) := by
  rw [ListsAll, decide_eq_false hpending]
  refine (yields_settle hoption).bind fun choices hchoices => ?_
  refine (yields_readPaths hoption paths).imp fun last hlast => ?_
  rw [hlast, hchoices]
  exact (List.append_nil _).symm

section Cons

variable {rest : List (List Char)} (ih : ∀ state, ListsAll option state rest)
include ih

theorem listsAll_waiting (choices : Choices) (arg : List Char) :
    ListsAll option ⟨choices, some option⟩ (arg :: rest) := by
  rw [ListsAll, decide_eq_true rfl, valuesOf]
  by_cases hplain : IsPlain arg
  · rw [readAll_value hplain]
    refine (yields_setValue hoption arg).bind fun next hnext => ?_
    refine (ih _).imp fun last hlast => ?_
    rw [hlast, hnext, List.append_assoc]
    rfl
  · have hjson : option ≠ .json := by
      rintro rfl
      cases hoption
    rw [readAll_waiting hjson choices hplain]
    exact .misused

variable (hpending : state.pending ≠ some option)
include hpending

theorem listsAll_option : ListsAll option state (option.text :: rest) := by
  rw [ListsAll, decide_eq_false hpending, readAll_option, valuesOf_option]
  refine (yields_settle hoption).bind fun choices hchoices => ?_
  refine (ih _).imp fun last hlast => ?_
  rw [hlast, hchoices, decide_eq_true rfl]

theorem listsAll_option_eq (value : List Char) :
    ListsAll option state ((option.text ++ '=' :: value) :: rest) := by
  rw [ListsAll, decide_eq_false hpending, readAll_option_eq, valuesOf_option_eq]
  refine (yields_settle hoption).bind fun choices hchoices => ?_
  refine (yields_setValue hoption value).bind fun next hnext => ?_
  refine (ih _).imp fun last hlast => ?_
  rw [hlast, hnext, hchoices, List.append_assoc]
  rfl

theorem listsAll_other (hne : arg ≠ "--".toList) (hname : (splitEquals arg).1 ≠ option.text) :
    ListsAll option state (arg :: rest) := by
  rw [ListsAll, decide_eq_false hpending, readAll_cons hne, valuesOf_other hne hname]
  refine (passes_readOne hoption hpending hname).bind fun next hnext => ?_
  obtain ⟨hsame, hpending'⟩ := hnext
  refine (ih _).imp fun last hlast => ?_
  rw [hlast, hsame, decide_eq_false hpending']

end Cons

theorem listsAll (state : State) (args : List (List Char)) : ListsAll option state args := by
  induction args generalizing state with
  | nil =>
    refine (yields_settle hoption).imp fun choices hchoices => ?_
    rw [hchoices, valuesOf, List.append_nil]
  | cons arg rest ih =>
    by_cases hpending : state.pending = some option
    · obtain ⟨choices, pending⟩ := state
      subst hpending
      exact listsAll_waiting hoption ih choices arg
    by_cases hhyphens : arg = "--".toList
    · subst hhyphens
      exact listsAll_hyphens hoption hpending rest
    by_cases hname : (splitEquals arg).1 = option.text
    · rcases eq_or_of_splitEquals hname with rfl | ⟨value, rfl⟩
      · exact listsAll_option hoption ih hpending
      · exact listsAll_option_eq hoption ih hpending value
    · exact listsAll_other hoption ih hpending hhyphens hname

end Arguments

theorem eq_of_request {choices chosen : Choices} {path : List Char}
    (h : request choices = .audit path chosen) : chosen = choices := by
  rw [request] at h
  split at h
  · cases h
  · split at h <;> cases h
    rfl

/-- All values of an option are chosen that are given in a command line. -/
theorem listed_of_parse {option : ValueOption} (hoption : option.IsRepeatable)
    {args : List (List Char)} {path : List Char} {choices : Choices}
    (h : parse args = .audit path choices) :
    choices.listed option = valuesOf option false args := by
  have hread := listsAll hoption ⟨.none, none⟩ args
  have hnone : Choices.listed .none option = [] := by cases hoption <;> rfl
  rw [ListsAll, hnone] at hread
  rw [parse] at h
  generalize readAll ⟨.none, none⟩ args = reading at hread h
  cases hread with
  | ok hlisted =>
    rw [eq_of_request h, hlisted]
    rfl
  | settled hrequest => exact absurd h (hrequest path choices)

end MarkupAudit.CommandLine
