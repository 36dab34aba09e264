import MarkupAudit.Proofs.CommandLine.Argument
import MarkupAudit.Proofs.Config.BareExtension

/-!
Command lines that differ in the points before their extensions. They are read side by side: if
there is no mistake in the one, there is none in the other, and what they ask for differs in the
points before the extensions only (`sameRequest_parse`).
-/

namespace MarkupAudit.CommandLine

open Config (IsDotted forall₂_isDotted_self)

/-- The same arguments but for points before the values of `--ext`. -/
inductive Dotted : List (List Char) → List (List Char) → Prop where
  | nil : Dotted [] []
  | separate {value value' : List Char} {more more' : List (List Char)} (h : IsDotted value value')
      (hmore : Dotted more more') :
      Dotted (ValueOption.ext.text :: value :: more) (ValueOption.ext.text :: value' :: more')
  | joined {value value' : List Char} {more more' : List (List Char)} (h : IsDotted value value')
      (hmore : Dotted more more') :
      Dotted ((ValueOption.ext.text ++ '=' :: value) :: more)
        ((ValueOption.ext.text ++ '=' :: value') :: more')
  | same {arg : List Char} {more more' : List (List Char)} (h : arg ≠ "--".toList)
      (hmore : Dotted more more') : Dotted (arg :: more) (arg :: more')
  /-- What follows two hyphens is no option. -/
  | positional (more : List (List Char)) : Dotted ("--".toList :: more) ("--".toList :: more)

/-- The same choices but for points before the extensions. -/
inductive Redotted : Choices → Choices → Prop where
  | intro (path json config : Option (List Char)) {extensions extensions' : List (List Char)}
      (h : List.Forall₂ IsDotted extensions extensions') (exclude : List (List Char))
      (listRules verbose : Bool) :
      Redotted ⟨path, json, config, extensions, exclude, listRules, verbose⟩
        ⟨path, json, config, extensions', exclude, listRules, verbose⟩

inductive SameState : State → State → Prop where
  | intro {choices choices' : Choices} (h : Redotted choices choices')
      (pending : Option ValueOption) : SameState ⟨choices, pending⟩ ⟨choices', pending⟩

/-- Where the first reading goes on, the second does too, and where the first is settled other than
by a mistake, so is the second. -/
inductive Follows {α : Type} (r : α → α → Prop) : Reading α → Reading α → Prop where
  | ok {a b : α} (h : r a b) : Follows r (.ok a) (.ok b)
  | settled (request : Request) : Follows r (.error request) (.error request)
  | misused (second : Reading α) : Follows r (.error .misused) second

theorem Follows.bind {α β : Type} {r : α → α → Prop} {s : β → β → Prop} {x y : Reading α}
    {f g : α → Reading β} (h : Follows r x y) (hfg : ∀ a b, r a b → Follows s (f a) (g b)) :
    Follows s (x.bind f) (y.bind g) := by
  cases h with
  | ok h => exact hfg _ _ h
  | settled request => exact .settled request
  | misused second => exact .misused _

theorem follows_self {α : Type} (x : Reading α) : Follows Eq x x := by
  cases x with
  | ok a => exact .ok rfl
  | error request => exact .settled request

section Step

variable {choices choices' : Choices} {state state' : State}

theorem follows_setValue (h : Redotted choices choices') (value : List Char) (option : ValueOption) :
    Follows Redotted (setValue choices value option) (setValue choices' value option) := by
  obtain ⟨path, json, config, h, exclude, listRules, verbose⟩ := h
  cases option with
  | json =>
    refine (follows_self (nonempty value)).bind ?_
    rintro target _ rfl
    refine (follows_self (once json target)).bind ?_
    rintro target _ rfl
    exact .ok (.intro path target config h exclude listRules verbose)
  | config =>
    refine (follows_self (nonempty value)).bind ?_
    rintro target _ rfl
    refine (follows_self (once config target)).bind ?_
    rintro target _ rfl
    exact .ok (.intro path json target h exclude listRules verbose)
  | ext =>
    have hmore := List.rel_append h (forall₂_isDotted_self [value])
    exact .ok (.intro path json config hmore exclude listRules verbose)
  | exclude => exact .ok (.intro path json config h (exclude ++ [value]) listRules verbose)

theorem follows_setExtension (h : Redotted choices choices') {value value' : List Char}
    (hvalue : IsDotted value value') :
    Follows Redotted (setValue choices value .ext) (setValue choices' value' .ext) := by
  obtain ⟨path, json, config, h, exclude, listRules, verbose⟩ := h
  have hmore := List.rel_append h (.cons hvalue .nil)
  exact .ok (.intro path json config hmore exclude listRules verbose)

theorem follows_setSwitch (h : Redotted choices choices') (switch : Switch) :
    Follows Redotted (setSwitch choices switch) (setSwitch choices' switch) := by
  obtain ⟨path, json, config, h, exclude, listRules, verbose⟩ := h
  cases switch with
  | listRules =>
    cases listRules with
    | true => exact .misused _
    | false => exact .ok (.intro path json config h exclude true verbose)
  | verbose =>
    cases verbose with
    | true => exact .misused _
    | false => exact .ok (.intro path json config h exclude listRules true)
  | help => exact .settled _
  | version => exact .settled _

theorem follows_settle (h : SameState state state') :
    Follows Redotted (settle state) (settle state') := by
  obtain ⟨h, pending⟩ := h
  cases pending with
  | none => exact .ok h
  | some option =>
    cases option with
    | json => exact follows_setValue h defaultReport .json
    | config => exact .misused _
    | ext => exact .misused _
    | exclude => exact .misused _

theorem follows_readLong (h : SameState state state') (text : List Char) :
    Follows SameState (readLong state text) (readLong state' text) := by
  rw [readLong, readLong]
  dsimp only
  split
  · refine (follows_settle h).bind fun choices choices' hchoices => ?_
    refine (follows_setValue hchoices _ _).bind fun choices choices' hchoices => ?_
    exact .ok (.intro hchoices none)
  · refine (follows_settle h).bind fun choices choices' hchoices => ?_
    exact .ok (.intro hchoices _)
  · refine (follows_settle h).bind fun choices choices' hchoices => ?_
    refine (follows_setSwitch hchoices _).bind fun choices choices' hchoices => ?_
    exact .ok (.intro hchoices none)
  · exact .misused _
  · exact .misused _

theorem follows_readShort (h : SameState state state') (names : List Char) :
    Follows SameState (readShort state names) (readShort state' names) := by
  induction names generalizing state state' with
  | nil => exact .ok h
  | cons name rest ih =>
    rw [readShort, readShort]
    split
    · exact .misused _
    · refine (follows_settle h).bind fun choices choices' hchoices => ?_
      refine (follows_setSwitch hchoices _).bind fun choices choices' hchoices => ?_
      exact ih (.intro hchoices none)
    · refine (follows_settle h).bind fun choices choices' hchoices => ?_
      split
      · exact .ok (.intro hchoices _)
      · refine (follows_setValue hchoices _ _).bind fun choices choices' hchoices => ?_
        exact .ok (.intro hchoices none)
      · refine (follows_setValue hchoices _ _).bind fun choices choices' hchoices => ?_
        exact .ok (.intro hchoices none)

theorem follows_readPath (h : Redotted choices choices') (text : List Char) :
    Follows Redotted (readPath choices text) (readPath choices' text) := by
  obtain ⟨path, json, config, h, exclude, listRules, verbose⟩ := h
  refine (follows_self (nonempty text)).bind ?_
  rintro text _ rfl
  refine (follows_self (once path text)).bind ?_
  rintro path _ rfl
  exact .ok (.intro path json config h exclude listRules verbose)

theorem follows_readPaths (h : Redotted choices choices') (paths : List (List Char)) :
    Follows Redotted (readPaths choices paths) (readPaths choices' paths) := by
  induction paths generalizing choices choices' with
  | nil => exact .ok h
  | cons path rest ih => exact (follows_readPath h path).bind fun _ _ => ih

theorem follows_readPlain (h : SameState state state') (text : List Char) :
    Follows SameState (readPlain state text) (readPlain state' text) := by
  obtain ⟨h, pending⟩ := h
  cases pending with
  | some option =>
    refine (follows_setValue h text option).bind fun choices choices' hchoices => ?_
    exact .ok (.intro hchoices none)
  | none =>
    refine (follows_readPath h text).bind fun choices choices' hchoices => ?_
    exact .ok (.intro hchoices none)

end Step

section Argument

variable {state state' : State} {value value' : List Char}

theorem follows_readOne (h : SameState state state') (arg : List Char) :
    Follows SameState (readOne state arg) (readOne state' arg) := by
  rw [readOne.eq_def, readOne.eq_def]
  split
  · exact follows_readLong h _
  · exact follows_readPlain h _
  · exact follows_readShort h _
  · exact follows_readPlain h _

theorem isPlain_of_isDotted (h : IsDotted value value') (hplain : IsPlain value) :
    IsPlain value' := by
  obtain ⟨n, rfl⟩ := h
  cases n with
  | zero => exact hplain
  | succ n =>
    rw [List.replicate_succ, List.cons_append, IsPlain, List.head?_cons, ne_eq, Option.some.injEq]
    exact Or.inr (by decide)

theorem follows_readAll {args args' : List (List Char)} (hargs : Dotted args args')
    (h : SameState state state') : Follows Redotted (readAll state args) (readAll state' args') := by
  induction hargs generalizing state state' with
  | nil => exact follows_settle h
  | @separate value value' more more' hvalue _ ih =>
    rw [readAll_option, readAll_option]
    refine (follows_settle h).bind fun choices choices' hchoices => ?_
    -- Points make no option of a plain value, and an option is no value to begin with.
    by_cases hplain : IsPlain value
    · rw [readAll_value hplain, readAll_value (isPlain_of_isDotted hvalue hplain)]
      refine (follows_setExtension hchoices hvalue).bind fun choices choices' hchoices => ?_
      exact ih (.intro hchoices none)
    · rw [readAll_waiting (by decide) choices hplain]
      exact .misused _
  | joined hvalue _ ih =>
    rw [readAll_option_eq, readAll_option_eq]
    refine (follows_settle h).bind fun choices choices' hchoices => ?_
    refine (follows_setExtension hchoices hvalue).bind fun choices choices' hchoices => ?_
    exact ih (.intro hchoices none)
  | same harg _ ih =>
    rw [readAll_cons harg, readAll_cons harg]
    exact (follows_readOne h _).bind fun _ _ => ih
  | positional more => exact (follows_settle h).bind fun _ _ hchoices => follows_readPaths hchoices more

end Argument

/-! ### The whole command line -/

/-- There is no mistake in the arguments; whether there is a path among them is another matter. -/
def Parses (args : List (List Char)) : Prop := readAll ⟨.none, none⟩ args ≠ .error .misused

/-- The same requests but for points before the extensions. -/
inductive SameRequest : Request → Request → Prop where
  | same (request : Request) : SameRequest request request
  | audit (path : List Char) {choices choices' : Choices} (h : Redotted choices choices') :
      SameRequest (.audit path choices) (.audit path choices')

theorem sameRequest_request {choices choices' : Choices} (h : Redotted choices choices') :
    SameRequest (request choices) (request choices') := by
  obtain ⟨path, json, config, h, exclude, listRules, verbose⟩ := h
  cases listRules with
  | true => exact .same _
  | false =>
    cases path with
    | none => exact .same _
    | some path => exact .audit path (.intro _ json config h exclude false verbose)

theorem sameRequest_parse {args args' : List (List Char)} (h : Dotted args args')
    (hparses : Parses args) : SameRequest (parse args) (parse args') := by
  have hnone : SameState ⟨.none, none⟩ ⟨.none, none⟩ :=
    .intro (.intro none none none .nil [] false false) none
  have hread := follows_readAll h hnone
  rw [Parses] at hparses
  rw [parse, parse]
  generalize readAll ⟨.none, none⟩ args = first, readAll ⟨.none, none⟩ args' = second
    at hread hparses ⊢
  cases hread with
  | ok h => exact sameRequest_request h
  | settled request => exact .same request
  | misused => exact absurd rfl hparses

end MarkupAudit.CommandLine
