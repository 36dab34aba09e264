import MarkupAudit.CommandLine.Request

/-!
Reading a command line from left to right. An option takes its value from the same argument, after a
sign of equality, or from the next one; a value that starts with a hyphen is no value. Only the
extensions and the names to leave out may be given more than once. Help and version are answered as
soon as they are reached, and so is the first mistake. Two hyphens alone make all that follows
positional.
-/

namespace MarkupAudit.CommandLine

inductive ValueOption where
  | json
  | config
  | ext
  | exclude
deriving DecidableEq, Repr

inductive Switch where
  | listRules
  | verbose
  | help
  | version
deriving DecidableEq, Repr

/-- The report goes here when no file is named. -/
def defaultReport : List Char := "audit_report.json".toList

/-- The choices so far, and the option that waits for its value. -/
structure State where
  choices : Choices
  pending : Option ValueOption

/-- Either the request is settled, or reading goes on. -/
abbrev Reading := Except Request

def once {α : Type} (old : Option α) (new : α) : Reading (Option α) :=
  match old with
  | none => .ok (some new)
  | some _ => .error .misused

def nonempty (path : List Char) : Reading (List Char) :=
  if path.isEmpty then .error .misused else .ok path

def setValue (choices : Choices) (value : List Char) : ValueOption → Reading Choices
  | .json => do return { choices with json := ← once choices.json (← nonempty value) }
  | .config => do return { choices with config := ← once choices.config (← nonempty value) }
  | .ext => .ok { choices with extensions := choices.extensions ++ [value] }
  | .exclude => .ok { choices with exclude := choices.exclude ++ [value] }

def setSwitch (choices : Choices) : Switch → Reading Choices
  | .listRules =>
    if choices.listRules then .error .misused else .ok { choices with listRules := true }
  | .verbose => if choices.verbose then .error .misused else .ok { choices with verbose := true }
  | .help => .error .help
  | .version => .error .version

/-- Settles an option that has found no value. Only the report can do without. -/
def settle (state : State) : Reading Choices :=
  match state.pending with
  | none => .ok state.choices
  | some .json => setValue state.choices defaultReport .json
  | some _ => .error .misused

def longOption? (name : List Char) : Option (ValueOption ⊕ Switch) :=
  if name = "json".toList then some (.inl .json)
  else if name = "config".toList then some (.inl .config)
  else if name = "ext".toList then some (.inl .ext)
  else if name = "exclude".toList then some (.inl .exclude)
  else if name = "list-rules".toList then some (.inr .listRules)
  else if name = "verbose".toList then some (.inr .verbose)
  else if name = "help".toList then some (.inr .help)
  else if name = "version".toList then some (.inr .version)
  else none

def shortOption? (name : Char) : Option (ValueOption ⊕ Switch) :=
  if name = 'c' then some (.inl .config)
  else if name = 'v' then some (.inr .verbose)
  else if name = 'h' then some (.inr .help)
  else if name = 'V' then some (.inr .version)
  else none

/-- A name and the value after the first sign of equality. -/
def splitEquals : List Char → List Char × Option (List Char)
  | [] => ([], none)
  | c :: rest =>
    if c = '=' then ([], some rest)
    else
      let (name, value) := splitEquals rest
      (c :: name, value)

def readLong (state : State) (text : List Char) : Reading State :=
  let (name, value) := splitEquals text
  match longOption? name, value with
  | some (.inl option), some value => do
    return ⟨← setValue (← settle state) value option, none⟩
  | some (.inl option), none => do return ⟨← settle state, some option⟩
  | some (.inr switch), none => do return ⟨← setSwitch (← settle state) switch, none⟩
  | some (.inr _), some _ => .error .misused
  | none, _ => .error .misused

/-- An argument with one hyphen: switches, and at the end perhaps an option with its value. -/
def readShort (state : State) : List Char → Reading State
  | [] => .ok state
  | name :: rest =>
    match shortOption? name with
    | none => .error .misused
    | some (.inr switch) => do readShort ⟨← setSwitch (← settle state) switch, none⟩ rest
    | some (.inl option) => do
      let choices ← settle state
      match rest with
      | [] => return ⟨choices, some option⟩
      | '=' :: value => return ⟨← setValue choices value option, none⟩
      | value => return ⟨← setValue choices value option, none⟩

/-- An argument that is no option: the value of the one that waits, or the path. -/
def readPath (choices : Choices) (path : List Char) : Reading Choices := do
  return { choices with path := ← once choices.path (← nonempty path) }

def readPlain (state : State) (text : List Char) : Reading State :=
  match state.pending with
  | some option => do return ⟨← setValue state.choices text option, none⟩
  | none => do return ⟨← readPath state.choices text, none⟩

def readPaths (choices : Choices) : List (List Char) → Reading Choices
  | [] => .ok choices
  | path :: rest => do readPaths (← readPath choices path) rest

def readAll (state : State) : List (List Char) → Reading Choices
  | [] => settle state
  | ['-', '-'] :: rest => do readPaths (← settle state) rest
  | ('-' :: '-' :: text) :: rest => do readAll (← readLong state text) rest
  | ['-'] :: rest => do readAll (← readPlain state ['-']) rest
  | ('-' :: names) :: rest => do readAll (← readShort state names) rest
  | text :: rest => do readAll (← readPlain state text) rest

/-- What the choices ask for. Without a path only the catalogue can be asked for. -/
def request (choices : Choices) : Request :=
  if choices.listRules then .listRules
  else
    match choices.path with
    | some path => .audit path choices
    | none => .misused

def parse (args : List (List Char)) : Request :=
  match readAll ⟨.none, none⟩ args with
  | .ok choices => request choices
  | .error settled => settled

end MarkupAudit.CommandLine
