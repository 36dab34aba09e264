import MarkupAudit.Config.Load
import MarkupAudit.Proofs.AuditedPath
import MarkupAudit.Proofs.Config.Rearrangement
import MarkupAudit.Proofs.Toml.Spelling

/-!
What is loaded from a file of configuration. Of a document only the two keys count, each on its own;
whatever else is said in it, and how it is written, makes no difference (`load_of_rearranged`,
`load_of_alikeDocuments`), and lists of strings that are written as arrays are loaded as these lists
(`load_of_spelled`).
-/

namespace MarkupAudit.Config

open FileSystem (Cause)
open Toml (Entries Statement declared declarations)

section Load

variable {fs : FileSystem} {path text : List Char} {config : Config}

theorem load_of_missing (h : fs.pathExists path = false) :
    (load fs path).map (·.config) = .ok default := by
  rw [load, h]
  rfl

theorem load_of_unreadable {cause : Cause} (hexists : fs.pathExists path = true)
    (h : fs.readText path = .error cause) : load fs path = .error (.unreadable cause) := by
  rw [load, hexists, h]
  rfl

theorem pathExists_of_readText (h : fs.readText path = .ok text) : fs.pathExists path = true := by
  rw [FileSystem.readText] at h
  rw [FileSystem.pathExists]
  cases hentry : fs.entry .follow path with
  | ok entry => rfl
  | error cause =>
    rw [hentry] at h
    cases h

theorem load_of_readText (h : fs.readText path = .ok text) : load fs path =
    match decode text with
    | .error error => .error (.invalid text error)
    | .ok config => .ok ⟨config.normalized, .configLoaded config⟩ := by
  rw [load, pathExists_of_readText h, h]
  rfl

/-- A configuration is loaded if and only if the text describes one. -/
theorem load_eq_ok_iff (h : fs.readText path = .ok text) :
    (load fs path).map (·.config) = .ok config ↔
      ∃ decoded, decode text = .ok decoded ∧ decoded.normalized = config := by
  rw [load_of_readText h]
  cases decode text with
  | error error =>
    constructor
    · intro h
      cases h
    · rintro ⟨decoded, hdecoded, _⟩
      cases hdecoded
  | ok decoded =>
    constructor
    · intro h
      exact ⟨decoded, rfl, Except.ok.inj h⟩
    · rintro ⟨_, hdecoded, rfl⟩
      cases hdecoded
      rfl

end Load

section Document

variable {fs fs' : FileSystem} {path path' text text' : List Char} {entries : Entries}

/-- Both keys are set to arrays of strings, or nothing is loaded. -/
theorem load_of_parse (h : fs.readText path = .ok text) (hparse : Toml.parse text = some entries) :
    match entries.setting "extensions".toList default.extensions,
      entries.setting "exclude".toList default.exclude with
    | some extensions, some exclude =>
      (load fs path).map (·.config) = .ok ⟨extensions.map bareExtension, exclude⟩
    | _, _ => ∃ span got wanted, load fs path = .error (.invalid text (.wrongType span got wanted)) := by
  have hload := load_of_readText h
  have hagrees := agrees_decode hparse
  generalize decode text = decoded at hload hagrees
  split
  · rename_i extensions exclude hextensions hexclude
    rw [hextensions, hexclude] at hagrees
    cases hagrees
    rw [hload]
    rfl
  · rename_i hno
    generalize entries.setting "extensions".toList default.extensions = x,
      entries.setting "exclude".toList default.exclude = y at hagrees hno
    have hnone : (x.bind fun extensions => y.map fun exclude =>
        (⟨extensions, exclude⟩ : Config)) = none := by
      cases x with
      | none => rfl
      | some extensions =>
        cases y with
        | none => rfl
        | some exclude => exact (hno _ _ rfl rfl).elim
    rw [hnone] at hagrees
    cases hagrees
    exact ⟨_, _, _, hload⟩

theorem parse_of_decode {decoded : Config} (h : decode text = .ok decoded) :
    ∃ entries, Toml.parse text = some entries := by
  rw [decode] at h
  cases hparse : Toml.parse text with
  | none =>
    rw [hparse] at h
    cases h
  | some entries => exact ⟨entries, rfl⟩

/-- Two documents that set the keys to the same describe the same, if they describe anything. -/
theorem decode_congr {entries' : Entries} (hparse : Toml.parse text = some entries)
    (hparse' : Toml.parse text' = some entries')
    (h : ∀ key fallback, ¬Toml.IsOther key →
      entries.setting key fallback = entries'.setting key fallback)
    {decoded : Config} (hdecoded : decode text = .ok decoded) : decode text' = .ok decoded := by
  have hagrees := agrees_decode hparse
  rw [h _ _ (fun hother => hother.1 rfl), h _ _ (fun hother => hother.2 rfl), hdecoded] at hagrees
  have hagrees' := agrees_decode hparse'
  generalize (Entries.setting entries' "extensions".toList default.extensions).bind _ = x
    at hagrees hagrees'
  generalize decode text' = result at hagrees'
  cases hagrees
  cases hagrees'
  rfl

theorem load_of_rearranged {ss ss' : List Statement} {config : Config}
    (hss : Toml.statementsOf text = some ss) (hss' : Toml.statementsOf text' = some ss')
    (h : Relation.EqvGen Toml.Rearrangement ss ss') (hvalid : Toml.parse text' ≠ none)
    (hread : fs.readText path = .ok text) (hread' : fs'.readText path' = .ok text')
    (hload : (load fs path).map (·.config) = .ok config) :
    (load fs' path').map (·.config) = .ok config := by
  obtain ⟨decoded, hdecoded, hnormalized⟩ := (load_eq_ok_iff hread).mp hload
  obtain ⟨entries, hparse⟩ := parse_of_decode hdecoded
  obtain ⟨entries', hparse'⟩ := Option.ne_none_iff_exists'.mp hvalid
  refine (load_eq_ok_iff hread').mpr ⟨decoded, ?_, hnormalized⟩
  refine decode_congr hparse hparse' (fun key fallback hkey => ?_) hdecoded
  rw [Toml.setting_of_parse hparse hss, Toml.setting_of_parse hparse' hss',
    Toml.declared_eq_of_rearranged h hkey]

theorem parse_ne_none_of_alike (h : Toml.AlikeDocuments text text')
    (hvalid : Toml.parse text ≠ none) : Toml.parse text' ≠ none := by
  have hparse := congrArg Option.isNone (Toml.parse_unplaced_of_alike h)
  rw [Option.isNone_map, Option.isNone_map] at hparse
  rwa [ne_eq, ← Option.isNone_iff_eq_none, ← hparse, Option.isNone_iff_eq_none]

theorem load_of_alikeDocuments {config : Config} (h : Toml.AlikeDocuments text text')
    (hread : fs.readText path = .ok text) (hread' : fs'.readText path' = .ok text')
    (hload : (load fs path).map (·.config) = .ok config) :
    (load fs' path').map (·.config) = .ok config := by
  obtain ⟨decoded, hdecoded, _⟩ := (load_eq_ok_iff hread).mp hload
  obtain ⟨entries, hparse⟩ := parse_of_decode hdecoded
  have hvalid : Toml.parse text ≠ none := by
    rw [hparse]
    exact Option.some_ne_none entries
  have hstatements := Toml.rel_statementsOf h
  obtain ⟨ss, hss, _⟩ := Toml.exists_statementsOf_of_parse hparse
  rw [hss] at hstatements
  cases hss' : Toml.statementsOf text' with
  | none =>
    rw [hss'] at hstatements
    cases hstatements
  | some ss' =>
    rw [hss', Option.rel_some_some] at hstatements
    exact load_of_rearranged hss hss' (.rel _ _ (.places hstatements))
      (parse_ne_none_of_alike h hvalid) hread hread' hload

end Document

/-! ### Written lists -/

section Spelled

variable {fs : FileSystem} {path : List Char} {extensions exclude : List String}
  {first second : List Char}

theorem mapM_string?_stringNodes (texts : List String) :
    (Toml.stringNodes texts).mapM Toml.Node.string? = some texts := by
  induction texts with
  | nil => rfl
  | cons text texts ih =>
    rw [Toml.stringNodes, List.map_cons, List.mapM_cons]
    rw [Toml.stringNodes] at ih
    rw [ih, Toml.Node.string?, String.ofList_toList]
    rfl

theorem strings?_of_stringNodes {found : List (Option Span × Toml.Node)} {texts : List String}
    (h : found.map (·.2) = Toml.stringNodes texts) :
    (Toml.Node.list found).strings? = some texts := by
  have hmap : (Toml.Node.list found).strings? = (found.map (·.2)).mapM Toml.Node.string? := by
    rw [List.mapM_map]
    rfl
  rw [hmap, h]
  exact mapM_string?_stringNodes texts

theorem isBareKey_extensions : Toml.IsBareKey "extensions".toList := by
  constructor <;> decide

theorem isBareKey_exclude : Toml.IsBareKey "exclude".toList := by
  constructor <;> decide

theorem statementsOf_spelled (hfirst : Toml.SpelledEntry "extensions".toList extensions first)
    (hsecond : Toml.SpelledEntry "exclude".toList exclude second) :
    ∃ place span found place' span' found',
      Toml.statementsOf (first ++ second) =
        some [.entry [] ⟨"extensions".toList, place⟩ span (.list found),
          .entry [] ⟨"exclude".toList, place'⟩ span' (.list found')] ∧
      found.map (·.2) = Toml.stringNodes extensions ∧
      found'.map (·.2) = Toml.stringNodes exclude := by
  have hbeginning : (Toml.beginning (first ++ second)) = ⟨0, first ++ second⟩ := by
    obtain ⟨_⟩ := hfirst
    rfl
  obtain ⟨k, hk⟩ : ∃ k, (first ++ second).length = k + 2 := by
    obtain ⟨_⟩ := hfirst
    exact ⟨_, rfl⟩
  obtain ⟨place, span, found, m, hm, hfound⟩ :=
    Toml.statements_of_spelled isBareKey_extensions hfirst (k + 2) 0 second
  obtain ⟨place', span', found', m', hm', hfound'⟩ :=
    Toml.statements_of_spelled isBareKey_exclude hsecond (k + 1) m []
  rw [List.append_nil] at hm'
  refine ⟨place, span, found, place', span', found', ?_, hfound, hfound'⟩
  rw [Toml.statementsOf, hbeginning, hk, hm, hm', Toml.statements_nil]
  rfl

theorem declarations_pair (place span : Span) (node : Toml.Node) (place' span' : Span)
    (node' : Toml.Node) :
    let ss : List Statement := [.entry [] ⟨"extensions".toList, place⟩ span node,
      .entry [] ⟨"exclude".toList, place'⟩ span' node']
    declarations "extensions".toList ss = [node.strings?] ∧
      declarations "exclude".toList ss = [node'.strings?] := ⟨rfl, rfl⟩

theorem decode_of_spelled (hfirst : Toml.SpelledEntry "extensions".toList extensions first)
    (hsecond : Toml.SpelledEntry "exclude".toList exclude second) :
    decode (first ++ second) = .ok ⟨extensions, exclude⟩ := by
  obtain ⟨place, span, found, place', span', found', hss, hfound, hfound'⟩ :=
    statementsOf_spelled hfirst hsecond
  have hextensions := strings?_of_stringNodes hfound
  have hexclude := strings?_of_stringNodes hfound'
  obtain ⟨entries, hparse⟩ : ∃ entries, Toml.parse (first ++ second) = some entries := by
    rw [Toml.parse_eq_assemble, hss]
    exact ⟨_, rfl⟩
  have hagrees := agrees_decode hparse
  obtain ⟨hfirst, hsecond⟩ := declarations_pair place span (.list found) place' span' (.list found')
  rw [Toml.setting_of_parse hparse hss, Toml.setting_of_parse hparse hss, hfirst, hsecond,
    hextensions, hexclude] at hagrees
  generalize decode (first ++ second) = decoded at hagrees
  cases hagrees
  rfl

theorem load_of_spelled (hfirst : Toml.SpelledEntry "extensions".toList extensions first)
    (hsecond : Toml.SpelledEntry "exclude".toList exclude second)
    (hread : fs.readText path = .ok (first ++ second)) :
    (load fs path).map (·.config) = .ok ⟨extensions.map bareExtension, exclude⟩ :=
  (load_eq_ok_iff hread).mpr ⟨_, decode_of_spelled hfirst hsecond, rfl⟩

end Spelled

/-- What is loaded is the default if the file is missing, and otherwise what the two keys are set to:
strings in their order, or the default of a key that is not there. Where one of them is set to
something else, nothing is loaded. Comments, a byte order mark, other keys and tables and the order
of the entries make no difference, and every two lists can be written so that they are loaded. -/
theorem load_by_keys (fs : FileSystem) (path : List Char) :
    (fs.pathExists path = false → (load fs path).map (·.config) = .ok default) ∧
    (∀ cause, fs.pathExists path = true → fs.readText path = .error cause →
      load fs path = .error (.unreadable cause)) ∧
    (∀ text entries, fs.readText path = .ok text → Toml.parse text = some entries →
      match entries.setting "extensions".toList default.extensions,
        entries.setting "exclude".toList default.exclude with
      | some extensions, some exclude =>
        (load fs path).map (·.config) = .ok ⟨extensions.map bareExtension, exclude⟩
      | _, _ =>
        ∃ span got wanted, load fs path = .error (.invalid text (.wrongType span got wanted))) ∧
    (∀ (fs' : FileSystem) (path' text text' : List Char) (config : Config),
      fs.readText path = .ok text → fs'.readText path' = .ok text' →
      (load fs path).map (·.config) = .ok config →
      (Toml.AlikeDocuments text text' → (load fs' path').map (·.config) = .ok config) ∧
      ∀ ss ss', Toml.statementsOf text = some ss → Toml.statementsOf text' = some ss' →
        Relation.EqvGen Toml.Rearrangement ss ss' → Toml.parse text' ≠ none →
        (load fs' path').map (·.config) = .ok config) ∧
    (∀ extensions exclude first second, Toml.SpelledEntry "extensions".toList extensions first →
      Toml.SpelledEntry "exclude".toList exclude second →
      fs.readText path = .ok (first ++ second) →
      (load fs path).map (·.config) = .ok ⟨extensions.map bareExtension, exclude⟩) ∧
    ∀ texts, Toml.SpelledArray texts (Toml.spellArray texts) := by
  refine ⟨load_of_missing, fun _ => load_of_unreadable, fun _ _ => load_of_parse, ?_, ?_,
    Toml.spelledArray_spellArray⟩
  · intro fs' path' text text' config hread hread' hload
    refine ⟨fun halike => load_of_alikeDocuments halike hread hread' hload, ?_⟩
    intro ss ss' hss hss' hrearranged hvalid
    exact load_of_rearranged hss hss' hrearranged hvalid hread hread' hload
  · intro extensions exclude first second hfirst hsecond hread
    exact load_of_spelled hfirst hsecond hread

section Configured

/-- A directory with one file of configuration. -/
def configured (content : ByteArray) : FileSystem where
  entries := [("c.toml".toList, .file content)]
  home := []
  sound := rfl

theorem readText_configured (text : String) :
    (configured text.toUTF8).readText "c.toml".toList = .ok text.toList := by
  have hfile : (configured text.toUTF8).fileAt? "c.toml".toList = some ["c.toml".toList] := rfl
  rw [FileSystem.readText_of_fileAt? hfile rfl, FileSystem.textOf, FileSystem.decodeText_toUTF8]

/-- A document with one entry. -/
def dotted : String := "extensions = [\"..ts\"]\n"

/-- The same with a byte order mark. -/
def dottedMarked : String := "\uFEFFextensions = [\"..ts\"]\n"

/-- The same with another key before it. -/
def dottedBehind : String := "other = 1\nextensions = [\"..ts\"]\n"

/-- The statement of the first, from where it is written. -/
def dottedStatement (n : Nat) : Statement :=
  .entry [] ⟨"extensions".toList, ⟨n, n + 10⟩⟩ ⟨n + 13, n + 21⟩
    (.list [(some ⟨n + 14, n + 20⟩, .scalar (.string "..ts".toList))])

theorem rearranged_dotted : Relation.EqvGen Toml.Rearrangement [dottedStatement 0]
    [.entry [] ⟨"other".toList, ⟨0, 5⟩⟩ ⟨8, 9⟩ (.scalar (.integer 1)), dottedStatement 10] := by
  have hplaces : Toml.SameStatements [dottedStatement 0] [dottedStatement 10] := by
    simp [Toml.SameStatements, dottedStatement, Statement.unplaced, Toml.Key.unplaced,
      Toml.Node.unplaced_list, Toml.unplacedItem]
  have hother : Toml.IsOther (Toml.leading [] ⟨"other".toList, ⟨0, 5⟩⟩) := by
    constructor <;> decide
  exact .trans _ _ _ (.rel _ _ (.places hplaces)) (.rel _ _ (.entry hother _ _ [] [_]))

/-- The lists with one string, a newline, and with none. -/
def newlineSpelled : List Char :=
  "extensions = ".toList ++ (Toml.spellArray ["\n"] ++ ['\n']) ++
    ("exclude = ".toList ++ (Toml.spellArray [] ++ ['\n']))

theorem load_by_keys_configured :
    (load (configured dotted.toUTF8) "d.toml".toList).map (·.config) = .ok default ∧
    load (configured ⟨#[0xFF]⟩) "c.toml".toList = .error (.unreadable .notText) ∧
    (∀ text ∈ [dotted, dottedMarked, dottedBehind],
      (load (configured text.toUTF8) "c.toml".toList).map (·.config) =
        .ok ⟨["ts"], ["node_modules"]⟩) ∧
    (load (configured (String.ofList newlineSpelled).toUTF8) "c.toml".toList).map (·.config) =
      .ok ⟨["\n"], []⟩ := by
  obtain ⟨hmissing, _⟩ := load_by_keys (configured dotted.toUTF8) "d.toml".toList
  obtain ⟨_, hunreadable, _⟩ := load_by_keys (configured ⟨#[0xFF]⟩) "c.toml".toList
  obtain ⟨_, _, hvalid, hsame, _⟩ := load_by_keys (configured dotted.toUTF8) "c.toml".toList
  obtain ⟨_, _, _, _, hspelled, hspell⟩ :=
    load_by_keys (configured (String.ofList newlineSpelled).toUTF8) "c.toml".toList
  have hdotted := readText_configured dotted
  obtain ⟨entries, hparse⟩ : ∃ entries, Toml.parse dotted.toList = some entries :=
    Option.isSome_iff_exists.mp (by decide +kernel)
  have hset : (Toml.parse dotted.toList).map (fun entries =>
      (entries.setting "extensions".toList default.extensions,
        entries.setting "exclude".toList default.exclude)) =
      some (some ["..ts"], some ["node_modules"]) := by decide +kernel
  rw [hparse, Option.map_some, Option.some.injEq, Prod.mk.injEq] at hset
  have hload := hvalid dotted.toList entries hdotted hparse
  rw [hset.1, hset.2] at hload
  have hbare : ["..ts"].map bareExtension = ["ts"] := by decide +kernel
  dsimp only at hload
  rw [hbare] at hload
  refine ⟨hmissing (by decide +kernel), hunreadable _ (by decide +kernel) (by decide +kernel), ?_, ?_⟩
  · have hafter (text : String) := hsame (configured text.toUTF8) "c.toml".toList dotted.toList
      text.toList _ hdotted (readText_configured text) hload
    intro text htext
    simp only [List.mem_cons, List.not_mem_nil, or_false] at htext
    rcases htext with rfl | rfl | rfl
    · exact hload
    · exact (hafter dottedMarked).1 (Toml.alikeDocuments_mark (by decide +kernel))
    · exact (hafter dottedBehind).2 _ _ rfl rfl rearranged_dotted
        (Option.isSome_iff_ne_none.mp (by decide +kernel))
  · have hread := readText_configured (String.ofList newlineSpelled)
    rw [String.toList_ofList] at hread
    have hbare : ["\n"].map bareExtension = ["\n"] := by decide +kernel
    rw [← hbare]
    exact hspelled ["\n"] [] _ _ (.intro (hspell _)) (.intro (hspell _)) hread

end Configured

end MarkupAudit.Config
