import MarkupAudit.Config.Decode
import MarkupAudit.Proofs.Toml.Unplaced

/-!
What a document sets. A key of the document itself is set to the strings of its array, and a key that
is not there to its default; the two keys of the configuration are looked up on their own, and the
configuration is made of both or of none (`agrees_decode`).
-/

namespace MarkupAudit

namespace Toml

def Node.string? : Node → Option String
  | .scalar (.string text) => some (String.ofList text)
  | _ => none

/-- The strings of an array that holds nothing else. -/
def Node.strings? : Node → Option (List String)
  | .list items => items.mapM fun item => item.2.string?
  | _ => none

namespace Entries

/-- What a key is set to, if that is an array of strings. -/
def setting (entries : Entries) (key : List Char) (fallback : List String) :
    Option (List String) :=
  match entries.get? key with
  | none => some fallback
  | some found => found.2.strings?

theorem setting_cons (first : Key) (span : Option Span) (node : Node) (entries : Entries)
    (key : List Char) (fallback : List String) :
    setting ((first, span, node) :: entries) key fallback =
      if first.text = key then node.strings? else setting entries key fallback := by
  by_cases h : first.text = key
  · rw [setting, get?_cons, if_pos h, if_pos h]
  · rw [setting, get?_cons, if_neg h, if_neg h, setting]

end Entries

end Toml

namespace Config

open Toml (Node Entries)
open Toml.Entries (Distinct keys setting setting_cons get?_cons get?_eq_none_iff)

/-- A result that is there is passed on, and one that is missing is an error about a type. -/
inductive Agrees {α : Type} : Option α → Except DecodeError α → Prop where
  | value (a : α) : Agrees (some a) (.ok a)
  | wrongType (span : Span) (got : String) (wanted : Wanted) :
      Agrees none (.error (.wrongType span got wanted))

section Agrees

variable {α β γ : Type}

theorem Agrees.bind {x : Option α} {y : Except DecodeError α} {f : α → Option β}
    {g : α → Except DecodeError β} (h : Agrees x y) (hfg : ∀ a, Agrees (f a) (g a)) :
    Agrees (x.bind f) (y.bind g) := by
  cases h with
  | value a => exact hfg a
  | wrongType span got wanted => exact .wrongType span got wanted

theorem agrees_mapM {f : γ → Option α} {g : γ → Except DecodeError α} {l : List γ}
    (h : ∀ x ∈ l, Agrees (f x) (g x)) : Agrees (l.mapM f) (l.mapM g) := by
  induction l with
  | nil => exact .value []
  | cons x l ih =>
    rw [List.forall_mem_cons] at h
    rw [List.mapM_cons, List.mapM_cons]
    exact h.1.bind fun a => (ih h.2).bind fun as => .value (a :: as)

theorem mapM_eq_none_of_mem {f : γ → Option α} {x : γ} {l : List γ} (hx : x ∈ l)
    (h : f x = none) : l.mapM f = none := by
  induction l with
  | nil => cases hx
  | cons y l ih =>
    rw [List.mapM_cons]
    cases hx with
    | head => rw [h]; rfl
    | tail _ hx =>
      rw [ih hx]
      cases f y <;> rfl

theorem agrees_foldlM {f : β → γ → Option β} {g : β → γ → Except DecodeError β} {l : List γ}
    (h : ∀ x ∈ l, ∀ b, Agrees (f b x) (g b x)) (b : β) : Agrees (l.foldlM f b) (l.foldlM g b) := by
  induction l generalizing b with
  | nil => exact .value b
  | cons x l ih =>
    rw [List.forall_mem_cons] at h
    exact (h.1 b).bind fun next => ih h.2 next

end Agrees

section Decode

variable {entries : Entries} {key : Toml.Key} {span : Option Span} {node : Node} {text : List Char}

theorem agrees_decodeString (outer : Span) (item : Option Span × Node) :
    Agrees item.2.string? (decodeString outer item) := by
  obtain ⟨place, node⟩ := item
  rw [decodeString]
  dsimp only
  split
  · exact .value _
  · rename_i hno
    have hnone : node.string? = none := by
      rw [Node.string?]
      exact hno
    rw [hnone]
    exact .wrongType _ _ _

theorem agrees_decodeStrings (h : node.IsValue ∨ node.IsTabular) (key : Span)
    (span : Option Span) : Agrees node.strings? (decodeStrings key span node) := by
  rcases h with h | h
  · cases h with
    | scalar s => exact .wrongType _ _ _
    | list items => exact agrees_mapM fun item _ => agrees_decodeString (span.getD key) item
    | inline entries => exact .wrongType _ _ _
  · cases h with
    | table _ entries => exact .wrongType _ _ _
    | @tables items place origin entries hmem =>
      -- Of the items one is a table, so they are not all strings.
      have hagrees := agrees_mapM (l := items) fun item _ =>
        agrees_decodeString (span.getD key) item
      have hnone : (items.mapM fun item => item.2.string?) = none := mapM_eq_none_of_mem hmem rfl
      rw [hnone] at hagrees
      exact hagrees

/-- One entry of a document. -/
def setEntry (config : Config) (entry : Toml.Key × Option Span × Node) : Option Config :=
  if entry.1.text = "extensions".toList then
    entry.2.2.strings?.map fun extensions => { config with extensions }
  else if entry.1.text = "exclude".toList then
    entry.2.2.strings?.map fun exclude => { config with exclude }
  else some config

theorem agrees_decodeEntry (entry : Toml.Key × Option Span × Node)
    (h : entry.2.2.IsValue ∨ entry.2.2.IsTabular) (config : Config) :
    Agrees (setEntry config entry) (decodeEntry config entry) := by
  obtain ⟨key, span, node⟩ := entry
  have hstrings := agrees_decodeStrings h key.span span
  rw [setEntry, decodeEntry]
  dsimp only at hstrings ⊢
  split
  · rw [Option.map_eq_bind]
    exact hstrings.bind fun extensions => .value _
  split
  · rw [Option.map_eq_bind]
    exact hstrings.bind fun exclude => .value _
  · exact .value config

/-- The keys of a document are distinct, so each of the two is set at most once. -/
theorem foldlM_setEntry (h : entries.Distinct) (config : Config) :
    entries.foldlM setEntry config =
      (entries.setting "extensions".toList config.extensions).bind fun extensions =>
        (entries.setting "exclude".toList config.exclude).map fun exclude =>
          ⟨extensions, exclude⟩ := by
  induction entries generalizing config with
  | nil => rfl
  | cons entry entries ih =>
    obtain ⟨key, span, node⟩ := entry
    rw [Distinct, keys, List.map_cons, List.nodup_cons] at h
    obtain ⟨hkey, h⟩ := h
    have habsent (fallback : List String) : setting entries key.text fallback = some fallback := by
      rw [setting, get?_eq_none_iff.mpr hkey]
    have hne : "extensions".toList ≠ "exclude".toList := by decide
    rw [List.foldlM_cons, setEntry, setting_cons, setting_cons]
    dsimp only
    by_cases hextensions : key.text = "extensions".toList
    · have hexclude : key.text ≠ "exclude".toList := fun h => hne (hextensions.symm.trans h)
      rw [if_pos hextensions, if_pos hextensions, if_neg hexclude]
      rw [hextensions] at habsent
      cases node.strings? with
      | none => rfl
      | some extensions =>
        refine (ih h _).trans ?_
        rw [habsent]
    rw [if_neg hextensions, if_neg hextensions]
    by_cases hexclude : key.text = "exclude".toList
    · rw [if_pos hexclude, if_pos hexclude]
      rw [hexclude] at habsent
      cases node.strings? with
      | none => cases setting entries "extensions".toList config.extensions <;> rfl
      | some exclude =>
        refine (ih h _).trans ?_
        rw [habsent]
    · rw [if_neg hexclude, if_neg hexclude]
      exact ih h config

theorem isValue_or_isTabular_of_parse (h : Toml.parse text = some entries) :
    ∀ entry ∈ entries, entry.2.2.IsValue ∨ entry.2.2.IsTabular := by
  obtain ⟨ss, hss, _⟩ := Toml.exists_statementsOf_of_parse h
  rintro ⟨key, span, node⟩ hmem
  have hget : Entries.get? entries key.text = some (span, node) :=
    (Toml.distinct_of_parse h).get?_of_mem hmem
  have hsettled := Toml.settled_of_parse h hss key.text
  rw [hget] at hsettled
  exact hsettled.isValue_or_isTabular

/-- The configuration of a document is made of what its two keys are set to. -/
theorem agrees_decode (h : Toml.parse text = some entries) :
    Agrees ((setting entries "extensions".toList default.extensions).bind fun extensions =>
        (setting entries "exclude".toList default.exclude).map fun exclude =>
          ⟨extensions, exclude⟩)
      (decode text) := by
  rw [← foldlM_setEntry (Toml.distinct_of_parse h), decode, h]
  exact agrees_foldlM (fun entry hentry =>
    agrees_decodeEntry entry (isValue_or_isTabular_of_parse h entry hentry)) default

end Decode

end Config

end MarkupAudit
