import MarkupAudit.Proofs.Toml.Statement

/-!
What is left of a document when the places of its parts are forgotten. Making tables of statements
does not look at places, so statements that differ in their places only make tables that differ in
their places only (`assemble_unplaced`).
-/

namespace MarkupAudit.Toml

theorem sizeOf_snd_lt {α β : Type} [SizeOf α] [SizeOf β] {parts : List (α × β)} {part : α × β}
    (h : part ∈ parts) : sizeOf part.2 < sizeOf parts := by
  have hsize := List.sizeOf_lt_of_mem h
  obtain ⟨first, second⟩ := part
  rw [Prod.mk.sizeOf_spec] at hsize
  dsimp only
  omega

def nowhere : Span := ⟨0, 0⟩

def Key.unplaced (key : Key) : Key := ⟨key.text, nowhere⟩

@[simp] theorem Key.text_unplaced (key : Key) : key.unplaced.text = key.text := rfl

def Node.unplaced : Node → Node
  | .scalar s => .scalar s
  | .list items => .list (items.map fun item => (item.1.map fun _ => nowhere, item.2.unplaced))
  | .tables items => .tables (items.map fun item => (item.1.map fun _ => nowhere, item.2.unplaced))
  | .table origin entries => .table origin (entries.map fun entry =>
      (entry.1.unplaced, entry.2.1.map fun _ => nowhere, entry.2.2.unplaced))
decreasing_by
  · have hlt := sizeOf_snd_lt ‹item ∈ items›
    rw [Node.list.sizeOf_spec]
    omega
  · have hlt := sizeOf_snd_lt ‹item ∈ items›
    rw [Node.tables.sizeOf_spec]
    omega
  · have hlt := sizeOf_snd_lt ‹entry ∈ entries›
    have hnode : sizeOf entry.2.2 < 1 + sizeOf entry.2 := by
      obtain ⟨key, span, node⟩ := entry
      simp only [Prod.mk.sizeOf_spec]
      omega
    rw [Node.table.sizeOf_spec]
    omega

def unplacedItem (item : Option Span × Node) : Option Span × Node :=
  (item.1.map fun _ => nowhere, item.2.unplaced)

namespace Entries

def unplaced (entries : Entries) : Entries :=
  entries.map fun entry => (entry.1.unplaced, unplacedItem entry.2)

theorem unplaced_nil : unplaced [] = [] := rfl

variable {entries : Entries} {key : List Char}

theorem get?_unplaced (entries : Entries) (key : List Char) :
    entries.unplaced.get? key = (entries.get? key).map unplacedItem := by
  induction entries with
  | nil => rfl
  | cons entry entries ih =>
    obtain ⟨first, span, node⟩ := entry
    rw [get?_cons, unplaced, List.map_cons]
    change get? ((first.unplaced, unplacedItem (span, node)) :: unplaced entries) key = _
    rw [unplacedItem, get?_cons, ih, apply_ite (Option.map unplacedItem)]
    rfl

theorem unplaced_add (entries : Entries) (key : Key) (span : Option Span) (node : Node) :
    (entries.add key span node).unplaced =
      entries.unplaced.add key.unplaced (span.map fun _ => nowhere) node.unplaced :=
  List.map_append

theorem unplaced_replace (entries : Entries) (key : List Char) (node : Node) :
    (entries.replace key node).unplaced = entries.unplaced.replace key node.unplaced := by
  rw [unplaced, replace, List.map_map, unplaced, replace, List.map_map]
  apply List.map_congr_left
  intro entry _
  dsimp only [Function.comp_apply, Key.unplaced]
  split <;> rfl

theorem unplaced_remove (entries : Entries) (key : List Char) :
    (entries.remove key).unplaced = entries.unplaced.remove key := by
  rw [unplaced, remove, unplaced, remove, List.filter_map]
  rfl

end Entries

open Entries

namespace Node

theorem unplaced_scalar (s : Scalar) : (scalar s).unplaced = scalar s := by rw [unplaced]

theorem unplaced_list (items : List (Option Span × Node)) :
    (list items).unplaced = list (items.map unplacedItem) := by rw [unplaced]; rfl

theorem unplaced_tables (items : List (Option Span × Node)) :
    (tables items).unplaced = tables (items.map unplacedItem) := by rw [unplaced]; rfl

theorem unplaced_table (origin : Origin) (entries : Entries) :
    (table origin entries).unplaced = table origin entries.unplaced := by rw [unplaced]; rfl

end Node

/-! ### Changes do not look at places -/

section Change

variable {α : Type} {f : α → α}

/-- What a change gives, without places. -/
def unplacedResult (f : α → α) (result : α × Entries) : α × Entries := (f result.1, result.2.unplaced)

/-- The second change does without places what the first does. -/
def Commutes (f : α → α) (change bare : Change α) : Prop :=
  ∀ origin entries,
    bare origin entries.unplaced = (change origin entries).map (unplacedResult f)

theorem follow_unplaced {change bare : Change α} (h : Commutes f change bare) (dotted : Bool)
    (path : List Key) :
    Commutes f (follow dotted change path) (follow dotted bare (path.map Key.unplaced)) := by
  induction path with
  | nil => exact h
  | cons key path ih =>
    intro origin entries
    rw [List.map_cons, follow, follow, Key.text_unplaced, get?_unplaced]
    cases entries.get? key.text with
    | none =>
      dsimp only [Option.map_none]
      have hinner := ih (if dotted then Origin.dotted else Origin.implied) []
      rw [unplaced_nil] at hinner
      rw [hinner]
      cases follow dotted change path (if dotted then Origin.dotted else Origin.implied) [] with
      | none => rfl
      | some result => simp [unplacedResult, unplaced_add, Node.unplaced_table]
    | some found =>
      obtain ⟨span, node⟩ := found
      cases node with
      | scalar s => simp [unplacedItem, Node.unplaced_scalar]
      | list items => simp [unplacedItem, Node.unplaced_list]
      | tables items =>
        simp only [Option.map_some, unplacedItem, Node.unplaced_tables, List.getLast?_map]
        cases items.getLast? with
        | none => rfl
        | some last =>
          obtain ⟨place, node⟩ := last
          cases node with
          | scalar s => simp [unplacedItem, Node.unplaced_scalar]
          | list items => simp [unplacedItem, Node.unplaced_list]
          | tables items => simp [unplacedItem, Node.unplaced_tables]
          | table origin inner =>
            simp only [Option.map_some, unplacedItem, Node.unplaced_table, ih origin inner]
            cases follow dotted change path origin inner with
            | none => rfl
            | some result =>
              simp [unplacedResult, unplaced_replace, Node.unplaced_tables, Node.unplaced_table, unplacedItem]
      | table origin inner =>
        simp only [Option.map_some, unplacedItem, Node.unplaced_table, ih origin inner]
        split
        · rfl
        cases follow dotted change path origin inner with
        | none => rfl
        | some result => simp [unplacedResult, unplaced_replace, Node.unplaced_table]

variable (path : List Key) (key : Key) (span : Span) (inner : Entries)

theorem addEntry_unplaced (node : Node) :
    Commutes id (addEntry path key span node)
      (addEntry (path.map Key.unplaced) key.unplaced nowhere node.unplaced) := by
  apply follow_unplaced
  intro origin entries
  simp only [List.map_eq_nil_iff, Key.text_unplaced, get?_unplaced, Option.isSome_map]
  split
  · rfl
  split
  · rfl
  · simp [unplacedResult, unplaced_add]

theorem openTable_unplaced :
    Commutes Entries.unplaced (openTable path key)
      (openTable (path.map Key.unplaced) key.unplaced) := by
  apply follow_unplaced
  intro origin entries
  beta_reduce
  rw [Key.text_unplaced, get?_unplaced]
  cases entries.get? key.text with
  | none => rfl
  | some found =>
    obtain ⟨place, node⟩ := found
    cases node with
    | scalar s => simp [unplacedItem, Node.unplaced_scalar]
    | list items => simp [unplacedItem, Node.unplaced_list]
    | tables items => simp [unplacedItem, Node.unplaced_tables]
    | table origin inner =>
      cases origin <;>
        simp [unplacedItem, unplacedResult, Node.unplaced_table, unplaced_remove]

theorem closeTable_unplaced :
    Commutes id (closeTable path key span inner)
      (closeTable (path.map Key.unplaced) key.unplaced nowhere inner.unplaced) := by
  apply follow_unplaced
  intro origin entries
  beta_reduce
  rw [Key.text_unplaced, get?_unplaced, Option.isSome_map]
  split
  · rfl
  · simp [unplacedResult, unplaced_add, Node.unplaced_table]

theorem openTables_unplaced :
    Commutes Entries.unplaced (openTables path key)
      (openTables (path.map Key.unplaced) key.unplaced) := by
  apply follow_unplaced
  intro origin entries
  beta_reduce
  rw [Key.text_unplaced, get?_unplaced]
  cases entries.get? key.text with
  | none => simp [unplacedResult, unplaced_add, unplaced_nil, Node.unplaced_tables]
  | some found =>
    obtain ⟨place, node⟩ := found
    cases node with
    | scalar s => simp [unplacedItem, Node.unplaced_scalar]
    | list items => simp [unplacedItem, Node.unplaced_list]
    | tables items => simp [unplacedItem, unplacedResult, unplaced_nil, Node.unplaced_tables]
    | table origin inner => simp [unplacedItem, Node.unplaced_table]

theorem closeTables_unplaced :
    Commutes id (closeTables path key span inner)
      (closeTables (path.map Key.unplaced) key.unplaced nowhere inner.unplaced) := by
  apply follow_unplaced
  intro origin entries
  beta_reduce
  rw [Key.text_unplaced, get?_unplaced]
  cases entries.get? key.text with
  | none => rfl
  | some found =>
    obtain ⟨place, node⟩ := found
    cases node with
    | scalar s => simp [unplacedItem, Node.unplaced_scalar]
    | list items => simp [unplacedItem, Node.unplaced_list]
    | tables items =>
      simp [unplacedItem, unplacedResult, unplaced_replace, Node.unplaced_tables,
        Node.unplaced_table]
    | table origin inner => simp [unplacedItem, Node.unplaced_table]

end Change

/-! ### Drafts -/

def Header.unplaced (h : Header) : Header :=
  ⟨h.double, h.path.map Key.unplaced, h.key.unplaced, nowhere⟩

def Statement.unplaced : Statement → Statement
  | .entry path key _ node => .entry (path.map Key.unplaced) key.unplaced nowhere node.unplaced
  | .header h => .header h.unplaced

namespace Draft

def unplaced (draft : Draft) : Draft :=
  ⟨draft.root.unplaced, draft.current.map Header.unplaced, draft.entries.unplaced⟩

theorem close_unplaced (draft : Draft) :
    draft.unplaced.close = draft.close.map Entries.unplaced := by
  cases hcurrent : draft.current with
  | none => simp [close, unplaced, hcurrent]
  | some h =>
    have hchange : (if h.unplaced.double then closeTables else closeTable) h.unplaced.path
        h.unplaced.key h.unplaced.span draft.entries.unplaced .header draft.root.unplaced =
        ((if h.double then closeTables else closeTable) h.path h.key h.span draft.entries .header
          draft.root).map (unplacedResult id) := by
      obtain ⟨double, path, key, span⟩ := h
      cases double
      · exact closeTable_unplaced path key span draft.entries .header draft.root
      · exact closeTables_unplaced path key span draft.entries .header draft.root
    simp only [close, unplaced, hcurrent, Option.map_some]
    rw [hchange]
    cases (if h.double then closeTables else closeTable) h.path h.key h.span draft.entries .header
      draft.root <;> rfl

theorem start_unplaced (draft : Draft) (h : Header) :
    draft.unplaced.start h.unplaced = (draft.start h).map unplaced := by
  rw [start, close_unplaced, start]
  cases draft.close with
  | none => rfl
  | some root =>
    have hchange : (if h.unplaced.double then openTables else openTable) h.unplaced.path
        h.unplaced.key .header root.unplaced =
        ((if h.double then openTables else openTable) h.path h.key .header root).map
          (unplacedResult Entries.unplaced) := by
      obtain ⟨double, path, key, span⟩ := h
      cases double
      · exact openTable_unplaced path key .header root
      · exact openTables_unplaced path key .header root
    simp only [Option.map_some, Option.bind_eq_bind, Option.bind_some]
    rw [hchange]
    cases (if h.double then openTables else openTable) h.path h.key .header root <;> rfl

theorem add_unplaced (draft : Draft) (path : List Key) (key : Key) (span : Span) (node : Node) :
    draft.unplaced.add (path.map Key.unplaced) key.unplaced nowhere node.unplaced =
      (draft.add path key span node).map unplaced := by
  have hchange := addEntry_unplaced path key span node .header draft.entries
  rw [add, add]
  simp only [unplaced, hchange]
  cases addEntry path key span node .header draft.entries with
  | none => rfl
  | some result =>
    obtain ⟨_, entries⟩ := result
    cases hcurrent : draft.current <;> rfl

theorem apply_unplaced (draft : Draft) (first : Statement) :
    draft.unplaced.apply first.unplaced = (draft.apply first).map unplaced := by
  cases first with
  | entry path key span node => exact add_unplaced draft path key span node
  | header h => exact start_unplaced draft h

theorem run_unplaced (draft : Draft) (ss : List Statement) :
    (ss.map Statement.unplaced).foldlM Draft.apply draft.unplaced =
      (ss.foldlM Draft.apply draft).map unplaced := by
  induction ss generalizing draft with
  | nil => rfl
  | cons first more ih =>
    rw [List.map_cons, List.foldlM_cons, List.foldlM_cons, apply_unplaced]
    cases draft.apply first with
    | none => rfl
    | some next => exact ih next

end Draft

theorem assemble_unplaced (ss : List Statement) :
    assemble (ss.map Statement.unplaced) = (assemble ss).map Entries.unplaced := by
  have hrun := Draft.run_unplaced .empty ss
  rw [assemble, assemble]
  change (List.foldlM Draft.apply Draft.empty.unplaced _).bind _ = _
  rw [hrun]
  cases ss.foldlM Draft.apply .empty with
  | none => rfl
  | some draft => exact draft.close_unplaced

/-- Documents whose statements differ in their places only are made of the same tables. -/
theorem parse_unplaced_congr {text text' : List Char}
    (h : (statementsOf text).map (·.map Statement.unplaced) =
      (statementsOf text').map (·.map Statement.unplaced)) :
    (parse text).map Entries.unplaced = (parse text').map Entries.unplaced := by
  have hparse (text : List Char) : (parse text).map Entries.unplaced =
      ((statementsOf text).map (·.map Statement.unplaced)).bind assemble := by
    rw [parse_eq_assemble]
    cases statementsOf text with
    | none => rfl
    | some ss => exact (assemble_unplaced ss).symm
  rw [hparse, hparse, h]

end MarkupAudit.Toml
