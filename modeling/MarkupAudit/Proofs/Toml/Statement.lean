import MarkupAudit.Proofs.Toml.Table
import MarkupAudit.Toml.Document

/-!
A TOML document as the list of its statements: headers, and entries with their values. Reading it and
making tables of it are two steps (`parse_eq_assemble`). What there is under a key of the document
follows from those statements alone that are about this key (`settled_of_assemble`).
-/

namespace MarkupAudit.Toml

inductive Statement where
  | entry (path : List Key) (key : Key) (span : Span) (node : Node)
  | header (h : Header)

def statement (cur : Cursor) : Option (Statement × Cursor) :=
  match cur.expect '[' with
  | some _ => (header cur).map fun (h, next) => (.header h, next)
  | none => (entry (value depthLimit) cur).map fun (path, key, span, node, next) =>
      (.entry path key span node, next)

/-- The statements of a document from a place at the beginning of a line. -/
def statements : Nat → Cursor → Option (List Statement)
  | 0, _ => none
  | fuel + 1, cur =>
    let cur := skipBlanks cur
    match cur.uncons with
    | none => some []
    | some (c, _) =>
      if c = '#' ∨ c = '\n' ∨ c = '\r' then (trailing cur).bind (statements fuel)
      else do
        let (first, next) ← statement cur
        let more ← statements fuel (← trailing next)
        some (first :: more)

/-- The place where the first line of a document begins. -/
def beginning (text : List Char) : Cursor :=
  ((Cursor.ofText text).expect '\uFEFF').getD (Cursor.ofText text)

def statementsOf (text : List Char) : Option (List Statement) :=
  statements (text.length + 1) (beginning text)

namespace Draft

def apply (draft : Draft) : Statement → Option Draft
  | .entry path key span node => draft.add path key span node
  | .header h => draft.start h

end Draft

def assemble (statements : List Statement) : Option Entries :=
  (statements.foldlM Draft.apply .empty).bind Draft.close

theorem statement_of_bracket {n : Nat} {rest : List Char} :
    statement ⟨n, '[' :: rest⟩ = (header ⟨n, '[' :: rest⟩).map fun (h, next) => (.header h, next) :=
  rfl

theorem statement_of_ne {n : Nat} {c : Char} {rest : List Char} (h : c ≠ '[') :
    statement ⟨n, c :: rest⟩ = (entry (value depthLimit) ⟨n, c :: rest⟩).map
      fun (path, key, span, node, next) => (.entry path key span node, next) := by
  have hnone : (⟨n, c :: rest⟩ : Cursor).expect '[' = none := if_neg h
  rw [statement, hnone]

/-- Whether a statement is applied at once or after all of the document is read is the same. -/
theorem bind_apply_comm (draft : Draft) (first : Statement) (more : Option (List Statement)) :
    ((draft.apply first).bind fun next => more.bind fun ss => ss.foldlM Draft.apply next) =
      (more.bind fun ss => some (first :: ss)).bind fun ss => ss.foldlM Draft.apply draft := by
  cases more with
  | none => cases draft.apply first <;> rfl
  | some ss => rfl

theorem lines_eq_statements (fuel : Nat) (draft : Draft) (cur : Cursor) :
    lines fuel draft cur = (statements fuel cur).bind fun ss => ss.foldlM Draft.apply draft := by
  induction fuel generalizing draft cur with
  | zero => rfl
  | succ fuel ih =>
    rw [lines, statements]
    dsimp only
    obtain ⟨n, rest⟩ := skipBlanks cur
    cases rest with
    | nil => rfl
    | cons c rest =>
      dsimp only [Cursor.uncons]
      split
      · cases trailing ⟨n, c :: rest⟩ with
        | none => rfl
        | some next => exact ih draft next
      split
      · rename_i hc
        rw [hc, statement_of_bracket]
        cases header ⟨n, '[' :: rest⟩ with
        | none => rfl
        | some found =>
          obtain ⟨h, next⟩ := found
          cases htrailing : trailing next with
          | none => simp [htrailing]
          | some next =>
            have hcomm := bind_apply_comm draft (.header h) (statements fuel next)
            simpa [htrailing, ih, Draft.apply] using hcomm
      · rename_i hc
        rw [statement_of_ne hc]
        cases entry (value depthLimit) ⟨n, c :: rest⟩ with
        | none => rfl
        | some found =>
          obtain ⟨path, key, span, node, next⟩ := found
          cases htrailing : trailing next with
          | none => simp [htrailing]
          | some next =>
            have hcomm := bind_apply_comm draft (.entry path key span node) (statements fuel next)
            simpa [htrailing, ih, Draft.apply] using hcomm

theorem parse_eq_assemble (text : List Char) :
    parse text = (statementsOf text).bind assemble := by
  have hlines := lines_eq_statements (text.length + 1) .empty (beginning text)
  rw [beginning] at hlines
  rw [parse, hlines, statementsOf, beginning]
  cases statements (text.length + 1) (((Cursor.ofText text).expect '\uFEFF').getD
    (Cursor.ofText text)) <;> rfl

/-! ### What is stated about a key -/

namespace Statement

/-- What a statement gives a key of the document itself, if it is about this key: the value of an
entry that has the key as its whole name, or no value where it makes a table of the key. An entry
that does not stand at the top of the document belongs to the table of a header. -/
def about? (key : List Char) (top : Bool) : Statement → Option (Option Node)
  | .entry path last _ node =>
    if top ∧ leading path last = key then some (if path = [] then some node else none) else none
  | .header h => if leading h.path h.key = key then some none else none

def isEntry : Statement → Bool
  | .entry _ _ _ _ => true
  | .header _ => false

/-- The value of an entry is complete. -/
def Proper : Statement → Prop
  | .entry _ _ _ node => node.IsValue
  | .header _ => True

end Statement

/-- What the statements of a document give a key, one after the other; `top` tells whether no header
stands before them. -/
def bearing (key : List Char) : Bool → List Statement → List (Option Node)
  | _, [] => []
  | top, first :: more =>
    (first.about? key top).toList ++ bearing key (top && first.isEntry) more

/-- What there is under a key to which statements give this. -/
inductive Settled : List (Option Node) → Option (Option Span × Node) → Prop where
  | absent : Settled [] none
  | value {node : Node} (span : Option Span) (h : node.IsValue) :
      Settled [some node] (some (span, node))
  | tables {given : List (Option Node)} {node : Node} (span : Option Span) (hne : given ≠ [])
      (hgiven : ∀ x ∈ given, x = none) (h : node.IsTabular) : Settled given (some (span, node))

section Settled

variable {given : List (Option Node)} {before after : Entries} {key : List Char}

theorem Settled.eq_none {found : Option (Option Span × Node)} (h : Settled given found)
    (hopen : ∀ x, found = some x → ¬x.2.IsValue) : ∀ x ∈ given, x = none := by
  cases h with
  | absent => simp
  | value span h => exact absurd h (hopen _ rfl)
  | tables span hne hgiven h => exact hgiven

theorem Settled.eq_nil (h : Settled given none) : given = [] := by
  cases h
  rfl

theorem Settled.isValue_or_isTabular {found : Option Span × Node} (h : Settled given (some found)) :
    found.2.IsValue ∨ found.2.IsTabular := by
  cases h with
  | value span h => exact Or.inl h
  | tables span hne hgiven h => exact Or.inr h

theorem Settled.of_touches (h : Settled given (before.get? key)) {touched : List Char}
    (htouches : before.Touches touched after) (hne : touched ≠ key) :
    Settled given (after.get? key) := by
  rwa [htouches.others key hne]

theorem settled_concat_of_holdsTables (h : ∀ x ∈ given, x = none)
    (htables : after.HoldsTables key) : Settled (given ++ [none]) (after.get? key) := by
  obtain ⟨⟨span, node⟩, hfound, hnode⟩ := htables
  rw [hfound]
  refine .tables span (List.concat_ne_nil none given) ?_ hnode
  intro x hx
  rcases List.mem_append.mp hx with hx | hx
  · exact h x hx
  · exact List.mem_singleton.mp hx

end Settled

/-! ### Making tables of the statements -/

namespace Draft

variable {draft next : Draft} {closed : Entries} {h : Header} {path : List Key} {key : Key}
  {span : Span} {node : Node} {name : List Char} {given : List (Option Node)}

def atTop (draft : Draft) : Bool := draft.current.isNone

/-- The entries of the document itself, as far as they are in their places. -/
def outer (draft : Draft) : Entries := if draft.atTop then draft.entries else draft.root

theorem close_of_current_eq_none (h : draft.current = none) : draft.close = some draft.outer := by
  simp [close, outer, atTop, h]

theorem close_of_current_eq_some (hcurrent : draft.current = some h)
    (hclose : draft.close = some closed) :
    draft.outer.Touches (leading h.path h.key) closed ∧
      closed.HoldsTables (leading h.path h.key) := by
  have houter : draft.outer = draft.root := by simp [outer, atTop, hcurrent]
  rw [close, hcurrent] at hclose
  obtain ⟨⟨_, after⟩, hchange, heq⟩ := Option.bind_eq_some_iff.mp hclose
  cases heq
  rw [houter]
  split at hchange
  · exact closeTables_eq_some hchange
  · exact closeTable_eq_some hchange

theorem start_eq_some (hstart : draft.start h = some next) :
    ∃ closed, draft.close = some closed ∧ closed.Touches (leading h.path h.key) next.outer ∧
      next.current = some h := by
  obtain ⟨closed, hclose, hopen⟩ := Option.bind_eq_some_iff.mp hstart
  obtain ⟨⟨inner, after⟩, hchange, heq⟩ := Option.bind_eq_some_iff.mp hopen
  cases heq
  refine ⟨closed, hclose, ?_, rfl⟩
  split at hchange
  · exact touches_of_openTables hchange
  · exact touches_of_openTable hchange

theorem add_of_current_eq_none (hcurrent : draft.current = none)
    (hadd : draft.add path key span node = some next) :
    next.current = none ∧ addEntry path key span node .header draft.outer = some ((), next.outer) := by
  obtain ⟨⟨_, after⟩, hchange, heq⟩ := Option.bind_eq_some_iff.mp hadd
  cases heq
  simpa [outer, atTop, hcurrent] using hchange

theorem add_of_current_eq_some (hcurrent : draft.current = some h)
    (hadd : draft.add path key span node = some next) :
    next.outer = draft.outer ∧
      next.current = some { h with span := ⟨h.span.start, span.stop⟩ } := by
  obtain ⟨⟨_, after⟩, hchange, heq⟩ := Option.bind_eq_some_iff.mp hadd
  cases heq
  simp [outer, atTop, hcurrent]

/-- What is under a key when the statements so far give it this. While the table of a header is open
it may be missing. -/
def Holds (draft : Draft) (name : List Char) (given : List (Option Node)) : Prop :=
  match draft.current with
  | none => Settled given (draft.outer.get? name)
  | some h =>
    if leading h.path h.key = name then given ≠ [] ∧ ∀ x ∈ given, x = none
    else Settled given (draft.outer.get? name)

theorem Holds.close (hholds : draft.Holds name given) (hclose : draft.close = some closed) :
    Settled given (closed.get? name) := by
  rw [Holds] at hholds
  split at hholds
  · rename_i hcurrent
    rw [close_of_current_eq_none hcurrent, Option.some.injEq] at hclose
    rwa [← hclose]
  rename_i h hcurrent
  obtain ⟨htouches, htables⟩ := close_of_current_eq_some hcurrent hclose
  split at hholds
  · rename_i hname
    obtain ⟨hne, hgiven⟩ := hholds
    obtain ⟨⟨span, node⟩, hfound, hnode⟩ := htables
    rw [hname] at hfound
    rw [hfound]
    exact .tables span hne hgiven hnode
  · rename_i hname
    exact hholds.of_touches htouches hname

theorem Holds.add (hholds : draft.Holds name given) (hnode : node.IsValue)
    (hadd : draft.add path key span node = some next) :
    next.Holds name
      (given ++ ((Statement.entry path key span node).about? name draft.atTop).toList) := by
  cases hcurrent : draft.current with
  | some h =>
    obtain ⟨houter, hnext⟩ := add_of_current_eq_some hcurrent hadd
    have hbelow : draft.atTop = false := by rw [atTop, hcurrent]; rfl
    rw [Holds, hcurrent] at hholds
    rw [Holds, hnext, houter]
    simpa [Statement.about?, hbelow] using hholds
  | none =>
    obtain ⟨hnext, hchange⟩ := add_of_current_eq_none hcurrent hadd
    have htop : draft.atTop = true := by rw [atTop, hcurrent]; rfl
    rw [Holds, hcurrent] at hholds
    rw [Holds, hnext]
    dsimp only at hholds ⊢
    obtain ⟨htouches, hafter⟩ := addEntry_eq_some hchange
    by_cases hname : leading path key = name
    · rcases hafter with ⟨rfl, hfree, hget⟩ | ⟨hpath, htables⟩
      · obtain rfl : key.text = name := hname
        rw [hfree] at hholds
        rw [hholds.eq_nil, hget]
        simpa [Statement.about?, htop, leading] using Settled.value (some span) hnode
      · rw [hname] at htouches htables
        have hgiven := hholds.eq_none htouches.incomplete
        simpa [Statement.about?, htop, hname, hpath] using
          settled_concat_of_holdsTables hgiven htables
    · have hsettled := hholds.of_touches htouches hname
      simpa [Statement.about?, hname] using hsettled

theorem Holds.start (hholds : draft.Holds name given) (hstart : draft.start h = some next) :
    next.Holds name (given ++ ((Statement.header h).about? name draft.atTop).toList) := by
  obtain ⟨closed, hclose, htouches, hcurrent⟩ := start_eq_some hstart
  have hclosed := hholds.close hclose
  rw [Holds, hcurrent]
  dsimp only
  split
  · rename_i hname
    rw [hname] at htouches
    have hgiven := hclosed.eq_none htouches.incomplete
    simp only [Statement.about?, hname, if_true, Option.toList_some]
    refine ⟨List.concat_ne_nil none given, ?_⟩
    intro x hx
    rcases List.mem_append.mp hx with hx | hx
    · exact hgiven x hx
    · exact List.mem_singleton.mp hx
  · rename_i hname
    have hsettled := hclosed.of_touches htouches hname
    simpa [Statement.about?, hname] using hsettled

theorem Holds.apply {first : Statement} (hholds : draft.Holds name given) (hproper : first.Proper)
    (happly : draft.apply first = some next) :
    next.Holds name (given ++ (first.about? name draft.atTop).toList) ∧
      next.atTop = (draft.atTop && first.isEntry) := by
  cases first with
  | entry path key span node =>
    refine ⟨hholds.add hproper happly, ?_⟩
    cases hcurrent : draft.current with
    | none =>
      obtain ⟨hnext, _⟩ := add_of_current_eq_none hcurrent happly
      simp [atTop, hcurrent, hnext, Statement.isEntry]
    | some h =>
      obtain ⟨_, hnext⟩ := add_of_current_eq_some hcurrent happly
      simp [atTop, hcurrent, hnext]
  | header h =>
    refine ⟨hholds.start happly, ?_⟩
    obtain ⟨_, _, _, hcurrent⟩ := start_eq_some happly
    simp [atTop, hcurrent, Statement.isEntry]

theorem Holds.run {statements : List Statement} (hholds : draft.Holds name given)
    (hproper : ∀ first ∈ statements, first.Proper)
    (hrun : statements.foldlM Draft.apply draft = some next) :
    next.Holds name (given ++ bearing name draft.atTop statements) := by
  induction statements generalizing draft given with
  | nil =>
    cases hrun
    simpa [bearing] using hholds
  | cons first more ih =>
    rw [List.forall_mem_cons] at hproper
    obtain ⟨middle, happly, hrun⟩ := Option.bind_eq_some_iff.mp hrun
    obtain ⟨hmiddle, htop⟩ := hholds.apply hproper.1 happly
    have hnext := ih hmiddle hproper.2 hrun
    rwa [htop, List.append_assoc] at hnext

theorem distinct_close (h : draft.outer.Distinct) (hclose : draft.close = some closed) :
    closed.Distinct := by
  cases hcurrent : draft.current with
  | none =>
    rw [close_of_current_eq_none hcurrent, Option.some.injEq] at hclose
    rwa [← hclose]
  | some header => exact (close_of_current_eq_some hcurrent hclose).1.distinct h

theorem distinct_apply {first : Statement} (h : draft.outer.Distinct)
    (happly : draft.apply first = some next) : next.outer.Distinct := by
  cases first with
  | entry path key span node =>
    cases hcurrent : draft.current with
    | none =>
      obtain ⟨_, hchange⟩ := add_of_current_eq_none hcurrent happly
      exact (addEntry_eq_some hchange).1.distinct h
    | some header => rwa [(add_of_current_eq_some hcurrent happly).1]
  | header header =>
    obtain ⟨closed, hclose, htouches, _⟩ := start_eq_some happly
    exact htouches.distinct (distinct_close h hclose)

theorem distinct_run {statements : List Statement} (h : draft.outer.Distinct)
    (hrun : statements.foldlM Draft.apply draft = some next) : next.outer.Distinct := by
  induction statements generalizing draft with
  | nil =>
    cases hrun
    exact h
  | cons first more ih =>
    obtain ⟨middle, happly, hrun⟩ := Option.bind_eq_some_iff.mp hrun
    exact ih (distinct_apply h happly) hrun

end Draft

section Assemble

variable {ss : List Statement} {entries : Entries}

theorem distinct_of_assemble (h : assemble ss = some entries) : entries.Distinct := by
  obtain ⟨draft, hrun, hclose⟩ := Option.bind_eq_some_iff.mp h
  have hempty : Draft.empty.outer.Distinct := List.nodup_nil
  exact Draft.distinct_close (Draft.distinct_run hempty hrun) hclose

theorem settled_of_assemble (hproper : ∀ first ∈ ss, first.Proper) (h : assemble ss = some entries)
    (key : List Char) : Settled (bearing key true ss) (entries.get? key) := by
  obtain ⟨draft, hrun, hclose⟩ := Option.bind_eq_some_iff.mp h
  have hempty : Draft.empty.Holds key [] := Settled.absent
  have hdraft := hempty.run hproper hrun
  rw [List.nil_append] at hdraft
  exact hdraft.close hclose

end Assemble

/-! ### The values that are read -/

section Proper

variable {cur next : Cursor} {node : Node} {fuel : Nat} {ss : List Statement}

theorem isValue_of_value {depth : Nat} (h : value depth cur = some (node, next)) : node.IsValue := by
  cases depth with
  | zero =>
    obtain ⟨⟨s, _⟩, _, heq⟩ := Option.bind_eq_some_iff.mp h
    cases heq
    exact .scalar s
  | succ depth =>
    rw [value] at h
    split at h
    · obtain ⟨⟨items, _⟩, _, heq⟩ := Option.bind_eq_some_iff.mp h
      cases heq
      exact .list items
    · rw [inlineTable] at h
      split at h
      · cases h
        exact .inline []
      · obtain ⟨⟨entries, _⟩, _, heq⟩ := Option.bind_eq_some_iff.mp h
        cases heq
        exact .inline entries
    · obtain ⟨⟨s, _⟩, _, heq⟩ := Option.bind_eq_some_iff.mp h
      cases heq
      exact .scalar s

theorem proper_of_statement {first : Statement} (h : statement cur = some (first, next)) :
    first.Proper := by
  rw [statement] at h
  split at h
  · obtain ⟨⟨header, _⟩, _, heq⟩ := Option.map_eq_some_iff.mp h
    cases heq
    trivial
  · obtain ⟨⟨path, key, span, node, _⟩, hentry, heq⟩ := Option.map_eq_some_iff.mp h
    cases heq
    obtain ⟨⟨_, _, behind⟩, _, hentry⟩ := Option.bind_eq_some_iff.mp hentry
    obtain ⟨equals, _, hentry⟩ := Option.bind_eq_some_iff.mp hentry
    obtain ⟨⟨_, _, _⟩, hspanned, heq⟩ := Option.bind_eq_some_iff.mp hentry
    cases heq
    obtain ⟨⟨_, _⟩, hvalue, heq⟩ := Option.bind_eq_some_iff.mp hspanned
    cases heq
    exact isValue_of_value hvalue

theorem proper_of_statements (h : statements fuel cur = some ss) : ∀ first ∈ ss, first.Proper := by
  induction fuel generalizing cur ss with
  | zero => cases h
  | succ fuel ih =>
    rw [statements] at h
    dsimp only at h
    split at h
    · cases h
      simp
    split at h
    · obtain ⟨next, _, hmore⟩ := Option.bind_eq_some_iff.mp h
      exact ih hmore
    · obtain ⟨⟨first, next⟩, hfirst, h⟩ := Option.bind_eq_some_iff.mp h
      obtain ⟨behind, _, h⟩ := Option.bind_eq_some_iff.mp h
      obtain ⟨more, hmore, heq⟩ := Option.bind_eq_some_iff.mp h
      cases heq
      rw [List.forall_mem_cons]
      exact ⟨proper_of_statement hfirst, ih hmore⟩

end Proper

section Parse

variable {text : List Char} {entries : Entries} {ss : List Statement}

theorem exists_statementsOf_of_parse (h : parse text = some entries) :
    ∃ ss, statementsOf text = some ss ∧ assemble ss = some entries := by
  rw [parse_eq_assemble] at h
  exact Option.bind_eq_some_iff.mp h

theorem distinct_of_parse (h : parse text = some entries) : entries.Distinct := by
  obtain ⟨ss, _, hassemble⟩ := exists_statementsOf_of_parse h
  exact distinct_of_assemble hassemble

/-- What there is under a key of a document, by its statements about this key. -/
theorem settled_of_parse (h : parse text = some entries) (hss : statementsOf text = some ss)
    (key : List Char) : Settled (bearing key true ss) (entries.get? key) := by
  rw [parse_eq_assemble, hss] at h
  exact settled_of_assemble (proper_of_statements hss) h key

end Parse

end MarkupAudit.Toml
