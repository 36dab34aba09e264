import Mathlib.Logic.Relation
import MarkupAudit.Proofs.Config.Setting
import MarkupAudit.Proofs.Toml.LayoutDocument

/-!
What a document sets, by its statements. Only the statements about a key tell what it is set to
(`setting_of_parse`), so other keys and tables make no difference, and neither does the order of the
entries (`declared_eq_of_rearranged`).
-/

namespace MarkupAudit.Toml

/-- What the statements of a document declare a key to be, one after the other. -/
def declarations (key : List Char) (ss : List Statement) : List (Option (List String)) :=
  (bearing key true ss).map (·.bind Node.strings?)

/-- What these declarations set a key to. Where there are several, the key is a table. -/
def declared (fallback : List String) : List (Option (List String)) → Option (List String)
  | [] => some fallback
  | [given] => given
  | _ => none

section Declared

variable {text : List Char} {entries : Entries} {ss ss' : List Statement} {key : List Char}
  {fallback : List String}

theorem Node.strings?_of_isTabular {node : Node} (h : node.IsTabular) : node.strings? = none := by
  cases h <;> rfl

theorem declared_eq_none {l : List (Option (List String))} (hne : l ≠ []) (h : ∀ x ∈ l, x = none) :
    declared fallback l = none := by
  match l, hne, h with
  | [x], _, h => exact h x List.mem_cons_self
  | _ :: _ :: _, _, _ => rfl

theorem setting_of_parse (h : parse text = some entries) (hss : statementsOf text = some ss)
    (key : List Char) (fallback : List String) :
    entries.setting key fallback = declared fallback (declarations key ss) := by
  have hsettled := settled_of_parse h hss key
  rw [Entries.setting, declarations]
  generalize bearing key true ss = given, entries.get? key = found at hsettled
  cases hsettled with
  | absent => rfl
  | value span h => rfl
  | @tables given node span hne hgiven h =>
    rw [declared_eq_none]
    · exact Node.strings?_of_isTabular h
    · simpa using hne
    · intro x hx
      obtain ⟨y, hy, rfl⟩ := List.mem_map.mp hx
      rw [hgiven y hy]
      rfl

theorem declared_perm {l l' : List (Option (List String))} (h : l.Perm l') :
    declared fallback l = declared fallback l' := by
  match l, l', h with
  | [], l', h => rw [List.nil_perm.mp h]
  | [x], l', h => rw [List.singleton_perm.mp h]
  | x :: y :: l, l', h =>
    have hlength := h.length_eq
    match l', hlength with
    | _ :: _ :: _, _ => rfl

end Declared

/-! ### Places do not matter -/

section Unplaced

variable {ss ss' : List Statement} {key : List Char}

theorem Node.string?_unplaced (node : Node) : node.unplaced.string? = node.string? := by
  cases node with
  | scalar s => rw [unplaced_scalar]
  | list items => rw [unplaced_list]; rfl
  | tables items => rw [unplaced_tables]; rfl
  | table origin entries => rw [unplaced_table]; rfl

theorem Node.strings?_unplaced (node : Node) : node.unplaced.strings? = node.strings? := by
  cases node with
  | scalar s => rw [unplaced_scalar]
  | list items =>
    rw [unplaced_list, strings?, strings?, List.mapM_map]
    exact congrArg items.mapM (funext fun item => item.2.string?_unplaced)
  | tables items => rw [unplaced_tables]; rfl
  | table origin entries => rw [unplaced_table]; rfl

theorem leading_unplaced (path : List Key) (key : Key) :
    leading (path.map Key.unplaced) key.unplaced = leading path key := by
  cases path <;> rfl

theorem about?_unplaced (key : List Char) (top : Bool) (s : Statement) :
    s.unplaced.about? key top = (s.about? key top).map (·.map Node.unplaced) := by
  cases s with
  | entry path last span node =>
    rw [Statement.unplaced, Statement.about?, Statement.about?, leading_unplaced]
    cases path <;> split <;> rfl
  | header h =>
    rw [Statement.unplaced, Statement.about?, Statement.about?, Header.unplaced, leading_unplaced]
    split <;> rfl

theorem isEntry_unplaced (s : Statement) : s.unplaced.isEntry = s.isEntry := by
  cases s <;> rfl

theorem bearing_unplaced (key : List Char) (top : Bool) (ss : List Statement) :
    bearing key top (ss.map Statement.unplaced) =
      (bearing key top ss).map (·.map Node.unplaced) := by
  induction ss generalizing top with
  | nil => rfl
  | cons first more ih =>
    rw [List.map_cons, bearing, bearing, List.map_append, ih, about?_unplaced, isEntry_unplaced]
    cases first.about? key top <;> rfl

theorem declarations_unplaced (key : List Char) (ss : List Statement) :
    declarations key (ss.map Statement.unplaced) = declarations key ss := by
  rw [declarations, declarations, bearing_unplaced, List.map_map]
  apply List.map_congr_left
  intro given _
  cases given with
  | none => rfl
  | some node => exact node.strings?_unplaced

theorem SameStatements.declarations_eq (h : SameStatements ss ss') (key : List Char) :
    declarations key ss = declarations key ss' := by
  rw [← declarations_unplaced, h, declarations_unplaced]

end Unplaced

/-! ### Other statements and another order -/

/-- A key that is none of the two that count. -/
def IsOther (key : List Char) : Prop := key ≠ "extensions".toList ∧ key ≠ "exclude".toList

/-- One change of the statements of a document that leaves the two keys as they are. -/
inductive Rearrangement : List Statement → List Statement → Prop where
  | places {ss ss' : List Statement} (h : SameStatements ss ss') : Rearrangement ss ss'
  /-- Two entries change places. -/
  | swap {first second : Statement} (hfirst : first.isEntry = true) (hsecond : second.isEntry = true)
      (before after : List Statement) :
      Rearrangement (before ++ first :: second :: after) (before ++ second :: first :: after)
  | entry {path : List Key} {key : Key} (h : IsOther (leading path key)) (span : Span) (node : Node)
      (before after : List Statement) :
      Rearrangement (before ++ after) (before ++ .entry path key span node :: after)
  /-- A table with its entries comes where the document ends or another header stands. -/
  | table {h : Header} (hname : IsOther (leading h.path h.key)) {inner after : List Statement}
      (hinner : ∀ s ∈ inner, s.isEntry = true) (hafter : ∀ s ∈ after.head?, s.isEntry = false)
      (before : List Statement) :
      Rearrangement (before ++ after) (before ++ .header h :: (inner ++ after))
  /-- The entries of a table are others. -/
  | inner (h : Header) {inner inner' : List Statement} (hinner : ∀ s ∈ inner, s.isEntry = true)
      (hinner' : ∀ s ∈ inner', s.isEntry = true) (before after : List Statement) :
      Rearrangement (before ++ .header h :: (inner ++ after))
        (before ++ .header h :: (inner' ++ after))

section Rearrangement

variable {key : List Char} {ss ss' : List Statement}

theorem bearing_append (key : List Char) (top : Bool) (before after : List Statement) :
    bearing key top (before ++ after) =
      bearing key top before ++ bearing key (top && before.all Statement.isEntry) after := by
  induction before generalizing top with
  | nil => simp [bearing]
  | cons first before ih => simp [bearing, ih, Bool.and_assoc]

theorem bearing_below (h : ∀ s ∈ ss, s.isEntry = true) : bearing key false ss = [] := by
  induction ss with
  | nil => rfl
  | cons first ss ih =>
    rw [List.forall_mem_cons] at h
    cases first with
    | entry path last span node => simp [bearing, Statement.about?, ih h.2]
    | header header => cases h.1

/-- At a header it does not matter whether there were others. -/
theorem bearing_of_header (h : ∀ s ∈ ss.head?, s.isEntry = false) (top : Bool) :
    bearing key top ss = bearing key false ss := by
  cases ss with
  | nil => rfl
  | cons first ss =>
    cases first with
    | entry path last span node => cases h _ rfl
    | header header => simp [bearing, Statement.about?, Statement.isEntry]

theorem bearing_cons_of_other {path : List Key} {last : Key} (h : leading path last ≠ key)
    (top : Bool) (span : Span) (node : Node) (after : List Statement) :
    bearing key top (.entry path last span node :: after) = bearing key top after := by
  simp [bearing, Statement.about?, Statement.isEntry, h]

theorem bearing_header (h : Header) (top : Bool) {inner : List Statement}
    (hinner : ∀ s ∈ inner, s.isEntry = true) (after : List Statement) :
    bearing key top (.header h :: (inner ++ after)) =
      (if leading h.path h.key = key then [none] else []) ++ bearing key false after := by
  rw [bearing, Statement.isEntry, Bool.and_false, bearing_append, bearing_below hinner,
    Bool.false_and, List.nil_append, Statement.about?]
  split <;> rfl

theorem bearing_swap {first second : Statement} (hfirst : first.isEntry = true)
    (hsecond : second.isEntry = true) (top : Bool) (after : List Statement) :
    (bearing key top (first :: second :: after)).Perm
      (bearing key top (second :: first :: after)) := by
  simp only [bearing, hfirst, hsecond, Bool.and_true]
  rw [← List.append_assoc, ← List.append_assoc]
  exact List.perm_append_comm.append_right _

theorem Rearrangement.perm (h : Rearrangement ss ss') (hkey : ¬IsOther key) :
    (declarations key ss).Perm (declarations key ss') := by
  have hne {name : List Char} (hname : IsOther name) : name ≠ key := by
    rintro rfl
    exact hkey hname
  cases h with
  | places h => rw [h.declarations_eq]
  | swap hfirst hsecond before after =>
    apply List.Perm.map
    rw [bearing_append, bearing_append]
    exact (bearing_swap hfirst hsecond _ after).append_left _
  | entry hname span node before after =>
    rw [declarations, declarations, bearing_append, bearing_append,
      bearing_cons_of_other (hne hname)]
  | table hname hinner hafter before =>
    rw [declarations, declarations, bearing_append, bearing_append, bearing_header _ _ hinner,
      if_neg (hne hname), bearing_of_header hafter, List.nil_append]
  | inner h hinner hinner' before after =>
    rw [declarations, declarations, bearing_append, bearing_append, bearing_header _ _ hinner,
      bearing_header _ _ hinner']

/-- However many such changes there are, the keys are set to the same. -/
theorem declared_eq_of_rearranged (h : Relation.EqvGen Rearrangement ss ss') (hkey : ¬IsOther key)
    (fallback : List String) :
    declared fallback (declarations key ss) = declared fallback (declarations key ss') := by
  induction h with
  | rel ss ss' h => exact declared_perm (h.perm hkey)
  | refl ss => rfl
  | symm _ _ _ ih => exact ih.symm
  | trans _ _ _ _ _ ih ih' => exact ih.trans ih'

end Rearrangement

end MarkupAudit.Toml
