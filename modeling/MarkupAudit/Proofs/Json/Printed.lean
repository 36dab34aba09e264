import MarkupAudit.Json.Printer
import MarkupAudit.Proofs.Json.Reader

/-!
What is written is a document. Each part of a written value is spelled as the grammar demands, so
that the value is the only one that its text spells (`read_pretty`).
-/

namespace MarkupAudit.Json

/-- A value whose numbers are numbers. -/
inductive Printable : Value → Prop where
  | null : Printable .null
  | bool (b : Bool) : Printable (.bool b)
  | number {digits : List Char} (h : IsNumber digits) : Printable (.number digits)
  | string (text : List Char) : Printable (.string text)
  | array {items : List Value} (h : ∀ item ∈ items, Printable item) : Printable (.array items)
  | object {members : List (List Char × Value)} (h : ∀ member ∈ members, Printable member.2) :
      Printable (.object members)

section Number

variable (n : Nat)

theorem head?_toDigits (hn : n ≠ 0) : (Nat.toDigits 10 n).head? ≠ some '0' := by
  induction n using Nat.strongRecOn with
  | ind n ih =>
    rcases Nat.lt_or_ge n 10 with hlt | hge
    · rw [Nat.toDigits_of_lt_base hlt, List.head?_cons]
      have hdigit : ∀ d < 10, d ≠ 0 → some (Nat.digitChar d) ≠ some '0' := by decide
      exact hdigit n hlt hn
    · rw [Nat.toDigits_of_base_le (by decide) hge,
        List.head?_append_of_ne_nil _ Nat.toDigits_ne_nil]
      exact ih (n / 10) (by omega) (by omega)

theorem isDigits_repr : IsDigits n.repr.toList := by
  rw [Nat.toList_repr]
  exact ⟨Nat.toDigits_ne_nil, fun c hc => Nat.isDigit_of_mem_toDigits (by decide) (by decide) hc⟩

theorem isWhole_repr : IsWhole n.repr.toList := by
  refine ⟨isDigits_repr n, ?_⟩
  intro hhead
  rw [Nat.toList_repr] at hhead ⊢
  have hzero : n = 0 := by
    by_contra hn
    exact head?_toDigits n hn hhead
  rw [hzero]
  rfl

theorem isNumber_repr : IsNumber n.repr.toList :=
  ⟨[], n.repr.toList, [], [], by simp, Or.inl rfl, isWhole_repr n, .absent, .absent⟩

end Number

section String

theorem hexDigit?_digitChar {d : Nat} (h : d < 16) : hexDigit? (Nat.digitChar d) = some d := by
  have hall : ∀ d < 16, hexDigit? (Nat.digitChar d) = some d := by decide
  exact hall d h

theorem hexNumber?_hex4 {n : Nat} (h : n < 65536) : hexNumber? (hex4 n) = some n := by
  have hdigit : ∀ m, hexDigit? (Nat.digitChar (m % 16)) = some (m % 16) := fun m =>
    hexDigit?_digitChar (Nat.mod_lt m (by decide))
  rw [hex4, hexNumber?]
  simp only [hdigit, bind, pure, Option.bind_some, Option.some.injEq]
  omega

theorem spelledChar_escape (c : Char) : SpelledChar c (escape c) := by
  have hshort : ∀ letter d, (letter, d) ∈ shortEscapes → c = d → SpelledChar c ['\\', letter] := by
    rintro letter d h rfl
    exact .short h
  rw [escape]
  split_ifs with hquote hslash hback hfeed hline hreturn htab hcontrol
  · exact hshort _ _ (by decide) hquote
  · exact hshort _ _ (by decide) hslash
  · exact hshort _ _ (by decide) hback
  · exact hshort _ _ (by decide) hfeed
  · exact hshort _ _ (by decide) hline
  · exact hshort _ _ (by decide) hreturn
  · exact hshort _ _ (by decide) htab
  · exact .code (hexNumber?_hex4 (by omega))
  · exact .plain hquote hslash (by omega)

theorem spelledString_renderString (text : List Char) : SpelledString text (renderString text) := by
  refine .intro ?_
  induction text with
  | nil => exact .nil
  | cons c text ih => exact .cons (spelledChar_escape c) ih

end String

section Series

variable {α : Type} {Item : α → List Char → Prop}

theorem isBlank_nil : IsBlank [] := by simp [IsBlank]

theorem isBlank_newline (level : Nat) : IsBlank (newline level) := by
  rw [newline, IsBlank, List.forall_mem_cons]
  refine ⟨rfl, ?_⟩
  intro c hc
  rw [List.eq_of_mem_replicate hc]
  rfl

/-- Items that are written line by line, each after the first behind a comma. -/
theorem series_of_lines (level outer : Nat) (spell : α → List Char) {items : List α} :
    ∀ {item : α}, (∀ x ∈ item :: items, Item x (spell x)) →
      Series Item (item :: items) (newline level ++ spell item ++
        items.flatMap (fun x => ',' :: newline level ++ spell x) ++ newline outer) := by
  induction items with
  | nil =>
    intro item h
    rw [List.flatMap_nil, List.append_nil]
    exact .last (isBlank_newline level) (h item List.mem_cons_self) (isBlank_newline outer)
  | cons next items ih =>
    intro item h
    rw [List.forall_mem_cons] at h
    -- The comma follows the item at once; the line break belongs to the next one.
    have hmore := Series.more (isBlank_newline level) h.1 isBlank_nil (ih h.2)
    have hsplit : newline level ++ spell item ++
        (next :: items).flatMap (fun x => ',' :: newline level ++ spell x) ++ newline outer =
        newline level ++ spell item ++ [] ++ ',' :: (newline level ++ spell next ++
          items.flatMap (fun x => ',' :: newline level ++ spell x) ++ newline outer) := by simp
    rw [hsplit]
    exact hmore

end Series

section Render

variable {value : Value} (level : Nat)

theorem renderItems_eq (items : List Value) : renderItems level items =
    items.flatMap fun item => ',' :: newline level ++ render level item := by
  induction items with
  | nil => rw [renderItems, List.flatMap_nil]
  | cons item items ih => rw [renderItems, ih, List.flatMap_cons]

theorem renderMembers_eq (members : List (List Char × Value)) : renderMembers level members =
    members.flatMap fun member => ',' :: newline level ++ renderMember level member := by
  induction members with
  | nil => rw [renderMembers, List.flatMap_nil]
  | cons member members ih => rw [renderMembers, ih, List.flatMap_cons]

theorem spelledMember_renderMember {member : List Char × Value}
    (h : Spelled member.2 (render level member.2)) :
    SpelledMember Spelled member (renderMember level member) := by
  obtain ⟨key, value⟩ := member
  have hspelled : SpelledMember Spelled (key, value)
      (renderString key ++ [] ++ ':' :: [' '] ++ render level value) :=
    .intro (spelledString_renderString key) isBlank_nil (by simp [IsBlank, isBlank]) h
  have heq : renderMember level (key, value) =
      renderString key ++ [] ++ ':' :: [' '] ++ render level value := by
    simp [renderMember]
  rw [heq]
  exact hspelled

theorem spelled_render (h : Printable value) : ∀ level, Spelled value (render level value) := by
  induction h with
  | null =>
    intro level
    rw [render]
    exact .null
  | bool b =>
    intro level
    cases b
    · rw [render]
      exact .boolFalse
    · rw [render]
      exact .boolTrue
  | number h =>
    intro level
    rw [render]
    exact .number h
  | string text =>
    intro level
    rw [render]
    exact .string (spelledString_renderString text)
  | @array items _ ih =>
    intro level
    cases items with
    | nil =>
      rw [render]
      exact .array (.empty isBlank_nil)
    | cons item items =>
      rw [render, renderItems_eq]
      have hseries := series_of_lines (level + 1) level (render (level + 1))
        fun x hx => ih x hx (level + 1)
      exact .array (.items hseries)
  | @object members _ ih =>
    intro level
    cases members with
    | nil =>
      rw [render]
      exact .object (.empty isBlank_nil)
    | cons member members =>
      rw [render, renderMembers_eq]
      have hseries := series_of_lines (level + 1) level (renderMember (level + 1))
        fun x hx => spelledMember_renderMember (level + 1) (ih x hx (level + 1))
      exact .object (.items hseries)

theorem document_pretty (h : Printable value) : Document value value.pretty.toList := by
  rw [Value.pretty, String.toList_ofList]
  have h : Document value ([] ++ render 0 value ++ []) :=
    .intro isBlank_nil (spelled_render h 0) isBlank_nil
  rwa [List.nil_append, List.append_nil] at h

theorem read_pretty (h : Printable value) : read value.pretty.toList = some value :=
  read_eq_some_iff.mpr (document_pretty h)

end Render

end MarkupAudit.Json
