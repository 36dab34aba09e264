import MarkupAudit.Proofs.Toml.LayoutNumber
import MarkupAudit.Proofs.Toml.Unplaced

/-!
Keys, values and statements in texts that are alike but for remarks. What is read is the same but
for its places, so the documents are the same but for their places (`parse_unplaced_of_alike`).
-/

namespace MarkupAudit

namespace Toml

open Cursor (uncons_cons expect_cons rest_skipWhile fst_takeWhile rest_takeWhile)

variable {a b : Cursor}

/-! ### Strings -/

section Quotation

variable {n : Nat} {rest : List Char} {text : List Char}

theorem quotation_of_unquoted (h : Unquoted text) (n : Nat) : quotation ⟨n, text⟩ = none := by
  rw [quotation, longQuotation_eq_none_of_head? h.1, longQuotation_eq_none_of_head? h.2]
  cases text with
  | nil => rfl
  | cons c text =>
    have hdouble : c ≠ '"' := fun hc => h.1 (congrArg some hc)
    have hsingle : c ≠ '\'' := fun hc => h.2 (congrArg some hc)
    rw [Option.none_or, Option.none_or, shortQuotation, uncons_cons]
    simp [hdouble, hsingle]

theorem shortQuotation_of_unquoted (h : Unquoted text) (n : Nat) :
    shortQuotation ⟨n, text⟩ = none := by
  have hnone := quotation_of_unquoted h n
  rw [quotation, Option.or_eq_none_iff, Option.or_eq_none_iff] at hnone
  exact hnone.2.2

theorem unquoted_of_isOrdinary {c : Char} (h : isOrdinary c = true) (rest : List Char) :
    Unquoted (c :: rest) := by
  constructor
  all_goals
    intro hc
    cases hc
    cases h

theorem rel_quotation (h : AlikeButRemarks a.rest b.rest) :
    Option.Rel (Told Eq (Past a b)) (quotation a) (quotation b) := by
  obtain ⟨n, a⟩ := a
  obtain ⟨m, b⟩ := b
  have hunquoted (ha : Unquoted a) (hb : Unquoted b) :
      Option.Rel (Told Eq (Past ⟨n, a⟩ ⟨m, b⟩)) (quotation ⟨n, a⟩) (quotation ⟨m, b⟩) := by
    rw [quotation_of_unquoted ha, quotation_of_unquoted hb]
    exact .none
  dsimp only at h
  cases h with
  | same =>
    refine rel_mono_of_eq (abreast_quotation n m a) fun x y hx hy hxy => ?_
    refine ⟨hxy.1, ?_, length_quotation_lt hx, length_quotation_lt hy⟩
    rw [hxy.2]
    exact .same _
  | char hc => exact hunquoted (unquoted_of_isOrdinary hc _) (unquoted_of_isOrdinary hc _)
  | @string q a b hq ha hb h =>
    obtain ⟨v, hv⟩ := quotation_string hq
    obtain ⟨k, hk⟩ := hv a ha n
    obtain ⟨l, hl⟩ := hv b hb m
    have hlt := length_quotation_lt hk
    have hlt' := length_quotation_lt hl
    rw [hk, hl]
    exact .some ⟨rfl, h, hlt, hlt'⟩
  | lines hl hl' hne hne' =>
    exact hunquoted (unquoted_of_not_solid (not_solid_lines hl hne _))
      (unquoted_of_not_solid (not_solid_lines hl' hne' _))
  | ending ha hb =>
    exact hunquoted (unquoted_of_not_solid (not_solid_ending ha))
      (unquoted_of_not_solid (not_solid_ending hb))

theorem rel_shortQuotation (h : AlikeButRemarks a.rest b.rest) :
    Option.Rel (Told Eq (Upto AlikeOrStuck a b)) (shortQuotation a) (shortQuotation b) := by
  obtain ⟨n, a⟩ := a
  obtain ⟨m, b⟩ := b
  have hunquoted (ha : Unquoted a) (hb : Unquoted b) :
      Option.Rel (Told Eq (Upto AlikeOrStuck ⟨n, a⟩ ⟨m, b⟩)) (shortQuotation ⟨n, a⟩)
        (shortQuotation ⟨m, b⟩) := by
    rw [shortQuotation_of_unquoted ha, shortQuotation_of_unquoted hb]
    exact .none
  dsimp only at h
  cases h with
  | same =>
    refine rel_mono_of_eq (abreast_shortQuotation n m a) fun x y hx hy hxy => ?_
    refine ⟨hxy.1, ?_, Nat.le_of_lt (length_shortQuotation_lt hx),
      Nat.le_of_lt (length_shortQuotation_lt hy)⟩
    rw [hxy.2]
    exact (AlikeButRemarks.same _).orStuck
  | char hc => exact hunquoted (unquoted_of_isOrdinary hc _) (unquoted_of_isOrdinary hc _)
  | @string q a b hq ha hb h =>
    rcases shortQuotation_string hq with ⟨v, hv⟩ | ⟨quote, rest, hquote, rfl⟩
    · obtain ⟨k, hk⟩ := hv a n
      obtain ⟨l, hl⟩ := hv b m
      have hlt := length_shortQuotation_lt hk
      have hlt' := length_shortQuotation_lt hl
      rw [hk, hl]
      exact .some ⟨rfl, h.orStuck, Nat.le_of_lt hlt, Nat.le_of_lt hlt'⟩
    · -- The key is empty, and what follows is no continuation of one.
      obtain ⟨k, hk⟩ := shortQuotation_empty hquote n (quote :: (rest ++ a))
      obtain ⟨l, hl⟩ := shortQuotation_empty hquote m (quote :: (rest ++ b))
      have hlt := length_shortQuotation_lt hk
      have hlt' := length_shortQuotation_lt hl
      simp only [List.cons_append]
      rw [hk, hl]
      exact .some ⟨rfl, Or.inr (.intro hquote _ _), Nat.le_of_lt hlt, Nat.le_of_lt hlt'⟩
  | lines hl hl' hne hne' =>
    exact hunquoted (unquoted_of_not_solid (not_solid_lines hl hne _))
      (unquoted_of_not_solid (not_solid_lines hl' hne' _))
  | ending ha hb =>
    exact hunquoted (unquoted_of_not_solid (not_solid_ending ha))
      (unquoted_of_not_solid (not_solid_ending hb))

end Quotation

/-! ### Keys -/

section Key

theorem upto_skipBlanks_key (h : AlikeOrStuck a.rest b.rest) :
    Upto AlikeOrStuck a b (skipBlanks a) (skipBlanks b) := by
  rcases h with h | h
  · have hupto := upto_skipBlanks h
    exact ⟨hupto.alike.orStuck, hupto.left, hupto.right⟩
  · obtain ⟨ha, hb⟩ := h.skipBlanks_eq
    rw [ha, hb]
    exact upto_self (Or.inr h)

theorem not_isKeyChar_unmarked : unmarked.any isKeyChar = false := by decide

/-- Keys are the same but for their places. -/
def SameKey (key key' : Key) : Prop := key.unplaced = key'.unplaced

theorem rel_simpleKey (h : AlikeButRemarks a.rest b.rest) :
    Option.Rel (Told SameKey (Upto AlikeOrStuck a b)) (simpleKey a) (simpleKey b) := by
  have hquoted := rel_shortQuotation h
  obtain ⟨hbare, hplaces⟩ := rel_takeWhile h fun c =>
    isMark_of_accepts not_isKeyChar_unmarked (c := c)
  rw [simpleKey, simpleKey]
  generalize shortQuotation a = x, shortQuotation b = y at hquoted
  cases hquoted with
  | @some u v huv =>
    obtain ⟨text, a₁⟩ := u
    obtain ⟨_, b₁⟩ := v
    obtain ⟨rfl, h₁⟩ := huv
    exact .some ⟨rfl, h₁⟩
  | none =>
    dsimp only
    rw [hbare]
    split
    · exact .none
    · exact .some ⟨rfl, hplaces.alike.orStuck, hplaces.left, hplaces.right⟩

theorem moreKeys_of_expect_eq_none {cur : Cursor} (h : cur.expect '.' = none) (fuel : Nat) :
    moreKeys fuel cur = some ([], cur) := by
  cases fuel with
  | zero => rfl
  | succ fuel => rw [moreKeys, h]

def SameKeys (keys keys' : List Key) : Prop := keys.map Key.unplaced = keys'.map Key.unplaced

theorem rel_moreKeys {fuel fuel' : Nat} (hfuel : a.rest.length ≤ fuel)
    (hfuel' : b.rest.length ≤ fuel') (h : AlikeOrStuck a.rest b.rest) :
    Option.Rel (Told SameKeys (Upto AlikeOrStuck a b)) (moreKeys fuel a) (moreKeys fuel' b) := by
  induction hk : a.rest.length using Nat.strong_induction_on generalizing a b fuel fuel' with
  | _ k ih =>
    rcases rel_cases (rel_expect h (c := '.') rfl) with ⟨ha, hb⟩ | ⟨a₁, b₁, ha, hb, h₁⟩
    · rw [moreKeys_of_expect_eq_none ha, moreKeys_of_expect_eq_none hb]
      exact .some ⟨rfl, upto_self h⟩
    · have hleft := h₁.left
      have hright := h₁.right
      obtain ⟨fuel, rfl⟩ := Nat.exists_eq_succ_of_ne_zero (n := fuel) (by omega)
      obtain ⟨fuel', rfl⟩ := Nat.exists_eq_succ_of_ne_zero (n := fuel') (by omega)
      rw [moreKeys, moreKeys, ha, hb]
      have h₂ := h₁.upto.trans (upto_skipBlanks h₁.alike)
      refine rel_bind (rel_simpleKey h₂.alike) ?_
      rintro ⟨key, a₃⟩ ⟨key', b₃⟩ ⟨hkey, h₃⟩
      dsimp only at h₃
      have h₄ := h₃.trans (upto_skipBlanks_key h₃.alike)
      have hblanks := length_skipBlanks_le a₁
      have hblanks' := length_skipBlanks_le b₁
      have hlength := h₄.left
      have hlength' := h₄.right
      refine rel_bind (ih _ ?_ ?_ ?_ h₄.alike rfl) ?_
      · omega
      · omega
      · omega
      rintro ⟨keys, a₅⟩ ⟨keys', b₅⟩ ⟨hkeys, h₅⟩
      exact .some ⟨List.cons_eq_cons.mpr ⟨hkey, hkeys⟩, h₂.trans (h₄.trans h₅)⟩

theorem SameKeys.length_eq {keys keys' : List Key} (h : SameKeys keys keys') :
    keys.length = keys'.length := by
  have hlength := congrArg List.length h
  rwa [List.length_map, List.length_map] at hlength

theorem SameKeys.dropLast {keys keys' : List Key} (h : SameKeys keys keys') :
    SameKeys keys.dropLast keys'.dropLast := by
  rw [SameKeys, List.map_dropLast, List.map_dropLast, h]

theorem SameKeys.getLast? {keys keys' : List Key} (h : SameKeys keys keys') :
    Option.Rel SameKey keys.getLast? keys'.getLast? := by
  have hlast := congrArg List.getLast? h
  rw [List.getLast?_map, List.getLast?_map] at hlast
  cases hx : keys.getLast? <;> cases hy : keys'.getLast? <;> rw [hx, hy] at hlast
  · exact .none
  · cases hlast
  · cases hlast
  · exact .some (Option.some.inj hlast)

theorem rel_dottedKey (h : AlikeButRemarks a.rest b.rest) :
    Option.Rel (fun x y => SameKeys x.1 y.1 ∧ Told SameKey (Upto AlikeOrStuck a b) x.2 y.2)
      (dottedKey a) (dottedKey b) := by
  have h₁ := upto_skipBlanks h
  refine rel_bind (rel_simpleKey h₁.alike) ?_
  rintro ⟨key, a₂⟩ ⟨key', b₂⟩ ⟨hkey, h₂⟩
  have h₃ := h₁.trans (h₂.trans (upto_skipBlanks_key h₂.alike))
  refine rel_bind (rel_moreKeys (Nat.le_refl _) (Nat.le_refl _) h₃.alike) ?_
  rintro ⟨keys, a₄⟩ ⟨keys', b₄⟩ ⟨hkeys, h₄⟩
  have hall : SameKeys (key :: keys) (key' :: keys') := List.cons_eq_cons.mpr ⟨hkey, hkeys⟩
  dsimp only
  rw [hall.length_eq]
  split
  · refine rel_bind hall.getLast? fun last last' hlast => ?_
    exact .some ⟨hall.dropLast, hlast, h₃.trans h₄⟩
  · exact .none

end Key

/-! ### Values -/

section Value

/-- Values are the same but for their places. -/
def SameNode (node node' : Node) : Prop := node.unplaced = node'.unplaced

/-- From texts that are alike a reader reads the same values. -/
def ReadsAlike (value : ValueReader) : Prop := ∀ a b, AlikeButRemarks a.rest b.rest →
  Option.Rel (Told SameNode (Past a b)) (value a) (value b)

variable {value : ValueReader}

theorem rel_spanned (hvalue : ReadsAlike value) (h : AlikeButRemarks a.rest b.rest) :
    Option.Rel (fun x y => Told SameNode (Past a b) x.2 y.2) (spanned value a) (spanned value b) := by
  refine rel_bind (hvalue a b h) ?_
  rintro ⟨node, a₁⟩ ⟨node', b₁⟩ hnode
  exact .some hnode

def SameItems (items items' : List (Option Span × Node)) : Prop :=
  items.map unplacedItem = items'.map unplacedItem

theorem SameItems.cons {span span' : Span} {node node' : Node}
    {items items' : List (Option Span × Node)} (hnode : SameNode node node')
    (h : SameItems items items') : SameItems ((some span, node) :: items) ((some span', node') :: items') :=
  List.cons_eq_cons.mpr ⟨Prod.ext rfl hnode, h⟩

theorem rel_items (hvalue : ReadsAlike value) {fuel fuel' : Nat} (hfuel : a.rest.length < fuel)
    (hfuel' : b.rest.length < fuel') (h : AlikeButRemarks a.rest b.rest) :
    Option.Rel (Told SameItems (Past a b)) (items value fuel a) (items value fuel' b) := by
  induction hk : a.rest.length using Nat.strong_induction_on generalizing a b fuel fuel' with
  | _ k ih =>
    obtain ⟨fuel, rfl⟩ := Nat.exists_eq_succ_of_ne_zero (Nat.ne_zero_of_lt hfuel)
    obtain ⟨fuel', rfl⟩ := Nat.exists_eq_succ_of_ne_zero (Nat.ne_zero_of_lt hfuel')
    have h₁ := upto_skipSpace h
    rw [items, items]
    dsimp only
    rcases rel_cases (rel_expect h₁.alike.orStuck (c := ']') rfl) with
      ⟨ha, hb⟩ | ⟨a₂, b₂, ha, hb, h₂⟩
    · rw [ha, hb]
      refine rel_bind (rel_spanned hvalue h₁.alike) ?_
      rintro ⟨span, node, a₂⟩ ⟨span', node', b₂⟩ ⟨hnode, h₂⟩
      have h₃ := (h₁.past h₂).upto_past (upto_skipSpace h₂.alike)
      dsimp only at hnode h₃ ⊢
      rcases rel_cases (rel_expect h₃.alike.orStuck (c := ',') rfl) with
        ⟨ha, hb⟩ | ⟨a₄, b₄, ha, hb, h₄⟩
      · rw [ha, hb]
        refine rel_bind (rel_expect h₃.alike.orStuck rfl) fun a₄ b₄ h₄ => ?_
        exact .some ⟨SameItems.cons hnode rfl, h₃.trans h₄⟩
      · rw [ha, hb]
        have h₄ := h₃.trans h₄
        have hleft := h₄.left
        have hright := h₄.right
        refine rel_bind (ih _ ?_ ?_ ?_ h₄.alike rfl) ?_
        · omega
        · omega
        · omega
        rintro ⟨more, a₅⟩ ⟨more', b₅⟩ ⟨hmore, h₅⟩
        exact .some ⟨SameItems.cons hnode hmore, h₄.trans h₅⟩
    · rw [ha, hb]
      exact .some ⟨rfl, h₁.past h₂⟩

/-- What an entry says: its key with the path to it, and its value. -/
def SameEntry (places : Cursor → Cursor → Prop)
    (x y : List Key × Key × Span × Node × Cursor) : Prop :=
  SameKeys x.1 y.1 ∧ SameKey x.2.1 y.2.1 ∧ Told SameNode places x.2.2.2 y.2.2.2

theorem rel_entry (hvalue : ReadsAlike value) (h : AlikeButRemarks a.rest b.rest) :
    Option.Rel (SameEntry (Past a b)) (entry value a) (entry value b) := by
  refine rel_bind (rel_dottedKey h) ?_
  rintro ⟨path, key, a₁⟩ ⟨path', key', b₁⟩ ⟨hpath, hkey, h₁⟩
  refine rel_bind (rel_expect h₁.alike rfl) fun a₂ b₂ h₂ => ?_
  have h₃ := (h₁.past h₂).upto_past (upto_skipBlanks h₂.alike)
  refine rel_bind (rel_spanned hvalue h₃.alike) ?_
  rintro ⟨span, node, a₄⟩ ⟨span', node', b₄⟩ ⟨hnode, h₄⟩
  exact .some ⟨hpath, hkey, hnode, h₃.trans h₄⟩

theorem rel_addEntry {path path' : List Key} {key key' : Key} {span span' : Span}
    {node node' : Node} {entries entries' : Entries} (hpath : SameKeys path path')
    (hkey : SameKey key key') (hnode : SameNode node node')
    (hentries : entries.unplaced = entries'.unplaced) (origin : Origin) :
    Option.Rel (fun x y => x.2.unplaced = y.2.unplaced)
      (addEntry path key span node origin entries)
      (addEntry path' key' span' node' origin entries') := by
  have hleft := addEntry_unplaced path key span node origin entries
  have hright := addEntry_unplaced path' key' span' node' origin entries'
  rw [hpath, hkey, hnode, hentries, hright] at hleft
  exact rel_mono (rel_of_map_eq hleft.symm) fun x y hxy => congrArg Prod.snd hxy

theorem inlineEntries_of_entry_eq_none {cur : Cursor} (h : entry value cur = none) (fuel : Nat)
    (entries : Entries) : inlineEntries value fuel entries cur = none := by
  cases fuel with
  | zero => rfl
  | succ fuel =>
    rw [inlineEntries, h]
    rfl

def SameEntries (entries entries' : Entries) : Prop := entries.unplaced = entries'.unplaced

theorem rel_inlineEntries (hvalue : ReadsAlike value) {fuel fuel' : Nat}
    (hfuel : a.rest.length ≤ fuel) (hfuel' : b.rest.length ≤ fuel') {entries entries' : Entries}
    (hentries : SameEntries entries entries') (h : AlikeButRemarks a.rest b.rest) :
    Option.Rel (Told SameEntries (Past a b)) (inlineEntries value fuel entries a)
      (inlineEntries value fuel' entries' b) := by
  induction hk : a.rest.length using Nat.strong_induction_on
    generalizing a b fuel fuel' entries entries' with
  | _ k ih =>
    rcases rel_cases (rel_entry hvalue h) with ⟨ha, hb⟩ | ⟨x, y, ha, hb, hxy⟩
    · rw [inlineEntries_of_entry_eq_none ha, inlineEntries_of_entry_eq_none hb]
      exact .none
    · obtain ⟨path, key, span, node, a₁⟩ := x
      obtain ⟨path', key', span', node', b₁⟩ := y
      obtain ⟨hpath, hkey, hnode, h₁⟩ := hxy
      dsimp only at hpath hkey hnode h₁
      have hleft := h₁.left
      have hright := h₁.right
      obtain ⟨fuel, rfl⟩ := Nat.exists_eq_succ_of_ne_zero (n := fuel) (by omega)
      obtain ⟨fuel', rfl⟩ := Nat.exists_eq_succ_of_ne_zero (n := fuel') (by omega)
      rw [inlineEntries, inlineEntries, ha, hb, Option.bind_eq_bind, Option.bind_some,
        Option.bind_eq_bind, Option.bind_some]
      refine rel_bind (rel_addEntry hpath hkey hnode hentries .inline) ?_
      rintro ⟨_, after⟩ ⟨_, after'⟩ hafter
      have h₂ := h₁.upto_past (upto_skipBlanks h₁.alike)
      dsimp only at hafter ⊢
      rcases rel_cases (rel_expect h₂.alike.orStuck (c := ',') rfl) with
        ⟨ha, hb⟩ | ⟨a₃, b₃, ha, hb, h₃⟩
      · rw [ha, hb]
        refine rel_bind (rel_expect h₂.alike.orStuck rfl) fun a₃ b₃ h₃ => ?_
        exact .some ⟨hafter, h₂.trans h₃⟩
      · rw [ha, hb]
        have h₃ := h₂.trans h₃
        have hleft := h₃.left
        have hright := h₃.right
        refine rel_mono (ih _ ?_ ?_ ?_ hafter h₃.alike rfl) fun u v huv => ⟨huv.1, h₃.trans huv.2⟩
        · omega
        · omega
        · omega

theorem SameEntries.node {entries entries' : Entries} (h : SameEntries entries entries')
    (origin : Origin) : SameNode (.table origin entries) (.table origin entries') := by
  rw [SameNode, Node.unplaced_table, Node.unplaced_table, h]

theorem SameItems.node {items items' : List (Option Span × Node)} (h : SameItems items items') :
    SameNode (.list items) (.list items') := by
  rw [SameNode, Node.unplaced_list, Node.unplaced_list, h]

theorem rel_inlineTable (hvalue : ReadsAlike value) (h : AlikeButRemarks a.rest b.rest) :
    Option.Rel (Told SameNode (Past a b)) (inlineTable value a) (inlineTable value b) := by
  have h₁ := upto_skipBlanks h
  rw [inlineTable, inlineTable]
  rcases rel_cases (rel_expect h₁.alike.orStuck (c := '\x7d') rfl) with
    ⟨ha, hb⟩ | ⟨a₂, b₂, ha, hb, h₂⟩
  · rw [ha, hb]
    have hempty : SameEntries [] [] := rfl
    have hentries := rel_inlineEntries hvalue (Nat.le_refl _) (Nat.le_refl _) hempty h
    refine rel_bind hentries ?_
    rintro ⟨entries, a₂⟩ ⟨entries', b₂⟩ ⟨hentries, h₂⟩
    exact .some ⟨hentries.node .inline, h₂⟩
  · rw [ha, hb]
    exact .some ⟨rfl, h₁.past h₂⟩

theorem rel_scalar (h : AlikeButRemarks a.rest b.rest) :
    Option.Rel (Told Eq (Past a b)) (scalar a) (scalar b) := by
  have htrue := rel_expectAll "true".toList h.orStuck (by decide) (by decide)
  have hfalse := rel_expectAll "false".toList h.orStuck (by decide) (by decide)
  rw [scalar, scalar]
  rcases rel_cases (rel_quotation h) with ⟨ha, hb⟩ | ⟨u, v, ha, hb, huv⟩
  · rw [ha, hb]
    dsimp only
    generalize Cursor.expectAll "true".toList a = x, Cursor.expectAll "true".toList b = y at htrue
    generalize Cursor.expectAll "false".toList a = x', Cursor.expectAll "false".toList b = y'
      at hfalse
    cases htrue with
    | some hxy => exact .some ⟨rfl, hxy⟩
    | none =>
      cases hfalse with
      | some hxy => exact .some ⟨rfl, hxy⟩
      | none =>
        dsimp only
        rcases rel_cases (rel_moment h) with ⟨ha, hb⟩ | ⟨u, v, ha, hb, huv⟩
        · rw [ha, hb]
          dsimp only
          rcases rel_cases (rel_float h) with ⟨ha, hb⟩ | ⟨u, v, ha, hb, huv⟩
          · rw [ha, hb]
            exact rel_map (rel_integer h) fun u v huv => ⟨congrArg Scalar.integer huv.1, huv.2⟩
          · rw [ha, hb]
            exact .some ⟨congrArg Scalar.float huv.1, huv.2⟩
        · rw [ha, hb]
          exact .some ⟨rfl, huv⟩
  · rw [ha, hb]
    exact .some ⟨congrArg Scalar.string huv.1, huv.2⟩

theorem rel_scalarNode (h : AlikeButRemarks a.rest b.rest) :
    Option.Rel (Told SameNode (Past a b))
      ((scalar a).bind fun x => some (Node.scalar x.1, x.2))
      ((scalar b).bind fun x => some (Node.scalar x.1, x.2)) :=
  rel_bind (rel_scalar h) fun _ _ hxy =>
    .some ⟨congrArg (fun s => (Node.scalar s).unplaced) hxy.1, hxy.2⟩

theorem readsAlike_value (depth : Nat) : ReadsAlike (Toml.value depth) := by
  induction depth with
  | zero => exact fun a b h => rel_scalarNode h
  | succ depth ih =>
    intro a b h
    have hbracket := rel_expect h.orStuck (c := '[') rfl
    have hbrace := rel_expect h.orStuck (c := '\x7b') rfl
    rw [Toml.value, Toml.value]
    generalize a.expect '[' = x, b.expect '[' = y at hbracket
    generalize a.expect '\x7b' = x', b.expect '\x7b' = y' at hbrace
    cases hbracket with
    | some h₁ =>
      have hitems := rel_items ih (Nat.lt_succ_self _) (Nat.lt_succ_self _) h₁.alike
      refine rel_bind hitems ?_
      rintro ⟨items, a₂⟩ ⟨items', b₂⟩ ⟨hitems, h₂⟩
      exact .some ⟨hitems.node, h₁.trans h₂⟩
    | none =>
      cases hbrace with
      | some h₁ =>
        exact rel_mono (rel_inlineTable ih h₁.alike) fun x y hxy => ⟨hxy.1, h₁.trans hxy.2⟩
      | none => exact rel_scalarNode h

end Value

/-! ### Statements -/

section Statement

def SameHeader (h h' : Header) : Prop := h.unplaced = h'.unplaced

theorem rel_header (h : AlikeButRemarks a.rest b.rest) :
    Option.Rel (Told SameHeader (Past a b)) (header a) (header b) := by
  have hheader {double : Bool} {path path' : List Key} {key key' : Key} {span span' : Span}
      (hpath : SameKeys path path') (hkey : SameKey key key') :
      SameHeader ⟨double, path, key, span⟩ ⟨double, path', key', span'⟩ := by
    rw [SameHeader, Header.unplaced, Header.unplaced, hpath, hkey]
  refine rel_bind (rel_expect h.orStuck rfl) fun a₁ b₁ h₁ => ?_
  dsimp only
  rcases rel_cases (rel_expect h₁.alike.orStuck (c := '[') rfl) with
    ⟨ha, hb⟩ | ⟨a₂, b₂, ha, hb, h₂⟩
  · rw [ha, hb]
    refine rel_bind (rel_dottedKey h₁.alike) ?_
    rintro ⟨path, key, a₂⟩ ⟨path', key', b₂⟩ ⟨hpath, hkey, h₂⟩
    refine rel_bind (rel_expect h₂.alike rfl) fun a₃ b₃ h₃ => ?_
    exact .some ⟨hheader hpath hkey, h₁.trans (h₂.past h₃)⟩
  · rw [ha, hb]
    refine rel_bind (rel_dottedKey h₂.alike) ?_
    rintro ⟨path, key, a₃⟩ ⟨path', key', b₃⟩ ⟨hpath, hkey, h₃⟩
    refine rel_bind (rel_expectAll _ h₃.alike (by decide) (by decide)) fun a₄ b₄ h₄ => ?_
    exact .some ⟨hheader hpath hkey, h₁.trans (h₂.trans (h₃.past h₄))⟩

def SameStatement (first first' : Statement) : Prop := first.unplaced = first'.unplaced

theorem rel_statement (h : AlikeButRemarks a.rest b.rest) :
    Option.Rel (Told SameStatement (Past a b)) (statement a) (statement b) := by
  rw [statement, statement]
  rcases rel_cases (rel_expect h.orStuck (c := '[') rfl) with ⟨ha, hb⟩ | ⟨a₁, b₁, ha, hb, _⟩
  · rw [ha, hb]
    refine rel_map (rel_entry (readsAlike_value depthLimit) h) ?_
    rintro ⟨path, key, span, node, a₁⟩ ⟨path', key', span', node', b₁⟩ ⟨hpath, hkey, hnode, h₁⟩
    refine ⟨?_, h₁⟩
    dsimp only [SameStatement, Statement.unplaced] at hpath hkey hnode ⊢
    rw [hpath, hkey, hnode]
  · rw [ha, hb]
    refine rel_map (rel_header h) ?_
    rintro ⟨header, a₁⟩ ⟨header', b₁⟩ ⟨hheader, h₁⟩
    exact ⟨congrArg Statement.header hheader, h₁⟩

def SameStatements (ss ss' : List Statement) : Prop :=
  ss.map Statement.unplaced = ss'.map Statement.unplaced

/-! A document line by line, whatever the bound of the recursion. -/

section Line

variable {n fuel : Nat} {c : Char} {rest remark mark l : List Char} {cur : Cursor}

theorem statements_blank (h : isBlank c = true) : statements (fuel + 1) ⟨n, c :: rest⟩ =
    statements (fuel + 1) ⟨n + c.utf8Size, rest⟩ := by
  have hskip : skipBlanks ⟨n, c :: rest⟩ = skipBlanks ⟨n + c.utf8Size, rest⟩ := by
    rw [skipBlanks, Cursor.skipWhile, Cursor.takeWhile, Cursor.takeRun, if_pos h]
    rfl
  rw [statements, statements, hskip]

theorem not_isBlank_skipBlanks (h : (skipBlanks cur).rest = c :: rest) : isBlank c = false := by
  rw [skipBlanks, rest_skipWhile] at h
  have hhead := List.head?_dropWhile_not isBlank cur.rest
  rw [h] at hhead
  exact hhead

theorem trailing_skipBlanks (cur : Cursor) : trailing (skipBlanks cur) = trailing cur := by
  have hskip : skipBlanks (skipBlanks cur) = skipBlanks cur := by
    generalize hx : skipBlanks cur = x
    obtain ⟨m, _ | ⟨c, rest⟩⟩ := x
    · rfl
    · exact skipBlanks_of_not (not_isBlank_skipBlanks (congrArg Cursor.rest hx))
  rw [trailing, hskip, trailing]

/-- Where a comment or a newline comes next, the line is over. -/
theorem statements_of_not_solid (hne : (skipBlanks cur).rest ≠ [])
    (hsolid : ¬Solid (skipBlanks cur).rest) (fuel : Nat) :
    statements (fuel + 1) cur = (trailing cur).bind (statements fuel) := by
  rw [← trailing_skipBlanks, statements]
  generalize hx : skipBlanks cur = x at hne hsolid
  obtain ⟨m, _ | ⟨c, rest⟩⟩ := x
  · exact absurd rfl hne
  · have hblank := not_isBlank_skipBlanks (congrArg Cursor.rest hx)
    have hend : c = '#' ∨ c = '\n' ∨ c = '\r' := by
      by_contra hnot
      rw [not_or, not_or] at hnot
      exact hsolid (solid_cons_iff.mpr (isSolid_iff.mpr ⟨hblank, hnot⟩))
    dsimp only [uncons_cons]
    rw [if_pos hend]

theorem statements_of_isSolid (h : isSolid c = true) : statements (fuel + 1) ⟨n, c :: rest⟩ =
    (statement ⟨n, c :: rest⟩).bind fun found => (trailing found.2).bind fun next =>
      (statements fuel next).map (found.1 :: ·) := by
  obtain ⟨hblank, hsharp, hfeed, hreturn⟩ := isSolid_iff.mp h
  rw [statements, skipBlanks_of_not hblank]
  simp only [uncons_cons, hsharp, hfeed, hreturn, or_self, if_false, Option.bind_eq_bind,
    Option.map_eq_bind]
  rfl

theorem exists_statements_lines (h : IsLines l) (hne : l ≠ []) : ∃ more, IsLines more ∧
    more.length < l.length ∧ ∀ fuel n rest, ∃ m,
      statements (fuel + 1) ⟨n, l ++ rest⟩ = statements fuel ⟨m, more ++ rest⟩ := by
  obtain ⟨l', hl', hne', hdrop⟩ := dropBlanks_lines h hne
  cases h with
  | nil => exact absurd rfl hne
  | @cons remark mark more hremark hmark h =>
    refine ⟨more, h, ?_, fun fuel n rest => ?_⟩
    · cases hmark <;> simp <;> omega
    · obtain ⟨m, hm⟩ := nextLine_append hremark hmark n (more ++ rest)
      have hskip : (skipBlanks ⟨n, (remark ++ (mark ++ more)) ++ rest⟩).rest = l' ++ rest := by
        rw [skipBlanks, rest_skipWhile]
        exact hdrop rest
      refine ⟨m, ?_⟩
      rw [statements_of_not_solid]
      · rw [List.append_assoc, List.append_assoc, trailing_of_nextLine hm]
        rfl
      · rw [hskip]
        simp [hne']
      · rw [hskip]
        exact not_solid_lines hl' hne' rest

theorem statements_nil (fuel n : Nat) : statements (fuel + 1) ⟨n, []⟩ = some [] := rfl

theorem statements_remark (h : IsRemark remark) (hfuel : remark.length < fuel + 1) (n : Nat) :
    statements (fuel + 1) ⟨n, remark⟩ = some [] := by
  have hskip : IsRemark (skipBlanks ⟨n, remark⟩).rest := by
    rw [skipBlanks, rest_skipWhile]
    exact h.dropWhile
  by_cases hne : (skipBlanks ⟨n, remark⟩).rest = []
  · obtain ⟨m, hm⟩ := Cursor.exists_offset hne
    rw [statements, hm]
    rfl
  · have hsolid : ¬Solid (skipBlanks ⟨n, remark⟩).rest := not_solid_ending (isEnding_remark hskip)
    obtain ⟨m, hm⟩ := trailing_remark h n
    have hlength := length_skipBlanks_le ⟨n, remark⟩
    have hpos := List.length_pos_iff.mpr hne
    obtain ⟨fuel, rfl⟩ := Nat.exists_eq_succ_of_ne_zero (n := fuel) (by simp only at hlength; omega)
    rw [statements_of_not_solid hne hsolid, hm]
    exact statements_nil fuel m

theorem statements_ending (h : IsEnding rest) (hfuel : rest.length < fuel) (n : Nat) :
    statements fuel ⟨n, rest⟩ = some [] := by
  induction hk : rest.length using Nat.strong_induction_on generalizing rest fuel n with
  | _ k ih =>
    obtain ⟨fuel, rfl⟩ := Nat.exists_eq_succ_of_ne_zero (Nat.ne_zero_of_lt hfuel)
    obtain ⟨hlines, hremark⟩ := h
    rename_i lines remark
    by_cases hne : lines = []
    · subst hne
      rw [List.nil_append] at hfuel ⊢
      exact statements_remark hremark hfuel n
    · obtain ⟨more, hmore, hlt, hstep⟩ := exists_statements_lines hlines hne
      obtain ⟨m, hm⟩ := hstep fuel n remark
      have hlength : (more ++ remark).length < (lines ++ remark).length := by
        rw [List.length_append, List.length_append]
        omega
      rw [Nat.succ_eq_add_one, hm]
      exact ih _ (hk ▸ hlength) (.intro hmore hremark) (by omega) m rfl

theorem length_lineEnd_le {next : Cursor} (h : lineEnd cur = some next) :
    next.rest.length ≤ cur.rest.length := by
  rw [lineEnd] at h
  split at h
  · cases h
    exact Nat.le_refl _
  · exact Nat.le_of_lt (length_lt_of_newline h)

theorem length_trailing_lt {next : Cursor} (hne : (skipBlanks cur).rest ≠ [])
    (h : trailing cur = some next) : next.rest.length < cur.rest.length := by
  have hblanks := length_skipBlanks_le cur
  rw [trailing] at h
  generalize skipBlanks cur = x at hne h hblanks
  obtain ⟨m, _ | ⟨c, rest⟩⟩ := x
  · exact absurd rfl hne
  by_cases hc : c = '#'
  · subst hc
    have hend := length_lineEnd_le h
    have hcomment := List.length_dropWhile_le isPlain rest
    rw [rest_skipComment] at hend
    simp only [List.length_cons] at hblanks
    omega
  · rw [skipComment_of_ne hc] at h
    have hlt : next.rest.length < (c :: rest).length := length_lt_of_newline h
    simp only at hblanks
    omega

end Line

theorem SameStatements.cons {first first' : Statement} {more more' : List Statement}
    (hfirst : SameStatement first first') (h : SameStatements more more') :
    SameStatements (first :: more) (first' :: more') := List.cons_eq_cons.mpr ⟨hfirst, h⟩

/-- The same is stated behind places with less text behind them. -/
def SameBelow (bound : Nat) : Prop :=
  ∀ (a b : Cursor) (fuel fuel' : Nat), a.rest.length + b.rest.length < bound →
    a.rest.length < fuel → b.rest.length < fuel' → AlikeFromLine a.rest b.rest →
    Option.Rel SameStatements (statements fuel a) (statements fuel' b)

section Below

variable {x y l l' : List Char} {c : Char} {n m fuel fuel' : Nat}

/-- A line that says nothing is passed over on its own side. -/
theorem SameBelow.linesLeft (ih : SameBelow ((l ++ x).length + (l' ++ y).length)) (hl : IsLines l)
    (hne : l ≠ []) (hl' : IsLines l') (h : AlikeButRemarks x y)
    (hfuel : (l ++ x).length < fuel + 1) (hfuel' : (l' ++ y).length < fuel') :
    Option.Rel SameStatements (statements (fuel + 1) ⟨n, l ++ x⟩)
      (statements fuel' ⟨m, l' ++ y⟩) := by
  obtain ⟨more, hmore, hlt, hstep⟩ := exists_statements_lines hl hne
  obtain ⟨k, hk⟩ := hstep fuel n x
  rw [hk]
  simp only [List.length_append] at hfuel
  refine ih _ _ _ _ ?_ ?_ hfuel' (.intro hmore hl' h)
  · simp only [List.length_append]
    omega
  · simp only [List.length_append]
    omega

theorem SameBelow.linesRight (ih : SameBelow (x.length + (l ++ y).length)) (hl : IsLines l)
    (hne : l ≠ []) (h : AlikeButRemarks x y)
    (hfuel : x.length < fuel) (hfuel' : (l ++ y).length < fuel' + 1) :
    Option.Rel SameStatements (statements fuel ⟨n, x⟩) (statements (fuel' + 1) ⟨m, l ++ y⟩) := by
  obtain ⟨more, hmore, hlt, hstep⟩ := exists_statements_lines hl hne
  obtain ⟨k, hk⟩ := hstep fuel' m y
  rw [hk]
  simp only [List.length_append] at hfuel'
  refine ih _ _ _ _ ?_ hfuel ?_ (.intro .nil hmore h)
  · simp only [List.length_append]
    omega
  · simp only [List.length_append]
    omega

theorem SameBelow.blank (ih : SameBelow ((c :: x).length + (c :: y).length))
    (hc : isBlank c = true) (h : AlikeButRemarks x y)
    (hfuel : (c :: x).length < fuel + 1) (hfuel' : (c :: y).length < fuel' + 1) :
    Option.Rel SameStatements (statements (fuel + 1) ⟨n, c :: x⟩)
      (statements (fuel' + 1) ⟨m, c :: y⟩) := by
  rw [statements_blank hc, statements_blank hc]
  simp only [List.length_cons] at hfuel hfuel'
  refine ih _ _ _ _ ?_ ?_ ?_ h.fromLine
  · simp only [List.length_cons]
    omega
  · simp only
    omega
  · simp only
    omega

theorem SameBelow.statement (ih : SameBelow ((c :: x).length + (c :: y).length))
    (hc : isSolid c = true) (h : AlikeButRemarks (c :: x) (c :: y))
    (hfuel : (c :: x).length < fuel + 1) (hfuel' : (c :: y).length < fuel' + 1) :
    Option.Rel SameStatements (statements (fuel + 1) ⟨n, c :: x⟩)
      (statements (fuel' + 1) ⟨m, c :: y⟩) := by
  rw [statements_of_isSolid hc, statements_of_isSolid hc]
  refine rel_bind (rel_statement (a := ⟨n, c :: x⟩) (b := ⟨m, c :: y⟩) h) ?_
  rintro ⟨first, a₁⟩ ⟨first', b₁⟩ ⟨hfirst, h₁⟩
  dsimp only at h₁ ⊢
  refine rel_bind (rel_trailing h₁.alike) fun a₂ b₂ h₂ => ?_
  have hlt : a₁.rest.length < (c :: x).length := h₁.left
  have hlt' : b₁.rest.length < (c :: y).length := h₁.right
  have hle := h₂.left
  have hle' := h₂.right
  refine rel_map (ih _ _ _ _ ?_ ?_ ?_ h₂.alike) fun _ _ => SameStatements.cons hfirst
  · omega
  · omega
  · omega

/-- A comment or a newline, the same on both sides. -/
theorem SameBelow.lineOver (ih : SameBelow (x.length + x.length))
    (hne : (skipBlanks ⟨n, x⟩).rest ≠ []) (hsolid : ¬Solid (skipBlanks ⟨n, x⟩).rest)
    (hfuel : x.length < fuel + 1) (hfuel' : x.length < fuel' + 1) :
    Option.Rel SameStatements (statements (fuel + 1) ⟨n, x⟩) (statements (fuel' + 1) ⟨m, x⟩) := by
  have hskip : (skipBlanks ⟨m, x⟩).rest = (skipBlanks ⟨n, x⟩).rest := Abreast.skipBlanks rfl
  rw [statements_of_not_solid hne hsolid,
    statements_of_not_solid (hskip.symm ▸ hne) (hskip.symm ▸ hsolid)]
  have htrailing := rel_trailing (x := ⟨n, x⟩) (y := ⟨m, x⟩) (.same x)
  rcases rel_cases htrailing with ⟨ha, hb⟩ | ⟨a₁, b₁, ha, hb, h₁⟩
  · rw [ha, hb]
    exact .none
  · have hlt : a₁.rest.length < x.length := length_trailing_lt hne ha
    have hlt' : b₁.rest.length < x.length := length_trailing_lt (hskip.symm ▸ hne) hb
    rw [ha, hb]
    refine ih _ _ _ _ ?_ ?_ ?_ h₁.alike
    · omega
    · omega
    · omega

end Below

theorem sameBelow (bound : Nat) : SameBelow bound := by
  induction bound with
  | zero => exact fun a b fuel fuel' h => absurd h (Nat.not_lt_zero _)
  | succ bound ih =>
    rintro ⟨n, x⟩ ⟨m, y⟩ fuel fuel' hbound hfuel hfuel' h
    dsimp only at hbound hfuel hfuel' h
    have ih : SameBelow (x.length + y.length) :=
      fun a b fuel fuel' hlt => ih a b fuel fuel' (by omega)
    obtain ⟨fuel, rfl⟩ := Nat.exists_eq_succ_of_ne_zero (Nat.ne_zero_of_lt hfuel)
    obtain ⟨fuel', rfl⟩ := Nat.exists_eq_succ_of_ne_zero (Nat.ne_zero_of_lt hfuel')
    obtain ⟨hl, hl', h⟩ := h
    rename_i l l' x y
    by_cases hne : l ≠ []
    · exact ih.linesLeft hl hne hl' h hfuel hfuel'
    rw [not_not] at hne
    subst hne
    by_cases hne' : l' ≠ []
    · exact ih.linesRight hl' hne' h hfuel hfuel'
    rw [not_not] at hne'
    subst hne'
    rw [List.nil_append] at ih hfuel
    rw [List.nil_append] at ih hfuel'
    rw [List.nil_append, List.nil_append]
    cases h with
    | same x =>
      cases x with
      | nil => exact .some rfl
      | cons c x =>
        cases hblank : isBlank c with
        | true => exact ih.blank hblank (.same x) hfuel hfuel'
        | false =>
          by_cases hsolid : isSolid c = true
          · exact ih.statement hsolid (.same _) hfuel hfuel'
          · have hskip : (skipBlanks ⟨n, c :: x⟩).rest = c :: x := by
              rw [skipBlanks_of_not hblank]
            refine ih.lineOver ?_ ?_ hfuel hfuel'
            · rw [hskip]
              exact List.cons_ne_nil c x
            · rw [hskip, solid_cons_iff]
              exact hsolid
    | @char c x y hc h =>
      cases hblank : isBlank c with
      | true => exact ih.blank hblank h hfuel hfuel'
      | false =>
        exact ih.statement (isSolid_of_not_isBlank hc hblank) (.char hc h) hfuel hfuel'
    | @string q x y hq hx hy h =>
      obtain ⟨quote, rest, hquote, rfl⟩ := hq.exists_quote
      exact ih.statement (isSolid_of_isQuote hquote) (.string hq hx hy h) hfuel hfuel'
    | lines hl hl' hne _ h => exact ih.linesLeft hl hne hl' h hfuel hfuel'
    | ending hx hy =>
      rw [statements_ending hx hfuel, statements_ending hy hfuel']
      exact .some rfl

end Statement

/-! ### Documents -/

/-- Documents that differ in comments, empty lines, the blanks at the ends of lines and the byte
order mark only. -/
def AlikeDocuments (text text' : List Char) : Prop :=
  AlikeFromLine (beginning text).rest (beginning text').rest

section Document

variable {text text' : List Char}

theorem rest_beginning_mark (text : List Char) : (beginning ('\uFEFF' :: text)).rest = text := rfl

theorem rest_beginning_of_head?_ne (h : text.head? ≠ some '\uFEFF') :
    (beginning text).rest = text := by
  cases text with
  | nil => rfl
  | cons c text =>
    have hc : c ≠ '\uFEFF' := fun hc => h (congrArg some hc)
    rw [beginning, Cursor.ofText, expect_cons, if_neg hc]
    rfl

/-- A byte order mark in front of a text that has none makes no difference. -/
theorem alikeDocuments_mark (h : text.head? ≠ some '\uFEFF') :
    AlikeDocuments text ('\uFEFF' :: text) := by
  rw [AlikeDocuments, rest_beginning_mark, rest_beginning_of_head?_ne h]
  exact (AlikeButRemarks.same text).fromLine

theorem length_beginning_le (text : List Char) : (beginning text).rest.length ≤ text.length := by
  by_cases h : text.head? = some '\uFEFF'
  · obtain ⟨more, rfl⟩ := List.head?_eq_some_iff.mp h
    exact Nat.le_succ _
  · rw [rest_beginning_of_head?_ne h]

theorem rel_statementsOf (h : AlikeDocuments text text') :
    Option.Rel SameStatements (statementsOf text) (statementsOf text') :=
  sameBelow _ _ _ _ _ (Nat.lt_succ_self _) (Nat.lt_succ_of_le (length_beginning_le text))
    (Nat.lt_succ_of_le (length_beginning_le text')) h

/-- What is read of documents that are alike is the same but for its places. -/
theorem parse_unplaced_of_alike (h : AlikeDocuments text text') :
    (parse text).map Entries.unplaced = (parse text').map Entries.unplaced := by
  apply parse_unplaced_congr
  rcases rel_cases (rel_statementsOf h) with ⟨hx, hy⟩ | ⟨ss, ss', hx, hy, hss⟩
  · rw [hx, hy]
  · rw [hx, hy]
    exact congrArg some hss

end Document

end Toml

end MarkupAudit
