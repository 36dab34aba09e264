import MarkupAudit.Proofs.Toml.Blank
import MarkupAudit.Toml.Quotation

/-!
Reading strings does not look beyond them. What is read from the beginning of a text is read from it
with more text behind, wherever it stands (`quotation_reads_on`); only a further quote right behind a
string could belong to it.
-/

namespace MarkupAudit

namespace Cursor

variable {cur next : Cursor} {c : Char} {word rest : List Char}

theorem exists_offset (h : cur.rest = rest) : ∃ n, cur = ⟨n, rest⟩ := by
  subst h
  exact ⟨cur.offset, rfl⟩

theorem rest_eq_of_expect (h : cur.expect c = some next) : cur.rest = c :: next.rest := by
  obtain ⟨n, _ | ⟨d, rest⟩⟩ := cur
  · cases h
  rw [expect_cons] at h
  split at h
  · rename_i hd
    cases h
    rw [hd]
  · cases h

theorem exists_expect (h : cur.rest = c :: rest) : ∃ m, cur.expect c = some ⟨m, rest⟩ := by
  obtain ⟨n, _⟩ := cur
  obtain rfl : _ = c :: rest := h
  exact ⟨_, if_pos rfl⟩

theorem rest_eq_of_expectAll (h : expectAll word cur = some next) :
    cur.rest = word ++ next.rest := by
  induction word generalizing cur with
  | nil =>
    cases h
    rfl
  | cons c word ih =>
    obtain ⟨behind, hc, h⟩ := Option.bind_eq_some_iff.mp h
    rw [rest_eq_of_expect hc, ih h, List.cons_append]

theorem exists_expectAll {text : List Char} (h : text = word ++ rest) (n : Nat) :
    ∃ m, expectAll word ⟨n, text⟩ = some ⟨m, rest⟩ := by
  induction word generalizing text n with
  | nil => exact ⟨n, by rw [h]; rfl⟩
  | cons c word ih =>
    obtain ⟨m, hm⟩ := ih rfl (n + c.utf8Size)
    refine ⟨m, ?_⟩
    rw [h, List.cons_append, expectAll, expect_cons, if_pos rfl]
    exact hm

end Cursor

namespace Toml

open Cursor (uncons_cons expect_cons rest_skipWhile fst_takeWhile rest_takeWhile)

/-- No quote comes next. -/
def Unquoted (rest : List Char) : Prop := rest.head? ≠ some '"' ∧ rest.head? ≠ some '\''

/-- The second result is the first with more text behind it. -/
def ReadsOn {α : Type} (more : List Char) (result result' : Option (α × Cursor)) : Prop :=
  ∀ a next, result = some (a, next) → ∃ m, result' = some (a, ⟨m, next.rest ++ more⟩)

namespace ReadsOn

variable {α β : Type} {more : List Char} {x x' y y' : Option (α × Cursor)}

theorem none : ReadsOn more Option.none y := by
  intro a next h
  cases h

theorem read {a : α} {n m : Nat} {text : List Char} :
    ReadsOn more (some (a, ⟨n, text⟩)) (some (a, ⟨m, text ++ more⟩)) := by
  intro a next h
  cases h
  exact ⟨m, rfl⟩

theorem bind {f g : α × Cursor → Option (β × Cursor)} (h : ReadsOn more x y)
    (hfg : ∀ a n m text, ReadsOn more (f (a, ⟨n, text⟩)) (g (a, ⟨m, text ++ more⟩))) :
    ReadsOn more (x.bind f) (y.bind g) := by
  intro b last hb
  obtain ⟨⟨a, next⟩, ha, hb⟩ := Option.bind_eq_some_iff.mp hb
  obtain ⟨m, hm⟩ := h a next ha
  rw [hm, Option.bind_some]
  exact hfg a next.offset m next.rest b last hb

theorem ite {p : Prop} [Decidable p] (h : ReadsOn more x y) (h' : ReadsOn more x' y') :
    ReadsOn more (if p then x else x') (if p then y else y') := by
  split
  · exact h
  · exact h'

end ReadsOn

section Escape

variable {n m fuel fuel' acc : Nat} {text more : List Char}

theorem hexDigits_reads_on (count acc n m : Nat) (text more : List Char) :
    ReadsOn more (hexDigits count acc ⟨n, text⟩) (hexDigits count acc ⟨m, text ++ more⟩) := by
  induction count generalizing acc n m text with
  | zero => exact .read
  | succ count ih =>
    cases text with
    | nil => exact .none
    | cons c text =>
      rw [List.cons_append, hexDigits, hexDigits, uncons_cons, uncons_cons]
      simp only [Option.bind_eq_bind, Option.bind_some]
      cases hexDigit? c with
      | none => exact .none
      | some digit => exact ih _ _ _ text

theorem codePoint_reads_on (count n m : Nat) (text more : List Char) :
    ReadsOn more (codePoint count ⟨n, text⟩) (codePoint count ⟨m, text ++ more⟩) :=
  .bind (hexDigits_reads_on count 0 n m text more) fun _ _ _ _ => .ite .read .none

theorem escape_reads_on (n m : Nat) (text more : List Char) :
    ReadsOn more (escape ⟨n, text⟩) (escape ⟨m, text ++ more⟩) := by
  cases text with
  | nil => exact .none
  | cons c text =>
    rw [List.cons_append, escape, escape, uncons_cons, uncons_cons]
    simp only [Option.bind_eq_bind, Option.bind_some]
    split
    case h_8 => exact codePoint_reads_on 4 _ _ text more
    case h_9 => exact codePoint_reads_on 8 _ _ text more
    case h_10 => exact .none
    all_goals exact .read

end Escape

section Short

variable {n fuel : Nat} {q : Char} {text more v : List Char} {next : Cursor}

/-- More of a bound is as good. -/
theorem basicText_reads_on {fuel fuel' : Nat} (hfuel : fuel ≤ fuel') (n m : Nat)
    (text more : List Char) :
    ReadsOn more (basicText fuel ⟨n, text⟩) (basicText fuel' ⟨m, text ++ more⟩) := by
  induction fuel generalizing fuel' n m text with
  | zero => exact .none
  | succ fuel ih =>
    obtain ⟨fuel', rfl⟩ := Nat.exists_eq_succ_of_ne_zero (Nat.ne_zero_of_lt hfuel)
    have hrest := ih (Nat.le_of_succ_le_succ hfuel)
    cases text with
    | nil => exact .none
    | cons c text =>
      rw [List.cons_append, basicText, basicText, uncons_cons, uncons_cons]
      simp only [Option.bind_eq_bind, Option.bind_some]
      refine .ite .read (.ite ?_ (.ite ?_ .none))
      · refine .bind (escape_reads_on _ _ text more) fun x n m after => ?_
        exact .bind (hrest n m after) fun _ _ _ _ => .read
      · exact .bind (hrest _ _ text) fun _ _ _ _ => .read

/-- What stands for itself between single quotes. -/
def isLiteral (c : Char) : Bool := isPlain c && c != '\''

theorem literalText_eq (cur : Cursor) : literalText cur =
    ((cur.takeWhile isLiteral).2.expect '\'').map fun next => (cur.rest.takeWhile isLiteral, next) := by
  rw [← fst_takeWhile, Option.map_eq_bind]
  rfl

theorem literalText_reads_on (n m : Nat) (text more : List Char) :
    ReadsOn more (literalText ⟨n, text⟩) (literalText ⟨m, text ++ more⟩) := by
  intro v next h
  rw [literalText_eq] at h
  obtain ⟨last, hlast, h⟩ := Option.map_eq_some_iff.mp h
  cases h
  have hrest := Cursor.rest_eq_of_expect hlast
  rw [rest_takeWhile] at hrest
  dsimp only at hrest
  have hall : ∀ c ∈ text.takeWhile isLiteral, isLiteral c = true :=
    fun c hc => List.mem_takeWhile_imp hc
  have htext : text ++ more = text.takeWhile isLiteral ++ ('\'' :: (next.rest ++ more)) := by
    rw [← List.cons_append, ← List.append_assoc, ← hrest, List.takeWhile_append_dropWhile]
  have htake : (text ++ more).takeWhile isLiteral = text.takeWhile isLiteral := by
    rw [htext, List.takeWhile_append_of_pos hall]
    exact List.append_nil _
  have hdrop : (text ++ more).dropWhile isLiteral = '\'' :: (next.rest ++ more) := by
    rw [htext, List.dropWhile_append_of_pos hall]
    rfl
  obtain ⟨k, hk⟩ := Cursor.exists_expect ((rest_takeWhile isLiteral ⟨m, text ++ more⟩).trans hdrop)
  refine ⟨k, ?_⟩
  rw [literalText_eq, hk, Option.map_some, htake]

theorem shortQuotation_reads_on (n m : Nat) (text more : List Char) :
    ReadsOn more (shortQuotation ⟨n, text⟩) (shortQuotation ⟨m, text ++ more⟩) := by
  cases text with
  | nil => exact .none
  | cons c text =>
    rw [List.cons_append, shortQuotation, shortQuotation, uncons_cons, uncons_cons]
    simp only [Option.bind_eq_bind, Option.bind_some]
    refine .ite (basicText_reads_on ?_ _ _ text more) (.ite ?_ .none)
    · rw [List.length_append]
      exact Nat.le_add_right _ _
    · exact literalText_reads_on _ _ text more

end Short

section Long

variable {quote : Char} {text more v : List Char} {next : Cursor} {n : Nat}

/-- The length of the run of quotes that counts at a place. -/
def quoteRun (quote : Char) (text : List Char) : Nat :=
  min 5 (text.takeWhile (· == quote)).length

theorem quoteRun_append (h : more.head? ≠ some quote) (text : List Char) :
    quoteRun quote (text ++ more) = quoteRun quote text := by
  have htake : (text ++ more).takeWhile (· == quote) = text.takeWhile (· == quote) := by
    induction text with
    | nil =>
      cases more with
      | nil => rfl
      | cons c more =>
        have hc : c ≠ quote := fun hc => h (congrArg some hc)
        simp [hc]
    | cons c text ih => rw [List.cons_append, List.takeWhile_cons, List.takeWhile_cons, ih]
  rw [quoteRun, quoteRun, htake]

theorem quoteRun_spec (quote : Char) (text : List Char) :
    text = List.replicate (quoteRun quote text) quote ++ text.drop (quoteRun quote text) := by
  have hall : text.takeWhile (· == quote) =
      List.replicate (text.takeWhile (· == quote)).length quote :=
    List.eq_replicate_iff.mpr ⟨rfl, fun c hc =>
      eq_of_beq (List.mem_takeWhile_imp (p := (· == quote)) hc)⟩
  have hle : quoteRun quote text ≤ (text.takeWhile (· == quote)).length := Nat.min_le_right 5 _
  have htake : text.take (quoteRun quote text) = List.replicate (quoteRun quote text) quote := by
    calc text.take (quoteRun quote text)
        = (text.takeWhile (· == quote)).take (quoteRun quote text) := by
          rw [← List.take_append_of_le_length hle, List.takeWhile_append_dropWhile]
      _ = List.replicate (quoteRun quote text) quote := by
          rw [hall, List.take_replicate, Nat.min_eq_left hle]
  rw [← htake, List.take_append_drop]

theorem closing_eq (quote : Char) (n : Nat) (text : List Char) : ∃ m, closing quote ⟨n, text⟩ =
    if quoteRun quote text < 3 then none
    else some (List.replicate (quoteRun quote text - 3) quote,
      ⟨m, text.drop (quoteRun quote text)⟩) := by
  obtain ⟨m, hm⟩ := Cursor.exists_expectAll (quoteRun_spec quote text) n
  refine ⟨m, ?_⟩
  rw [closing, fst_takeWhile]
  change (if quoteRun quote text < 3 then none else _) = _
  split
  · rfl
  · change (Cursor.expectAll (List.replicate (quoteRun quote text) quote) ⟨n, text⟩).bind _ = _
    rw [hm]
    rfl

theorem closing_of_lt (h : quoteRun quote text < 3) (n : Nat) : closing quote ⟨n, text⟩ = none := by
  obtain ⟨m, hm⟩ := closing_eq quote n text
  rw [hm, if_pos h]

theorem quoteRun_le_length (quote : Char) (text : List Char) :
    quoteRun quote text ≤ text.length := by
  have hspec := congrArg List.length (quoteRun_spec quote text)
  rw [List.length_append, List.length_replicate] at hspec
  omega

/-- What follows decides whether there is a newline. -/
def Firm (text : List Char) : Prop := text ≠ [] ∧ text ≠ ['\r']

theorem newline_reads_on {cur : Cursor} (h : newline cur = some next) (m : Nat)
    (more : List Char) : ∃ k, newline ⟨m, cur.rest ++ more⟩ = some ⟨k, next.rest ++ more⟩ := by
  obtain ⟨mark, hmark, hrest⟩ := exists_newline h
  rw [hrest, List.append_assoc]
  exact newline_append hmark m _

theorem newline_append_eq_none {cur : Cursor} (hfirm : Firm cur.rest) (h : newline cur = none)
    (m : Nat) (more : List Char) : newline ⟨m, cur.rest ++ more⟩ = none := by
  obtain ⟨n, text⟩ := cur
  cases hfound : newline ⟨m, text ++ more⟩ with
  | none => rfl
  | some next =>
    exfalso
    obtain ⟨mark, hmark, hrest⟩ := exists_newline hfound
    have hsplit : ∃ rest, text = mark ++ rest := by
      cases text with
      | nil => exact absurd rfl hfirm.1
      | cons c text =>
        cases hmark with
        | lineFeed => exact ⟨text, by rw [(List.cons.inj hrest).1]; rfl⟩
        | withReturn =>
          obtain ⟨rfl, htail⟩ := List.cons.inj hrest
          cases text with
          | nil => exact absurd rfl hfirm.2
          | cons d text => exact ⟨text, by rw [(List.cons.inj htail).1]; rfl⟩
    obtain ⟨rest, rfl⟩ := hsplit
    obtain ⟨k, hk⟩ := newline_append hmark n rest
    rw [hk] at h
    cases h

theorem skipBlanks_reads_on (h : (skipBlanks ⟨n, text⟩).rest ≠ []) (m : Nat)
    (more : List Char) :
    ∃ k, skipBlanks ⟨m, text ++ more⟩ = ⟨k, (skipBlanks ⟨n, text⟩).rest ++ more⟩ := by
  apply Cursor.exists_offset
  rw [skipBlanks, rest_skipWhile] at h ⊢
  rw [skipBlanks, rest_skipWhile]
  dsimp only at h ⊢
  rw [List.dropWhile_append, if_neg (by simpa using h)]

theorem skipEmptyLines_reads_on {fuel fuel' : Nat} (hfuel : fuel ≤ fuel')
    (hlength : text.length < fuel) (h : Firm (skipEmptyLines fuel ⟨n, text⟩).rest) (m : Nat)
    (more : List Char) : ∃ k, skipEmptyLines fuel' ⟨m, text ++ more⟩ =
      ⟨k, (skipEmptyLines fuel ⟨n, text⟩).rest ++ more⟩ := by
  induction fuel generalizing fuel' n m text with
  | zero => cases hlength
  | succ fuel ih =>
    obtain ⟨fuel', rfl⟩ := Nat.exists_eq_succ_of_ne_zero (Nat.ne_zero_of_lt hfuel)
    rw [skipEmptyLines] at h ⊢
    rw [skipEmptyLines]
    cases hnext : newline (skipBlanks ⟨n, text⟩) with
    | none =>
      rw [hnext] at h
      dsimp only at h ⊢
      obtain ⟨k, hk⟩ := skipBlanks_reads_on h.1 m more
      rw [hk, newline_append_eq_none h hnext k more]
      exact ⟨k, rfl⟩
    | some next =>
      rw [hnext] at h
      dsimp only at h ⊢
      have hlt := length_lt_of_newline hnext
      have hle := length_skipBlanks_le ⟨n, text⟩
      have hblanks : (skipBlanks ⟨n, text⟩).rest ≠ [] := by
        intro hnil
        rw [hnil] at hlt
        cases hlt
      obtain ⟨k, hk⟩ := skipBlanks_reads_on hblanks m more
      obtain ⟨l, hl⟩ := newline_reads_on hnext k more
      rw [hk, hl]
      exact ih (Nat.le_of_succ_le_succ hfuel) (by simp only at hle; omega) h l

theorem foldedLine_reads_on {after : Cursor} (h : foldedLine ⟨n, text⟩ = some after)
    (hfirm : Firm after.rest) (m : Nat) (more : List Char) :
    ∃ k, foldedLine ⟨m, text ++ more⟩ = some ⟨k, after.rest ++ more⟩ := by
  obtain ⟨next, hnext, h⟩ := Option.bind_eq_some_iff.mp h
  cases h
  have hlt := length_lt_of_newline hnext
  have hblanks : (skipBlanks ⟨n, text⟩).rest ≠ [] := by
    intro hnil
    rw [hnil] at hlt
    cases hlt
  obtain ⟨k, hk⟩ := skipBlanks_reads_on hblanks m more
  obtain ⟨l, hl⟩ := newline_reads_on hnext k more
  have hfuel : next.rest.length + 1 ≤ (next.rest ++ more).length + 1 := by
    rw [List.length_append]
    omega
  obtain ⟨j, hj⟩ := skipEmptyLines_reads_on hfuel (Nat.lt_succ_self _) hfirm l more
  refine ⟨j, ?_⟩
  rw [foldedLine, hk]
  change (newline _).bind _ = _
  rw [hl]
  exact congrArg some hj

/-- What can be escaped otherwise is no blank and no newline. -/
theorem foldedLine_eq_none_of_escape {x : Char} {after : Cursor}
    (h : escape ⟨n, text⟩ = some (x, after)) : foldedLine ⟨n, text⟩ = none := by
  cases text with
  | nil => cases h
  | cons c text =>
    have hc : isBlank c = false ∧ c ≠ '\n' ∧ c ≠ '\r' := by
      rw [escape, uncons_cons] at h
      simp only [Option.bind_eq_bind, Option.bind_some] at h
      split at h
      case h_10 => cases h
      all_goals decide
    rw [foldedLine, skipBlanks_of_not hc.1, newline_of_ne hc.2.1 hc.2.2]
    rfl

theorem firm_of_longText {escapes : Bool} {fuel : Nat}
    (h : longText quote escapes fuel ⟨n, text⟩ = some (v, next)) : Firm text := by
  cases fuel with
  | zero => cases h
  | succ fuel =>
    have hshort (hlength : text.length < 3) : closing quote ⟨n, text⟩ = none :=
      closing_of_lt (Nat.lt_of_le_of_lt (quoteRun_le_length quote text) hlength) n
    constructor
    · rintro rfl
      rw [longText, hshort (by decide)] at h
      cases h
    · rintro rfl
      rw [longText, hshort (by decide)] at h
      cases h

/-- One letter of the text, and what the rest of it is read to. -/
theorem longText_cons_reads_on {escapes : Bool} {fuel fuel' : Nat} {c : Char}
    (ih : ∀ n m text, ReadsOn more (longText quote escapes fuel ⟨n, text⟩)
      (longText quote escapes fuel' ⟨m, text ++ more⟩))
    (hclosing : closing quote ⟨n, c :: text⟩ = none)
    (hclosing' : closing quote ⟨m, c :: (text ++ more)⟩ = none) :
    ReadsOn more (longText quote escapes (fuel + 1) ⟨n, c :: text⟩)
      (longText quote escapes (fuel' + 1) ⟨m, c :: (text ++ more)⟩) := by
  rw [longText, longText, hclosing, hclosing', uncons_cons, uncons_cons]
  simp only [Option.bind_eq_bind, Option.bind_some]
  refine .ite ?_ (.ite ?_ ?_)
  · -- Where an escape is read no line is folded, and none is with more text behind it.
    intro v next h
    split at h
    · rename_i after hafter
      obtain ⟨j, hj⟩ := foldedLine_reads_on hafter (firm_of_longText h) (m + c.utf8Size) more
      rw [hj]
      exact ih after.offset j after.rest v next h
    · have hescape := escape_reads_on (n + c.utf8Size) (m + c.utf8Size) text more
      obtain ⟨⟨x, after⟩, hx, -⟩ := Option.bind_eq_some_iff.mp h
      obtain ⟨j, hj⟩ := hescape x after hx
      rw [foldedLine_eq_none_of_escape hj]
      refine hescape.bind (fun x n m after => ?_) v next h
      exact .bind (ih n m after) fun _ _ _ _ => .read
  · exact .bind (ih _ _ text) fun _ _ _ _ => .read
  · intro v next h
    obtain ⟨after, hafter, h⟩ := Option.bind_eq_some_iff.mp h
    obtain ⟨j, hj⟩ := newline_reads_on hafter m more
    rw [List.cons_append] at hj
    rw [hj, Option.bind_some]
    refine ReadsOn.bind (ih after.offset j after.rest) (fun _ _ _ _ => ?_) v next h
    exact .read

theorem longText_reads_on {escapes : Bool} {fuel fuel' : Nat} (hfuel : fuel ≤ fuel')
    (hmore : more.head? ≠ some quote) (n m : Nat) (text : List Char) :
    ReadsOn more (longText quote escapes fuel ⟨n, text⟩)
      (longText quote escapes fuel' ⟨m, text ++ more⟩) := by
  induction fuel generalizing fuel' n m text with
  | zero => exact .none
  | succ fuel ih =>
    obtain ⟨fuel', rfl⟩ := Nat.exists_eq_succ_of_ne_zero (Nat.ne_zero_of_lt hfuel)
    have hfuel := Nat.le_of_succ_le_succ hfuel
    obtain ⟨k, hclosing⟩ := closing_eq quote n text
    obtain ⟨k', hclosing'⟩ := closing_eq quote m (text ++ more)
    rw [quoteRun_append hmore] at hclosing'
    by_cases hrun : quoteRun quote text < 3
    · rw [if_pos hrun] at hclosing hclosing'
      cases text with
      | nil =>
        intro v next h
        rw [longText, hclosing] at h
        cases h
      | cons c text => exact longText_cons_reads_on (ih hfuel) hclosing hclosing'
    · rw [if_neg hrun] at hclosing hclosing'
      intro v next h
      rw [longText, hclosing] at h
      rw [longText, hclosing']
      cases h
      refine ⟨k', ?_⟩
      rw [List.drop_append_of_le_length (quoteRun_le_length quote text)]

theorem longQuotation_reads_on {escapes : Bool} (hmore : more.head? ≠ some quote) (n m : Nat)
    (text : List Char) :
    ReadsOn more (longQuotation quote escapes ⟨n, text⟩)
      (longQuotation quote escapes ⟨m, text ++ more⟩) := by
  intro v next h
  obtain ⟨inside, hinside, h⟩ := Option.bind_eq_some_iff.mp h
  have hrest := Cursor.rest_eq_of_expectAll hinside
  dsimp only at hrest
  have hbegin : text ++ more = [quote, quote, quote] ++ (inside.rest ++ more) := by
    rw [hrest, List.append_assoc]
  obtain ⟨k, hk⟩ := Cursor.exists_expectAll hbegin m
  have hstart : ∃ l, (newline ⟨k, inside.rest ++ more⟩).getD ⟨k, inside.rest ++ more⟩ =
      ⟨l, ((newline inside).getD inside).rest ++ more⟩ := by
    cases hnewline : newline inside with
    | none =>
      rw [hnewline] at h
      rw [newline_append_eq_none (firm_of_longText h) hnewline k more]
      exact ⟨k, rfl⟩
    | some start =>
      obtain ⟨l, hl⟩ := newline_reads_on hnewline k more
      exact ⟨l, by rw [hl]; rfl⟩
  obtain ⟨l, hl⟩ := hstart
  have hlong : longQuotation quote escapes ⟨m, text ++ more⟩ = longText quote escapes
      ((((newline inside).getD inside).rest ++ more).length + 1)
      ⟨l, ((newline inside).getD inside).rest ++ more⟩ := by
    rw [longQuotation, hk]
    change longText quote escapes (((newline ⟨k, inside.rest ++ more⟩).getD
      ⟨k, inside.rest ++ more⟩).rest.length + 1) _ = _
    rw [hl]
  rw [hlong]
  refine longText_reads_on ?_ hmore _ l _ v next h
  rw [List.length_append]
  omega

end Long

/-! ### How much is read -/

section Length

variable {α : Type} {cur next after : Cursor} {c : Char} {v : List Char} {fuel : Nat}

theorem length_lt_of_uncons (h : cur.uncons = some (c, next)) :
    next.rest.length < cur.rest.length := by
  obtain ⟨n, _ | ⟨d, rest⟩⟩ := cur
  · cases h
  · cases h
    exact Nat.lt_succ_self _

theorem length_hexDigits_le {count acc n : Nat} (h : hexDigits count acc cur = some (n, next)) :
    next.rest.length ≤ cur.rest.length := by
  induction count generalizing acc cur with
  | zero =>
    cases h
    exact Nat.le_refl _
  | succ count ih =>
    obtain ⟨⟨d, behind⟩, hd, h⟩ := Option.bind_eq_some_iff.mp h
    obtain ⟨digit, _, h⟩ := Option.bind_eq_some_iff.mp h
    exact Nat.le_trans (ih h) (Nat.le_of_lt (length_lt_of_uncons hd))

theorem length_codePoint_le {count : Nat} (h : codePoint count cur = some (c, next)) :
    next.rest.length ≤ cur.rest.length := by
  obtain ⟨⟨n, behind⟩, hn, h⟩ := Option.bind_eq_some_iff.mp h
  dsimp only at h
  split at h
  · cases h
    exact length_hexDigits_le hn
  · cases h

theorem length_escape_lt (h : escape cur = some (c, next)) :
    next.rest.length < cur.rest.length := by
  obtain ⟨⟨d, behind⟩, hd, h⟩ := Option.bind_eq_some_iff.mp h
  have hlt := length_lt_of_uncons hd
  dsimp only at h
  split at h
  case h_8 => exact Nat.lt_of_le_of_lt (length_codePoint_le h) hlt
  case h_9 => exact Nat.lt_of_le_of_lt (length_codePoint_le h) hlt
  case h_10 => cases h
  all_goals
    cases h
    exact hlt

theorem length_basicText_lt (h : basicText fuel cur = some (v, next)) :
    next.rest.length < cur.rest.length := by
  induction fuel generalizing cur v with
  | zero => cases h
  | succ fuel ih =>
    obtain ⟨⟨c, behind⟩, hc, h⟩ := Option.bind_eq_some_iff.mp h
    have hlt := length_lt_of_uncons hc
    dsimp only at h
    split at h
    · cases h
      exact hlt
    split at h
    · obtain ⟨⟨x, after⟩, hx, h⟩ := Option.bind_eq_some_iff.mp h
      obtain ⟨⟨text, last⟩, htext, h⟩ := Option.bind_eq_some_iff.mp h
      cases h
      exact Nat.lt_trans (ih htext) (Nat.lt_trans (length_escape_lt hx) hlt)
    split at h
    · obtain ⟨⟨text, last⟩, htext, h⟩ := Option.bind_eq_some_iff.mp h
      cases h
      exact Nat.lt_trans (ih htext) hlt
    · cases h

theorem length_literalText_lt (h : literalText cur = some (v, next)) :
    next.rest.length < cur.rest.length := by
  rw [literalText_eq] at h
  obtain ⟨last, hlast, h⟩ := Option.map_eq_some_iff.mp h
  cases h
  have hrest := congrArg List.length (Cursor.rest_eq_of_expect hlast)
  have hle := List.length_dropWhile_le isLiteral cur.rest
  rw [rest_takeWhile, List.length_cons] at hrest
  omega

theorem length_shortQuotation_lt (h : shortQuotation cur = some (v, next)) :
    next.rest.length < cur.rest.length := by
  obtain ⟨⟨c, behind⟩, hc, h⟩ := Option.bind_eq_some_iff.mp h
  have hlt := length_lt_of_uncons hc
  dsimp only at h
  split at h
  · exact Nat.lt_trans (length_basicText_lt h) hlt
  split at h
  · exact Nat.lt_trans (length_literalText_lt h) hlt
  · cases h

theorem length_skipEmptyLines_le (fuel : Nat) (cur : Cursor) :
    (skipEmptyLines fuel cur).rest.length ≤ cur.rest.length := by
  induction fuel generalizing cur with
  | zero => exact Nat.le_refl _
  | succ fuel ih =>
    have hblanks := length_skipBlanks_le cur
    rw [skipEmptyLines]
    cases hnext : newline (skipBlanks cur) with
    | none => exact hblanks
    | some next =>
      have hlt := length_lt_of_newline hnext
      have hle := ih next
      dsimp only
      omega

theorem length_foldedLine_lt (h : foldedLine cur = some next) :
    next.rest.length < cur.rest.length := by
  obtain ⟨behind, hbehind, h⟩ := Option.bind_eq_some_iff.mp h
  cases h
  have hblanks := length_skipBlanks_le cur
  have hlt := length_lt_of_newline hbehind
  have hle := length_skipEmptyLines_le (behind.rest.length + 1) behind
  omega

theorem length_closing_lt {quote : Char} (h : closing quote cur = some (v, next)) :
    next.rest.length < cur.rest.length := by
  obtain ⟨n, text⟩ := cur
  obtain ⟨m, hm⟩ := closing_eq quote n text
  rw [hm] at h
  split at h
  · cases h
  · cases h
    have hle := quoteRun_le_length quote text
    simp only [List.length_drop]
    omega

theorem length_longText_lt {quote : Char} {escapes : Bool}
    (h : longText quote escapes fuel cur = some (v, next)) :
    next.rest.length < cur.rest.length := by
  induction fuel generalizing cur v with
  | zero => cases h
  | succ fuel ih =>
    rw [longText] at h
    split at h
    · rename_i hclosing
      cases h
      exact length_closing_lt hclosing
    obtain ⟨⟨c, behind⟩, hc, h⟩ := Option.bind_eq_some_iff.mp h
    have hlt := length_lt_of_uncons hc
    dsimp only at h
    split at h
    · split at h
      · rename_i hfolded
        exact Nat.lt_trans (ih h) (Nat.lt_trans (length_foldedLine_lt hfolded) hlt)
      · obtain ⟨⟨x, after⟩, hx, h⟩ := Option.bind_eq_some_iff.mp h
        obtain ⟨⟨text, last⟩, htext, h⟩ := Option.bind_eq_some_iff.mp h
        cases h
        exact Nat.lt_trans (ih htext) (Nat.lt_trans (length_escape_lt hx) hlt)
    split at h
    · obtain ⟨⟨text, last⟩, htext, h⟩ := Option.bind_eq_some_iff.mp h
      cases h
      exact Nat.lt_trans (ih htext) hlt
    · obtain ⟨after, hafter, h⟩ := Option.bind_eq_some_iff.mp h
      obtain ⟨⟨text, last⟩, htext, h⟩ := Option.bind_eq_some_iff.mp h
      cases h
      exact Nat.lt_trans (ih htext) (length_lt_of_newline hafter)

theorem length_longQuotation_lt {quote : Char} {escapes : Bool}
    (h : longQuotation quote escapes cur = some (v, next)) :
    next.rest.length < cur.rest.length := by
  obtain ⟨inside, hinside, h⟩ := Option.bind_eq_some_iff.mp h
  have hrest := congrArg List.length (Cursor.rest_eq_of_expectAll hinside)
  have hlt := length_longText_lt h
  rw [List.length_append] at hrest
  cases hstart : newline inside with
  | none =>
    rw [hstart, Option.getD_none] at hlt
    omega
  | some start =>
    have hstart' := length_lt_of_newline hstart
    rw [hstart, Option.getD_some] at hlt
    omega

theorem length_quotation_lt (h : quotation cur = some (v, next)) :
    next.rest.length < cur.rest.length := by
  rcases Option.or_eq_some_iff.mp h with h | ⟨_, h⟩
  · exact length_longQuotation_lt h
  rcases Option.or_eq_some_iff.mp h with h | ⟨_, h⟩
  · exact length_longQuotation_lt h
  · exact length_shortQuotation_lt h

end Length

/-! ### Whole strings -/

section Quotation

variable {n : Nat} {quote : Char} {text more q v : List Char} {next : Cursor}

/-- A string and nothing else. -/
def IsString (q : List Char) : Prop := ∃ v n, quotation ⟨0, q⟩ = some (v, ⟨n, []⟩)

def IsQuote (c : Char) : Prop := c = '"' ∨ c = '\''

theorem Unquoted.head?_ne (h : Unquoted more) (hquote : IsQuote quote) : more.head? ≠ some quote := by
  rcases hquote with rfl | rfl
  · exact h.1
  · exact h.2

/-- What does not depend on the text behind does not depend on the place either. -/
theorem abreast_of_reads_on {α : Type} {reader : Cursor → Option (α × Cursor)}
    (h : ∀ n m text, ReadsOn [] (reader ⟨n, text⟩) (reader ⟨m, text ++ []⟩)) (n m : Nat)
    (text : List Char) : Option.Rel (fun x y => x.1 = y.1 ∧ Abreast x.2 y.2)
      (reader ⟨n, text⟩) (reader ⟨m, text⟩) := by
  simp only [List.append_nil] at h
  refine rel_of_forall (fun x hx => ?_) (fun y hy => ?_)
  · obtain ⟨k, hk⟩ := h n m text x.1 x.2 hx
    exact ⟨_, hk, rfl, (List.append_nil _).symm⟩
  · obtain ⟨k, hk⟩ := h m n text y.1 y.2 hy
    exact ⟨_, hk⟩

theorem abreast_shortQuotation (n m : Nat) (text : List Char) :
    Option.Rel (fun x y => x.1 = y.1 ∧ Abreast x.2 y.2)
      (shortQuotation ⟨n, text⟩) (shortQuotation ⟨m, text⟩) :=
  abreast_of_reads_on (fun n m text => shortQuotation_reads_on n m text []) n m text

theorem abreast_quotation (n m : Nat) (text : List Char) :
    Option.Rel (fun x y => x.1 = y.1 ∧ Abreast x.2 y.2)
      (quotation ⟨n, text⟩) (quotation ⟨m, text⟩) := by
  have hlong (quote : Char) (escapes : Bool) :
      Option.Rel (fun x y => x.1 = y.1 ∧ Abreast x.2 y.2)
        (longQuotation quote escapes ⟨n, text⟩) (longQuotation quote escapes ⟨m, text⟩) := by
    have hend : ([] : List Char).head? ≠ some quote := (Option.some_ne_none quote).symm
    exact abreast_of_reads_on (fun n m text => longQuotation_reads_on hend n m text) n m text
  exact rel_or (hlong '"' true) (rel_or (hlong '\'' false) (abreast_shortQuotation n m text))

/-- Of three quotes the first two are an empty string on one line. -/
theorem shortQuotation_empty (hquote : IsQuote quote) (n : Nat) (text : List Char) :
    ∃ m, shortQuotation ⟨n, quote :: quote :: text⟩ = some ([], ⟨m, text⟩) := by
  rcases hquote with rfl | rfl <;> exact ⟨_, rfl⟩

theorem shortQuotation_singleton (hquote : IsQuote quote) (n : Nat) :
    shortQuotation ⟨n, [quote]⟩ = none := by
  rcases hquote with rfl | rfl <;> rfl

theorem longQuotation_eq_none_of_head? {escapes : Bool} (h : text.head? ≠ some quote) (n : Nat) :
    longQuotation quote escapes ⟨n, text⟩ = none := by
  cases text with
  | nil => rfl
  | cons c text =>
    have hc : c ≠ quote := fun hc => h (congrArg some hc)
    rw [longQuotation, Cursor.expectAll, expect_cons, if_neg hc]
    rfl

theorem exists_quotes_of_longQuotation {escapes : Bool}
    (h : longQuotation quote escapes ⟨n, text⟩ = some (v, next)) :
    ∃ rest, text = quote :: quote :: quote :: rest := by
  obtain ⟨inside, hinside, _⟩ := Option.bind_eq_some_iff.mp h
  exact ⟨inside.rest, Cursor.rest_eq_of_expectAll hinside⟩

theorem longQuotation_eq_none_of_short {escapes : Bool} {m : Nat} (hquote : IsQuote quote)
    (hmore : Unquoted more) (h : shortQuotation ⟨n, q⟩ = some (v, ⟨m, []⟩)) (k : Nat) :
    longQuotation quote escapes ⟨k, q ++ more⟩ = none := by
  cases hlong : longQuotation quote escapes ⟨k, q ++ more⟩ with
  | none => rfl
  | some found =>
    exfalso
    obtain ⟨rest, hrest⟩ := exists_quotes_of_longQuotation hlong
    match q, hrest, h with
    | [], _, h => cases h
    | [_], hrest, h =>
      obtain ⟨rfl, _⟩ := List.cons.inj hrest
      rw [shortQuotation_singleton hquote] at h
      cases h
    | c :: d :: q, hrest, h =>
      obtain ⟨rfl, hrest⟩ := List.cons.inj hrest
      obtain ⟨rfl, hrest⟩ := List.cons.inj hrest
      obtain ⟨l, hl⟩ := shortQuotation_empty hquote n q
      rw [hl, Option.some.injEq, Prod.mk.injEq, Cursor.mk.injEq] at h
      obtain rfl : q = [] := h.2.2
      exact hmore.head?_ne hquote (congrArg List.head? hrest)

/-- A string on one line is read as such, if no further quote comes behind it. -/
theorem quotation_of_short {k m : Nat} (hmore : Unquoted more)
    (h : shortQuotation ⟨k, q⟩ = some (v, ⟨m, []⟩)) (n : Nat) :
    ∃ l, quotation ⟨n, q ++ more⟩ = some (v, ⟨l, more⟩) := by
  obtain ⟨l, hl⟩ := shortQuotation_reads_on k n q more v _ h
  refine ⟨l, ?_⟩
  rw [quotation, longQuotation_eq_none_of_short (Or.inl rfl) hmore h,
    longQuotation_eq_none_of_short (Or.inr rfl) hmore h, Option.none_or, Option.none_or, hl]
  rfl

/-- A whole string is read whatever comes behind it, if that is no quote. -/
theorem quotation_string (hq : IsString q) :
    ∃ v, ∀ more, Unquoted more → ∀ n, ∃ m, quotation ⟨n, q ++ more⟩ = some (v, ⟨m, more⟩) := by
  obtain ⟨v, k, h⟩ := hq
  refine ⟨v, fun more hmore n => ?_⟩
  rw [quotation] at h
  rcases Option.or_eq_some_iff.mp h with h | ⟨_, h⟩
  · obtain ⟨m, hm⟩ := longQuotation_reads_on hmore.1 0 n q v _ h
    exact ⟨m, by rw [quotation, hm]; rfl⟩
  rcases Option.or_eq_some_iff.mp h with h | ⟨_, h⟩
  · obtain ⟨m, hm⟩ := longQuotation_reads_on hmore.2 0 n q v _ h
    obtain ⟨rest, hrest⟩ := exists_quotes_of_longQuotation hm
    have hother : (q ++ more).head? ≠ some '"' := by
      rw [hrest, List.head?_cons, ne_eq, Option.some.injEq]
      decide
    exact ⟨m, by rw [quotation, longQuotation_eq_none_of_head? hother, Option.none_or, hm]; rfl⟩
  · exact quotation_of_short hmore h n

/-- As a key, a whole string is read, or two of its first three quotes. -/
theorem shortQuotation_string (hq : IsString q) :
    (∃ v, ∀ more n, ∃ m, shortQuotation ⟨n, q ++ more⟩ = some (v, ⟨m, more⟩)) ∨
      ∃ quote rest, IsQuote quote ∧ q = quote :: quote :: quote :: rest := by
  obtain ⟨v, k, h⟩ := hq
  rw [quotation] at h
  rcases Option.or_eq_some_iff.mp h with h | ⟨_, h⟩
  · obtain ⟨rest, hrest⟩ := exists_quotes_of_longQuotation h
    exact Or.inr ⟨'"', rest, Or.inl rfl, hrest⟩
  rcases Option.or_eq_some_iff.mp h with h | ⟨_, h⟩
  · obtain ⟨rest, hrest⟩ := exists_quotes_of_longQuotation h
    exact Or.inr ⟨'\'', rest, Or.inr rfl, hrest⟩
  · exact Or.inl ⟨v, fun more n => shortQuotation_reads_on 0 n q more v _ h⟩

theorem IsString.exists_quote (hq : IsString q) :
    ∃ quote rest, IsQuote quote ∧ q = quote :: rest := by
  rcases shortQuotation_string hq with ⟨v, h⟩ | ⟨quote, rest, hquote, rfl⟩
  · obtain ⟨m, hm⟩ := h [] 0
    rw [List.append_nil] at hm
    cases q with
    | nil => cases hm
    | cons c q =>
      refine ⟨c, q, ?_, rfl⟩
      rw [shortQuotation, uncons_cons] at hm
      simp only [Option.bind_eq_bind, Option.bind_some] at hm
      split at hm
      · exact Or.inl ‹_›
      split at hm
      · exact Or.inr ‹_›
      · cases hm
  · exact ⟨quote, _, hquote, rfl⟩

end Quotation

end Toml

end MarkupAudit
