import MarkupAudit.Catalogue
import MarkupAudit.Proofs.Occurrence
import MarkupAudit.Proofs.Pattern.Reading
import MarkupAudit.Proofs.SplitSearch

/-!
Openers and triggers. A rule that opens, runs on as far as it can and ends with a trigger never runs
over a certain character, so it searches the pieces between the places of that character. In a piece
all its matches end where the last trigger does, and the first opener is reported if it has any
(`findIn_run`). What has to stand between the two, and white space that a run may take or leave, change
nothing in this.
-/

namespace MarkupAudit

open Pattern Catalogue

namespace Cursor

theorem stretch_eq_onward {passable : Cursor → Bool} {cur : Cursor}
    (h : ∀ place, cur ≤ place → place.rest ≠ [] → passable place = true) :
    cur.stretch passable = cur.onward := by
  obtain ⟨n, rest⟩ := cur
  induction rest generalizing n with
  | nil => rfl
  | cons c rest ih =>
    rw [stretch_cons, if_pos (h _ (le_refl _) (by simp)),
      ih _ fun place hp => h place (le_trans le_next hp)]
    rfl

end Cursor

namespace Matcher

/-- Where matches overlap only when they end together, those of a piece are reported by the first. -/
theorem findIn_eq_first {m : Matcher} {piece : Cursor}
    (hlt : ∀ a b, m.matchAt a = some b → a.offset < b.offset)
    (hsame : ∀ a b stop stop', piece ≤ a → a ≤ b → m.matchAt a = some stop →
      m.matchAt b = some stop' → stop = stop') :
    m.findIn piece = ((piece.firstIn m.matchAt).map fun first =>
      ⟨first.1.offset, first.2.offset⟩).toList := by
  have hends : ∀ found ∈ m.candidatesFrom piece, ∀ other ∈ m.candidatesFrom piece,
      other.stop = found.stop := by
    intro found hf other ho
    obtain ⟨hle, hmatch⟩ := mem_candidatesFrom.mp hf
    obtain ⟨hle', hmatch'⟩ := mem_candidatesFrom.mp ho
    rcases Cursor.le_or_le hle hle' with h | h
    · exact (hsame _ _ _ _ hle h hmatch hmatch').symm
    · exact hsame _ _ _ _ hle' h hmatch' hmatch
  have hselect : Match.select piece.offset (m.candidatesFrom piece) =
      (m.candidatesFrom piece).head?.toList := by
    cases hfound : m.candidatesFrom piece with
    | nil => rfl
    | cons found more =>
      rw [← hfound]
      apply Match.select_eq_head?
      intro other ho
      obtain ⟨hle, hmatch⟩ := mem_candidatesFrom.mp ho
      have hend : other.stop = found.stop := hends found (by simp [hfound]) other ho
      rw [hend] at hmatch
      exact ⟨Cursor.offset_le hle, hlt _ _ hmatch, congrArg Cursor.offset hend⟩
  rw [findIn, hselect, candidatesFrom, List.head?_filterMap, Cursor.firstIn]
  rw [← Option.toList_map, List.map_findSome?, List.map_findSome?]
  apply congrArg
  apply Pattern.findSome?_congr
  intro place _
  rw [Function.comp_apply, Function.comp_apply, Option.map_map, Option.map_map]
  rfl

end Matcher

namespace GreedyRun

variable {opener trigger : Cursor → Option Cursor} {between : Cursor → Cursor → Bool}

/-- The stretch from the first opener of a piece to the end of its last trigger, if that trigger begins
behind the opener and between the two is what has to be there. -/
def span? (opener trigger : Cursor → Option Cursor) (between : Cursor → Cursor → Bool)
    (piece : Cursor) : Option Span :=
  (piece.firstIn opener).bind fun (start, opened) => (piece.lastIn trigger).bind fun (mark, stop) =>
    if opened.offset ≤ mark.offset && between opened mark then some ⟨start.offset, stop.offset⟩
    else none

/-- Where the last trigger ends behind an opener, if all that has to be between them is. -/
def endBehind (trigger : Cursor → Option Cursor) (between : Cursor → Cursor → Bool)
    (opened : Cursor) : Option Cursor :=
  ((opened.lastIn trigger).filter fun last => between opened last.1).map (·.2)

theorem endBehind_true (trigger : Cursor → Option Cursor) (opened : Cursor) :
    endBehind trigger (fun _ _ => true) opened = opened.lastEnd trigger := by
  rw [endBehind, Cursor.lastEnd]
  cases opened.lastIn trigger <;> rfl

/-- What is between an opener and a trigger is between an earlier opener and the trigger. -/
def Widens (between : Cursor → Cursor → Bool) : Prop :=
  ∀ a b mark, a ≤ b → between b mark = true → between a mark = true

theorem widens_true : Widens fun _ _ => true := fun _ _ _ _ _ => rfl

theorem widens_holds (begins : Cursor → Option Cursor) : Widens (Cursor.holds begins) := by
  intro a b mark h hb
  obtain ⟨place, hp, hover⟩ := List.any_eq_true.mp hb
  have hle := Cursor.le_trans h (Cursor.mem_onward.mp hp)
  exact List.any_eq_true.mpr ⟨place, Cursor.mem_onward.mpr hle, hover⟩

theorem endBehind_of_le (hbetween : Widens between) {a b stop : Cursor} (h : a ≤ b)
    (hb : endBehind trigger between b = some stop) : endBehind trigger between a = some stop := by
  rw [endBehind, Cursor.lastIn_of_le h, Option.map_eq_some_iff] at hb
  obtain ⟨last, hlast, rfl⟩ := hb
  obtain ⟨hlast, hb⟩ := Option.filter_eq_some_iff.mp hlast
  have hlast := (Option.filter_eq_some_iff.mp hlast).1
  rw [endBehind, hlast, Option.filter_some, if_pos (hbetween a b last.1 h hb), Option.map_some]

/-- The stretch of a piece is that from its first opener, if anything is behind that opener. -/
theorem span?_eq (opener trigger : Cursor → Option Cursor) (between : Cursor → Cursor → Bool)
    (piece : Cursor) (hopener : ∀ a b, opener a = some b → a ≤ b) :
    span? opener trigger between piece = (piece.firstIn opener).bind fun first =>
      (endBehind trigger between first.2).map fun stop => ⟨first.1.offset, stop.offset⟩ := by
  rw [span?]
  cases hfirst : piece.firstIn opener with
  | none => rfl
  | some first =>
    obtain ⟨start, opened⟩ := first
    obtain ⟨hle, hopened, _⟩ := Cursor.firstIn_eq_some_iff.mp hfirst
    simp only [Option.bind_some]
    rw [endBehind, Cursor.lastIn_of_le (Cursor.le_trans hle (hopener start opened hopened))]
    cases piece.lastIn trigger with
    | none => rfl
    | some last =>
      obtain ⟨mark, stop⟩ := last
      simp only [Option.bind_some]
      rw [Option.filter_some]
      by_cases hbehind : opened.offset ≤ mark.offset
      · cases hb : between opened mark <;> simp [hbehind, hb, Option.filter]
      · simp [hbehind]

/-- A matcher that opens and then looks for its last trigger reports its first opener, or nothing. -/
theorem findIn_run {m : Matcher} {piece : Cursor}
    (hmatch : ∀ cur, piece ≤ cur →
      m.matchAt cur = (opener cur).bind (endBehind trigger between))
    (hlt : ∀ a b, m.matchAt a = some b → a.offset < b.offset)
    (hopener : ∀ a b, opener a = some b → a ≤ b)
    (hmono : ∀ a b stop stop', a ≤ b → opener a = some stop → opener b = some stop' → stop ≤ stop')
    (hbetween : Widens between) :
    m.findIn piece = (span? opener trigger between piece).toList := by
  have hfirst : piece.firstIn m.matchAt = (piece.firstIn opener).bind fun first =>
      (endBehind trigger between first.2).map (first.1, ·) := by
    rw [Cursor.firstIn_congr hmatch]
    apply Cursor.firstIn_bind
    intro a b opened opened' hab ho ho' hsome
    -- What a later opener has behind it an earlier one has as well.
    obtain ⟨stop, hs⟩ := Option.isSome_iff_exists.mp hsome
    rw [endBehind_of_le hbetween (hmono a b opened opened' hab ho ho') hs]
    rfl
  rw [Matcher.findIn_eq_first hlt, hfirst, span?_eq _ _ _ _ hopener]
  · apply congrArg
    rw [Option.map_bind]
    congr 1
    funext first
    rw [Function.comp_apply, Option.map_map]
    rfl
  · intro a b stop stop' hle hab hs hs'
    rw [hmatch a hle] at hs
    rw [hmatch b (Cursor.le_trans hle hab)] at hs'
    obtain ⟨opened, ho, hend⟩ := Option.bind_eq_some_iff.mp hs
    obtain ⟨opened', ho', hend'⟩ := Option.bind_eq_some_iff.mp hs'
    have hsame := endBehind_of_le hbetween (hmono a b opened opened' hab ho ho') hend'
    exact Option.some.inj (hend.symm.trans hsame)

section Rule

variable {opening body : Pattern} {first mark : Char}

/-- A run over all that is ahead may end at any place, the last one preferred. -/
theorem reach_run_of_not_mem {cur : Cursor} (h : mark ∉ cur.rest) :
    (star (noneOf [mark])).reach cur = cur.onward.reverse := by
  rw [noneOf, reach_star_of_step (steps_char _), Cursor.stretch_eq_onward]
  intro place hle hne
  have hmark := Cursor.not_mem_rest_of_le hle h
  obtain ⟨n, rest⟩ := place
  cases rest with
  | nil => exact absurd rfl hne
  | cons c rest =>
    rw [List.mem_cons, not_or] at hmark
    simpa [passes] using Ne.symm hmark.1

theorem head?_reach_run_of_not_mem {cur : Cursor} (h : mark ∉ cur.rest) (q : Pattern) :
    ((seq (star (noneOf [mark])) q).reach cur).head? =
      cur.lastEnd fun place => (q.reach place).head? := by
  rw [reach_seq, reach_run_of_not_mem h, List.head?_flatMap, Cursor.lastEnd_eq]

/-- A rule that opens and runs on to a trigger finds one stretch in a piece at most. -/
theorem findAll_run (hp : (seq opening (seq (star (noneOf [mark])) body)).lookFree = true)
    (hlacks : (seq opening (seq (star (noneOf [mark])) body)).Lacks mark)
    (hopening : opening.Leads first) (hopener : opening.Reads opener)
    (hbody : ∀ cur, mark ∉ cur.rest →
      cur.lastEnd (fun place => (body.reach place).head?) = endBehind trigger between cur)
    (hbetween : Widens between) (text : List Char) :
    (Matcher.plain (seq opening (seq (star (noneOf [mark])) body))).findAll text =
      (Cursor.between mark text).filterMap (span? opener trigger between) := by
  have hle : ∀ a b, opener a = some b → a ≤ b :=
    fun a b h => le_of_mem_reach (hopener.mem_reach.mpr h)
  rw [Matcher.findAll_between hp hlacks, List.filterMap_eq_flatMap_toList]
  apply List.flatMap_congr
  intro piece hpiece
  have hpiece := Cursor.not_mem_rest_of_mem_apart text 0 hpiece
  apply findIn_run _ _ hle _ hbetween
  · intro cur hcur
    rw [Matcher.matchAt_plain, hopener.head?_reach_seq]
    cases hopened : opener cur with
    | none => rfl
    | some opened =>
      have hahead := Cursor.not_mem_rest_of_le (Cursor.le_trans hcur (hle cur opened hopened)) hpiece
      rw [Option.bind_some, Option.bind_some, head?_reach_run_of_not_mem hahead, hbody opened hahead]
  · intro a stop hmatch
    have hreach := Matcher.mem_reach_of_matchAt hmatch
    rw [reach_seq] at hreach
    obtain ⟨opened, ho, hs⟩ := List.mem_flatMap.mp hreach
    exact Nat.lt_of_lt_of_le (hopening.lt a opened ho) (Cursor.offset_le (le_of_mem_reach hs))
  · intro a b opened opened' hab ho ho'
    exact hopening.le_of_le hopener.single hab (hopener.mem_reach.mpr ho)
      (hopener.mem_reach.mpr ho')

end Rule

/-- The opening of a division or of a span. -/
def divOpener? (cur : Cursor) : Option Cursor :=
  (cur.spell? "<div".toList).or (cur.spell? "<span".toList)

/-- White space, and right behind it an attribute for clicks. -/
def clickTrigger? (cur : Cursor) : Option Cursor :=
  (cur.pass? Text.isBlank).bind (·.spell? "onClick=".toList)

/-- A comparison of a status with an error. -/
def statusTrigger? (cur : Cursor) : Option Cursor := do
  let behind ← cur.spell? "status".toList
  let behind ← (behind.skipWhile Text.isBlank).spell? "===".toList
  let behind ← (behind.skipWhile Text.isBlank).quote?
  let behind ← behind.spell? "error".toList
  behind.quote?

theorem reads_divOpener :
    (concat [exactly '<', choice [literal "div", literal "span"]]).Reads divOpener? := by
  have hnames : (choice [literal "div", literal "span"]).Reads fun cur =>
      (cur.spell? "div".toList).or (cur.spell? "span".toList) := by
    apply reads_either (reads_literal "div") (reads_literal "span")
    intro cur
    by_contra hboth
    rw [not_or] at hboth
    obtain ⟨stop, hs⟩ := Option.ne_none_iff_exists'.mp hboth.1
    obtain ⟨stop', hs'⟩ := Option.ne_none_iff_exists'.mp hboth.2
    exact absurd (Cursor.prefix_of_spell? hs hs') (by decide)
  have hopener : divOpener? = fun cur => (cur.spell? "<".toList).bind fun place =>
      (place.spell? "div".toList).or (place.spell? "span".toList) := by
    funext cur
    have hdiv := Cursor.spell?_append "<".toList "div".toList cur
    have hspan := Cursor.spell?_append "<".toList "span".toList cur
    rw [divOpener?, show "<div".toList = "<".toList ++ "div".toList from rfl,
      show "<span".toList = "<".toList ++ "span".toList from rfl, hdiv, hspan]
    cases cur.spell? "<".toList <;> rfl
  rw [show exactly '<' = literal "<" from exactly_eq_char (by decide), hopener]
  exact reads_seq (reads_literal "<") hnames

/-- White space is no quotation mark. -/
theorem quote?_eq_none {cur : Cursor} (h : passes Text.isBlank cur = true) : cur.quote? = none := by
  obtain ⟨n, rest⟩ := cur
  cases rest with
  | nil => rfl
  | cons c rest =>
    apply if_neg
    intro hc
    have hblank : Text.isBlank c = false := by
      rcases List.mem_pair.mp (List.contains_iff_mem.mp hc) with rfl | rfl <;> rfl
    rw [passes_cons, hblank] at h
    cases h

theorem reads_statusTrigger : (concat [literal "status", star blank, literal "===", star blank,
    quote, literal "error", quote]).Reads statusTrigger? := by
  have hquoted := reads_seq reads_quote (reads_seq (reads_literal "error") reads_quote)
  have hblank := reads_skip hquoted fun cur (hcur : passes Text.isBlank cur = true) => by
    rw [quote?_eq_none hcur, Option.bind_none]
  have hequal := reads_seq (reads_literal "===") hblank
  have hblank' := reads_skip hequal fun cur (hcur : passes Text.isBlank cur = true) => by
    rw [show cur.spell? "===".toList = none from spell?_eq_none (by decide) hcur, Option.bind_none]
  exact reads_seq (reads_literal "status") hblank'

/-- Behind a character that a run may begin with, only the last one counts. -/
theorem lastEnd_skip {accepts : Char → Bool} {reader : Cursor → Option Cursor}
    (hnone : ∀ cur, passes accepts cur = true → reader cur = none) (cur : Cursor) :
    cur.lastEnd (fun place => (place.pass? accepts).bind fun next =>
      reader (next.skipWhile accepts)) =
        cur.lastEnd fun place => (place.pass? accepts).bind reader := by
  obtain ⟨n, rest⟩ := cur
  induction rest generalizing n with
  | nil => rfl
  | cons c rest ih =>
    rw [Cursor.lastEnd_cons, Cursor.lastEnd_cons]
    by_cases hc : accepts c = true
    · have hpass : (⟨n, c :: rest⟩ : Cursor).pass? accepts = some ⟨n + c.utf8Size, rest⟩ := if_pos hc
      rw [hpass, Option.bind_some, Option.bind_some]
      cases rest with
      | nil => rfl
      | cons d rest =>
        rw [Cursor.skipWhile_cons]
        by_cases hd : accepts d = true
        · -- The run goes on, so the place behind its next character says the same.
          have hnext : (⟨n + c.utf8Size, d :: rest⟩ : Cursor).pass? accepts =
              some ⟨n + c.utf8Size + d.utf8Size, rest⟩ := if_pos hd
          rw [if_pos hd, hnone ⟨n + c.utf8Size, d :: rest⟩ hd, Option.or_none, ← ih,
            Cursor.lastEnd_cons, hnext, Option.bind_some, Option.or_assoc, Option.or_self]
        · rw [if_neg hd, ih]
    · have hpass : (⟨n, c :: rest⟩ : Cursor).pass? accepts = none := if_neg hc
      rw [hpass, Option.bind_none, Option.bind_none, ih]

theorem findSome?_ite {α β : Type} (places : List α) (keep : α → Bool) (found : β) :
    places.findSome? (fun place => if keep place then some found else none) =
      if places.any keep then some found else none := by
  induction places with
  | nil => rfl
  | cons place places ih =>
    rw [List.findSome?_cons, List.any_cons, ih]
    cases keep place <;> rfl

/-- Something and then the last trigger: the last trigger, if something is before it. -/
theorem lastEnd_bind_lastEnd {begins trigger : Cursor → Option Cursor}
    (hle : ∀ a b, begins a = some b → a ≤ b) (cur : Cursor) :
    cur.lastEnd (fun place => (begins place).bind (Cursor.lastEnd trigger)) =
      endBehind trigger (Cursor.holds begins) cur := by
  -- Wherever the first part is over, the same trigger is the last, unless it begins before that.
  have hbehind : ∀ place, cur ≤ place → (begins place).bind (Cursor.lastEnd trigger) =
      (begins place).bind fun stop =>
        ((cur.lastIn trigger).filter fun last => stop.offset ≤ last.1.offset).map (·.2) := by
    intro place hp
    cases hstop : begins place with
    | none => rfl
    | some stop =>
      rw [Option.bind_some, Option.bind_some, Cursor.lastEnd,
        Cursor.lastIn_of_le (Cursor.le_trans hp (hle place stop hstop))]
  rw [Cursor.lastEnd_eq, endBehind]
  cases hlast : cur.lastIn trigger with
  | none =>
    apply List.findSome?_eq_none_iff.mpr
    intro place hp
    rw [hbehind place (Cursor.mem_onward.mp (List.mem_reverse.mp hp)), hlast]
    cases begins place <;> rfl
  | some last =>
    have hplace : ∀ place ∈ cur.onward.reverse, (begins place).bind (Cursor.lastEnd trigger) =
        if (begins place).any (·.offset ≤ last.1.offset) then some last.2 else none := by
      intro place hp
      rw [hbehind place (Cursor.mem_onward.mp (List.mem_reverse.mp hp)), hlast]
      cases begins place with
      | none => rfl
      | some stop =>
        rw [Option.bind_some, Option.filter_some, Option.any_some]
        split <;> rfl
    rw [Pattern.findSome?_congr hplace, findSome?_ite, List.any_reverse, Option.filter_some,
      ← Cursor.holds]
    cases Cursor.holds begins cur last.1 <;> rfl

/-- A run of any length does not change which trigger is the last behind it. -/
theorem head?_reach_star_run {p q : Pattern} {reader : Cursor → Option Cursor} {mark : Char}
    (hq : q.Reads reader) {cur : Cursor} (h : mark ∉ cur.rest) :
    ((seq (star p) (seq (star (noneOf [mark])) q)).reach cur).head? = cur.lastEnd reader := by
  have hself : cur ∈ (star p).reach cur := by
    rw [reach_star]
    exact List.mem_append_right _ (List.mem_singleton_self cur)
  rw [reach_seq, List.head?_flatMap,
    ← Cursor.findSome?_lastEnd hself fun place hp => le_of_mem_reach hp]
  apply Pattern.findSome?_congr
  intro place hp
  rw [head?_reach_run_of_not_mem (Cursor.not_mem_rest_of_le (le_of_mem_reach hp) h),
    hq.head?_reach]

/-- Of a run of white space before the attribute only its last character counts. -/
theorem lastEnd_click (cur : Cursor) :
    cur.lastEnd (fun place => ((seq (plus blank) (literal "onClick=")).reach place).head?) =
      cur.lastEnd clickTrigger? := by
  have hnone : ∀ cur, passes Text.isBlank cur = true → cur.spell? "onClick=".toList = none :=
    fun cur hcur => spell?_eq_none (by decide) hcur
  have hbody : (seq (plus blank) (literal "onClick=")).Reads fun place =>
      (place.pass? Text.isBlank).bind fun next =>
        (next.skipWhile Text.isBlank).spell? "onClick=".toList := by
    intro place
    rw [plus, reach_seq, reach_seq, List.flatMap_assoc]
    have hreads := reads_seq (reads_char Text.isBlank) (reads_skip (reads_literal "onClick=") hnone)
    rw [← hreads place, reach_seq]
    apply List.flatMap_congr
    intro next _
    exact (reach_seq _ _ next).symm
  rw [hbody.head?_reach]
  exact lastEnd_skip hnone cur

theorem findAll_divOnclick (text : List Char) : divOnclick.matcher.findAll text =
    (Cursor.between '>' text).filterMap (span? divOpener? clickTrigger? fun _ _ => true) := by
  rw [divOnclick, Matcher.findAll_congr (Matcher.matchAt_concat_split 2 _)]
  apply findAll_run (by decide) (lacks_of_everyClass (by decide))
    (leads_seq (leads_exactly '<') (lacks_of_everyClass (by decide))) reads_divOpener _ widens_true
  intro cur _
  rw [endBehind_true]
  exact lastEnd_click cur

theorem findAll_buttonAsLink (text : List Char) : buttonAsLink.matcher.findAll text =
    (Cursor.between '>' text).filterMap
      (span? (·.spell? "<Button".toList) (·.spell? "href=".toList) fun _ _ => true) := by
  apply findAll_run (by decide) (lacks_of_everyClass (by decide)) (leads_literal rfl (by decide))
    (reads_literal _) _ widens_true
  intro cur _
  rw [endBehind_true]
  exact congrArg cur.lastEnd (reads_literal "href=").head?_reach

theorem findAll_colorOnly (text : List Char) : colorOnly.matcher.findAll text =
    (Cursor.between '}' text).filterMap (span? (·.spell? "style=\x7b\x7b".toList) statusTrigger?
      (Cursor.holds (·.spell? "color:".toList))) := by
  apply findAll_run (by decide) (lacks_of_everyClass (by decide)) (leads_literal rfl (by decide))
    (reads_literal _) _ (widens_holds _)
  intro cur hcur
  rw [← lastEnd_bind_lastEnd fun a b h => Cursor.le_of_spell? h]
  apply Cursor.lastEnd_congr
  intro place hp
  apply ((reads_literal "color:").head?_reach_seq _ place).trans
  cases hstop : place.spell? "color:".toList with
  | none => rfl
  | some stop =>
    have hle := Cursor.le_trans hp (Cursor.le_of_spell? hstop)
    rw [Option.bind_some, Option.bind_some]
    exact head?_reach_star_run reads_statusTrigger (Cursor.not_mem_rest_of_le hle hcur)

/-- From each piece of a text between two closing brackets, or for styles two closing braces, at most
one stretch is reported: from the first opener to the end of the last trigger, if that trigger begins
behind the opener and, in a style, a color is named between the two. -/
theorem findAll_of_openers (text : List Char) :
    divOnclick.matcher.findAll text =
      (Cursor.between '>' text).filterMap (span? divOpener? clickTrigger? fun _ _ => true) ∧
    buttonAsLink.matcher.findAll text = (Cursor.between '>' text).filterMap
      (span? (·.spell? "<Button".toList) (·.spell? "href=".toList) fun _ _ => true) ∧
    colorOnly.matcher.findAll text = (Cursor.between '}' text).filterMap
      (span? (·.spell? "style=\x7b\x7b".toList) statusTrigger?
        (Cursor.holds (·.spell? "color:".toList))) :=
  ⟨findAll_divOnclick text, findAll_buttonAsLink text, findAll_colorOnly text⟩

example : (Cursor.between '>' "<div <span onclick= ONCLICK=x><div>".toList).map
    (span? divOpener? clickTrigger? fun _ _ => true) = [some ⟨0, 28⟩, none, none] := by
  decide +kernel

end GreedyRun

end MarkupAudit
