import MarkupAudit.Proofs.Lookahead
import MarkupAudit.Proofs.Pattern.Lead
import MarkupAudit.Proofs.Pattern.Until

/-!
Placeholders and missing texts. A placeholder begins with the word that the guard of an image tag looks
for, and has no opening bracket in it. So it cannot begin before a reported tag and reach into it, and
if it began inside, the guard would have refused the tag (`matchesAt_mentions_of_spell?`).
-/

namespace MarkupAudit

open Pattern Catalogue

/-- The byte is in the stretch. -/
def Span.Covers (span : Span) (byte : Nat) : Prop := span.start ≤ byte ∧ byte < span.stop

namespace Pattern

/-- A tag may be run over up to any of its places. -/
theorem mem_stretch_of_reach_tagEnd {behind stop place : Cursor} (h : stop ∈ tagEnd.reach behind)
    (hle : behind ≤ place) (hlt : place.offset < stop.offset) :
    place ∈ behind.stretch passesRun := by
  rw [reach_tagEnd] at h
  obtain ⟨bracket, hbracket, hstop⟩ := List.mem_flatMap.mp h
  obtain ⟨hbehind, hpasses⟩ := Cursor.mem_stretch.mp (List.mem_reverse.mp hbracket)
  have hplace : place ≤ bracket := by
    obtain ⟨n, c, rest, rfl, _, rfl⟩ := mem_reach_char hstop
    rcases Cursor.le_or_le hle hbehind with hbefore | hover
    · exact hbefore
    · rw [eq_of_lt_next hover hlt]
      exact Cursor.le_refl _
  refine Cursor.mem_stretch.mpr ⟨hle, ?_⟩
  intro mid hmid hbefore hless
  have hoffset := Cursor.offset_le hplace
  exact hpasses mid hmid (Cursor.le_trans hbefore hplace) (by omega)

/-- A word that begins in the rest of a tag is seen by a look ahead for it. -/
theorem matchesAt_mentions_of_spell? {words : List String} {word : String} (hword : word ∈ words)
    {behind stop place value : Cursor} (hstop : stop ∈ tagEnd.reach behind) (hle : behind ≤ place)
    (hlt : place.offset < stop.offset) (hvalue : place.spell? word.toList = some value) :
    (mentions words).matchesAt behind = true := by
  rw [mentions, matchesAt_seq, reach_run, List.any_reverse, List.any_eq_true]
  refine ⟨place, mem_stretch_of_reach_tagEnd hstop hle hlt, matchesAt_iff.mpr ⟨value, ?_⟩⟩
  exact mem_reach_choice.mpr
    ⟨literal word, List.mem_map_of_mem hword, mem_reach_literal.mpr hvalue⟩

end Pattern

namespace Catalogue

theorem exists_of_matchAt_genericAlt {cur stop : Cursor}
    (h : genericAlt.matcher.matchAt cur = some stop) :
    (∃ value, cur.spell? "alt=".toList = some value) ∧
      ∀ place, cur ≤ place → place.offset < stop.offset → atLetter '<' place = false := by
  have hreach := Matcher.mem_reach_of_matchAt h
  refine ⟨?_, ?_⟩
  · rw [reach_concat_cons, List.mem_flatMap] at hreach
    obtain ⟨value, hvalue, _⟩ := hreach
    exact ⟨value, mem_reach_literal.mp hvalue⟩
  · exact lacks_of_everyClass (by decide) cur stop hreach

theorem exists_of_matchAt_missingAlt {cur stop : Cursor}
    (h : missingAlt.matcher.matchAt cur = some stop) :
    ∃ behind, cur.spell? "<img".toList = some behind ∧ stop ∈ tagEnd.reach behind ∧
      (mentions ["alt="]).matchesAt behind = false := by
  have htag : missingAlt.matcher.matchAt cur = _ := matchAt_guarded_tag "<img" (mentions ["alt="]) cur
  rw [h] at htag
  obtain ⟨behind, hbehind, hstop⟩ := Option.bind_eq_some_iff.mp htag.symm
  refine ⟨behind, hbehind, ?_⟩
  split at hstop
  · cases hstop
  · rename_i hguard
    exact ⟨List.mem_of_head? hstop, Bool.eq_false_iff.mpr hguard⟩

theorem atLetter_of_spell? {word : String} {letter : Char} (hword : (literal word).Leads letter)
    {cur behind : Cursor} (h : cur.spell? word.toList = some behind) : atLetter letter cur = true :=
  hword.head cur behind (mem_reach_literal.mpr h)

/-- No placeholder is also reported as missing: no byte of a text is both in a placeholder and in an
image tag without a text. -/
theorem placeholder_not_missing (text : List Char) :
    ¬∃ byte, (∃ span ∈ genericAlt.matcher.findAll text, span.Covers byte) ∧
      ∃ span ∈ missingAlt.matcher.findAll text, span.Covers byte := by
  rintro ⟨byte, ⟨_, hplaceholder, hfirst, hbefore⟩, _, hmissing, hopen, hinside⟩
  obtain ⟨alt, close, halt, hmatch, rfl⟩ := Matcher.exists_of_mem_findAll hplaceholder
  obtain ⟨img, stop, himg, htag, rfl⟩ := Matcher.exists_of_mem_findAll hmissing
  obtain ⟨⟨value, hvalue⟩, hlacks⟩ := exists_of_matchAt_genericAlt hmatch
  obtain ⟨behind, hbehind, hstop, hguard⟩ := exists_of_matchAt_missingAlt htag
  simp only at hfirst hbefore hopen hinside
  rcases Cursor.le_or_le halt himg with hle | hle
  · -- The placeholder would reach over the opening bracket of the tag.
    have hbracket : atLetter '<' img = true :=
      atLetter_of_spell? (leads_literal rfl (by decide)) hbehind
    rw [hlacks img hle (by omega)] at hbracket
    cases hbracket
  · rcases Cursor.lt_or_le (Cursor.le_of_spell? hbehind) hle with hname | hrest
    · -- No placeholder begins in the name of the tag.
      have hletter : atLetter 'a' alt = true :=
        atLetter_of_spell? (leads_literal rfl (by decide)) hvalue
      have hlacks : (literal "<img").Lacks 'a' := lacks_of_everyClass (by decide)
      rw [hlacks img behind (mem_reach_literal.mpr hbehind) alt hle hname] at hletter
      cases hletter
    · -- Behind the name it is what the guard looks for.
      rw [matchesAt_mentions_of_spell? (List.mem_singleton_self "alt=") hstop hrest (by omega)
        hvalue] at hguard
      cases hguard

end Catalogue

end MarkupAudit
