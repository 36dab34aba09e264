import MarkupAudit.Proofs.HeadingSkip.Meaning
import MarkupAudit.Proofs.Pattern.First
import MarkupAudit.Proofs.Steady

/-!
Skipped levels in a text that goes on. More text leaves the sections of a text as they are, but for
the last one, which it may lengthen. When the match of the longer text ends in what is new, all
deeper headings of the shorter text behind its closing tag are in the section of that tag, and so
it matches in the shorter text too, as far as any later opening does.
-/

namespace MarkupAudit.HeadingSkip

open Pattern Cursor
open Matcher (plain matchAt_plain mem_reach_of_matchAt isSome_matchAt_plain)

/-- A pattern that ends in one way only, in the longer text just as in the shorter. -/
structure Fixed (p : Pattern) : Prop where
  lookFree : p.lookFree = true
  single : p.Single

variable {p : Pattern} {more : List Char}

theorem Fixed.matchAt_extend (hp : Fixed p) {cur stop : Cursor}
    (h : (plain p).matchAt cur = some stop) :
    (plain p).matchAt (cur.extend more) = some (stop.extend more) := by
  have hmem := extend_mem_reach hp.lookFree (mem_reach_of_matchAt h) more
  have hsome := (isSome_matchAt_plain p (cur.extend more)).trans (matchesAt_iff.mpr ⟨_, hmem⟩)
  obtain ⟨stop', hs⟩ := Option.isSome_iff_exists.mp hsome
  rw [hs, hp.single _ _ _ (mem_reach_of_matchAt hs) hmem]

theorem Fixed.matchAt_of_extend (hp : Fixed p) {cur stop : Cursor}
    (h : (plain p).matchAt (cur.extend more) = some stop) (hle : stop.offset ≤ cur.finish.offset) :
    ∃ stop', (plain p).matchAt cur = some stop' ∧ stop = stop'.extend more := by
  rw [matchAt_plain] at h ⊢
  exact head?_reach_of_extend hp.lookFree h hle

theorem fixed_opening : Fixed opening := by
  refine ⟨by decide, ?_⟩
  intro a b c hb hc
  rw [reach_opening, Option.mem_toList] at hb hc
  exact Option.some.inj (hb.symm.trans hc)

theorem fixed_closing : Fixed closing := ⟨by decide, single_literal _⟩

theorem fixed_deeper : Fixed deeper :=
  ⟨by decide, single_seq (single_literal _) (single_char _)⟩

theorem lookFree_levelTwo : levelTwo.lookFree = true := by decide

theorem leads_closing : closing.Leads '<' := leads_literal rfl (by decide)

theorem leads_levelTwo : levelTwo.Leads '<' := leads_literal rfl (by decide)

theorem leads_deeper : deeper.Leads '<' :=
  leads_seq (leads_literal rfl (by decide)) (lacks_of_everyClass (by decide))

theorem opening_le {a b opened opened' : Cursor} (hab : a ≤ b)
    (h : (plain opening).matchAt a = some opened) (h' : (plain opening).matchAt b = some opened') :
    opened ≤ opened' := by
  have hreach : ∀ cur, opening.reach cur =
      (seq (concat [literal "<h1", star (noneOf ['>'])]) (exactly '>')).reach cur := by
    intro cur
    rw [reach_seq]
    exact reach_concat_append [literal "<h1", star (noneOf ['>'])] [exactly '>'] cur
  have hmem := mem_reach_of_matchAt h
  have hmem' := mem_reach_of_matchAt h'
  rw [hreach] at hmem hmem'
  have hlacks : (concat [literal "<h1", star (noneOf ['>'])]).Lacks '>' :=
    lacks_of_everyClass (by decide)
  exact le_of_last hlacks (leads_exactly '>') (single_char _) hab hmem hmem'

theorem closing_le {a b closed closed' : Cursor} (hab : a ≤ b)
    (h : (plain closing).matchAt a = some closed) (h' : (plain closing).matchAt b = some closed') :
    closed ≤ closed' :=
  leads_closing.le_of_le fixed_closing.single hab (mem_reach_of_matchAt h) (mem_reach_of_matchAt h')

theorem DeepAt.atLetter {closed place : Cursor} (h : DeepAt closed place) :
    atLetter '<' place = true := by
  obtain ⟨stop, hs⟩ := matchesAt_iff.mp h.deep
  exact leads_deeper.head place stop hs

/-- A section begins later, and still has what is behind that. -/
theorem DeepAt.of_le {closed closed' place : Cursor} (h : DeepAt closed place)
    (hclosed : closed ≤ closed') (hplace : closed' ≤ place) : DeepAt closed' place where
  behind := hplace
  deep := h.deep
  clear mid hmid := h.clear mid (le_trans hclosed hmid)

theorem DeepAt.extend {closed place : Cursor} (h : DeepAt closed place) (more : List Char) :
    DeepAt (closed.extend more) (place.extend more) where
  behind := extend_le h.behind more
  deep := matchesAt_extend fixed_deeper.lookFree h.deep more
  clear mid hmid hle hlt := by
    have hfinish : place.offset ≤ closed.finish.offset := offset_le_finish h.behind
    obtain ⟨before, hbefore, rfl⟩ := exists_of_extend_le hmid (Nat.le_trans (offset_le hle) hfinish)
    have hle := le_of_extend_le hle
    rw [Bool.eq_false_iff]
    intro hmatch
    obtain ⟨stop, hs⟩ := matchesAt_iff.mp hmatch
    -- A level-two heading is over where the deeper one begins, so it is one of the shorter text.
    have hover := leads_levelTwo.le_of_atLetter hs (extend_le hle more) hlt
      (Matcher.atLetter_extend h.atLetter more)
    have hin : stop.offset ≤ before.finish.offset :=
      Nat.le_trans (offset_le_of_le_extend hover) (offset_le_finish hle)
    obtain ⟨stop', hs', _⟩ := exists_of_mem_reach_extend lookFree_levelTwo hs hin
    have hclear := h.clear before hbefore hle hlt
    rw [matchesAt_iff.mpr ⟨stop', hs'⟩] at hclear
    cases hclear

/-- What is clear in the longer text up to some heading is so in the shorter. -/
theorem DeepAt.of_extend {closed place last : Cursor} (h : DeepAt (closed.extend more) last)
    (hclosed : closed ≤ place) (hlast : place.extend more ≤ last)
    (hdeep : deeper.matchesAt place = true) : DeepAt closed place where
  behind := hclosed
  deep := hdeep
  clear mid hmid hle hlt := by
    have hoffset := offset_le hlast
    rw [offset_extend] at hoffset
    have hclear := h.clear (mid.extend more) (extend_le hmid more)
      (le_trans (extend_le hle more) hlast) (Nat.lt_of_lt_of_le hlt hoffset)
    rw [Bool.eq_false_iff]
    intro hmatch
    rw [matchesAt_extend lookFree_levelTwo hmatch more] at hclear
    cases hclear

theorem ClosesAt.extend {opened close closed : Cursor} (h : ClosesAt opened close closed)
    (more : List Char) :
    ClosesAt (opened.extend more) (close.extend more) (closed.extend more) where
  behind := extend_le h.behind more
  tag := fixed_closing.matchAt_extend h.tag
  deep := by
    obtain ⟨place, hp⟩ := h.deep
    exact ⟨place.extend more, hp.extend more⟩

theorem le_of_firstSection {cur stop : Cursor} (h : firstSection cur = some stop) : cur ≤ stop := by
  rw [← (skipEnd_eq cur).1] at h
  exact le_of_skipEnd h

variable {opened stop : Cursor}

theorem isSome_firstSection_extend (h : (firstSection opened).isSome = true) (more : List Char) :
    (firstSection (opened.extend more)).isSome = true := by
  obtain ⟨close, closed, hcloses⟩ := (isSome_firstSection opened).mp h
  exact (isSome_firstSection _).mpr ⟨_, _, hcloses.extend more⟩

/-- A section whose last deeper heading is in the shorter text is found there too. -/
theorem firstSection_of_extend (h : firstSection (opened.extend more) = some stop)
    (hle : stop.offset ≤ opened.finish.offset) :
    ∃ stop', firstSection opened = some stop' ∧ stop = stop'.extend more := by
  obtain ⟨close, closed, last, hends⟩ := firstSection_eq_some_iff.mp h
  have hlast : last ≤ stop := Matcher.le_of_matchAt hends.ends
  have hclosed : closed ≤ last := hends.deep.behind
  have hclose : close ≤ closed := Matcher.le_of_matchAt hends.closes.tag
  have hin : ∀ {place : Cursor}, opened ≤ place → stop.offset ≤ place.finish.offset := by
    intro place hp
    rw [finish_of_le hp]
    exact hle
  have hbehind := hends.closes.behind
  obtain ⟨close, hopened, rfl⟩ := exists_of_extend_le hbehind
    (Nat.le_trans (offset_le (le_trans hclose (le_trans hclosed hlast))) hle)
  obtain ⟨closed, htag, rfl⟩ := fixed_closing.matchAt_of_extend hends.closes.tag
    (Nat.le_trans (offset_le (le_trans hclosed hlast)) (hin hopened))
  have hclose := Matcher.le_of_matchAt htag
  obtain ⟨last, hlast', rfl⟩ := exists_of_extend_le hclosed
    (Nat.le_trans (offset_le hlast) (hin (le_trans hopened hclose)))
  obtain ⟨stop, hends', rfl⟩ := fixed_deeper.matchAt_of_extend hends.ends
    (hin (le_trans hopened (le_trans hclose hlast')))
  have hdeep : DeepAt closed last := by
    apply hends.deep.of_extend hlast' (le_refl _)
    rw [← isSome_matchAt_plain, hends']
    rfl
  refine ⟨stop, firstSection_eq_some_iff.mpr ⟨close, closed, last, ?_⟩, rfl⟩
  exact {
    closes := ⟨hopened, htag, last, hdeep⟩
    first := fun other behind ho => hends.first (other.extend more) _ (ho.extend more)
    deep := hdeep
    last := fun place hp => hends.last (place.extend more) (hp.extend more)
    ends := hends' }

/-- When the section of the longer text reaches beyond the shorter, it holds all deeper headings of
the shorter, and the shorter has its last one from any later opening on. -/
theorem firstSection_covered (h : firstSection (opened.extend more) = some stop)
    (hlt : opened.finish.offset < stop.offset) {later stop' : Cursor} (hle : opened ≤ later)
    (h' : firstSection later = some stop') : firstSection opened = some stop' := by
  obtain ⟨close, closed, last, hends⟩ := firstSection_eq_some_iff.mp h
  obtain ⟨close', closed', last', hends'⟩ := firstSection_eq_some_iff.mp h'
  have hopened : opened ≤ close' := le_trans hle hends'.closes.behind
  have hclosed' : close' ≤ closed' := Matcher.le_of_matchAt hends'.closes.tag
  have hlater : opened ≤ last' := le_trans hopened (le_trans hclosed' hends'.deep.behind)
  have hin : last'.offset ≤ opened.finish.offset := offset_le_finish hlater
  have hcloses' : ClosesAt opened close' closed' :=
    ⟨hopened, hends'.closes.tag, hends'.closes.deep⟩
  -- The closing tag of the longer text is not behind that of the later opening.
  have hfirst := hends.first (close'.extend more) _ (hcloses'.extend more)
  rw [offset_extend] at hfirst
  obtain ⟨close, hbehind, rfl⟩ := exists_of_extend_le hends.closes.behind
    (Nat.le_trans hfirst (offset_le_finish hopened))
  have hclose : close ≤ close' := le_of_offset_le hbehind hopened hfirst
  have hclosed := closing_le (extend_le hclose more) hends.closes.tag
    (fixed_closing.matchAt_extend hends'.closes.tag)
  obtain ⟨closed, htag, rfl⟩ := fixed_closing.matchAt_of_extend hends.closes.tag
    (Nat.le_trans (offset_le_of_le_extend hclosed)
      (offset_le_finish (le_trans hclose hclosed')))
  have hclosed := le_of_extend_le hclosed
  -- Its last deeper heading is new, so all those of the shorter text come before it.
  have hlast : last'.extend more ≤ last := by
    have hopens : opened.extend more ≤ last :=
      le_trans (extend_le hbehind more) (le_trans (Matcher.le_of_matchAt hends.closes.tag)
        hends.deep.behind)
    exact leads_deeper.le_of_lt (mem_reach_of_matchAt hends.ends) hopens (extend_le hlater more)
      (Matcher.atLetter_extend hends'.deep.atLetter more) (Nat.lt_of_le_of_lt hin hlt)
  have hdeep : DeepAt closed last' := hends.deep.of_extend
    (le_trans hclosed hends'.deep.behind) hlast hends'.deep.deep
  refine firstSection_eq_some_iff.mpr ⟨close, closed, last', ?_⟩
  exact {
    closes := ⟨hbehind, htag, last', hdeep⟩
    first := fun other behind ho => hends.first (other.extend more) _ (ho.extend more)
    deep := hdeep
    last := by
      intro place hp
      rcases lt_or_le hlater (le_trans hbehind (le_trans (Matcher.le_of_matchAt htag) hp.behind))
        with hbefore | hafter
      · exact Nat.le_of_lt hbefore
      · exact hends'.last place (hp.of_le hclosed (le_trans hends'.deep.behind hafter))
    ends := hends'.ends }

/-- A later opening is over behind the first one, and then what is said of sections applies. -/
theorem steady : Matcher.headingSkip.Steady where
  persists cur more h := by
    rw [matchAt_headingSkip] at h ⊢
    obtain ⟨stop, hs⟩ := Option.isSome_iff_exists.mp h
    obtain ⟨opened, hopened, hfirst⟩ := Option.bind_eq_some_iff.mp hs
    rw [fixed_opening.matchAt_extend hopened, Option.bind_some]
    exact isSome_firstSection_extend (by rw [hfirst]; rfl) more
  found cur more stop h hle := by
    rw [matchAt_headingSkip] at h ⊢
    obtain ⟨opened, hopened, hfirst⟩ := Option.bind_eq_some_iff.mp h
    have hoffset := offset_le (le_of_firstSection hfirst)
    obtain ⟨begun, hbegun, rfl⟩ := fixed_opening.matchAt_of_extend hopened
      (Nat.le_trans hoffset hle)
    rw [← finish_of_le (Matcher.le_of_matchAt hbegun)] at hle
    obtain ⟨stop, hsection, rfl⟩ := firstSection_of_extend hfirst hle
    refine ⟨stop, ?_, rfl⟩
    rw [hbegun, Option.bind_some]
    exact hsection
  covered cur more stop later stop' h hlt hle hless h' := by
    have hrefuses : Matcher.headingSkip.refuses none = true := by decide
    have hafter := Matcher.offset_lt_of_refuses hrefuses h'
    rw [matchAt_headingSkip] at h h' ⊢
    obtain ⟨opened, hopened, hfirst⟩ := Option.bind_eq_some_iff.mp h
    obtain ⟨opened', hopened', hfirst'⟩ := Option.bind_eq_some_iff.mp h'
    have horder := opening_le (extend_le hle more) hopened (fixed_opening.matchAt_extend hopened')
    obtain ⟨begun, hbegun, rfl⟩ := fixed_opening.matchAt_of_extend hopened
      (Nat.le_trans (offset_le_of_le_extend horder)
        (offset_le_finish (le_trans hle (Matcher.le_of_matchAt hopened'))))
    rw [← finish_of_le (Matcher.le_of_matchAt hbegun)] at hlt
    refine ⟨stop', ?_, hafter⟩
    rw [hbegun, Option.bind_some]
    exact firstSection_covered hfirst hlt (le_of_extend_le horder) hfirst'

end MarkupAudit.HeadingSkip
