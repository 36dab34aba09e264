import MarkupAudit.Proofs.HeadingSkip.Section

/-!
The loops of the rule. Behind a closing tag the text up to the next level-two heading is cut out and
the last of its deeper headings taken; without one the next closing tag is looked for where this one
ends, and without a closing tag the next opening. The state machine finds where the loops stop
(`closeLoop_eq`).
-/

namespace MarkupAudit

namespace Match

theorem select_eq_self {lower : Nat} {ms : List Match}
    (h : ms.Pairwise fun a b => a.resume ≤ b.start.offset)
    (hlower : ∀ m ∈ ms, lower ≤ m.start.offset) : select lower ms = ms := by
  induction ms generalizing lower with
  | nil => rfl
  | cons m ms ih =>
    rw [List.pairwise_cons] at h
    rw [select, if_pos (hlower m List.mem_cons_self), ih h.2 h.1]

end Match

namespace HeadingSkip

open Pattern Cursor
open Matcher (plain matchAt_plain mem_reach_of_matchAt isSome_matchAt_plain matchAt_plain_eq_none)

/-- A place with only the text before a later one ahead of it. -/
def upTo (stop cur : Cursor) : Cursor :=
  ⟨cur.offset, cur.rest.take (cur.rest.length - stop.rest.length)⟩

/-- The text from a place up to the next level-two heading. -/
def region (cur : Cursor) : Cursor :=
  match levelTwo.find? cur with
  | none => cur
  | some (place, _) => upTo place cur

/-- Where the last of the deeper headings ends that are found in a text one after the other. -/
def lastIn (cur : Cursor) : Option Nat :=
  (Match.select 0 ((plain deeper).candidatesFrom cur)).getLast?.map (·.stop.offset)

theorem length_lt_of_closing {cur place : Cursor} {found : Attempt}
    (h : closing.find? cur = some (place, found)) :
    found.here.rest.length < cur.rest.length := by
  obtain ⟨hle, hm, _⟩ := find?_eq_some h
  have hmem : found.here ∈ closing.reach place := by
    apply mem_reach_of_matchAt
    rw [Matcher.matchAt, hm, Option.map_some]
  have hlt := Cursor.length_lt (le_of_mem_reach hmem) (tags_closing.lt hmem)
  have hlength := Cursor.length_le hle
  omega

/-- From closing tag to closing tag, each looked for where the one before it ends. -/
def closeLoop (cur : Cursor) : Option Nat :=
  match _h : closing.find? cur with
  | none => none
  | some (_, found) =>
    match lastIn (region found.here) with
    | some stop => some stop
    | none => closeLoop found.here
termination_by cur.rest.length
decreasing_by exact length_lt_of_closing _h

/-- From opening to opening, each looked for one character behind the one before it. -/
def findLoop : Cursor → Option Span :=
  Search.retry opening.matchAt fun place found =>
    (closeLoop found.here).map fun stop => ⟨place.offset, stop⟩

theorem region_end (n : Nat) : region ⟨n, []⟩ = ⟨n, []⟩ := rfl

theorem region_cons (n : Nat) (c : Char) (rest : List Char) : region ⟨n, c :: rest⟩ =
    if levelTwo.matchesAt ⟨n, c :: rest⟩ then ⟨n, []⟩
    else ⟨n, c :: (region ⟨n + c.utf8Size, rest⟩).rest⟩ := by
  have hnext : (⟨n, c :: rest⟩ : Cursor).next? = some ⟨n + c.utf8Size, rest⟩ := rfl
  rw [region, region, find?_eq, hnext, Option.bind_some, matchesAt]
  cases levelTwo.matchAt ⟨n, c :: rest⟩ with
  | some found => simp [upTo]
  | none =>
    simp only [Option.map_none, Option.none_or, Option.isSome_none, Bool.false_eq_true, if_false]
    cases hf : levelTwo.find? ⟨n + c.utf8Size, rest⟩ with
    | none => rfl
    | some later =>
      have hlength := Cursor.length_le (le_of_find? hf)
      simp only at hlength
      simp only [upTo, List.length_cons, Nat.succ_sub hlength, List.take_succ_cons]

theorem region_eq (cur : Cursor) : (⟨cur.offset, (region cur).rest⟩ : Cursor) = region cur := by
  rw [region]
  split <;> rfl

theorem matchAt_deeper_cons (n : Nat) (a b c : Char) (rest : List Char) :
    (plain deeper).matchAt ⟨n, a :: b :: c :: rest⟩ =
      if Text.sameLetter '<' a ∧ Text.sameLetter 'h' b ∧ '3' ≤ c ∧ c ≤ '6'
      then some ⟨n + a.utf8Size + b.utf8Size + c.utf8Size, rest⟩ else none := by
  have hword : "<h".toList = ['<', 'h'] := rfl
  rw [matchAt_plain, deeper, reach_seq, reach_literal, hword, spell?_cons, spell?_cons]
  by_cases ha : Text.sameLetter '<' a = true
  · by_cases hb : Text.sameLetter 'h' b = true
    · rw [if_pos ha, if_pos hb, spell?, Option.toList_some, List.flatMap_singleton, between,
        reach_char]
      by_cases hc : '3' ≤ c ∧ c ≤ '6'
      · rw [if_pos (by simpa [passes] using hc), if_pos ⟨ha, hb, hc⟩]
        rfl
      · rw [if_neg (by simpa [passes] using hc), if_neg (fun h => hc h.2.2)]
        rfl
    · rw [if_pos ha, if_neg hb, if_neg (fun h => hb h.2.1)]
      rfl
  · rw [if_neg ha, if_neg (fun h => ha h.1)]
    rfl

theorem matchAt_deeper_short (n : Nat) {text : List Char} (h : text.length < 3) :
    (plain deeper).matchAt ⟨n, text⟩ = none := by
  by_contra hne
  obtain ⟨stop, hs⟩ := Option.ne_none_iff_exists'.mp hne
  obtain ⟨word, hw, hs⟩ := spells_deeper (mem_reach_of_matchAt hs)
  obtain ⟨passed, hr, _, hp⟩ := spell?_eq_some_iff.mp hs
  have hlength : word.toList.length = 3 := by
    simp only [List.mem_cons, List.not_mem_nil, or_false] at hw
    rcases hw with rfl | rfl | rfl | rfl <;> rfl
  have hpassed := congrArg List.length (map_fold_eq_of_spell? hp)
  rw [List.length_map, List.length_map] at hpassed
  simp only at hr
  rw [hr, List.length_append] at h
  omega

theorem not_levelTwo_cons {letter c : Char} (h : Text.sameLetter letter c = true)
    (hl : Text.fold letter ≠ '<') (n : Nat) (rest : List Char) :
    levelTwo.matchesAt ⟨n, c :: rest⟩ = false := by
  apply tags_levelTwo.not_matchesAt
  intro hfound
  obtain ⟨d, rest', heq, hd⟩ := hfound
  obtain ⟨rfl, _⟩ := List.cons.inj heq
  rw [Text.sameLetter_iff.mp h] at hd
  exact hl hd

theorem fold_deep {c : Char} (h : '3' ≤ c ∧ c ≤ '6') : Text.fold c ≠ '<' := by
  rcases eq_of_deep h with rfl | rfl | rfl | rfl <;> decide

/-- A deeper heading that begins in a section is inside of it as a whole. -/
theorem matchAt_deeper_region (n : Nat) (c : Char) (rest : List Char) :
    ((plain deeper).matchAt ⟨n, c :: (region ⟨n + c.utf8Size, rest⟩).rest⟩).map (·.offset) =
      ((plain deeper).matchAt ⟨n, c :: rest⟩).map (·.offset) := by
  -- The cut is made where a level-two heading begins, and neither the second nor the third character
  -- of a deeper heading can be that place.
  have short : ∀ text : List Char, text.length < 3 → (plain deeper).matchAt ⟨n, text⟩ = none :=
    fun text h => matchAt_deeper_short n h
  cases rest with
  | nil => rw [region_end]
  | cons b rest =>
    cases rest with
    | nil =>
      rw [short [c, b] (by simp), short _ ?_]
      rw [region_cons]
      split
      · simp
      · simp [region_end]
    | cons d rest =>
      rw [matchAt_deeper_cons, region_cons]
      by_cases hb : levelTwo.matchesAt ⟨n + c.utf8Size, b :: d :: rest⟩ = true
      · have hno : ¬(Text.sameLetter '<' c ∧ Text.sameLetter 'h' b ∧ '3' ≤ d ∧ d ≤ '6') := by
          intro hfound
          obtain ⟨_, h, _⟩ := hfound
          rw [not_levelTwo_cons h (by decide)] at hb
          cases hb
        rw [if_pos hb, if_neg hno, short _ (by simp)]
      · rw [if_neg hb, region_cons]
        by_cases hd : levelTwo.matchesAt ⟨n + c.utf8Size + b.utf8Size, d :: rest⟩ = true
        · have hno : ¬(Text.sameLetter '<' c ∧ Text.sameLetter 'h' b ∧ '3' ≤ d ∧ d ≤ '6') := by
            intro hfound
            obtain ⟨_, _, h⟩ := hfound
            rw [not_levelTwo_cons (Text.sameLetter_self d) (fold_deep h)] at hd
            cases hd
          rw [if_pos hd, if_neg hno, short _ (by simp)]
        · rw [if_neg hd, matchAt_deeper_cons]
          split <;> rfl

/-- Tags do not overlap, so the next match begins where the one before it ends, or later. -/
theorem pairwise_candidatesFrom_deeper (cur : Cursor) :
    ((plain deeper).candidatesFrom cur).Pairwise fun a b => a.resume ≤ b.start.offset := by
  obtain ⟨n, rest⟩ := cur
  induction rest generalizing n with
  | nil => exact .nil
  | cons c rest ih =>
    rw [Matcher.candidatesFrom_cons]
    cases hm : (plain deeper).matchAt ⟨n, c :: rest⟩ with
    | none => exact ih _
    | some stop =>
      apply List.Pairwise.cons _ (ih _)
      intro later hl
      obtain ⟨hle, hlater⟩ := Matcher.mem_candidatesFrom.mp hl
      have hlt := lt_of_next_le hle
      have htag : later.start.AtTag := by
        apply tags_deeper.atTag
        rw [← isSome_matchAt_plain, hlater]
        rfl
      have hstop : stop.offset ≤ later.start.offset := by
        by_contra hgt
        exact tags_deeper.not_atTag_behind (mem_reach_of_matchAt hm) hle (by omega) htag
      unfold Match.resume
      simp only
      omega

theorem getLast?_candidatesFrom_region (cur : Cursor) :
    ((plain deeper).candidatesFrom (region cur)).getLast?.map (·.stop.offset) =
      (deepest cur).map (·.offset) := by
  obtain ⟨n, rest⟩ := cur
  induction rest generalizing n with
  | nil => rfl
  | cons c rest ih =>
    have hnext : (⟨n + c.utf8Size, (region ⟨n + c.utf8Size, rest⟩).rest⟩ : Cursor) =
        region ⟨n + c.utf8Size, rest⟩ := region_eq ⟨n + c.utf8Size, rest⟩
    rw [region_cons, deepest_cons]
    split
    · rfl
    · rw [Matcher.candidatesFrom_cons, hnext, List.getLast?_append, Option.map_or, ih,
        Option.map_or, ← matchAt_deeper_region]
      cases (plain deeper).matchAt ⟨n, c :: (region ⟨n + c.utf8Size, rest⟩).rest⟩ <;> rfl

theorem lastIn_region (cur : Cursor) : lastIn (region cur) = (deepest cur).map (·.offset) := by
  rw [lastIn, Match.select_eq_self (pairwise_candidatesFrom_deeper _) (fun _ _ => Nat.zero_le _),
    getLast?_candidatesFrom_region]

/-- The first closing tag has its section first, and the others are looked for behind its end. -/
theorem firstSection_of_find? {cur place : Cursor} {found : Attempt}
    (h : closing.find? cur = some (place, found)) :
    firstSection cur = (deepest found.here).or (firstSection found.here) := by
  obtain ⟨hle, hm, hnone⟩ := find?_eq_some h
  have hstop : (plain closing).matchAt place = some found.here := by
    rw [Matcher.matchAt, hm, Option.map_some]
  have hmem := mem_reach_of_matchAt hstop
  have hplace : firstSection cur = firstSection place := by
    apply findSome?_onward_of_le hle
    intro m hm hlt
    rw [Matcher.matchAt, hnone m hm hlt]
    rfl
  obtain ⟨n, rest⟩ := place
  cases rest with
  | nil => cases hstop
  | cons c rest =>
    have hskip : firstSection ⟨n + c.utf8Size, rest⟩ = firstSection found.here := by
      apply findSome?_onward_of_le (tags_closing.next_le hmem)
      intro m hm hmf
      have hno := tags_closing.not_atTag_behind hmem hm hmf
      rw [matchAt_plain_eq_none (tags_closing.not_matchesAt hno)]
      rfl
    rw [hplace, firstSection_cons, hstop, hskip, Option.bind_some]

theorem closeLoop_eq (cur : Cursor) : closeLoop cur = (firstSection cur).map (·.offset) := by
  fun_induction closeLoop cur with
  -- No closing tag is left, a section has a deeper heading, or it has none and the loop goes on.
  | case1 cur h =>
    have hnone : firstSection cur = none := by
      apply List.findSome?_eq_none_iff.mpr
      intro close hc
      have hm := List.findSome?_eq_none_iff.mp h close hc
      rw [Option.map_eq_none_iff] at hm
      rw [Matcher.matchAt, hm]
      rfl
    rw [hnone]
    rfl
  | case2 cur place found h stop hs =>
    rw [lastIn_region, Option.map_eq_some_iff] at hs
    obtain ⟨last, hlast, rfl⟩ := hs
    rw [firstSection_of_find? h, hlast]
    rfl
  | case3 cur place found h hs ih =>
    rw [lastIn_region, Option.map_eq_none_iff] at hs
    rw [firstSection_of_find? h, hs, ih]
    rfl

theorem findAt_eq_findLoop (text : List Char) (start : Nat) :
    Matcher.headingSkip.findAt text start = (seek? text start).bind findLoop := by
  have hloop : ∀ cur, (Matcher.headingSkip.findFrom cur).map (·.span) = findLoop cur := by
    intro cur
    rw [findLoop, Search.retry_eq_findSome?, Matcher.findFrom, Match.leftmost, List.map_findSome?]
    apply findSome?_congr
    intro place _
    rw [Function.comp_apply, Matcher.matchAt, HeadingSkip.matchAt]
    cases opening.matchAt place with
    | none => rfl
    | some found =>
      rw [Option.bind_some, Option.bind_some, closeLoop_eq, (skipEnd_eq found.here).1,
        Option.map_map, Option.map_map]
      rfl
  rw [Matcher.findAt_eq_seek]
  cases seek? text start with
  | none => rfl
  | some cur => exact hloop cur

end HeadingSkip

end MarkupAudit
