import MarkupAudit.Proofs.Pattern.First
import MarkupAudit.Proofs.Searcher
import Mathlib.Data.List.Perm.Subperm

/-!
All matches of a text, one search after another. Behind a stretch the search goes on at its end, and one
character further when the stretch is empty (`Span.restart`). This loop comes to an end for every
searcher, whatever its regex does (`Searcher.findAll`), and keeps the matches that a choice from the
left among all of them keeps (`findAll_eq_select`). Wherever its list is cut, what comes next is what
the search from there finds (`findAt_restart`), so no match that could be reported is passed over, and
none is reported twice (`findAll_leaves_nothing`).
-/

namespace MarkupAudit

namespace Text

/-- What is left of a text behind its first bytes. -/
def fromByte : Nat → List Char → List Char
  | _, [] => []
  | bytes, c :: rest => if bytes = 0 then c :: rest else fromByte (bytes - c.utf8Size) rest

theorem fromByte_append (before after : List Char) :
    fromByte (byteLength before) (before ++ after) = after := by
  induction before with
  | nil => cases after <;> rfl
  | cons c before ih =>
    have hpos := c.utf8Size_pos
    have hne : byteLength (c :: before) ≠ 0 := by
      rw [byteLength_cons]
      omega
    rw [List.cons_append, fromByte, if_neg hne, byteLength_cons, Nat.add_sub_cancel_left, ih]

/-- The byte behind the character at a byte, or one byte further where the text ends. -/
def nextByte (text : List Char) (byte : Nat) : Nat :=
  byte + ((fromByte byte text).head?.map Char.utf8Size).getD 1

theorem lt_nextByte (text : List Char) (byte : Nat) : byte < nextByte text byte := by
  rw [nextByte]
  cases (fromByte byte text).head? with
  | none => exact Nat.lt_succ_self byte
  | some c => exact Nat.lt_add_of_pos_right c.utf8Size_pos

end Text

theorem Cursor.fromByte_offset {text : List Char} {cur : Cursor} (h : cur.In text) :
    Text.fromByte cur.offset text = cur.rest := by
  obtain ⟨before, htext, hoffset⟩ := exists_before h
  rw [htext, hoffset, Text.fromByte_append]

theorem Cursor.offset_le_byteLength {text : List Char} {cur : Cursor} (h : cur.In text) :
    cur.offset ≤ Text.byteLength text := by
  have hoffset := offset_add_byteLength h
  change cur.offset + _ = 0 + Text.byteLength text at hoffset
  omega

namespace Span

/-- Where the search goes on behind a stretch: at its end, and one character further when the stretch
is empty. -/
def restart (text : List Char) (span : Span) : Nat :=
  if span.start = span.stop then Text.nextByte text span.stop else span.stop

/-- Where it goes on behind all that it has found. -/
def restartBehind (text : List Char) (found : List Span) : Nat :=
  (found.getLast?.map (restart text)).getD 0

theorem stop_le_restart (text : List Char) (span : Span) : span.stop ≤ span.restart text := by
  rw [restart]
  split
  · exact Nat.le_of_lt (Text.lt_nextByte text span.stop)
  · exact Nat.le_refl _

theorem stop_lt_restart (text : List Char) {span : Span} (h : span.start = span.stop) :
    span.stop < span.restart text := by
  rw [restart, if_pos h]
  exact Text.lt_nextByte text span.stop

theorem start_lt_restart (text : List Char) {span : Span} (h : span.start ≤ span.stop) :
    span.start < span.restart text := by
  rcases Nat.lt_or_eq_of_le h with hlt | heq
  · exact Nat.lt_of_lt_of_le hlt (stop_le_restart text span)
  · exact heq ▸ stop_lt_restart text heq

end Span

namespace Match

/-- Of the places of the text, the search comes to the same ones from either byte. -/
theorem resume_le_iff_restart_le {text : List Char} {m : Match} (hm : m.start.In text)
    (hle : m.start ≤ m.stop) {place : Cursor} (hp : place.In text) :
    m.resume ≤ place.offset ↔ m.span.restart text ≤ place.offset := by
  have hforward := Cursor.offset_le hle
  by_cases hempty : m.start.offset = m.stop.offset
  · have hrest := Cursor.fromByte_offset hm
    rw [Span.restart, span, if_pos hempty, resume, Text.nextByte, ← hempty, hrest]
    obtain ⟨⟨n, rest⟩, stop⟩ := m
    cases rest with
    | nil => simp
    | cons c rest =>
      have hpos := c.utf8Size_pos
      simp only [List.head?_cons, Option.map_some, Option.getD_some]
      -- No place stands between the two ends of the character.
      rcases Cursor.le_or_le hm hp with hnext | hbefore
      · rcases Cursor.eq_or_next_le hnext with rfl | hnext
        · simp only
          omega
        · have hoffset := Cursor.offset_le hnext
          simp only at hoffset
          omega
      · have hoffset := Cursor.offset_le hbefore
        simp only at hoffset
        omega
  · rw [Span.restart, span, if_neg hempty, resume]
    simp only
    omega

end Match

namespace Searcher

variable {s : Searcher} {text : List Char} {byte : Nat}

theorem start_le_of_findAt {found : Span} (h : s.findAt text byte = some found) :
    byte ≤ found.start ∧ found.start ≤ found.stop := by
  obtain ⟨cur, stop, hl, hmatch, rfl⟩ := findAt_eq_some_iff.mp h
  exact ⟨hl.start_le, Cursor.offset_le (le_of_matchAt hl.inside hmatch)⟩

/-- From a byte on, search after search, each begun where the one before it lets go. -/
def findAllFrom (s : Searcher) (text : List Char) (byte : Nat) : List Span :=
  if byte ≤ Text.byteLength text then
    match _h : s.findAt text byte with
    | none => []
    | some found => found :: findAllFrom s text (found.restart text)
  else []
termination_by Text.byteLength text + 1 - byte
decreasing_by
  have hfound := start_le_of_findAt _h
  have hlt := Span.start_lt_restart text hfound.2
  omega

def findAll (s : Searcher) (text : List Char) : List Span := s.findAllFrom text 0

theorem findAt_outside (h : Text.byteLength text < byte) : s.findAt text byte = none := by
  rw [findAt_eq_none_iff]
  intro hfound
  obtain ⟨place, hin, hle, _⟩ := hfound
  have hplace := Cursor.offset_le_byteLength hin
  omega

/-- Behind the end of the text nothing is found, so the loop need not look where it is. -/
theorem findAllFrom_eq (s : Searcher) (text : List Char) (byte : Nat) :
    s.findAllFrom text byte = match s.findAt text byte with
      | none => []
      | some found => found :: s.findAllFrom text (found.restart text) := by
  rw [findAllFrom]
  by_cases hin : byte ≤ Text.byteLength text
  · rw [if_pos hin]
    split <;> rename_i hfound <;> rw [hfound]
  · rw [if_neg hin, findAt_outside (Nat.lt_of_not_le hin)]

/-- The rounds of the loop, from the first on: what holds when a search finds nothing, and passes from
the rest of the matches to the one before them, holds of all. -/
@[elab_as_elim]
theorem findAllFrom_induction {motive : Nat → List Span → Prop}
    (stop : ∀ byte, s.findAt text byte = none → motive byte [])
    (found : ∀ byte span, s.findAt text byte = some span →
      motive (span.restart text) (s.findAllFrom text (span.restart text)) →
        motive byte (span :: s.findAllFrom text (span.restart text))) (byte : Nat) :
    motive byte (s.findAllFrom text byte) := by
  fun_induction findAllFrom s text byte with
  | case1 byte _ hnone => exact stop byte hnone
  | case2 byte _ span hsome ih => exact found byte span hsome ih
  | case3 byte hout => exact stop byte (findAt_outside (Nat.lt_of_not_le hout))

theorem exists_findAt_of_mem {span : Span} (h : span ∈ s.findAllFrom text byte) :
    ∃ start, byte ≤ start ∧ s.findAt text start = some span := by
  revert h
  induction byte using findAllFrom_induction with
  | stop byte _ =>
    intro h
    cases h
  | found byte first hfirst ih =>
    intro h
    obtain ⟨hle, hforward⟩ := start_le_of_findAt hfirst
    rcases List.mem_cons.mp h with rfl | h
    · exact ⟨byte, Nat.le_refl _, hfirst⟩
    · obtain ⟨start, hstart, hfound⟩ := ih h
      have hlt := Span.start_lt_restart text hforward
      exact ⟨start, by omega, hfound⟩

theorem start_le_of_mem {span : Span} (h : span ∈ s.findAllFrom text byte) : byte ≤ span.start := by
  obtain ⟨start, hle, hfound⟩ := exists_findAt_of_mem h
  exact Nat.le_trans hle (start_le_of_findAt hfound).1

theorem exists_of_mem_findAll {span : Span} (h : span ∈ s.findAll text) : ∃ cur stop,
    cur.In text ∧ s.matchAt text cur = some stop ∧ span = ⟨cur.offset, stop.offset⟩ := by
  obtain ⟨start, _, hfound⟩ := exists_findAt_of_mem h
  obtain ⟨cur, stop, hl, hmatch, rfl⟩ := findAt_eq_some_iff.mp hfound
  exact ⟨cur, stop, hl.inside, hmatch, rfl⟩

/-- Where the rest of the matches begins, the search finds the first of them. -/
theorem findAt_behind {found more : List Span} (h : s.findAllFrom text byte = found ++ more) :
    s.findAt text ((found.getLast?.map (Span.restart text)).getD byte) = more.head? := by
  induction found generalizing byte with
  | nil =>
    rw [findAllFrom_eq, List.nil_append] at h
    rw [← h]
    change s.findAt text byte = _
    cases s.findAt text byte <;> rfl
  | cons first found ih =>
    rw [findAllFrom_eq] at h
    cases hfirst : s.findAt text byte with
    | none =>
      rw [hfirst] at h
      cases h
    | some span =>
      rw [hfirst] at h
      obtain ⟨rfl, htail⟩ := List.cons.inj h
      rw [← ih htail, List.getLast?_cons]
      cases found.getLast? <;> rfl

/-- Where all matches of a text are cut, the next one is what the search from there finds. -/
theorem findAt_restart {found more : List Span} (h : s.findAll text = found ++ more) :
    s.findAt text (Span.restartBehind text found) = more.head? := findAt_behind h

/-- Nothing that matches is passed over on the way to the next stretch, or to the end. -/
theorem matchAt_eq_none_of_before_next {found more : List Span} (h : s.findAll text = found ++ more)
    {cur : Cursor} (hcur : cur.In text) (hle : Span.restartBehind text found ≤ cur.offset)
    (hnext : ∀ next, more.head? = some next → cur.offset < next.start) :
    s.matchAt text cur = none := by
  have hfound := findAt_restart h
  by_contra hsome
  rw [← ne_eq, ← Option.isSome_iff_ne_none] at hsome
  cases hhead : more.head? with
  | none =>
    rw [hhead] at hfound
    exact findAt_eq_none_iff.mp hfound ⟨cur, hcur, hle, hsome⟩
  | some next =>
    rw [hhead] at hfound
    obtain ⟨place, stop, hleftmost, _, rfl⟩ := findAt_eq_some_iff.mp hfound
    have hlt := hnext _ hhead
    have hleast := hleftmost.least cur hcur hle hsome
    simp only at hlt
    omega

theorem pairwise_findAllFrom_apart (s : Searcher) (text : List Char) (byte : Nat) :
    (s.findAllFrom text byte).Pairwise
      fun a b => a.stop ≤ b.start ∧ (a.start = a.stop → a.stop < b.start) := by
  induction byte using findAllFrom_induction with
  | stop byte _ => exact .nil
  | found byte first _ ih =>
    refine .cons ?_ ih
    intro later hl
    have hle := start_le_of_mem hl
    exact ⟨Nat.le_trans (Span.stop_le_restart text first) hle,
      fun hempty => Nat.lt_of_lt_of_le (Span.stop_lt_restart text hempty) hle⟩

theorem pairwise_findAllFrom (s : Searcher) (text : List Char) (byte : Nat) :
    (s.findAllFrom text byte).Pairwise (·.start < ·.start) := by
  induction byte using findAllFrom_induction with
  | stop byte _ => exact .nil
  | found byte first hfirst ih =>
    refine .cons ?_ ih
    intro later hl
    exact Nat.lt_of_lt_of_le (Span.start_lt_restart text (start_le_of_findAt hfirst).2)
      (start_le_of_mem hl)

/-- One stretch begins at a byte, at most, and none behind the end of the text. -/
theorem length_findAll_le (s : Searcher) (text : List Char) :
    (s.findAll text).length ≤ Text.byteLength text + 1 := by
  have hnodup : ((s.findAll text).map (·.start)).Nodup :=
    List.pairwise_map.mpr ((s.pairwise_findAllFrom text 0).imp Nat.ne_of_lt)
  have hsubset : (s.findAll text).map (·.start) ⊆ List.range (Text.byteLength text + 1) := by
    intro start hs
    obtain ⟨span, hspan, rfl⟩ := List.mem_map.mp hs
    obtain ⟨cur, stop, hin, _, rfl⟩ := exists_of_mem_findAll hspan
    exact List.mem_range.mpr (Nat.lt_succ_of_le (Cursor.offset_le_byteLength hin))
  have hlength := (List.subperm_of_subset hnodup hsubset).length_le
  simpa using hlength

/-- From bytes that come to the same places the first of all matches is the same. -/
theorem first?_congr_start {lower : Nat}
    (h : ∀ place : Cursor, place.In text → (lower ≤ place.offset ↔ byte ≤ place.offset)) :
    Match.first? lower (s.candidates text) = Match.first? byte (s.candidates text) := by
  have hfilter : ∀ found ∈ s.candidates text,
      decide (lower ≤ found.start.offset) = decide (byte ≤ found.start.offset) := by
    intro found hf
    exact decide_eq_decide.mpr (h found.start (Match.mem_among.mp hf).1)
  rw [Match.first?, Match.first?, ← List.head?_filter, ← List.head?_filter,
    List.filter_congr hfilter]

/-- The loop keeps the matches that a choice from the left keeps. -/
theorem findAllFrom_eq_select {lower : Nat}
    (h : ∀ place : Cursor, place.In text → (lower ≤ place.offset ↔ byte ≤ place.offset)) :
    s.findAllFrom text byte = (Match.select lower (s.candidates text)).map (·.span) := by
  induction byte using findAllFrom_induction generalizing lower with
  | stop byte hnone =>
    rw [findAt_eq_first?, Option.map_eq_none_iff] at hnone
    rw [Match.select_eq lower (s.pairwise_candidates text), first?_congr_start h, hnone]
    rfl
  | found byte span hsome ih =>
    rw [findAt_eq_first?, Option.map_eq_some_iff] at hsome
    obtain ⟨found, hfound, rfl⟩ := hsome
    obtain ⟨hl, hmatch⟩ := Match.first?_among_eq_some_iff.mp hfound
    have hrest := ih fun place => Match.resume_le_iff_restart_le hl.inside
      (le_of_matchAt hl.inside hmatch)
    rw [Match.select_eq lower (s.pairwise_candidates text), first?_congr_start h, hfound, hrest]
    rfl

end Searcher

namespace Matcher

variable {m : Matcher} {text : List Char}

theorem findAll_searcher (m : Matcher) (text : List Char) :
    m.searcher.findAll text = m.findAll text := by
  rw [Searcher.findAll, Searcher.findAllFrom_eq_select fun _ _ => Iff.rfl, candidates_searcher,
    findAll]

theorem findAt_restart {found more : List Span} (h : m.findAll text = found ++ more) :
    m.findAt text (Span.restartBehind text found) = more.head? := by
  rw [← findAt_searcher]
  exact Searcher.findAt_restart (m.findAll_searcher text ▸ h)

theorem matchAt_eq_none_of_before_next {found more : List Span} (h : m.findAll text = found ++ more)
    {cur : Cursor} (hcur : cur.In text) (hle : Span.restartBehind text found ≤ cur.offset)
    (hnext : ∀ next, more.head? = some next → cur.offset < next.start) : m.matchAt cur = none := by
  rw [← m.matchAt_searcher text]
  exact Searcher.matchAt_eq_none_of_before_next (m.findAll_searcher text ▸ h) hcur hle hnext

theorem pairwise_findAll_apart (m : Matcher) (text : List Char) : (m.findAll text).Pairwise
    fun a b => a.stop ≤ b.start ∧ (a.start = a.stop → a.stop < b.start) :=
  m.findAll_searcher text ▸ m.searcher.pairwise_findAllFrom_apart text 0

end Matcher

/-- All matches of a text are a greedy choice from the left that leaves nothing out, whatever the
regex, and also where it matches the empty text. Each stretch is found by a search from where the one
before it lets go, and no place from there to its start, or from the last such place on, has a match
that is accepted; the stretches lie in the text between two of its places and do not overlap. The
matchers search in this way, and the stretches of a rule are not empty. -/
theorem Searcher.findAll_leaves_nothing :
    (∀ (s : Searcher) (text : List Char),
      (∀ found more, s.findAll text = found ++ more →
        s.findAt text (Span.restartBehind text found) = more.head? ∧
        ∀ cur, cur.In text → Span.restartBehind text found ≤ cur.offset →
          (∀ next, more.head? = some next → cur.offset < next.start) →
            s.matchAt text cur = none) ∧
      (∀ span ∈ s.findAll text, span.start ≤ span.stop ∧ span.stop ≤ Text.byteLength text ∧
        ∃ first last : Cursor,
          first.In text ∧ last.In text ∧ span = ⟨first.offset, last.offset⟩) ∧
      ((s.findAll text).Pairwise fun a b =>
        a.stop ≤ b.start ∧ (a.start = a.stop → a.stop < b.start)) ∧
      (s.findAll text).Nodup ∧ (s.findAll text).length ≤ Text.byteLength text + 1) ∧
    (∀ (m : Matcher) (text : List Char), m.findAll text = m.searcher.findAll text ∧
      ∀ start, m.findAt text start = m.searcher.findAt text start) ∧
    (∀ rule ∈ Catalogue.rules, ∀ text, ∀ span ∈ rule.matcher.findAll text,
      span.start < span.stop) := by
  refine ⟨?_, ?_, ?_⟩
  · intro s text
    refine ⟨?_, ?_, pairwise_findAllFrom_apart s text 0, ?_, length_findAll_le s text⟩
    · intro found more h
      exact ⟨findAt_restart h, fun cur => matchAt_eq_none_of_before_next h⟩
    · intro span hs
      obtain ⟨cur, stop, hin, hmatch, rfl⟩ := exists_of_mem_findAll hs
      have hle := le_of_matchAt hin hmatch
      have hlast := Cursor.le_trans hin hle
      exact ⟨Cursor.offset_le hle, Cursor.offset_le_byteLength hlast, cur, stop, hin, hlast, rfl⟩
    · apply (s.pairwise_findAllFrom text 0).imp
      rintro a b hlt rfl
      exact Nat.lt_irrefl _ hlt
  · intro m text
    exact ⟨(m.findAll_searcher text).symm, fun start => (m.findAt_searcher text start).symm⟩
  · intro rule hr text span hs
    obtain ⟨cur, stop, _, hmatch, rfl⟩ := Matcher.exists_of_mem_findAll hs
    exact Catalogue.offset_lt hr hmatch

/-- Empty stretches before a letter of two bytes and at the end of the text. -/
theorem Searcher.findAll_leaves_nothing_empty :
    let s := (Matcher.plain (.star (.exactly 'a'))).searcher
    s.findAll "éa".toList = [⟨0, 0⟩] ++ [⟨2, 3⟩, ⟨3, 3⟩] ∧
    s.findAt "éa".toList (Span.restartBehind "éa".toList [⟨0, 0⟩]) = some ⟨2, 3⟩ ∧
    s.findAt "éa".toList (Span.restartBehind "éa".toList [⟨0, 0⟩, ⟨2, 3⟩, ⟨3, 3⟩]) = none ∧
    Span.restartBehind "éa".toList [⟨0, 0⟩, ⟨2, 3⟩, ⟨3, 3⟩] = 4 := by
  intro s
  obtain ⟨hcut, _⟩ := findAll_leaves_nothing.1 s "éa".toList
  have hall : s.findAll "éa".toList = [⟨0, 0⟩, ⟨2, 3⟩, ⟨3, 3⟩] := by
    rw [Matcher.findAll_searcher]
    decide +kernel
  exact ⟨hall, (hcut [⟨0, 0⟩] [⟨2, 3⟩, ⟨3, 3⟩] hall).1, (hcut _ [] hall).1, by decide +kernel⟩

end MarkupAudit
