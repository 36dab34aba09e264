import MarkupAudit.Proofs.Pattern.Extend
import MarkupAudit.Proofs.Pattern.Lead
import MarkupAudit.Proofs.Selection
import MarkupAudit.Proofs.HeadingSkip.Section

/-!
Matches in a text that goes on. More text may complete a match or lengthen it, and then the search
goes on elsewhere. A matcher is steady when such a match covers all later ones of the shorter text,
and hides none that the shorter text would report (`Steady.covered`). The starts that a steady matcher
reports are then the first of those that it reports in the longer text (`starts_kept`). A pattern is
steady when a letter marks the begin or the end of its matches, or when it runs on after its opening.
-/

namespace MarkupAudit.Matcher

open Pattern

/-- More text hides no match and moves none. A match that it makes new or longer covers all that
come behind it in the shorter text, as the place has one there already. -/
structure Steady (m : Matcher) : Prop where
  persists : ∀ (cur : Cursor) (more : List Char), (m.matchAt cur).isSome = true →
    (m.matchAt (cur.extend more)).isSome = true
  found : ∀ (cur : Cursor) (more : List Char) (stop : Cursor),
    m.matchAt (cur.extend more) = some stop → stop.offset ≤ cur.finish.offset →
      ∃ stop', m.matchAt cur = some stop' ∧ stop = stop'.extend more
  covered : ∀ (cur : Cursor) (more : List Char) (stop later stop' : Cursor),
    m.matchAt (cur.extend more) = some stop → cur.finish.offset < stop.offset →
      cur ≤ later → cur.offset < later.offset → m.matchAt later = some stop' →
        ∃ end', m.matchAt cur = some end' ∧ later.offset < end'.offset

theorem Steady.congr {m m' : Matcher} (hm : m.Steady) (h : ∀ cur, m'.matchAt cur = m.matchAt cur) :
    m'.Steady where
  persists cur more := by
    rw [h, h]
    exact hm.persists cur more
  found cur more stop := by
    rw [h, h]
    exact hm.found cur more stop
  covered cur more stop later stop' := by
    rw [h, h, h]
    exact hm.covered cur more stop later stop'

section Prefix

variable {m : Matcher} (hm : m.Steady)
include hm

/-- What a match covers when it goes beyond the end of the shorter text. -/
theorem Steady.exists_stop {n : Nat} {c : Char} {rest more : List Char} {stop : Cursor}
    (hstop : m.matchAt ⟨n, c :: (rest ++ more)⟩ = some stop)
    (hlt : (⟨n, c :: rest⟩ : Cursor).finish.offset < stop.offset) {found : Match}
    (hf : found ∈ m.candidatesFrom ⟨n + c.utf8Size, rest⟩) :
    ∃ stop', m.matchAt ⟨n, c :: rest⟩ = some stop' ∧ found.start.offset < stop'.offset := by
  obtain ⟨hle, hmatch⟩ := mem_candidatesFrom.mp hf
  exact hm.covered ⟨n, c :: rest⟩ more stop found.start found.stop hstop hlt
    (Cursor.le_trans Cursor.le_next hle) (Cursor.lt_of_next_le hle) hmatch

theorem Steady.continues (rest more : List Char) (n : Nat) :
    Match.Continues (m.candidatesFrom ⟨n, rest⟩) (m.candidatesFrom ⟨n, rest ++ more⟩) := by
  induction rest generalizing n with
  | nil =>
    have hpersists := hm.persists ⟨n, []⟩ more
    rw [candidatesFrom, candidatesFrom, Cursor.onward, Cursor.onward, Cursor.after_end,
      List.filterMap_cons, List.filterMap_cons, List.filterMap_nil]
    change _ → (m.matchAt ⟨n, more⟩).isSome = true at hpersists
    cases hs : m.matchAt ⟨n, []⟩ with
    | none => exact .nil _
    | some stop =>
      rw [hs] at hpersists
      obtain ⟨stop', hs'⟩ := Option.isSome_iff_exists.mp (hpersists rfl)
      rw [List.nil_append, hs']
      exact .cons rfl (Or.inr (by simp)) (.nil _)
  | cons c rest ih =>
    have hpersists := hm.persists ⟨n, c :: rest⟩ more
    have hfound := hm.found ⟨n, c :: rest⟩ more
    rw [List.cons_append, candidatesFrom_cons, candidatesFrom_cons]
    change _ → (m.matchAt ⟨n, c :: (rest ++ more)⟩).isSome = true at hpersists
    cases hs' : m.matchAt ⟨n, c :: (rest ++ more)⟩ with
    | none =>
      rw [hs'] at hpersists
      have hs : m.matchAt ⟨n, c :: rest⟩ = none := by
        rw [← Option.not_isSome_iff_eq_none]
        intro hsome
        exact absurd (hpersists hsome) (by simp)
      rw [hs]
      exact ih _
    | some stop =>
      rcases Nat.lt_or_ge (⟨n, c :: rest⟩ : Cursor).finish.offset stop.offset with hlt | hle
      · -- The match is new or longer, and covers what the shorter text has behind it.
        cases hs : m.matchAt ⟨n, c :: rest⟩ with
        | none =>
          have hnone : m.candidatesFrom ⟨n + c.utf8Size, rest⟩ = [] := by
            rw [List.eq_nil_iff_forall_not_mem]
            intro found hf
            obtain ⟨stop', heq, _⟩ := hm.exists_stop hs' hlt hf
            rw [hs] at heq
            cases heq
          rw [hnone]
          exact .nil _
        | some stop' =>
          refine .cons rfl (Or.inr ?_) (ih _)
          intro found hf
          obtain ⟨other, heq, hless⟩ := hm.exists_stop hs' hlt hf
          rw [hs] at heq
          cases heq
          exact Nat.lt_of_lt_of_le hless (Match.stop_le_resume ⟨⟨n, c :: rest⟩, stop'⟩)
      · obtain ⟨stop', hs, rfl⟩ := hfound stop hs' hle
        rw [hs]
        exact .cons rfl (Or.inl rfl) (ih _)

/-- A steady matcher reports first, and at the same bytes, what it reports of the shorter text. -/
theorem Steady.starts_kept (text more : List Char) :
    (m.findAll text).map (·.start) <+: (m.findAll (text ++ more)).map (·.start) := by
  rw [findAll, findAll, candidates_eq_from, candidates_eq_from, List.map_map, List.map_map]
  exact Match.select_kept (hm.continues text more 0) 0

end Prefix

section Plain

variable {p q : Pattern}

/-- A match of the longer text that goes beyond the shorter, and a later one of the shorter text. -/
structure Across (p : Pattern) (more : List Char) (cur stop later stop' : Cursor) : Prop where
  reaches : stop ∈ p.reach (cur.extend more)
  beyond : cur.finish.offset < stop.offset
  behind : cur ≤ later
  lt : cur.offset < later.offset
  reaches' : stop' ∈ p.reach later

theorem Across.inside {more : List Char} {cur stop later stop' : Cursor}
    (h : Across p more cur stop later stop') {place : Cursor} (hle : place ≤ stop') :
    place.offset < stop.offset := by
  have hoffset := Cursor.offset_le hle
  have hfinish := Cursor.offset_le_finish (Cursor.le_trans h.behind (le_of_mem_reach h.reaches'))
  have hbeyond := h.beyond
  omega

theorem steady_plain (hp : p.lookFree = true) (hcovered : ∀ more cur stop later stop',
    Across p more cur stop later stop' →
      ∃ end', (p.reach cur).head? = some end' ∧ later.offset < end'.offset) :
    (plain p).Steady where
  persists cur more h := by
    rw [isSome_matchAt_plain] at h ⊢
    exact matchesAt_extend hp h more
  found cur more stop h hle := by
    rw [matchAt_plain] at h ⊢
    exact head?_reach_of_extend hp h hle
  covered cur more stop later stop' h hlt hle hless h' := by
    rw [matchAt_plain]
    exact hcovered more cur stop later stop'
      ⟨mem_reach_of_matchAt h, hlt, hle, hless, mem_reach_of_matchAt h'⟩

/-- The text goes on as before where it did not end yet. -/
theorem atLetter_extend {letter : Char} {cur : Cursor} (h : atLetter letter cur = true)
    (more : List Char) : atLetter letter (cur.extend more) = true := by
  obtain ⟨n, rest⟩ := cur
  cases rest with
  | nil => cases h
  | cons c rest => exact h

/-- No match begins inside of another when a letter comes at the begin of a match only. -/
theorem steady_of_leads {letter : Char} (hp : p.lookFree = true) (h : p.Leads letter) :
    (plain p).Steady := by
  apply steady_plain hp
  intro more cur stop later stop' hacross
  have hletter := atLetter_extend (h.head later stop' hacross.reaches') more
  have hinside := hacross.inside (le_of_mem_reach hacross.reaches')
  have hover : stop ≤ later.extend more := h.le_of_atLetter hacross.reaches
    (Cursor.extend_le hacross.behind more) hacross.lt hletter
  have hle := Cursor.offset_le_of_le_extend hover
  omega

/-- Where matches run up to a letter no later one ends before another. -/
theorem steady_of_last {letter : Char} (hp : (seq p q).lookFree = true) (hfirst : p.Lacks letter)
    (hlast : q.Leads letter) (hsingle : q.Single) : (plain (seq p q)).Steady := by
  apply steady_plain hp
  intro more cur stop later stop' hacross
  have hle : stop ≤ stop'.extend more := le_of_last hfirst hlast hsingle
    (Cursor.extend_le hacross.behind more) hacross.reaches (extend_mem_reach hp hacross.reaches' more)
  have hinside := hacross.inside (Cursor.le_refl stop')
  have hoffset := Cursor.offset_le_of_le_extend hle
  omega

/-- Something comes next, and it is not this character. -/
def passesBut (last : Char) (cur : Cursor) : Bool := passes (fun c => !([last].contains c)) cur

theorem passesBut_of_not_atLetter {last : Char} {cur : Cursor} (hne : cur.rest ≠ [])
    (h : atLetter last cur = false) : passesBut last cur = true := by
  obtain ⟨n, rest⟩ := cur
  cases rest with
  | nil => exact absurd rfl hne
  | cons c rest =>
    have hother : c ≠ last := by
      rintro rfl
      rw [atLetter, passes_cons, Text.sameLetter_self] at h
      cases h
    simpa [passesBut, passes] using hother

variable {opening body : Pattern} {first last : Char}

theorem reach_run_body (cur : Cursor) : (seq (star (noneOf [last])) body).reach cur =
    (cur.stretch (passesBut last)).reverse.flatMap body.reach := by
  rw [reach_seq, noneOf, reach_star_of_step (steps_char _)]
  rfl

/-- The preferred match runs on to the last place where the rest still matches. -/
theorem le_of_head?_reach_run {opened place stop stop' : Cursor}
    (hplace : place ∈ opened.stretch (passesBut last))
    (hbody : stop' ∈ body.reach place)
    (h : ((seq (star (noneOf [last])) body).reach opened).head? = some stop) :
    place.offset ≤ stop.offset := by
  rw [reach_run_body, List.head?_flatMap,
    findSome?_reverse_eq_some_iff_last (Cursor.pairwise_stretch _ _)] at h
  obtain ⟨furthest, _, hstop, hfurthest⟩ := h
  have hsome : (body.reach place).head?.isSome = true := by
    rw [← matchesAt_eq]
    exact matchesAt_iff.mpr ⟨stop', hbody⟩
  exact Nat.le_trans (hfurthest place hplace hsome)
    (Cursor.offset_le (le_of_mem_reach (List.mem_of_head? hstop)))

/-- What lacks the last letter can be run over, from any place on. -/
theorem mem_stretch_of_lacks {p : Pattern} {more : List Char}
    {cur stop later stop' begun place : Cursor} (hacross : Across p more cur stop later stop')
    (hlacks : p.Lacks last) (hcur : cur ≤ begun) (hbegun : begun ≤ place) (hplace : place ≤ stop') :
    place ∈ begun.stretch (passesBut last) := by
  apply Cursor.mem_stretch.mpr
  refine ⟨hbegun, ?_⟩
  intro mid hmid hle hlt
  have hne : mid.rest ≠ [] := by
    intro hnil
    have hlength := Cursor.length_lt hle hlt
    rw [hnil] at hlength
    cases hlength
  apply passesBut_of_not_atLetter hne
  have hinside := hacross.inside (Cursor.le_trans hle hplace)
  have hletter := hlacks _ stop hacross.reaches (mid.extend more)
    (Cursor.extend_le (Cursor.le_trans hcur hmid) more) hinside
  exact (passes_extend _ hne more).symm.trans hletter

/-- A match that runs on covers what begins inside of it, since it runs as far as that does. -/
theorem steady_of_run
    (hp : (seq opening (seq (star (noneOf [last])) body)).lookFree = true)
    (hopening : opening.Leads first) (hsingle : opening.Single)
    (hlacks : (seq opening (seq (star (noneOf [last])) body)).Lacks last) :
    (plain (seq opening (seq (star (noneOf [last])) body))).Steady := by
  apply steady_plain hp
  rw [lookFree, Bool.and_eq_true] at hp
  intro more cur stop later stop' hacross
  have hstop := hacross.reaches
  have hstop' := hacross.reaches'
  rw [reach_seq] at hstop hstop'
  obtain ⟨opened, hopened, _⟩ := List.mem_flatMap.mp hstop
  obtain ⟨opened', hopened', hrun⟩ := List.mem_flatMap.mp hstop'
  rw [reach_run_body] at hrun
  obtain ⟨place, hplace, hbody⟩ := List.mem_flatMap.mp hrun
  have hplace := (Cursor.mem_stretch.mp (List.mem_reverse.mp hplace)).1
  -- The opening of the longer text is over before the later match begins, so it is one of the
  -- shorter text as well.
  have hover : opened ≤ later.extend more := by
    apply hopening.le_of_atLetter hopened (Cursor.extend_le hacross.behind more) hacross.lt
    exact atLetter_extend (hopening.head later opened' hopened') more
  obtain ⟨begun, hbegun, rfl⟩ := exists_of_mem_reach_extend hp.1 hopened
    (Nat.le_trans (Cursor.offset_le_of_le_extend hover) (Cursor.offset_le_finish hacross.behind))
  -- From there it may run as far as the later match has run.
  have hle : begun ≤ place := Cursor.le_trans (Cursor.le_of_extend_le hover)
    (Cursor.le_trans (le_of_mem_reach hopened') hplace)
  have hstretch := mem_stretch_of_lacks hacross hlacks (le_of_mem_reach hbegun) hle
    (le_of_mem_reach hbody)
  have hrun : stop' ∈ (seq (star (noneOf [last])) body).reach begun := by
    rw [reach_run_body]
    exact List.mem_flatMap.mpr ⟨place, List.mem_reverse.mpr hstretch, hbody⟩
  obtain ⟨end', hend⟩ : ∃ end', ((seq opening (seq (star (noneOf [last])) body)).reach cur).head? =
      some end' := by
    apply Option.isSome_iff_exists.mp
    rw [← matchesAt_eq, matchesAt_iff]
    refine ⟨stop', ?_⟩
    rw [reach_seq]
    exact List.mem_flatMap.mpr ⟨begun, hbegun, hrun⟩
  refine ⟨end', hend, ?_⟩
  rw [reach_seq, List.head?_flatMap] at hend
  obtain ⟨other, hother, hend⟩ := List.exists_of_findSome?_eq_some hend
  rw [hsingle cur other begun hother hbegun] at hend
  have hopen := hopening.lt later opened' hopened'
  have hran := Cursor.offset_le hplace
  exact Nat.lt_of_lt_of_le (Nat.lt_of_lt_of_le hopen hran) (le_of_head?_reach_run hstretch hbody hend)

theorem steady_concat_split {ps : List Pattern} (n : Nat)
    (h : (plain (seq (concat (ps.take n)) (concat (ps.drop n)))).Steady) :
    (plain (concat ps)).Steady := h.congr (matchAt_concat_split n ps)

end Plain

end MarkupAudit.Matcher
