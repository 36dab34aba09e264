import MarkupAudit.Matcher
import MarkupAudit.Proofs.Pattern.Reach
import Mathlib.Data.List.Nodup

/-!
Searching a text from a byte on. `Matcher.findAt` is the leftmost place where there is a match
(`findAt_eq_some_iff`, `findAt_eq_none_iff`). The same search can be told as a loop that goes from
candidate to candidate: `Search.guarded` takes the leftmost candidate and, when the guard refuses it,
begins again one character behind its start, which may be inside the refused match.
`retry_eq_findSome?` says that such a loop passes over no match and stops at none too early. The loop
asks no more of the candidates than that there is at most one at each place.
-/

namespace MarkupAudit

namespace Cursor

/-- The leftmost place of a text, at or after a byte, where something holds. -/
structure Leftmost (text : List Char) (start : Nat) (P : Cursor → Prop) (cur : Cursor) : Prop where
  inside : cur.In text
  start_le : start ≤ cur.offset
  holds : P cur
  least : ∀ other, other.In text → start ≤ other.offset → P other → cur.offset ≤ other.offset

def seek? (text : List Char) (start : Nat) : Option Cursor :=
  (places text).find? fun cur => start ≤ cur.offset

theorem onward_eq (cur : Cursor) :
    cur.onward = cur :: (cur.next?.map onward).getD [] := by
  obtain ⟨n, rest⟩ := cur
  cases rest <;> rfl

theorem findSome?_onward_of_le {β : Type} {f : Cursor → Option β} {a b : Cursor} (hab : a ≤ b)
    (h : ∀ m, a ≤ m → m.offset < b.offset → f m = none) :
    a.onward.findSome? f = b.onward.findSome? f := by
  obtain ⟨n, rest⟩ := a
  induction rest generalizing n with
  | nil => rw [eq_of_le_end hab]
  | cons c rest ih =>
    rcases eq_or_next_le hab with rfl | hnext
    · rfl
    · have hpos := c.utf8Size_pos
      have hle := offset_le hnext
      simp only at hle
      have hnone := h ⟨n, c :: rest⟩ (le_refl _) (by simp only; omega)
      rw [onward, after_cons, List.findSome?_cons, hnone]
      apply ih _ hnext
      intro m hm hlt
      exact h m (le_trans le_next hm) hlt

theorem offset_add_byteLength {a b : Cursor} (h : a ≤ b) :
    b.offset + Text.byteLength b.rest = a.offset + Text.byteLength a.rest := by
  obtain ⟨passed, hr, ho⟩ := h
  rw [hr, ho, Text.byteLength_append, Nat.add_assoc]

/-- What is before a place of a text. -/
theorem exists_before {text : List Char} {cur : Cursor} (h : cur.In text) :
    ∃ before, text = before ++ cur.rest ∧ cur.offset = Text.byteLength before := by
  obtain ⟨before, htext, hoffset⟩ := h
  refine ⟨before, htext, ?_⟩
  rw [hoffset]
  exact Nat.zero_add _

/-- Of two places behind one place, one is behind the other. -/
theorem le_or_le {text a b : Cursor} (ha : text ≤ a) (hb : text ≤ b) : a ≤ b ∨ b ≤ a := by
  obtain ⟨p, hp, hpo⟩ := ha
  obtain ⟨q, hq, hqo⟩ := hb
  rcases List.append_eq_append_iff.mp (hp.symm.trans hq) with ⟨between, rfl, hr⟩ | ⟨between, rfl, hr⟩
  · left
    refine ⟨between, hr, ?_⟩
    rw [hqo, hpo, Text.byteLength_append, Nat.add_assoc]
  · right
    refine ⟨between, hr, ?_⟩
    rw [hqo, hpo, Text.byteLength_append, Nat.add_assoc]

theorem offset_le_of_mem_onward {a b : Cursor} (h : b ∈ a.onward) : a.offset ≤ b.offset :=
  offset_le (mem_onward.mp h)

end Cursor

/-- What is found in an ordered list is found before all else that could be. -/
theorem findSome?_eq_some_iff_of_pairwise {α β : Type} {R : α → α → Prop}
    (asymm : ∀ a b, R a b → ¬R b a) {f : α → Option β} {l : List α} (h : l.Pairwise R) {x : β} :
    l.findSome? f = some x ↔
      ∃ a ∈ l, f a = some x ∧ ∀ b ∈ l, (f b).isSome = true → b = a ∨ R a b := by
  constructor
  · intro hf
    obtain ⟨before, a, behind, rfl, hx, hnone⟩ := List.findSome?_eq_some_iff.mp hf
    refine ⟨a, by simp, hx, ?_⟩
    intro b hb hsome
    rcases List.mem_append.mp hb with hb | hb
    · rw [hnone b hb] at hsome
      cases hsome
    · rcases List.mem_cons.mp hb with rfl | hb
      · exact Or.inl rfl
      · exact Or.inr (List.rel_of_pairwise_cons (List.pairwise_append.mp h).2.1 hb)
  · intro hfound
    obtain ⟨a, ha, hx, hfirst⟩ := hfound
    have hsome : (l.findSome? f).isSome = true :=
      List.findSome?_isSome_iff.mpr ⟨a, ha, by simp [hx]⟩
    obtain ⟨y, hy⟩ := Option.isSome_iff_exists.mp hsome
    obtain ⟨before, b, behind, rfl, hb, hnone⟩ := List.findSome?_eq_some_iff.mp hy
    rcases List.mem_append.mp ha with ha | ha
    · rw [hnone a ha] at hx
      cases hx
    · rcases List.mem_cons.mp ha with rfl | ha
      · rw [hy, ← hb, hx]
      · have hba := List.rel_of_pairwise_cons (List.pairwise_append.mp h).2.1 ha
        rcases hfirst b (by simp) (by simp [hb]) with rfl | hab
        · rw [hy, ← hb, hx]
        · exact absurd hba (asymm a b hab)

section Key

variable {α β : Type} {key : α → Nat} {f : α → Option β} {l : List α} {x : β}
  (h : l.Pairwise (key · < key ·))
include h

theorem eq_of_key_eq {a b : α} (ha : a ∈ l) (hb : b ∈ l) (hab : key a = key b) : a = b := by
  have hnodup : (l.map key).Nodup := List.pairwise_map.mpr (h.imp Nat.ne_of_lt)
  exact List.inj_on_of_nodup_map hnodup ha hb hab

theorem findSome?_eq_some_iff_first : l.findSome? f = some x ↔
    ∃ a ∈ l, f a = some x ∧ ∀ b ∈ l, (f b).isSome = true → key a ≤ key b := by
  have asymm : ∀ a b : α, key a < key b → ¬key b < key a := fun a b hab => Nat.lt_asymm hab
  rw [findSome?_eq_some_iff_of_pairwise asymm h]
  constructor
  · intro h
    obtain ⟨a, ha, hx, hfirst⟩ := h
    refine ⟨a, ha, hx, ?_⟩
    intro b hb hsome
    rcases hfirst b hb hsome with rfl | hlt
    · exact Nat.le_refl _
    · exact Nat.le_of_lt hlt
  · intro hfound
    obtain ⟨a, ha, hx, hfirst⟩ := hfound
    refine ⟨a, ha, hx, ?_⟩
    intro b hb hsome
    rcases Nat.lt_or_eq_of_le (hfirst b hb hsome) with hlt | heq
    · exact Or.inr hlt
    · exact Or.inl (eq_of_key_eq h hb ha heq.symm)

theorem findSome?_reverse_eq_some_iff_last : l.reverse.findSome? f = some x ↔
    ∃ a ∈ l, f a = some x ∧ ∀ b ∈ l, (f b).isSome = true → key b ≤ key a := by
  have asymm : ∀ a b : α, key b < key a → ¬key a < key b := fun a b hab => Nat.lt_asymm hab
  rw [findSome?_eq_some_iff_of_pairwise asymm (List.pairwise_reverse.mpr h)]
  simp only [List.mem_reverse]
  constructor
  · intro h
    obtain ⟨a, ha, hx, hlast⟩ := h
    refine ⟨a, ha, hx, ?_⟩
    intro b hb hsome
    rcases hlast b hb hsome with rfl | hlt
    · exact Nat.le_refl _
    · exact Nat.le_of_lt hlt
  · intro hfound
    obtain ⟨a, ha, hx, hlast⟩ := hfound
    refine ⟨a, ha, hx, ?_⟩
    intro b hb hsome
    rcases Nat.lt_or_eq_of_le (hlast b hb hsome) with hlt | heq
    · exact Or.inr hlt
    · exact Or.inl (eq_of_key_eq h hb ha heq)

end Key

theorem Cursor.findSome?_onward_eq_some_iff {β : Type} {f : Cursor → Option β} {cur : Cursor}
    {x : β} : cur.onward.findSome? f = some x ↔ ∃ place, cur ≤ place ∧ f place = some x ∧
      ∀ other, cur ≤ other → (f other).isSome = true → place.offset ≤ other.offset := by
  rw [findSome?_eq_some_iff_first cur.pairwise_onward]
  simp only [Cursor.mem_onward]

theorem Match.first?_eq_some_iff {lower : Nat} {ms : List Match} {m : Match}
    (h : ms.Pairwise (·.start.offset < ·.start.offset)) : first? lower ms = some m ↔
      m ∈ ms ∧ lower ≤ m.start.offset ∧
        ∀ n ∈ ms, lower ≤ n.start.offset → m.start.offset ≤ n.start.offset := by
  have hfind : first? lower ms =
      ms.findSome? fun n => if lower ≤ n.start.offset then some n else none := by
    rw [first?, List.find?_eq_findSome?_guard]
    apply Pattern.findSome?_congr
    intro n _
    simp [Option.guard]
  rw [hfind, findSome?_eq_some_iff_first h]
  simp only [Option.ite_none_right_eq_some, Option.some.injEq, Option.isSome_ite]
  constructor
  · intro h
    obtain ⟨n, hn, ⟨hle, rfl⟩, hfirst⟩ := h
    exact ⟨hn, hle, hfirst⟩
  · intro h
    obtain ⟨hm, hle, hfirst⟩ := h
    exact ⟨m, hm, ⟨hle, rfl⟩, hfirst⟩

section Among

variable {matchAt : Cursor → Option Cursor} {text : List Char} {start : Nat}

/-- The first of all matches from a byte on is the one at the leftmost place that has one. -/
theorem Match.first?_among_eq_some_iff {found : Match} :
    first? start (among matchAt text) = some found ↔
      found.start.Leftmost text start (fun cur => (matchAt cur).isSome = true) ∧
        matchAt found.start = some found.stop := by
  rw [first?_eq_some_iff (pairwise_among matchAt text)]
  constructor
  · intro h
    obtain ⟨hmem, hle, hleast⟩ := h
    obtain ⟨hin, hmatch⟩ := mem_among.mp hmem
    refine ⟨⟨hin, hle, by simp [hmatch], ?_⟩, hmatch⟩
    intro other hother hstart hsome
    obtain ⟨stop, hs⟩ := Option.isSome_iff_exists.mp hsome
    exact hleast ⟨other, stop⟩ (mem_among.mpr ⟨hother, hs⟩) hstart
  · intro h
    obtain ⟨hl, hs⟩ := h
    refine ⟨mem_among.mpr ⟨hl.inside, hs⟩, hl.start_le, ?_⟩
    intro other hother hle
    obtain ⟨hin, hmatch⟩ := mem_among.mp hother
    exact hl.least other.start hin hle (by simp [hmatch])

theorem Match.exists_first?_among_iff {span : Span} :
    (∃ found, first? start (among matchAt text) = some found ∧ found.span = span) ↔
      ∃ cur stop, cur.Leftmost text start (fun cur => (matchAt cur).isSome = true) ∧
        matchAt cur = some stop ∧ span = ⟨cur.offset, stop.offset⟩ := by
  simp only [first?_among_eq_some_iff]
  constructor
  · intro h
    obtain ⟨found, ⟨hl, hs⟩, rfl⟩ := h
    exact ⟨found.start, found.stop, hl, hs, rfl⟩
  · intro h
    obtain ⟨cur, stop, hl, hs, rfl⟩ := h
    exact ⟨⟨cur, stop⟩, ⟨hl, hs⟩, rfl⟩

theorem Match.first?_among_eq_none_iff : first? start (among matchAt text) = none ↔
    ¬∃ cur, cur.In text ∧ start ≤ cur.offset ∧ (matchAt cur).isSome = true := by
  rw [first?, List.find?_eq_none]
  simp only [decide_eq_true_eq]
  constructor
  · rintro h ⟨cur, hin, hle, hsome⟩
    obtain ⟨stop, hs⟩ := Option.isSome_iff_exists.mp hsome
    exact h ⟨cur, stop⟩ (mem_among.mpr ⟨hin, hs⟩) hle
  · intro h found hf hle
    obtain ⟨hin, hmatch⟩ := mem_among.mp hf
    exact h ⟨found.start, hin, hle, by simp [hmatch]⟩

/-- The leftmost match at or after a place. -/
def Match.leftmost (matchAt : Cursor → Option Cursor) (cur : Cursor) : Option Match :=
  cur.onward.findSome? fun place => (matchAt place).map (⟨place, ·⟩)

/-- The match at a place that is not before a byte. -/
def Match.notBefore (matchAt : Cursor → Option Cursor) (start : Nat) (place : Cursor) :
    Option Match :=
  if start ≤ place.offset then (matchAt place).map (⟨place, ·⟩) else none

theorem Match.first?_filterMap (places : List Cursor) :
    first? start (places.filterMap fun place => (matchAt place).map (⟨place, ·⟩)) =
      places.findSome? (notBefore matchAt start) := by
  induction places with
  | nil => rfl
  | cons place places ih =>
    rw [List.filterMap_cons, List.findSome?_cons, notBefore]
    cases matchAt place with
    | none => simpa using ih
    | some stop =>
      by_cases hle : start ≤ place.offset
      · simp [first?, hle]
      · simpa [first?, hle] using ih

theorem Match.findSome?_notBefore (cur : Cursor) :
    cur.onward.findSome? (notBefore matchAt start) =
      (cur.onward.find? fun place => start ≤ place.offset).bind (leftmost matchAt) := by
  have here : ∀ place : Cursor, start ≤ place.offset →
      place.onward.findSome? (notBefore matchAt start) = leftmost matchAt place := by
    intro place hle
    apply Pattern.findSome?_congr
    intro later hl
    exact if_pos (Nat.le_trans hle (Cursor.offset_le_of_mem_onward hl))
  obtain ⟨n, rest⟩ := cur
  induction rest generalizing n with
  | nil =>
    by_cases hle : start ≤ n
    · simpa [Cursor.onward, hle] using here ⟨n, []⟩ hle
    · simp [Cursor.onward, notBefore, hle]
  | cons c rest ih =>
    by_cases hle : start ≤ n
    · rw [here ⟨n, c :: rest⟩ hle, Cursor.onward]
      simp [hle]
    · rw [Cursor.onward, Cursor.after_cons, List.findSome?_cons, notBefore, if_neg hle, ih]
      simp [hle]

theorem Match.first?_among (matchAt : Cursor → Option Cursor) (text : List Char) (start : Nat) :
    first? start (among matchAt text) =
      (Cursor.seek? text start).bind (leftmost matchAt) := by
  rw [among, first?_filterMap, Cursor.places, findSome?_notBefore]
  rfl

end Among

theorem Match.select_of_lt {lower : Nat} {ms more : List Match}
    (h : ∀ m ∈ ms, m.start.offset < lower) : select lower (ms ++ more) = select lower more := by
  induction ms with
  | nil => rfl
  | cons m ms ih =>
    have hm := h m List.mem_cons_self
    rw [List.cons_append, select, if_neg (by omega)]
    exact ih fun n hn => h n (List.mem_cons_of_mem m hn)

/-- Of matches that all end at one place only the first is kept. -/
theorem Match.select_append {lower stop : Nat} {ms more : List Match}
    (h : ∀ m ∈ ms, lower ≤ m.start.offset ∧ m.start.offset < stop ∧ m.stop.offset = stop) :
    select lower (ms ++ more) =
      ms.head?.toList ++ select (if ms = [] then lower else stop) more := by
  cases ms with
  | nil => rfl
  | cons m ms =>
    obtain ⟨hle, hlt, hstop⟩ := h m List.mem_cons_self
    have hresume : m.resume = stop := by
      unfold resume
      omega
    rw [List.cons_append, select, if_pos hle, hresume, List.head?_cons, if_neg (by simp),
      select_of_lt fun n hn => (h n (List.mem_cons_of_mem m hn)).2.1]
    rfl

theorem Match.select_eq_head? {lower stop : Nat} {ms : List Match}
    (h : ∀ m ∈ ms, lower ≤ m.start.offset ∧ m.start.offset < stop ∧ m.stop.offset = stop) :
    select lower ms = ms.head?.toList := by
  have hkept : select lower (ms ++ []) = ms.head?.toList ++ [] := select_append h
  rwa [List.append_nil, List.append_nil] at hkept

namespace Matcher

variable {m : Matcher} {text : List Char} {start : Nat}

theorem matchAt_plain (p : Pattern) (cur : Cursor) :
    (plain p).matchAt cur = (p.reach cur).head? := Pattern.map_here_matchAt p cur

theorem mem_reach_of_matchAt {p : Pattern} {a b : Cursor}
    (h : (plain p).matchAt a = some b) : b ∈ p.reach a := by
  rw [matchAt_plain] at h
  exact List.mem_of_head? h

theorem isSome_matchAt_plain (p : Pattern) (cur : Cursor) :
    ((plain p).matchAt cur).isSome = p.matchesAt cur := by
  rw [matchAt_plain, Pattern.matchesAt_eq]

theorem matchAt_plain_eq_none {p : Pattern} {cur : Cursor} (h : p.matchesAt cur = false) :
    (plain p).matchAt cur = none := by
  rw [← Option.not_isSome_iff_eq_none, isSome_matchAt_plain, h]
  simp

theorem findAt_eq_some_iff {span : Span} : m.findAt text start = some span ↔
    ∃ cur stop, cur.Leftmost text start (fun cur => (m.matchAt cur).isSome = true) ∧
      m.matchAt cur = some stop ∧ span = ⟨cur.offset, stop.offset⟩ := by
  rw [findAt, candidates_eq, Option.map_eq_some_iff]
  exact Match.exists_first?_among_iff

theorem findAt_eq_none_iff : m.findAt text start = none ↔
    ¬∃ cur, cur.In text ∧ start ≤ cur.offset ∧ (m.matchAt cur).isSome = true := by
  rw [findAt, candidates_eq, Option.map_eq_none_iff]
  exact Match.first?_among_eq_none_iff

theorem findAt_congr {m' : Matcher} (h : ∀ cur, m.matchAt cur = m'.matchAt cur)
    (text : List Char) (start : Nat) : m.findAt text start = m'.findAt text start := by
  have : m.matchAt = m'.matchAt := funext h
  rw [findAt, findAt, candidates_eq, candidates_eq, this]

theorem findAll_congr {m' : Matcher} (h : ∀ cur, m.matchAt cur = m'.matchAt cur)
    (text : List Char) : m.findAll text = m'.findAll text := by
  have : m.matchAt = m'.matchAt := funext h
  rw [findAll, findAll, candidates_eq, candidates_eq, this]

/-- A sequence may be taken as a first and a second part. -/
theorem matchAt_concat_split (n : Nat) (ps : List Pattern) (cur : Cursor) :
    (plain (.concat ps)).matchAt cur =
      (plain (.seq (.concat (ps.take n)) (.concat (ps.drop n)))).matchAt cur := by
  have hreach := Pattern.reach_concat_append (ps.take n) (ps.drop n) cur
  rw [List.take_append_drop] at hreach
  rw [matchAt_plain, matchAt_plain, Pattern.reach_seq, hreach]

def candidatesFrom (m : Matcher) (cur : Cursor) : List Match :=
  cur.onward.filterMap fun place => (m.matchAt place).map (⟨place, ·⟩)

theorem candidates_eq_from (m : Matcher) (text : List Char) :
    m.candidates text = m.candidatesFrom (Cursor.ofText text) := candidates_eq m text

theorem candidatesFrom_cons (m : Matcher) (n : Nat) (c : Char) (rest : List Char) :
    m.candidatesFrom ⟨n, c :: rest⟩ =
      ((m.matchAt ⟨n, c :: rest⟩).map (⟨⟨n, c :: rest⟩, ·⟩)).toList ++
        m.candidatesFrom ⟨n + c.utf8Size, rest⟩ := by
  rw [candidatesFrom, Cursor.onward, Cursor.after_cons, List.filterMap_cons]
  cases m.matchAt ⟨n, c :: rest⟩ <;> rfl

theorem mem_candidatesFrom {m : Matcher} {cur : Cursor} {found : Match} :
    found ∈ m.candidatesFrom cur ↔ cur ≤ found.start ∧ m.matchAt found.start = some found.stop := by
  simp only [candidatesFrom, List.mem_filterMap, Option.map_eq_some_iff, Cursor.mem_onward]
  constructor
  · intro h
    obtain ⟨place, hle, stop, hs, rfl⟩ := h
    exact ⟨hle, hs⟩
  · intro h
    exact ⟨found.start, h.1, found.stop, h.2, rfl⟩

/-- The leftmost match at or after a place. -/
def findFrom (m : Matcher) (cur : Cursor) : Option Match := Match.leftmost m.matchAt cur

theorem findAt_eq_seek (m : Matcher) (text : List Char) (start : Nat) :
    m.findAt text start = ((Cursor.seek? text start).bind m.findFrom).map (·.span) := by
  rw [findAt, candidates_eq, Match.first?_among]
  rfl

theorem exists_of_mem_findAll {span : Span} (h : span ∈ m.findAll text) : ∃ cur stop,
    cur.In text ∧ m.matchAt cur = some stop ∧ span = ⟨cur.offset, stop.offset⟩ := by
  obtain ⟨found, hf, rfl⟩ := List.mem_map.mp h
  obtain ⟨hin, hmatch⟩ := mem_candidates.mp ((Match.select_sublist 0 _).subset hf)
  exact ⟨found.start, found.stop, hin, hmatch, rfl⟩

theorem pairwise_findAll (m : Matcher) (text : List Char) :
    (m.findAll text).Pairwise (·.start < ·.start) := by
  rw [findAll, List.pairwise_map]
  exact (m.pairwise_candidates text).sublist (Match.select_sublist 0 _)

end Matcher

namespace Search

variable {β : Type} {matchAt : Cursor → Option Attempt}

/-- The leftmost candidate at or after a place, with its start. -/
def first? (matchAt : Cursor → Option Attempt) (cur : Cursor) : Option (Cursor × Attempt) :=
  cur.onward.findSome? fun place => (matchAt place).map (place, ·)

theorem first?_eq_some {cur place : Cursor} {found : Attempt}
    (h : first? matchAt cur = some (place, found)) : cur ≤ place ∧ matchAt place = some found ∧
      ∀ m, cur ≤ m → m.offset < place.offset → matchAt m = none := by
  obtain ⟨a, ha, hf, hfirst⟩ := Cursor.findSome?_onward_eq_some_iff.mp h
  obtain ⟨candidate, hc, heq⟩ := Option.map_eq_some_iff.mp hf
  cases heq
  refine ⟨ha, hc, ?_⟩
  intro m hm hlt
  by_contra hne
  obtain ⟨other, ho⟩ := Option.ne_none_iff_exists'.mp hne
  have hle := hfirst m hm (by simp [ho])
  omega

theorem first?_eq (matchAt : Cursor → Option Attempt) (cur : Cursor) : first? matchAt cur =
    ((matchAt cur).map (cur, ·)).or (cur.next?.bind (first? matchAt)) := by
  rw [first?, Cursor.onward_eq, List.findSome?_cons]
  cases matchAt cur with
  | some found => rfl
  | none => cases cur.next? <;> rfl

/-- A candidate is a match when only its end is asked for. -/
theorem leftmost_eq (matchAt : Cursor → Option Attempt) (cur : Cursor) :
    Match.leftmost (fun place => (matchAt place).map (·.here)) cur =
      (first? matchAt cur).map fun (place, found) => ⟨place, found.here⟩ := by
  rw [first?, Match.leftmost, List.map_findSome?]
  apply Pattern.findSome?_congr
  intro place _
  rw [Function.comp_apply]
  cases matchAt place <;> rfl

/-- Takes the leftmost candidate, and begins again one character behind its start when the
candidate fails the test. -/
def retry (matchAt : Cursor → Option Attempt) (test : Cursor → Attempt → Option β) (cur : Cursor) :
    Option β :=
  match _h : first? matchAt cur with
  | none => none
  | some (place, found) =>
    match test place found with
    | some result => some result
    | none =>
      match _hn : place.next? with
      | none => none
      | some next => retry matchAt test next
termination_by cur.rest.length
decreasing_by
  have hle := Cursor.length_le (first?_eq_some _h).1
  obtain ⟨n, rest⟩ := place
  cases rest with
  | nil => cases _hn
  | cons c rest =>
    cases _hn
    exact hle

variable {test : Cursor → Attempt → Option β}

theorem retry_eq (cur : Cursor) : retry matchAt test cur =
    (first? matchAt cur).bind fun (place, found) =>
      (test place found).or (place.next?.bind (retry matchAt test)) := by
  rw [retry]
  split
  · rename_i h
    rw [h]
    rfl
  · rename_i place found h
    simp only [h, Option.bind_some]
    split
    · rename_i result ht
      rw [ht]
      rfl
    · rename_i ht
      rw [ht]
      split
      · rename_i hn
        rw [hn]
        rfl
      · rename_i next hn
        rw [hn]
        rfl

/-- One candidate: what the loop does at a place is right if what it does behind it is. -/
theorem retry_step {cur : Cursor} {found : Cursor → Option β}
    (h : cur.next?.bind (retry matchAt test) = cur.next?.bind found) :
    retry matchAt test cur = ((matchAt cur).bind (test cur)).or (cur.next?.bind found) := by
  rw [retry_eq, first?_eq, ← h]
  cases matchAt cur with
  | some candidate => rfl
  | none =>
    cases cur.next? with
    | none => rfl
    | some next => exact (retry_eq next).symm

/-- The loop comes to the first place whose candidate passes the test: none is passed over. -/
theorem retry_eq_findSome? (cur : Cursor) : retry matchAt test cur =
    cur.onward.findSome? fun place => (matchAt place).bind (test place) := by
  -- Both sides take one place at a time, so the induction is on what is ahead.
  have unfold_onward : ∀ cur : Cursor,
      (cur.onward.findSome? fun place => (matchAt place).bind (test place)) =
        ((matchAt cur).bind (test cur)).or (cur.next?.bind fun next =>
          next.onward.findSome? fun place => (matchAt place).bind (test place)) := by
    intro cur
    rw [Cursor.onward_eq, List.findSome?_cons]
    cases (matchAt cur).bind (test cur) with
    | some result => rfl
    | none => cases cur.next? <;> rfl
  obtain ⟨n, rest⟩ := cur
  induction rest generalizing n with
  | nil =>
    rw [unfold_onward]
    exact retry_step rfl
  | cons c rest ih =>
    rw [unfold_onward]
    exact retry_step (ih _)

def guarded (matchAt : Cursor → Option Attempt) (guard : Cursor → Bool) : Cursor → Option Match :=
  retry matchAt fun place found =>
    if Matcher.accepts guard found then some ⟨place, found.here⟩ else none

theorem guarded_eq_leftmost (matchAt : Cursor → Option Attempt) (guard : Cursor → Bool) :
    guarded matchAt guard =
      Match.leftmost fun cur => ((matchAt cur).filter (Matcher.accepts guard)).map (·.here) := by
  funext cur
  rw [guarded, retry_eq_findSome?, Match.leftmost]
  apply Pattern.findSome?_congr
  intro place _
  cases matchAt place with
  | none => rfl
  | some found =>
    rw [Option.bind_some, Option.filter_some]
    split <;> rfl

end Search

/-- The leftmost match of a pattern at or after a place, with its start. -/
def Pattern.find? (p : Pattern) (cur : Cursor) : Option (Cursor × Attempt) :=
  Search.first? p.matchAt cur

theorem Pattern.find?_eq_some {p : Pattern} {cur place : Cursor} {found : Attempt}
    (h : p.find? cur = some (place, found)) : cur ≤ place ∧ p.matchAt place = some found ∧
      ∀ m, cur ≤ m → m.offset < place.offset → p.matchAt m = none := Search.first?_eq_some h

theorem Pattern.le_of_find? {p : Pattern} {cur place : Cursor} {found : Attempt}
    (h : p.find? cur = some (place, found)) : cur ≤ place := (find?_eq_some h).1

theorem Pattern.find?_eq (p : Pattern) (cur : Cursor) : p.find? cur =
    ((p.matchAt cur).map (cur, ·)).or (cur.next?.bind p.find?) := Search.first?_eq p.matchAt cur

theorem Pattern.retry_eq {β : Type} (p : Pattern) (test : Cursor → Attempt → Option β)
    (cur : Cursor) : Search.retry p.matchAt test cur = (p.find? cur).bind fun (place, found) =>
      (test place found).or (place.next?.bind (Search.retry p.matchAt test)) := Search.retry_eq cur

end MarkupAudit
