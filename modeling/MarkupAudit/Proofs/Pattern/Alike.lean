import MarkupAudit.Proofs.HeadingSkip.Meaning
import MarkupAudit.Proofs.RelatedOutcome

/-!
Texts that a pattern cannot tell apart. `T` relates texts that may come next at two places. A pattern
respects it when, whatever follows the pattern, related texts lead to related outcomes
(`Pattern.Respects`). Respect is put together part by part, and a repetition keeps it where related
texts are of one length; so a matcher whose patterns respect `T` matches related texts alike.
-/

namespace MarkupAudit

variable {T : List Char → List Char → Prop}

/-- The same text comes next, up to `T`, and did so where the group ended. -/
structure Attempt.Alike (T : List Char → List Char → Prop) (a b : Attempt) : Prop where
  here : T a.here.rest b.here.rest
  groupEnd : Option.Rel (fun p q : Cursor => T p.rest q.rest) a.groupEnd b.groupEnd

theorem Attempt.Alike.within {a b : Attempt} (h : a.Alike T b) {g g' : Option Cursor}
    (hg : Option.Rel (fun p q : Cursor => T p.rest q.rest) g g') :
    (a.within g).Alike T (b.within g') :=
  ⟨h.here, rel_or h.groupEnd hg⟩

theorem Attempt.alike_start {a b : Cursor} (h : T a.rest b.rest) :
    (Attempt.start a).Alike T (Attempt.start b) := ⟨h, .none⟩

/-- From two places on, related texts lead to related outcomes. -/
def Agree (T : List Char → List Char → Prop) (a b : Cursor)
    (next next' : Cursor → Option Attempt) : Prop :=
  ∀ later later', a ≤ later → b ≤ later' → T later.rest later'.rest →
    Option.Rel (Attempt.Alike T) (next later) (next' later')

variable {a b : Cursor} {next next' : Cursor → Option Attempt}

theorem Agree.onward (h : Agree T a b next next') {later later' : Cursor} (ha : a ≤ later)
    (hb : b ≤ later') : Agree T later later' next next' :=
  fun c c' hc hc' => h c c' (Cursor.le_trans ha hc) (Cursor.le_trans hb hc')

theorem Agree.here (h : Agree T a b next next') (hT : T a.rest b.rest) :
    Option.Rel (Attempt.Alike T) (next a) (next' b) :=
  h a b (Cursor.le_refl a) (Cursor.le_refl b) hT

namespace Pattern

/-- Where the outcomes of what follows agree, those of the pattern and what follows do. -/
def Respects (T : List Char → List Char → Prop) (p : Pattern) : Prop :=
  ∀ a b next next', Agree T a b next next' → Agree T a b (p.through next) (p.through next')

variable {p q : Pattern}

theorem respects_of_here (h : ∀ a b next next', T a.rest b.rest → Agree T a b next next' →
    Option.Rel (Attempt.Alike T) (p.through next a) (p.through next' b)) : p.Respects T :=
  fun _ _ next next' hnext later later' ha hb hT =>
    h later later' next next' hT (hnext.onward ha hb)

theorem through_empty (next : Cursor → Option Attempt) (cur : Cursor) :
    empty.through next cur = next cur := by
  rw [through, ends, List.findSome?_singleton, follow_start]

theorem respects_empty : empty.Respects T := by
  apply respects_of_here
  intro a b next next' hT hnext
  rw [through_empty, through_empty]
  exact hnext.here hT

theorem respects_char {accepts : Char → Bool}
    (hhead : ∀ s s', T s s' → s.head?.any accepts = s'.head?.any accepts)
    (htail : ∀ s s', T s s' → s.head?.any accepts = true → T s.tail s'.tail) :
    (char accepts).Respects T := by
  apply respects_of_here
  intro a b next next' hT hnext
  have hpasses : passes accepts a = passes accepts b := hhead _ _ hT
  rw [through_char, through_char, ← hpasses]
  split
  · rename_i hp
    have htail := htail _ _ hT hp
    have hb : passes accepts b = true := hpasses ▸ hp
    obtain ⟨n, rest⟩ := a
    obtain ⟨m, rest'⟩ := b
    cases rest with
    | nil => cases hp
    | cons c rest =>
      cases rest' with
      | nil => cases hb
      | cons c' rest' => exact hnext _ _ Cursor.le_next Cursor.le_next htail
  · exact .none

theorem respects_seq (hp : p.Respects T) (hq : q.Respects T) : (seq p q).Respects T := by
  intro a b next next' hnext
  rw [through_seq, through_seq]
  exact hp _ _ _ _ (hq _ _ _ _ hnext)

theorem respects_either (hp : p.Respects T) (hq : q.Respects T) : (either p q).Respects T := by
  intro a b next next' hnext later later' ha hb hT
  rw [through_either, through_either]
  exact rel_or (hp _ _ _ _ hnext later later' ha hb hT) (hq _ _ _ _ hnext later later' ha hb hT)

theorem respects_group (hp : p.Respects T) : (group p).Respects T := by
  intro a b next next' hnext later later' ha hb hT
  rw [through_group, through_group]
  refine hp _ _ _ _ ?_ later later' ha hb hT
  -- The group ends at both places, where related texts come next.
  intro place place' hl hl' hT
  exact rel_map (hnext place place' hl hl' hT) fun _ _ halike => halike.within (.some hT)

theorem matchAt_alike (hp : p.Respects T) (hT : T a.rest b.rest) :
    Option.Rel (Attempt.Alike T) (p.matchAt a) (p.matchAt b) := by
  rw [← through_success, ← through_success]
  have hstart : Agree T a b (fun place => some (Attempt.start place))
      (fun place => some (Attempt.start place)) := fun _ _ _ _ h => .some (Attempt.alike_start h)
  exact (hp a b _ _ hstart).here hT

theorem matchesAt_alike (hp : p.Respects T) (hT : T a.rest b.rest) :
    p.matchesAt a = p.matchesAt b := isSome_eq_of_rel (matchAt_alike hp hT)

theorem respects_notAhead (hp : p.Respects T) : (notAhead p).Respects T := by
  apply respects_of_here
  intro a b next next' hT hnext
  rw [through_notAhead, through_notAhead, isSome_eq_of_rel (matchAt_alike hp hT)]
  split
  · exact .none
  · exact hnext.here hT

section Repeat

variable (hlength : ∀ s s', T s s' → s.length = s'.length)
include hlength

/-- What comes after one repetition agrees: further ones where less text is left, or what follows. -/
theorem agree_again {f f' : Cursor → Option Attempt} (hT : T a.rest b.rest)
    (hnext : Agree T a b next next')
    (h : ∀ later later', a ≤ later → b ≤ later' → T later.rest later'.rest →
      later.rest.length < a.rest.length → Option.Rel (Attempt.Alike T) (f later) (f' later')) :
    Agree T a b (a.beyond f next) (b.beyond f' next') := by
  intro later later' ha hb hlater
  have hpassed : a.offset < later.offset ↔ b.offset < later'.offset := by
    rw [Cursor.offset_lt_iff ha, Cursor.offset_lt_iff hb, hlength _ _ hT, hlength _ _ hlater]
  rw [Cursor.beyond, Cursor.beyond]
  by_cases hlt : a.offset < later.offset
  · rw [if_pos hlt, if_pos (hpassed.mp hlt)]
    exact h later later' ha hb hlater (Cursor.length_lt ha hlt)
  · rw [if_neg hlt, if_neg (hlt ∘ hpassed.mpr)]
    exact hnext later later' ha hb hlater

theorem respects_star (hp : p.Respects T) : (star p).Respects T := by
  apply respects_of_here
  intro a b next next' hT hnext
  -- The induction is on the text ahead, of which every further repetition leaves less.
  induction hn : a.rest.length using Nat.strongRecOn generalizing a b with
  | ind n ih =>
    rw [through_star, through_star]
    refine rel_or ((hp a b _ _ ?_).here hT) (hnext.here hT)
    apply agree_again hlength hT hnext
    intro later later' ha hb hlater hless
    exact ih _ (hn ▸ hless) later later' hlater (hnext.onward ha hb) rfl

theorem respects_lazyStar (hp : p.Respects T) : (lazyStar p).Respects T := by
  apply respects_of_here
  intro a b next next' hT hnext
  induction hn : a.rest.length using Nat.strongRecOn generalizing a b with
  | ind n ih =>
    rw [through_lazyStar, through_lazyStar]
    refine rel_or (hnext.here hT) ((hp a b _ _ ?_).here hT)
    apply agree_again hlength hT hnext
    intro later later' ha hb hlater hless
    exact ih _ (hn ▸ hless) later later' hlater (hnext.onward ha hb) rfl

end Repeat

/-- Whether all classes of characters in a pattern pass a test. -/
def everyClass (test : (Char → Bool) → Bool) : Pattern → Bool
  | empty => true
  | char accepts => test accepts
  | seq p q => p.everyClass test && q.everyClass test
  | either p q => p.everyClass test && q.everyClass test
  | star p => p.everyClass test
  | lazyStar p => p.everyClass test
  | group p => p.everyClass test
  | notAhead p => p.everyClass test

theorem respects_of_everyClass (hlength : ∀ s s', T s s' → s.length = s'.length)
    {test : (Char → Bool) → Bool}
    (htest : ∀ accepts, test accepts = true → (char accepts).Respects T) {p : Pattern}
    (h : p.everyClass test = true) : p.Respects T := by
  induction p with
  | empty => exact respects_empty
  | char accepts => exact htest accepts h
  | seq p q hp hq =>
    rw [everyClass, Bool.and_eq_true] at h
    exact respects_seq (hp h.1) (hq h.2)
  | either p q hp hq =>
    rw [everyClass, Bool.and_eq_true] at h
    exact respects_either (hp h.1) (hq h.2)
  | star p hp => exact respects_star hlength (hp h)
  | lazyStar p hp => exact respects_lazyStar hlength (hp h)
  | group p hp => exact respects_group (hp h)
  | notAhead p hp => exact respects_notAhead (hp h)

end Pattern

namespace Matcher

variable {p guard : Pattern}

/-- Where related texts come next a matcher ends alike, or nowhere. -/
def Respects (T : List Char → List Char → Prop) (m : Matcher) : Prop :=
  ∀ a b : Cursor, T a.rest b.rest →
    Option.Rel (fun stop stop' : Cursor => T stop.rest stop'.rest) (m.matchAt a) (m.matchAt b)

theorem respects_plain (hp : p.Respects T) : (plain p).Respects T := by
  intro a b hT
  exact rel_map (Pattern.matchAt_alike hp hT) fun _ _ h => h.here

theorem accepts_alike (hg : guard.Respects T) {found found' : Attempt}
    (h : found.Alike T found') : accepts guard.matchesAt found = accepts guard.matchesAt found' := by
  obtain ⟨here, groupEnd⟩ := found
  obtain ⟨here', groupEnd'⟩ := found'
  rw [accepts, accepts]
  cases h.groupEnd with
  | some hT => exact congrArg (!·) (Pattern.matchesAt_alike hg hT)
  | none => rfl

theorem respects_guarded (hp : p.Respects T) (hg : guard.Respects T) :
    (guarded p guard).Respects T := by
  intro a b hT
  have hkept := rel_filter (Pattern.matchAt_alike hp hT) fun _ _ => accepts_alike hg
  exact rel_map hkept fun _ _ h => h.here

/-- What is said of the two matches at places with related texts, if there are any. -/
theorem forall₂_match_here {m : Matcher} (hm : m.Respects T) (hT : T a.rest b.rest)
    {P : Match → Match → Prop} (hP : ∀ stop stop' : Cursor, a ≤ stop → b ≤ stop' →
      T stop.rest stop'.rest → P ⟨a, stop⟩ ⟨b, stop'⟩) :
    List.Forall₂ P ((m.matchAt a).map (⟨a, ·⟩)).toList ((m.matchAt b).map (⟨b, ·⟩)).toList := by
  have hrel := hm a b hT
  generalize ha : m.matchAt a = found at hrel
  generalize hb : m.matchAt b = found' at hrel
  cases hrel with
  | some hstop => exact .cons (hP _ _ (le_of_matchAt ha) (le_of_matchAt hb) hstop) .nil
  | none => exact .nil

/-- Whether all classes of characters that a matcher goes by pass a test. -/
def everyClass (test : (Char → Bool) → Bool) : Matcher → Bool
  | plain p => p.everyClass test
  | guarded p guard => p.everyClass test && guard.everyClass test
  | headingSkip => HeadingSkip.pattern.everyClass test

theorem respects_of_everyClass (hlength : ∀ s s', T s s' → s.length = s'.length)
    {test : (Char → Bool) → Bool}
    (htest : ∀ accepts, test accepts = true → (Pattern.char accepts).Respects T) {m : Matcher}
    (h : m.everyClass test = true) : m.Respects T := by
  cases m with
  | plain p => exact respects_plain (Pattern.respects_of_everyClass hlength htest h)
  | guarded p guard =>
    rw [everyClass, Bool.and_eq_true] at h
    exact respects_guarded (Pattern.respects_of_everyClass hlength htest h.1)
      (Pattern.respects_of_everyClass hlength htest h.2)
  | headingSkip =>
    intro a b hT
    rw [← HeadingSkip.matchAt_pattern, ← HeadingSkip.matchAt_pattern]
    exact respects_plain (Pattern.respects_of_everyClass hlength htest h) a b hT

end Matcher

end MarkupAudit
