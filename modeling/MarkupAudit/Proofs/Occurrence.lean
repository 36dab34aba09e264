import MarkupAudit.Proofs.Pattern.Lead
import MarkupAudit.Proofs.Search

/-!
The first and the last place from a place on where something begins. From a later place on the same
begins last, unless it begins before that place (`lastIn_of_le`); so whatever finds the last one may
start late. What begins first goes on if anything that begins later does (`firstIn_bind`).
-/

namespace MarkupAudit

namespace Cursor

/-- The first place from here on where something begins, and the place behind it. -/
def firstIn (begins : Cursor → Option Cursor) (cur : Cursor) : Option (Cursor × Cursor) :=
  cur.onward.findSome? fun place => (begins place).map (place, ·)

/-- The last such place, and the place behind what begins there. -/
def lastIn (begins : Cursor → Option Cursor) (cur : Cursor) : Option (Cursor × Cursor) :=
  cur.onward.reverse.findSome? fun place => (begins place).map (place, ·)

/-- Where the last that begins from here on ends. -/
def lastEnd (begins : Cursor → Option Cursor) (cur : Cursor) : Option Cursor :=
  (cur.lastIn begins).map (·.2)

/-- Something begins from the first place on and is over at the second. -/
def holds (begins : Cursor → Option Cursor) (cur bound : Cursor) : Bool :=
  cur.onward.any fun place => (begins place).any (·.offset ≤ bound.offset)

variable {begins : Cursor → Option Cursor} {a b place stop : Cursor}

theorem firstIn_eq_some_iff : a.firstIn begins = some (place, stop) ↔
    a ≤ place ∧ begins place = some stop ∧
      ∀ other, a ≤ other → (begins other).isSome = true → place.offset ≤ other.offset := by
  rw [firstIn, findSome?_onward_eq_some_iff]
  simp only [Option.map_eq_some_iff, Option.isSome_map]
  constructor
  · rintro ⟨_, hle, ⟨_, hs, heq⟩, hfirst⟩
    cases heq
    exact ⟨hle, hs, hfirst⟩
  · intro h
    exact ⟨place, h.1, ⟨stop, h.2.1, rfl⟩, h.2.2⟩

theorem firstIn_eq_none_iff :
    a.firstIn begins = none ↔ ∀ place, a ≤ place → begins place = none := by
  rw [firstIn, List.findSome?_eq_none_iff]
  simp only [mem_onward, Option.map_eq_none_iff]

theorem lastIn_eq_some_iff : a.lastIn begins = some (place, stop) ↔
    a ≤ place ∧ begins place = some stop ∧
      ∀ other, a ≤ other → (begins other).isSome = true → other.offset ≤ place.offset := by
  rw [lastIn, findSome?_reverse_eq_some_iff_last a.pairwise_onward]
  simp only [mem_onward, Option.map_eq_some_iff, Option.isSome_map]
  constructor
  · rintro ⟨_, hle, ⟨_, hs, heq⟩, hlast⟩
    cases heq
    exact ⟨hle, hs, hlast⟩
  · intro h
    exact ⟨place, h.1, ⟨stop, h.2.1, rfl⟩, h.2.2⟩

/-- What begins last from a place on is what begins last from an earlier one, if it is not before. -/
theorem lastIn_of_le (h : a ≤ b) :
    b.lastIn begins = (a.lastIn begins).filter fun last => b.offset ≤ last.1.offset := by
  apply Option.ext
  rintro ⟨place, stop⟩
  rw [Option.filter_eq_some_iff, lastIn_eq_some_iff, lastIn_eq_some_iff, decide_eq_true_eq]
  constructor
  · intro hlast
    obtain ⟨hle, hs, hall⟩ := hlast
    have hoffset := offset_le hle
    refine ⟨⟨le_trans h hle, hs, ?_⟩, hoffset⟩
    intro other ho hsome
    rcases lt_or_le h ho with hbefore | hbehind
    · omega
    · exact hall other hbehind hsome
  · intro hlast
    obtain ⟨⟨hle, hs, hall⟩, hoffset⟩ := hlast
    exact ⟨le_of_offset_le h hle hoffset, hs, fun other ho => hall other (le_trans h ho)⟩

theorem lastEnd_eq (begins : Cursor → Option Cursor) (cur : Cursor) :
    cur.lastEnd begins = cur.onward.reverse.findSome? begins := by
  rw [lastEnd, lastIn, List.map_findSome?]
  apply Pattern.findSome?_congr
  intro place _
  rw [Function.comp_apply, Option.map_map]
  cases begins place <;> rfl

theorem lastEnd_congr {begins' : Cursor → Option Cursor} {cur : Cursor}
    (h : ∀ place, cur ≤ place → begins place = begins' place) :
    cur.lastEnd begins = cur.lastEnd begins' := by
  rw [lastEnd_eq, lastEnd_eq]
  apply Pattern.findSome?_congr
  intro place hp
  exact h place (mem_onward.mp (List.mem_reverse.mp hp))

theorem lastEnd_cons (begins : Cursor → Option Cursor) (n : Nat) (c : Char) (rest : List Char) :
    (⟨n, c :: rest⟩ : Cursor).lastEnd begins =
      ((⟨n + c.utf8Size, rest⟩ : Cursor).lastEnd begins).or (begins ⟨n, c :: rest⟩) := by
  rw [lastEnd_eq, lastEnd_eq, onward, after_cons, List.reverse_cons, List.findSome?_append,
    List.findSome?_singleton]

theorem lastEnd_of_le (h : a ≤ b) (hb : b.lastEnd begins = some stop) :
    a.lastEnd begins = some stop := by
  rw [lastEnd, lastIn_of_le h, Option.map_eq_some_iff] at hb
  obtain ⟨last, hlast, rfl⟩ := hb
  rw [lastEnd, (Option.filter_eq_some_iff.mp hlast).1, Option.map_some]

/-- From several places on, one of them before all others, the same ends last. -/
theorem findSome?_lastEnd {places : List Cursor} {cur : Cursor} (hmem : cur ∈ places)
    (hle : ∀ place ∈ places, cur ≤ place) :
    places.findSome? (lastEnd begins) = cur.lastEnd begins := by
  cases hfound : places.findSome? (lastEnd begins) with
  | none => exact (List.findSome?_eq_none_iff.mp hfound cur hmem).symm
  | some stop =>
    obtain ⟨place, hp, hs⟩ := List.exists_of_findSome?_eq_some hfound
    exact (lastEnd_of_le (hle place hp) hs).symm

theorem firstIn_congr {begins' : Cursor → Option Cursor} {cur : Cursor}
    (h : ∀ place, cur ≤ place → begins place = begins' place) :
    cur.firstIn begins = cur.firstIn begins' := by
  apply Pattern.findSome?_congr
  intro place hp
  rw [h place (mem_onward.mp hp)]

/-- What goes on whenever something later does is first where something begins, or not at all. -/
theorem firstIn_bind {further : Cursor → Option Cursor} {cur : Cursor}
    (hearlier : ∀ x y stop stop', x ≤ y → begins x = some stop → begins y = some stop' →
      (further stop').isSome = true → (further stop).isSome = true) :
    cur.firstIn (fun place => (begins place).bind further) =
      (cur.firstIn begins).bind fun first => (further first.2).map (first.1, ·) := by
  cases hfirst : cur.firstIn begins with
  | none =>
    apply firstIn_eq_none_iff.mpr
    intro place hp
    rw [firstIn_eq_none_iff.mp hfirst place hp, Option.bind_none]
  | some first =>
    obtain ⟨start, begun⟩ := first
    obtain ⟨hle, hbegun, hleast⟩ := firstIn_eq_some_iff.mp hfirst
    rw [Option.bind_some]
    cases hend : further begun with
    | none =>
      apply firstIn_eq_none_iff.mpr
      intro place hp
      cases hplace : begins place with
      | none => rfl
      | some stop =>
        have hstart := le_of_offset_le hle hp (hleast place hp (by simp [hplace]))
        apply Option.not_isSome_iff_eq_none.mp
        intro hsome
        have hgoes := hearlier start place begun stop hstart hbegun hplace hsome
        rw [hend] at hgoes
        cases hgoes
    | some stop =>
      apply firstIn_eq_some_iff.mpr
      refine ⟨hle, by rw [hbegun, Option.bind_some, hend], ?_⟩
      intro other ho hsome
      exact hleast other ho (Option.isSome_of_isSome_bind hsome)

end Cursor

end MarkupAudit
