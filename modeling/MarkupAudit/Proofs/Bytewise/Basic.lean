import MarkupAudit.Proofs.CompleteSearch
import MarkupAudit.Proofs.Pattern.Lead

/-!
Going through a text by byte offsets, with every offset looked at before it is used. An offset must be
that of a place of the text (`place_eq_ok_iff`), a stretch that is cut out must not end before it
begins (`slice_eq_ok_iff`), and a loop must go on behind the byte where its round began; what breaks
one of these rules is a fault. A loop without a fault ends, and its bytes grow from round to round
(`rounds_eq_ok_iff`). `ends_of_kept` gets that from what a single round keeps.
-/

namespace MarkupAudit

theorem Cursor.le_of_next? {cur next : Cursor} (h : cur.next? = some next) :
    cur ≤ next ∧ cur.offset < next.offset := by
  obtain ⟨n, rest⟩ := cur
  cases rest with
  | nil => cases h
  | cons c rest =>
    cases h
    exact ⟨le_next, Nat.lt_add_of_pos_right c.utf8Size_pos⟩

namespace Bytewise

open Text (byteLength)

inductive Fault where
  /-- A byte behind the end of what is gone through. -/
  | outside (byte : Nat)
  /-- A byte inside of a character. -/
  | splits (byte : Nat)
  /-- A stretch that ends before it begins. -/
  | reversed (start stop : Nat)
  /-- A round of a loop that goes on where it began, or before. -/
  | standstill (byte : Nat)
deriving DecidableEq, Repr

section Bind

variable {α β : Type}

theorem ok_bind (a : α) (f : α → Except Fault β) : Except.ok a >>= f = f a := rfl

theorem bind_eq_ok_iff {x : Except Fault α} {f : α → Except Fault β} {b : β} :
    x >>= f = .ok b ↔ ∃ a, x = .ok a ∧ f a = .ok b := by
  constructor
  · intro h
    cases x with
    | error fault => cases h
    | ok a => exact ⟨a, rfl, h⟩
  · intro h
    obtain ⟨a, rfl, hf⟩ := h
    exact hf

end Bind

/-- The place at a byte. -/
def place (text : List Char) (byte : Nat) : Except Fault Cursor :=
  match (Cursor.places text).find? fun cur => cur.offset == byte with
  | some cur => .ok cur
  | none => .error (if byteLength text < byte then .outside byte else .splits byte)

/-- The characters from one byte up to another. -/
def slice (text : List Char) (start stop : Nat) : Except Fault (List Char) := do
  let first ← place text start
  let last ← place text stop
  if stop < start then .error (.reversed start stop)
  else return first.rest.take (first.rest.length - last.rest.length)

/-- The byte behind the character at a byte, or one byte further at the end of the text. -/
def stepOver (text : List Char) (byte : Nat) : Except Fault Nat := do
  let cur ← place text byte
  return byte + (cur.rest.head?.map Char.utf8Size).getD 1

/-- A byte to go on at: that of a place, or one behind the end of the text. -/
def IsStart (text : List Char) (byte : Nat) : Prop :=
  byteLength text < byte ∨ ∃ cur : Cursor, cur.In text ∧ cur.offset = byte

section Place

variable {text : List Char}

theorem place_eq_ok_iff {byte : Nat} {cur : Cursor} :
    place text byte = .ok cur ↔ cur.In text ∧ cur.offset = byte := by
  unfold place
  constructor
  · intro h
    split at h
    · rename_i found hfound
      cases h
      exact ⟨Cursor.mem_places.mp (List.mem_of_find?_eq_some hfound),
        by simpa using List.find?_some hfound⟩
    · cases h
  · intro h
    obtain ⟨hin, rfl⟩ := h
    have hmem := Cursor.mem_places.mpr hin
    cases hfound : (Cursor.places text).find? fun other => other.offset == cur.offset with
    | none => exact absurd (beq_self_eq_true cur.offset) (List.find?_eq_none.mp hfound cur hmem)
    | some other =>
      have hoffset : other.offset = cur.offset := by simpa using List.find?_some hfound
      exact congrArg _ (eq_of_key_eq (Cursor.pairwise_onward _) (List.mem_of_find?_eq_some hfound)
        hmem hoffset)

example : place "é".toList 1 = .error (.splits 1) := by rfl

theorem place_offset {cur : Cursor} (h : cur.In text) : place text cur.offset = .ok cur :=
  place_eq_ok_iff.mpr ⟨h, rfl⟩

theorem stepOver_offset {cur : Cursor} (h : cur.In text) :
    stepOver text cur.offset = .ok (Text.nextByte text cur.offset) := by
  rw [stepOver, place_offset h, Text.nextByte, Cursor.fromByte_offset h]
  rfl

theorem stepOver_of_next {cur next : Cursor} (h : cur.In text) (hnext : cur.next? = some next) :
    stepOver text cur.offset = .ok next.offset := by
  obtain ⟨n, rest⟩ := cur
  cases rest with
  | nil => cases hnext
  | cons c rest =>
    cases hnext
    rw [stepOver, place_offset h]
    rfl

theorem stepOver_of_end {cur : Cursor} (h : cur.In text) (hnext : cur.next? = none) :
    stepOver text cur.offset = .ok (byteLength text + 1) := by
  obtain ⟨n, rest⟩ := cur
  cases rest with
  | nil =>
    have hoffset : n + 0 = 0 + byteLength text := Cursor.offset_add_byteLength h
    rw [Nat.add_zero, Nat.zero_add] at hoffset
    rw [stepOver, place_offset h, hoffset]
    rfl
  | cons c rest => cases hnext

theorem stepOver_isStart {cur : Cursor} (h : cur.In text) : ∃ next,
    stepOver text cur.offset = .ok next ∧ cur.offset < next ∧ IsStart text next := by
  cases hnext : cur.next? with
  | none =>
    have hinside := Cursor.offset_le_byteLength h
    exact ⟨_, stepOver_of_end h hnext, Nat.lt_succ_of_le hinside, Or.inl (Nat.lt_succ_self _)⟩
  | some next =>
    obtain ⟨hle, hlt⟩ := Cursor.le_of_next? hnext
    exact ⟨_, stepOver_of_next h hnext, hlt, Or.inr ⟨next, Cursor.le_trans h hle, rfl⟩⟩

/-- What is cut out between two places is what is passed over from the one to the other. -/
theorem slice_of_passed {first : Cursor} (last : Cursor) {passed : List Char}
    (hfirst : first.In text) (hrest : first.rest = passed ++ last.rest)
    (hoffset : last.offset = first.offset + byteLength passed) :
    slice text first.offset last.offset = .ok passed := by
  have hlast : last.In text := Cursor.le_trans hfirst ⟨passed, hrest, hoffset⟩
  have htake : first.rest.take (first.rest.length - last.rest.length) = passed := by
    rw [hrest, List.length_append, Nat.add_sub_cancel_right, List.take_left]
  rw [slice, place_offset hfirst, place_offset hlast, ok_bind, ok_bind, if_neg (by omega), htake]
  rfl

theorem places_of_slice {start stop : Nat} {part : List Char} (h : slice text start stop = .ok part) :
    ∃ first last : Cursor, first.In text ∧ first.offset = start ∧ last.In text ∧
      last.offset = stop ∧ first ≤ last := by
  obtain ⟨first, hfirst, h⟩ := bind_eq_ok_iff.mp h
  obtain ⟨last, hlast, h⟩ := bind_eq_ok_iff.mp h
  obtain ⟨hin, rfl⟩ := place_eq_ok_iff.mp hfirst
  obtain ⟨hin', rfl⟩ := place_eq_ok_iff.mp hlast
  split at h
  · cases h
  · exact ⟨first, last, hin, rfl, hin', rfl, Cursor.le_of_offset_le hin hin' (by omega)⟩

theorem slice_eq_ok_iff {start stop : Nat} {part : List Char} : slice text start stop = .ok part ↔
    ∃ before behind, text = before ++ part ++ behind ∧ start = byteLength before ∧
      stop = byteLength (before ++ part) := by
  constructor
  · intro h
    obtain ⟨first, last, hfirst, rfl, hlast, rfl, passed, hrest, hoffset⟩ := places_of_slice h
    rw [slice_of_passed last hfirst hrest hoffset] at h
    cases h
    obtain ⟨before, htext, hbefore⟩ := Cursor.exists_before hfirst
    refine ⟨before, last.rest, ?_, hbefore, ?_⟩
    · rw [htext, hrest, List.append_assoc]
    · rw [hoffset, hbefore, Text.byteLength_append]
  · intro h
    obtain ⟨before, behind, rfl, rfl, rfl⟩ := h
    have hin : (⟨byteLength before, part ++ behind⟩ : Cursor).In (before ++ part ++ behind) :=
      ⟨before, List.append_assoc .., (Nat.zero_add _).symm⟩
    exact slice_of_passed ⟨byteLength (before ++ part), behind⟩ hin rfl
      (Text.byteLength_append before part)

end Place

/-- What a round of a loop comes to. -/
inductive Turn (σ α : Type) where
  | done (result : α)
  | again (state : σ)

section Rounds

variable {σ α : Type} (limit : Nat) (byte : σ → Nat) (round : σ → Except Fault (Turn σ α))

/-- Round after round, each from a byte that is not behind the limit to one behind its own. -/
def rounds (state : σ) : Except Fault α :=
  match round state with
  | .error fault => .error fault
  | .ok (.done result) => .ok result
  | .ok (.again next) =>
    if _inside : byte state ≤ limit then
      if _forward : byte state < byte next then rounds next else .error (.standstill (byte state))
    else .error (.outside (byte state))
termination_by limit + 1 - byte state

/-- A loop comes to an end after finitely many rounds, at growing bytes and none of them with a
fault. -/
inductive Ends (result : α) : σ → Prop
  | done {state : σ} : round state = .ok (.done result) → Ends result state
  | again {state next : σ} : round state = .ok (.again next) → byte state ≤ limit →
      byte state < byte next → Ends result next → Ends result state

variable {limit byte round}

theorem rounds_eq_ok_iff {result : α} {state : σ} :
    rounds limit byte round state = .ok result ↔ Ends limit byte round result state := by
  constructor
  · intro h
    fun_induction rounds limit byte round state with
    | case1 state fault hround => cases h
    | case2 state found hround =>
      cases h
      exact .done hround
    | case3 state next hround hinside hforward ih => exact .again hround hinside hforward (ih h)
    | case4 state next hround hinside hforward => cases h
    | case5 state next hround hinside => cases h
  · intro h
    induction h with
    | done hround => rw [rounds, hround]
    | again hround hinside hforward _ ih => rw [rounds, hround]; simp [hinside, hforward, ih]

/-- A round keeps what holds of the state and of the result: it ends with the result, or goes on at a
greater byte in a state of which the same holds. -/
inductive Kept (limit : Nat) (byte : σ → Nat) (round : σ → Except Fault (Turn σ α))
    (Holds : σ → α → Prop) (state : σ) (result : α) : Prop
  | done : round state = .ok (.done result) → Kept limit byte round Holds state result
  | again {next : σ} : round state = .ok (.again next) → byte state ≤ limit →
      byte state < byte next → Holds next result → Kept limit byte round Holds state result

/-- A loop ends with the result that every one of its rounds keeps. -/
theorem ends_of_kept {Holds : σ → α → Prop}
    (h : ∀ state result, Holds state result → Kept limit byte round Holds state result)
    {state : σ} {result : α} (hstate : Holds state result) :
    Ends limit byte round result state := by
  -- The bytes that are left become fewer.
  generalize hleft : limit + 1 - byte state = left
  induction left using Nat.strongRecOn generalizing state with
  | _ left ih =>
    cases h state result hstate with
    | done hround => exact .done hround
    | again hround hinside hforward hnext =>
      exact .again hround hinside hforward (ih _ (by omega) hnext rfl)

end Rounds

end Bytewise

end MarkupAudit
