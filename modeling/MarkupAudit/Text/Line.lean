import MarkupAudit.Text.Cursor

/-!
Lines of a text. A newline ends a line, together with a carriage return right before it; text after
the last newline is a line of its own. Lines are numbered from one.
-/

namespace MarkupAudit.Text

def lines : List Char → List (List Char)
  | [] => []
  | '\n' :: rest => [] :: lines rest
  | '\r' :: '\n' :: rest => [] :: lines rest
  | c :: rest =>
    match lines rest with
    | [] => [[c]]
    | line :: more => (c :: line) :: more

/-- The number of newlines in the first `bytes` bytes. -/
def newlinesBefore : Nat → List Char → Nat
  | _, [] => 0
  | bytes, c :: rest =>
    if bytes = 0 then 0
    else (if c = '\n' then 1 else 0) + newlinesBefore (bytes - c.utf8Size) rest

def lineAt (text : List Char) (offset : Nat) : Nat := newlinesBefore offset text + 1

/-- A place stands in the line after all newlines before it. -/
theorem newlinesBefore_append (before after : List Char) :
    newlinesBefore (byteLength before) (before ++ after) = before.count '\n' := by
  induction before with
  | nil => cases after <;> simp [newlinesBefore]
  | cons c before ih =>
    have hc := c.utf8Size_pos
    have hne : byteLength (c :: before) ≠ 0 := by simp only [byteLength_cons]; omega
    rw [List.cons_append, newlinesBefore, if_neg hne, byteLength_cons, Nat.add_sub_cancel_left, ih]
    by_cases h : c = '\n' <;> simp [h, Nat.add_comm]

theorem lineAt_append (before after : List Char) :
    lineAt (before ++ after) (byteLength before) = before.count '\n' + 1 := by
  rw [lineAt, newlinesBefore_append]

def around (lines : List (List Char)) (number : Nat) : List (List Char) :=
  (lines.take (number + 1)).drop (number - 2)

def unlines (lines : List (List Char)) : List Char := ['\n'].intercalate lines

end MarkupAudit.Text
