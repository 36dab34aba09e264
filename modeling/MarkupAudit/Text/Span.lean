/-!
Stretches of text by their byte offsets.
-/

namespace MarkupAudit

/-- From byte `start` up to byte `stop`, which is not part of it. -/
structure Span where
  start : Nat
  stop : Nat
deriving DecidableEq, Repr

end MarkupAudit
