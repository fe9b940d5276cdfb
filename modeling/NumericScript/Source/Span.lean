/-!
# Spans

A span is a stretch of the text, counted in characters from its start, together with the logical
line it belongs to.
-/

namespace NumericScript

/-- The characters from `start` up to but not including `stop`, in logical line `line`. -/
structure Span where
  start : Nat
  stop : Nat
  line : Nat
  deriving DecidableEq, Repr, Inhabited

namespace Span

/-- The span of one character, also used for the end of a line. -/
def point (pos line : Nat) : Span := ⟨pos, pos + 1, line⟩

/-- The least span around both, in the earlier of their lines. -/
def join (a b : Span) : Span :=
  ⟨min a.start b.start, max a.stop b.stop, min a.line b.line⟩

end Span

end NumericScript
