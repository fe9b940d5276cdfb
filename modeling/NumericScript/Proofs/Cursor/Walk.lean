import NumericScript.Proofs.Cursor.Course

/-!
# Walks over a stream of marks

Recursive descent as a machine has it: a cursor into the stream of a whole text and a depth, both
kept in place and moved by every function. A cursor that leaves the stream and a depth that leaves
its bounds are faults of the machine.
-/

namespace NumericScript

/-- What a mark is, without its text and its place. -/
inductive MarkKind
  | token (kind : TokenKind)
  | newline
  | endOfText
  deriving DecidableEq

namespace Mark

/-- The kind of a mark. -/
def kind : Mark → MarkKind
  | token t => .token t.kind
  | newline _ => .newline
  | endOfText _ => .endOfText

/-- The characters of a mark; an end has none. -/
def lexeme : Mark → String
  | token t => t.lexeme
  | newline _ | endOfText _ => ""

end Mark

/-- Where a walk is in a stream, and how deep. -/
structure Place where
  current : Nat
  depth : Nat

/-- Whether the cursor is at a mark of the stream and the depth is one that scripts may have. -/
def Place.Within (marks : List Mark) (place : Place) : Prop :=
  place.current < marks.length ∧ place.depth ≤ maxNesting

instance Place.decidableWithin (marks : List Mark) (place : Place) :
    Decidable (place.Within marks) :=
  inferInstanceAs (Decidable (_ ∧ _))

namespace Walk

/-- The parts of a walk that call themselves, directly or through others. -/
inductive Part : Type → Type
  | skipNewlines (marks : List Mark) : Part Unit
  | term (marks : List Mark) : Part Expr
  | termRest (marks : List Mark) (left : Expr) (chained : Nat) : Part Expr
  | factorRest (marks : List Mark) (left : Expr) (chained : Nat) : Part Expr
  | unary (marks : List Mark) : Part Expr
  | call (marks : List Mark) : Part Expr
  | conjunctionRest (marks : List Mark) (left : Cond) : Part Cond
  | disjunctionRest (marks : List Mark) (left : Cond) : Part Cond
  | nameRest (marks : List Mark) (name : String) (span : Span) : Part (String × Span)
  | skipLine (marks : List Mark) : Part Unit
  | branches (marks : List Mark) (before : List (Cond × List Stmt)) (last : Span) :
    Part (Chain × Span)
  | blockRest (marks : List Mark) (brace : Span) (before : List Stmt) : Part (List Stmt × Span)
  | programRest (marks : List Mark) (before : List Stmt) : Part (List Stmt)

end Walk

/-- A walk over a stream. -/
abbrev Walk (α : Type) := Course Walk.Part Place α

namespace Walk

open Course

variable (marks : List Mark)

/-- Come to a place, which has to be within the bounds. -/
def moveTo (place : Place) : Walk Unit :=
  if place.Within marks then set place else crash .outOfBounds

/-- The mark at the cursor. -/
def peek : Walk Mark := do
  match marks[(← get).current]? with
  | some mark => pure mark
  | none => crash .outOfBounds

/-- The mark before the cursor, or the first one. -/
def previous : Walk Mark := do
  match marks[(← get).current - 1]? with
  | some mark => pure mark
  | none => crash .outOfBounds

/-- Whether the cursor is at the end of the text. -/
def isAtEnd : Walk Bool := return (← peek marks).kind = .endOfText

/-- Move the cursor to the next mark and give the one it was at; it stays at the end of the text. -/
def advance : Walk Mark := do
  unless ← isAtEnd marks do
    let place ← get
    moveTo marks { place with current := place.current + 1 }
  previous marks

/-- Whether the mark at the cursor is of a kind; none is at the end of the text. -/
def check (kind : MarkKind) : Walk Bool := do
  if ← isAtEnd marks then return false
  return (← peek marks).kind = kind

/-- Take the mark at the cursor if it is of one of some kinds. -/
def accept : List MarkKind → Walk Bool
  | [] => return false
  | kind :: kinds => do
    if ← check marks kind then
      let _ ← advance marks
      return true
    accept kinds

/-- Take a token of one kind, or fail for a cause at the mark that stands there. -/
def consume (kind : TokenKind) (cause : Cause) : Walk Token := do
  if ← check marks (.token kind) then
    match ← advance marks with
    | .token t => return t
    | _ => crash .unreachable
  else refuse (← peek marks).span cause

/-- Take all ends of lines that follow. -/
def skipNewlines : Walk Unit := do
  if ← accept marks [.newline] then enter (.skipNewlines marks)

/-- Go down one level. -/
def descend : Walk Unit := do
  let place ← get
  if place.depth ≥ maxNesting then refuse (← peek marks).span .tooDeep
  else moveTo marks { place with depth := place.depth + 1 }

/-- Go up some levels. -/
def ascend (levels : Nat) : Walk Unit := do
  let place ← get
  if place.depth < levels then crash .unbalanced
  else moveTo marks { place with depth := place.depth - levels }

/-- Go up one level after a part of the walk, however that part has ended. -/
def leave {α : Type} (result : Except Halt α) : Walk α := do
  ascend marks 1
  ended result

/-- Say of an operand that fails that it is missing; see `orMissing`. -/
def blame {α : Type} (span : Span) (cause : Cause) (operand : Walk α) : Walk α :=
  operand.after fun
    | .ok a => return a
    | .error (.fault fault) => crash fault
    | .error (.error error) => ended ((orMissing span cause (.error error)).mapError .error)

end Walk

end NumericScript
