import NumericScript.Tree.Expr

/-!
# Statements

A script is a list of statements. Blocks are matched when the script is read, so that a run never
has to look for a brace.
-/

namespace NumericScript

/-- What an assignment writes to. -/
inductive Target
  | scalar (name : String) (span : Span)
  | element (name : String) (index : Expr) (span : Span)
  deriving DecidableEq

/-- The text that a target was read from. -/
def Target.span : Target → Span
  | scalar _ span => span
  | element _ _ span => span

mutual

/-- A statement. A block without a header runs its statements once. -/
inductive Stmt
  | assign (target : Target) (value : Expr) (span : Span)
  | block (body : List Stmt) (span : Span)
  | branch (condition : Cond) (body : List Stmt) (otherwise : Chain) (span : Span)
  | loop (condition : Cond) (body : List Stmt) (span : Span)

/-- What a branch does when its condition does not hold: nothing, a block, or another branch. -/
inductive Chain
  | done
  | block (body : List Stmt)
  | branch (condition : Cond) (body : List Stmt) (otherwise : Chain)

end

instance : Inhabited Stmt := ⟨.block [] default⟩

/-- The text that a statement was read from. -/
def Stmt.span : Stmt → Span
  | assign _ _ span => span
  | block _ span => span
  | branch _ _ _ span => span
  | loop _ _ span => span

end NumericScript
