import NumericScript.Builtin
import NumericScript.Source.Span

/-!
# Expressions and conditions

The trees that a text is read into. Every node has the span of the text it was read from.
-/

namespace NumericScript

/-- The operators of arithmetic. -/
inductive BinaryOp
  | add
  | sub
  | mul
  | div
  | pow
  deriving DecidableEq, Repr

namespace BinaryOp

/-- The sign of an operator in a script. -/
def symbol : BinaryOp → String
  | add => "+"
  | sub => "-"
  | mul => "*"
  | div => "/"
  | pow => "^"

/-- The value of an operator at two numbers. -/
def apply : BinaryOp → Single → Single → Single
  | add, x, y => x.add y
  | sub, x, y => x.sub y
  | mul, x, y => x.mul y
  | div, x, y => x.div y
  | pow, x, y => x.pow y

end BinaryOp

/-- An arithmetic expression. -/
inductive Expr
  | number (value : Single) (span : Span)
  | scalar (name : String) (span : Span)
  | element (name : String) (index : Expr) (span : Span)
  | binary (op : BinaryOp) (left right : Expr) (span : Span)
  | negate (operand : Expr) (span : Span)
  | call (builtin : Builtin) (argument : Expr) (span : Span)
  | group (inner : Expr) (span : Span)
  deriving DecidableEq, Inhabited

/-- The text that an expression was read from. -/
def Expr.span : Expr → Span
  | number _ span => span
  | scalar _ span => span
  | element _ _ span => span
  | binary _ _ _ span => span
  | negate _ span => span
  | call _ _ span => span
  | group _ span => span

/-- The operators of comparison. -/
inductive CompareOp
  | less
  | greater
  | equal
  | notEqual
  deriving DecidableEq, Repr

namespace CompareOp

/-- The sign of a comparison in a script. -/
def symbol : CompareOp → String
  | less => "<"
  | greater => ">"
  | equal => "=="
  | notEqual => "!="

/-- Whether a comparison holds. Of what is not a number only inequality does. -/
def holds : CompareOp → Single → Single → Bool
  | less, x, y => x.lt y
  | greater, x, y => y.lt x
  | equal, x, y => x.same y
  | notEqual, x, y => !x.same y

end CompareOp

/-- The operators that join conditions. -/
inductive LogicalOp
  | and
  | or
  deriving DecidableEq, Repr

/-- Whether two joined conditions hold together. -/
def LogicalOp.combine : LogicalOp → Bool → Bool → Bool
  | and, p, q => p && q
  | or, p, q => p || q

/-- A condition. -/
inductive Cond
  | compare (op : CompareOp) (left right : Expr) (span : Span)
  | logical (op : LogicalOp) (left right : Cond) (span : Span)
  deriving DecidableEq

/-- The text that a condition was read from. -/
def Cond.span : Cond → Span
  | compare _ _ _ span => span
  | logical _ _ _ span => span

end NumericScript
