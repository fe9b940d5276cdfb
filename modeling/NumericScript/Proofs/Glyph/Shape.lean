import NumericScript.Proofs.Glyph.Tree

/-!
# Precedence

How tightly an expression or a condition holds together without parentheses, and the shape that a
tree has to have so that its glyphs need no more parentheses than it has groups.
-/

namespace NumericScript

/-- How tightly an operator binds. -/
def BinaryOp.binding : BinaryOp → Nat
  | add | sub => 0
  | mul | div => 1
  | pow => 2

/--
How tightly an expression holds together: sums 0, products 1, signs and powers 2, and the operands
that need no parentheses anywhere 3.
-/
def Expr.binding : Expr → Nat
  | binary op _ _ _ => op.binding
  | negate .. => 2
  | number .. | scalar .. | element .. | call .. | group .. => 3

/-- How tightly the left side of an operator has to hold together. -/
def BinaryOp.leftBinding : BinaryOp → Nat
  | add | sub => 0
  | mul | div => 1
  | pow => 3

/-- How tightly the right side of an operator has to hold together. -/
def BinaryOp.rightBinding : BinaryOp → Nat
  | add | sub => 1
  | mul | div | pow => 2

/--
The shape of precedence. Sums and products lean to the left, powers to the right; a sign applies to
a power or to another sign, and a function to an operand that needs no parentheses.
-/
def Expr.Shaped : Expr → Prop
  | number .. | scalar .. => True
  | element _ index _ => index.Shaped
  | binary op left right _ =>
    left.Shaped ∧ right.Shaped ∧ op.leftBinding ≤ left.binding ∧ op.rightBinding ≤ right.binding
  | negate operand _ => operand.Shaped ∧ 2 ≤ operand.binding
  | call _ argument _ => argument.Shaped ∧ 3 ≤ argument.binding
  | group inner _ => inner.Shaped

/-- How tightly a condition holds together: `||` 0, `&&` 1, and comparisons 2. -/
def Cond.binding : Cond → Nat
  | compare .. => 2
  | logical .and _ _ _ => 1
  | logical .or _ _ _ => 0

/-- How tightly the left side of `&&` or `||` has to hold together. -/
def LogicalOp.leftBinding : LogicalOp → Nat
  | and => 1
  | or => 0

/-- The shape of precedence: conjunctions inside disjunctions, both leaning to the left. -/
def Cond.Shaped : Cond → Prop
  | compare _ left right _ => left.Shaped ∧ right.Shaped
  | logical op left right _ =>
    left.Shaped ∧ right.Shaped ∧ op.leftBinding ≤ left.binding ∧
      op.leftBinding + 1 ≤ right.binding

/-- The shape of a target's index. -/
def Target.Shaped : Target → Prop
  | scalar .. => True
  | element _ index _ => index.Shaped

/-- The shape of an assignment or a condition. -/
def Phrase.Shaped : Phrase → Prop
  | assignment target value => target.Shaped ∧ value.Shaped
  | condition cond => cond.Shaped

instance Expr.decidableShaped : (e : Expr) → Decidable e.Shaped
  | number .. | scalar .. => .isTrue trivial
  | element _ index _ => index.decidableShaped
  | binary op left right _ =>
    have := left.decidableShaped
    have := right.decidableShaped
    inferInstanceAs (Decidable (left.Shaped ∧ right.Shaped ∧ op.leftBinding ≤ left.binding ∧
      op.rightBinding ≤ right.binding))
  | negate operand _ =>
    have := operand.decidableShaped
    inferInstanceAs (Decidable (operand.Shaped ∧ 2 ≤ operand.binding))
  | call _ argument _ =>
    have := argument.decidableShaped
    inferInstanceAs (Decidable (argument.Shaped ∧ 3 ≤ argument.binding))
  | group inner _ => inner.decidableShaped

instance Cond.decidableShaped : (c : Cond) → Decidable c.Shaped
  | compare _ left right _ => inferInstanceAs (Decidable (left.Shaped ∧ right.Shaped))
  | logical op left right _ =>
    have := left.decidableShaped
    have := right.decidableShaped
    inferInstanceAs (Decidable (left.Shaped ∧ right.Shaped ∧ op.leftBinding ≤ left.binding ∧
      op.leftBinding + 1 ≤ right.binding))

instance : (t : Target) → Decidable t.Shaped
  | .scalar .. => .isTrue trivial
  | .element _ index _ => inferInstanceAs (Decidable index.Shaped)

instance : (p : Phrase) → Decidable p.Shaped
  | .assignment target value => inferInstanceAs (Decidable (target.Shaped ∧ value.Shaped))
  | .condition cond => inferInstanceAs (Decidable cond.Shaped)

end NumericScript
