import NumericScript.Grammar.Expr

/-!
# Chains in expressions

A product is a chain of operands and a sum is a chain of products. Both are read alike, but for the
operators that join them and the reader of what is joined.
-/

namespace NumericScript

/-- The chains inside an expression: products of operands, and sums of products. -/
inductive Tier
  | products
  | sums

namespace Tier

/-- The operator of a chain that a token is. -/
def op? : Tier → TokenKind → Option BinaryOp
  | products => productOp?
  | sums => sumOp?

/-- The class of a chain's operators. -/
def operators : Tier → OperatorClass
  | products => .product
  | sums => .sum

/-- The reader of what a chain joins. -/
def side : Tier → Ladder → Reader Expr
  | products => operand
  | sums => product

/-- The reader of a chain. -/
def whole : Tier → Ladder → Reader Expr
  | products => product
  | sums => sum

/-- The reader of what follows the left side of a chain. -/
def rest : Tier → Ladder → Expr → Reader Expr
  | products => productRest
  | sums => sumRest

/-- No operator of a chain is next, so that the chain comes to its end. -/
def Ends (tier : Tier) (tokens : List Token) : Prop := ∀ t ∈ tokens.head?, tier.op? t.kind = none

/-- The tokens either end a chain of a tier or begin with one of its operators. -/
theorem ends_or_operator (tier : Tier) (tokens : List Token) :
    tier.Ends tokens ∨ ∃ t later op, tokens = t :: later ∧ tier.op? t.kind = some op := by
  cases tokens with
  | nil => exact .inl nofun
  | cons t later =>
    cases hop : tier.op? t.kind with
    | none => exact .inl (by simpa [Ends] using hop)
    | some op => exact .inr ⟨t, later, op, rfl, hop⟩

section Equations

variable {tier : Tier} {rungs lower : Ladder} {rung : Reader Expr} {left : Expr} {stop : Span}
  {t : Token} {op : BinaryOp} {later tokens : List Token}

/-- A chain is a side and what follows it. -/
theorem whole_eq (tokens : List Token) : tier.whole rungs stop tokens = (do
    let (left, after) ← tier.side rungs stop tokens
    tier.rest rungs left stop after) := by
  cases tier <;> rfl

/-- Where no operator of the tier stands, the chain is what was read so far. -/
theorem rest_of_ends (h : tier.Ends tokens) :
    tier.rest rungs left stop tokens = .ok (left, tokens) := by
  cases tokens with
  | nil => cases tier <;> simp only [rest, productRest, sumRest]
  | cons t later =>
    have hop := h t rfl
    cases tier <;> cases rungs <;> simp_all [rest, op?, productRest, sumRest]

/-- An operator with no rung left for what follows it is too deep. -/
theorem rest_no_rung (h : tier.op? t.kind = some op) :
    tier.rest [] left stop (t :: later) = fail (nextSpan stop later) .tooDeep := by
  cases tier <;> simp_all [rest, op?, productRest, sumRest]

/-- Every operator of a chain takes a rung. -/
theorem rest_rung (h : tier.op? t.kind = some op) :
    tier.rest (rung :: lower) left stop (t :: later) = (do
      let (right, after) ← orMissing t.span (.missingOperand t.lexeme tier.operators)
        (tier.side lower stop later)
      tier.rest lower (.binary op left right (left.span.join right.span)) stop after) := by
  cases tier <;> simp_all [rest, op?, productRest, sumRest, side, operators]

end Equations

end Tier

end NumericScript
