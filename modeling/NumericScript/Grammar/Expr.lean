import NumericScript.Error
import NumericScript.Single.Decimal
import NumericScript.Tree.Expr

/-!
# Reading expressions

An expression is read from the tokens of one line. Nesting is bounded: a ladder holds one reader of
operands for each level that is still free, and a reader passes the rungs below its own to the
expressions inside its operand. Brackets, signs, powers and functions go down one rung, and so does
every further operand of a chain, until the chain ends. A ladder without rungs refuses.
-/

namespace NumericScript

/-- The span of the next token, or of the line's end after the last one. -/
def nextSpan (stop : Span) : List Token → Span
  | [] => stop
  | t :: _ => t.span

/--
A reader takes the span of the line's end and the tokens that are left of the line. It gives what it
read and the tokens after it.
-/
abbrev Reader (α : Type) := Span → List Token → Except ScriptError (α × List Token)

/-- Fail for a cause at a place. -/
def fail {α : Type} (span : Span) (cause : Cause) : Except ScriptError α := .error ⟨span, cause⟩

/-- Take a token of one kind, or fail for a cause at the token that stands there. -/
def expect (kind : TokenKind) (cause : Cause) : Reader Token
  | stop, [] => fail stop cause
  | _, t :: rest => if t.kind = kind then .ok (t, rest) else fail t.span cause

/--
 Say of a failed operand that it is missing at an operator. Nesting that is too deep is reported
as it is.
-/
def orMissing {α : Type} (span : Span) (cause : Cause) : Except ScriptError α → Except ScriptError α
  | .ok a => .ok a
  | .error ⟨place, .tooDeep⟩ => fail place .tooDeep
  | .error _ => fail span cause

/-- The readers of operands at the levels that are still free, the next one first. -/
abbrev Ladder := List (Reader Expr)

/-- Read an operand on the next rung. -/
def operand : Ladder → Reader Expr
  | [], stop, tokens => fail (nextSpan stop tokens) .tooDeep
  | rung :: _, stop, tokens => rung stop tokens

/-- The operator of a product that a token is. -/
def productOp? : TokenKind → Option BinaryOp
  | .star => some .mul
  | .slash => some .div
  | _ => none

/-- The operator of a sum that a token is. -/
def sumOp? : TokenKind → Option BinaryOp
  | .plus => some .add
  | .minus => some .sub
  | _ => none

/-- Go on with a product after its left side; every operator leaves one rung less. -/
def productRest : Ladder → Expr → Reader Expr
  | _, left, _, [] => .ok (left, [])
  | ladder, left, stop, t :: rest =>
    match productOp? t.kind with
    | none => .ok (left, t :: rest)
    | some op =>
      match ladder with
      | [] => fail (nextSpan stop rest) .tooDeep
      | _ :: lower => do
        let (right, rest) ←
          orMissing t.span (.missingOperand t.lexeme .product) (operand lower stop rest)
        productRest lower (.binary op left right (left.span.join right.span)) stop rest

/-- Read operands joined by `*` and `/`, from the left. -/
def product (ladder : Ladder) : Reader Expr := fun stop tokens => do
  let (left, rest) ← operand ladder stop tokens
  productRest ladder left stop rest

/-- Go on with a sum after its left side; every operator leaves one rung less. -/
def sumRest : Ladder → Expr → Reader Expr
  | _, left, _, [] => .ok (left, [])
  | ladder, left, stop, t :: rest =>
    match sumOp? t.kind with
    | none => .ok (left, t :: rest)
    | some op =>
      match ladder with
      | [] => fail (nextSpan stop rest) .tooDeep
      | _ :: lower => do
        let (right, rest) ←
          orMissing t.span (.missingOperand t.lexeme .sum) (product lower stop rest)
        sumRest lower (.binary op left right (left.span.join right.span)) stop rest

/-- Read products joined by `+` and `-`, from the left. -/
def sum (ladder : Ladder) : Reader Expr := fun stop tokens => do
  let (left, rest) ← product ladder stop tokens
  sumRest ladder left stop rest

/-- Read a name, alone or with an index in brackets. -/
def named (ladder : Ladder) (name : Token) : Reader Expr := fun stop tokens =>
  match tokens with
  | [] => .ok (.scalar name.lexeme name.span, [])
  | t :: inner =>
    if t.kind = .leftBracket then do
      let (index, rest) ← sum ladder stop inner
      let (close, rest) ← expect .rightBracket .unclosedIndex stop rest
      .ok (.element name.lexeme index (name.span.join close.span), rest)
    else
      .ok (.scalar name.lexeme name.span, t :: inner)

/-- Read an expression up to the parenthesis that closes it; there has to be one. -/
def grouped (ladder : Ladder) (paren : Token) : Reader Expr := fun stop tokens =>
  match tokens with
  | ⟨.rightParen, _, span⟩ :: _ => fail (paren.span.join span) .emptyParens
  | _ => do
    let (inner, rest) ← sum ladder stop tokens
    let (close, rest) ← expect .rightParen .unclosedParen stop rest
    .ok (.group inner (paren.span.join close.span), rest)

/-- Read a numeral, a name, or an expression in parentheses. -/
def primary (ladder : Ladder) : Reader Expr
  | stop, [] => fail stop .lineTooShort
  | stop, t :: rest =>
    match t.kind with
    | .number =>
      match Single.ofNumeral? t.lexeme.toList with
      | some value => .ok (.number value t.span, rest)
      | none => fail t.span (.invalidNumber t.lexeme)
    | .identifier => named ladder t stop rest
    | .leftParen => grouped ladder t stop rest
    | kind => fail t.span (.expectedOperand kind t.lexeme)

/-- Read functions applied to what stands right after them. -/
def call : Ladder → Reader Expr
  | ladder, stop, ⟨.function f, _, span⟩ :: rest =>
    match ladder with
    | [] => fail (nextSpan stop rest) .tooDeep
    | _ :: lower => do
      let (argument, rest) ← orMissing span (.missingArgument f) (call lower stop rest)
      .ok (.call f argument (span.join argument.span), rest)
  | ladder, stop, tokens => primary ladder stop tokens

/-- Read a power. Its exponent may be signed and may be a power itself. -/
def power (ladder : Ladder) : Reader Expr := fun stop tokens => do
  let (base, rest) ← call ladder stop tokens
  match rest with
  | ⟨.caret, lexeme, span⟩ :: rest => do
    let (exponent, rest) ←
      orMissing span (.missingOperand lexeme .power) (operand ladder stop rest)
    .ok (.binary .pow base exponent (base.span.join exponent.span), rest)
  | _ => .ok (base, rest)

/-- Read an operand with its signs. A sign applies to the whole power after it. -/
def signedOperand (ladder : Ladder) : Reader Expr
  | stop, ⟨.minus, _, span⟩ :: rest => do
    let (inner, rest) ← operand ladder stop rest
    .ok (.negate inner (span.join inner.span), rest)
  | stop, tokens => power ladder stop tokens

/-- The ladder with a number of rungs. -/
def ladder : Nat → Ladder
  | 0 => []
  | room + 1 =>
    let lower := ladder room
    signedOperand lower :: lower

/-- Read an expression where a number of levels is still free. -/
def expression (room : Nat) : Reader Expr := sum (ladder room)

end NumericScript
