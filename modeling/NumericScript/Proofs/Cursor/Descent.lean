import NumericScript.Proofs.Cursor.Walk

/-!
# The descent

How a machine with a cursor reads expressions, conditions and statements: by recursive descent over
the stream of a whole text, without looking for lines or braces first. Loops that go on as long as
something follows are functions of their own.
-/

namespace NumericScript

namespace Walk

open Course

/-- The operator of a sum that was just accepted. -/
def sumSign : MarkKind → Walk BinaryOp
  | .token .minus => return .sub
  | .token .plus => return .add
  | _ => crash .unreachable

/-- The operator of a product that was just accepted. -/
def productSign : MarkKind → Walk BinaryOp
  | .token .slash => return .div
  | .token .star => return .mul
  | _ => crash .unreachable

/-- The comparison that was just accepted. -/
def compareSign : MarkKind → Walk CompareOp
  | .token .less => return .less
  | .token .greater => return .greater
  | .token .equalEqual => return .equal
  | .token .bangEqual => return .notEqual
  | _ => crash .unreachable

variable (marks : List Mark)

/-- What follows a name that was just taken. -/
def named (name : Token) : Walk Expr := do
  if ← accept marks [.token .leftBracket] then
    let index ← enter (.term marks)
    let close ← consume marks .rightBracket .unclosedIndex
    return .element name.lexeme index (name.span.join close.span)
  else return .scalar name.lexeme name.span

/-- What follows a parenthesis that was just taken. -/
def grouped (paren : Token) : Walk Expr := do
  if ← check marks (.token .rightParen) then
    refuse (paren.span.join (← peek marks).span) .emptyParens
  else
    let inner ← enter (.term marks)
    let close ← consume marks .rightParen .unclosedParen
    return .group inner (paren.span.join close.span)

/-- Read a numeral, a name, or an expression in parentheses. -/
def primary : Walk Expr := do
  if (← check marks .newline) || (← isAtEnd marks) then
    refuse (← peek marks).span .lineTooShort
  else
    match ← advance marks with
    | .token t =>
      match t.kind with
      | .number =>
        match Single.ofNumeral? t.lexeme.toList with
        | some value => return .number value t.span
        | none => refuse t.span (.invalidNumber t.lexeme)
      | .identifier => named marks t
      | .leftParen => grouped marks t
      | kind => refuse t.span (.expectedOperand kind t.lexeme)
    | _ => crash .unreachable

/-- Read a function's argument one level deeper. -/
def argument : Walk Expr := do
  descend marks
  (enter (.call marks)).after (leave marks)

/-- Read functions applied to what stands right after them. -/
def call : Walk Expr := do
  match (← peek marks).kind with
  | .token (.function f) =>
    let name ← advance marks
    let argument ← blame name.span (.missingArgument f) (argument marks)
    return .call f argument (name.span.join argument.span)
  | _ => primary marks

/-- Read a power. -/
def power : Walk Expr := do
  let base ← call marks
  if ← accept marks [.token .caret] then
    let sign ← previous marks
    let exponent ← blame sign.span (.missingOperand sign.lexeme .power) (enter (.unary marks))
    return .binary .pow base exponent (base.span.join exponent.span)
  else return base

/-- Read an operand with its signs. -/
def negation : Walk Expr := do
  if ← accept marks [.token .minus] then
    let start ← previous marks
    let inner ← enter (.unary marks)
    return .negate inner (start.span.join inner.span)
  else power marks

/-- Read an operand with its signs one level deeper. -/
def unary : Walk Expr := do
  descend marks
  (negation marks).after (leave marks)

/-- Go on with a product; `chained` counts the levels its operators have taken. -/
def factorRest (left : Expr) (chained : Nat) : Walk Expr := do
  if ← accept marks [.token .slash, .token .star] then
    descend marks
    let sign ← previous marks
    let op ← productSign sign.kind
    let right ← blame sign.span (.missingOperand sign.lexeme .product) (enter (.unary marks))
    enter (.factorRest marks (.binary op left right (left.span.join right.span)) (chained + 1))
  else
    ascend marks chained
    return left

/-- Read signed operands joined by `*` and `/`. -/
def factor : Walk Expr := do
  let left ← enter (.unary marks)
  factorRest marks left 0

/-- Go on with a sum; `chained` counts the levels its operators have taken. -/
def termRest (left : Expr) (chained : Nat) : Walk Expr := do
  if ← accept marks [.token .minus, .token .plus] then
    descend marks
    let sign ← previous marks
    let op ← sumSign sign.kind
    let right ← blame sign.span (.missingOperand sign.lexeme .sum) (factor marks)
    enter (.termRest marks (.binary op left right (left.span.join right.span)) (chained + 1))
  else
    ascend marks chained
    return left

/-- Read factors joined by `+` and `-`. -/
def term : Walk Expr := do
  let left ← factor marks
  termRest marks left 0

/-- Read two expressions with a comparison between them. -/
def comparison : Walk Cond := do
  let left ← term marks
  if ← accept marks
      [.token .less, .token .greater, .token .equalEqual, .token .bangEqual] then
    let sign ← previous marks
    let op ← compareSign sign.kind
    let right ← blame sign.span (.missingOperand sign.lexeme .comparison) (term marks)
    return .compare op left right (left.span.join right.span)
  else refuse (← peek marks).span .expectedComparison

/-- Go on with a chain of conditions, as long as the sign of the operator follows. -/
def chainRest (sign : TokenKind) (op : LogicalOp) (link : Walk Cond) (again : Cond → Walk Cond)
    (left : Cond) : Walk Cond := do
  if ← accept marks [.token sign] then
    let right ← link
    again (.join op left right)
  else return left

/-- Go on with comparisons joined by `&&`. -/
def conjunctionRest (left : Cond) : Walk Cond :=
  chainRest marks .andAnd .and (comparison marks) (fun left => enter (.conjunctionRest marks left))
    left

/-- Read comparisons joined by `&&`, from the left. -/
def conjunction : Walk Cond := do
  let left ← comparison marks
  conjunctionRest marks left

/-- Go on with conditions joined by `||`. -/
def disjunctionRest (left : Cond) : Walk Cond :=
  chainRest marks .orOr .or (conjunction marks) (fun left => enter (.disjunctionRest marks left))
    left

/-- Read a condition: comparisons joined by `&&`, and these by `||`. -/
def condition : Walk Cond := do
  let left ← conjunction marks
  disjunctionRest marks left

/-- The line or the text has to be at its end; the end of a line is taken. -/
def endOfLine (clause : Clause) : Walk Unit := do
  if (← isAtEnd marks) || (← accept marks [.newline]) then return ()
  else
    let mark ← peek marks
    refuse mark.span (.notAtEnd mark.lexeme clause)

/-- Read the condition of a header, in parentheses, and the end of its line. -/
def header (word : Keyword) : Walk Cond := do
  let _ ← consume marks .leftParen (.expectedHeaderParen word)
  let cond ← condition marks
  let _ ← consume marks .rightParen (.unclosedHeader word)
  endOfLine marks (.condition word)
  return cond

/-- Whether a mark can be a part of a target's name. -/
def isNameMark : MarkKind → Bool
  | .token kind => isNamePart kind
  | _ => false

/-- Go on with the name of a target, as long as word-like marks follow. -/
def nameRest (name : String) (span : Span) : Walk (String × Span) := do
  if isNameMark (← peek marks).kind then
    let part ← advance marks
    enter (.nameRest marks (name ++ part.lexeme) (span.join part.span))
  else return (name, span)

/-- Read what an assignment writes to. -/
def target : Walk Target := do
  if isNameMark (← peek marks).kind then
    let first ← advance marks
    let (name, span) ← nameRest marks first.lexeme first.span
    if ← accept marks [.token .leftBracket] then
      let index ← term marks
      let close ← consume marks .rightBracket .unclosedIndex
      return .element name index (span.join close.span)
    else return .scalar name span
  else refuse (← peek marks).span .invalidTarget

/-- Read an assignment and the end of its line. -/
def assignment : Walk Stmt := do
  let target ← target marks
  let _ ← consume marks .equal .expectedEqual
  let value ← term marks
  endOfLine marks .assignment
  return .assign target value (target.span.join value.span)

/-- Whether the line has a bare `=` from the cursor on. -/
def lineHasEqual : Walk Bool := do
  let place ← get
  if marks.length < place.current then crash .outOfBounds
  else
    let line := (marks.drop place.current).takeWhile fun mark =>
      mark.kind ≠ .newline && mark.kind ≠ .endOfText
    return line.any (·.kind = .token .equal)

/-- Take all that is left of the line. -/
def skipLine : Walk Unit := do
  if !(← check marks .newline) && !(← isAtEnd marks) then
    let _ ← advance marks
    enter (.skipLine marks)

/-- Read a line that is no control statement. Without a bare `=` it does nothing. -/
def lineStatement : Walk (Option Stmt) := do
  if ← lineHasEqual marks then
    return some (← assignment marks)
  else
    skipLine marks
    return none

/-- What a branch does otherwise: its further branches, then the last block if there is one. -/
def otherwise (branches : List (Cond × List Stmt)) (last : Option (List Stmt)) : Chain :=
  branches.foldr (fun branch later => .branch branch.1 branch.2 later)
    (match last with
      | none => .done
      | some body => .block body)

/-- Read a block after its brace, one level deeper. -/
def blockBody (brace : Span) : Walk (List Stmt × Span) := do
  descend marks
  (enter (.blockRest marks brace [])).after (leave marks)

/-- Read the block that has to follow a header. -/
def block (clause : Clause) : Walk (List Stmt × Span) := do
  skipNewlines marks
  let brace ← consume marks .leftBrace (.expectedBlock clause)
  blockBody marks brace.span

/-- Go on with a branch after a block, as long as `elif` or `else` follows. -/
def branches (before : List (Cond × List Stmt)) (last : Span) : Walk (Chain × Span) := do
  skipNewlines marks
  if ← accept marks [.token (.keyword .elifWord)] then
    let cond ← header marks .elifWord
    let (body, last) ← block marks (.condition .elifWord)
    enter (.branches marks (before ++ [(cond, body)]) last)
  else if ← accept marks [.token (.keyword .elseWord)] then
    endOfLine marks .elseWord
    let (body, last) ← block marks .elseWord
    return (otherwise before (some body), last)
  else return (otherwise before none, last)

/-- Read a branch after its keyword. -/
def ifStatement : Walk Stmt := do
  let start ← previous marks
  let cond ← header marks .ifWord
  let (body, last) ← block marks (.condition .ifWord)
  let (chain, last) ← branches marks [] last
  return .branch cond body chain (start.span.join last)

/-- Read a loop after its keyword. -/
def whileStatement : Walk Stmt := do
  let start ← previous marks
  let cond ← header marks .whileWord
  let (body, last) ← block marks (.condition .whileWord)
  return .loop cond body (start.span.join last)

/-- Read the statement that the mark at the cursor begins. -/
def arm : Walk (Option Stmt) := do
  let mark ← peek marks
  match mark.kind with
  | .token (.keyword .ifWord) =>
    let _ ← advance marks
    return some (← ifStatement marks)
  | .token (.keyword .whileWord) =>
    let _ ← advance marks
    return some (← whileStatement marks)
  | .token .leftBrace =>
    let brace ← advance marks
    let (body, span) ← blockBody marks brace.span
    return some (.block body span)
  | .token (.keyword .elifWord) | .token (.keyword .elseWord) =>
    refuse mark.span (.danglingBranch mark.lexeme)
  | .token .rightBrace => refuse mark.span .unmatchedBrace
  | _ => lineStatement marks

/-- Read the statement at the cursor, which has to take at least one mark. -/
def statement : Walk (Option Stmt) := do
  let before ← get
  let result ← arm marks
  if (← get).current ≤ before.current then crash .idle
  else return result

/-- Go on with a block up to the brace that closes it. -/
def blockRest (brace : Span) (before : List Stmt) : Walk (List Stmt × Span) := do
  skipNewlines marks
  if ← isAtEnd marks then refuse brace .unclosedBlock
  else if ← check marks (.token .rightBrace) then
    let close ← advance marks
    return (before, brace.join close.span)
  else
    match ← statement marks with
    | some stmt => enter (.blockRest marks brace (before ++ [stmt]))
    | none => enter (.blockRest marks brace before)

/-- Go on with a script up to the end of the text. -/
def programRest (before : List Stmt) : Walk (List Stmt) := do
  skipNewlines marks
  if ← isAtEnd marks then return before
  else
    match ← statement marks with
    | some stmt => enter (.programRest marks (before ++ [stmt]))
    | none => enter (.programRest marks before)

/-- Read a whole script. -/
def program : Walk (List Stmt) := programRest marks []

/-- The text has to be at its end. -/
def endOfInput (subject : Subject) : Walk Unit := do
  skipNewlines marks
  if ← isAtEnd marks then return ()
  else
    let mark ← peek marks
    refuse mark.span (.notAlone mark.lexeme subject)

/-- Read a text that holds nothing else. -/
def alone {α : Type} (subject : Subject) (walk : Walk α) : Walk α := do
  skipNewlines marks
  let a ← walk
  endOfInput marks subject
  return a

instance : Mechanism Part Place where
  body
    | .skipNewlines marks => skipNewlines marks
    | .term marks => term marks
    | .termRest marks left chained => termRest marks left chained
    | .factorRest marks left chained => factorRest marks left chained
    | .unary marks => unary marks
    | .call marks => call marks
    | .conjunctionRest marks left => conjunctionRest marks left
    | .disjunctionRest marks left => disjunctionRest marks left
    | .nameRest marks name span => nameRest marks name span
    | .skipLine marks => skipLine marks
    | .branches marks before last => branches marks before last
    | .blockRest marks brace before => blockRest marks brace before
    | .programRest marks before => programRest marks before

end Walk

end NumericScript
