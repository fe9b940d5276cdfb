import NumericScript.Grammar.Cond
import NumericScript.Grammar.Outline
import NumericScript.Tree.Stmt

/-!
# Reading statements

Assignments and headers take one line each. A line that is neither, which is one without `=` that
does not begin with a keyword, does nothing. What a branch does otherwise stands right after its
block.
-/

namespace NumericScript

/-- The line has to be at its end. -/
def endOfLine (clause : Clause) : List Token → Except ScriptError Unit
  | [] => .ok ()
  | t :: _ => fail t.span (.notAtEnd t.lexeme clause)

/-- Read the condition of a header: the line's rest, in parentheses. -/
def header (word : Keyword) (room : Nat) (stop : Span) (tokens : List Token) :
    Except ScriptError Cond := do
  let (_, rest) ← expect .leftParen (.expectedHeaderParen word) stop tokens
  let (cond, rest) ← condition room stop rest
  let (_, rest) ← expect .rightParen (.unclosedHeader word) stop rest
  endOfLine (.condition word) rest
  .ok cond

/-- Whether a token can be a part of a target's name. -/
def isNamePart : TokenKind → Bool
  | .identifier | .number | .keyword _ | .function _ => true
  | _ => false

/--
Read what an assignment writes to. The name is all word-like tokens together: a name that will be
refused has to reach the store whole.
-/
def target (room : Nat) : Reader Target := fun stop tokens =>
  match tokens.takeWhile (isNamePart ·.kind), tokens.dropWhile (isNamePart ·.kind) with
  | [], rest => fail (nextSpan stop rest) .invalidTarget
  | part :: parts, rest =>
    let name := (part :: parts).foldr (fun t later => t.lexeme ++ later) ""
    let span := parts.foldl (fun span t => span.join t.span) part.span
    match rest with
    | ⟨.leftBracket, _, _⟩ :: rest => do
      let (index, rest) ← expression room stop rest
      let (close, rest) ← expect .rightBracket .unclosedIndex stop rest
      .ok (.element name index (span.join close.span), rest)
    | _ => .ok (.scalar name span, rest)

/-- Read an assignment, which takes the whole line. -/
def assignment (room : Nat) (stop : Span) (tokens : List Token) : Except ScriptError Stmt := do
  let (target, rest) ← target room stop tokens
  let (_, rest) ← expect .equal .expectedEqual stop rest
  let (value, rest) ← expression room stop rest
  endOfLine .assignment rest
  .ok (.assign target value (target.span.join value.span))

/-- Whether a line has a bare `=` in it. -/
def hasEqual (tokens : List Token) : Bool := tokens.any (·.kind = .equal)

/--
What stands from some line on: the continuation of the branch right before it, with the span of the
continuation's last block, and the statements after that.
-/
structure Sequel where
  otherwise : Chain
  lastBlock : Option Span
  statements : List Stmt

/-- No continuation, and the statement before those of another sequel. -/
def Sequel.cons (stmt : Stmt) (sequel : Sequel) : Sequel :=
  ⟨.done, none, stmt :: sequel.statements⟩

/-- Read the lines inside a block one level deeper, up to the brace that closes it. -/
def blockBody (room : Nat) (after : Span) (brace : Token) (stop : Span) (close : Option Token)
    (read : Nat → Span → Except ScriptError Sequel) : Except ScriptError (List Stmt × Span) :=
  match room with
  | 0 => fail stop .tooDeep
  | room + 1 =>
    match close with
    | some close => do
      let inner ← read room close.span
      .ok (inner.statements, brace.span.join close.span)
    | none => do
      let _ ← read room after
      fail brace.span .unclosedBlock

/--
 Read lines. The flag says whether a branch ends right before them, so that it can go on with
`elif` or `else`; `after` is the span of what follows the lines.
-/
def sequel (afterBranch : Bool) (room : Nat) (after : Span) : Outline → Except ScriptError Sequel
  | .done => .ok ⟨.done, none, []⟩
  | .stray brace _ => fail brace.span .unmatchedBrace
  | .block brace stop body close next => do
    let (inner, span) ←
      blockBody room after brace stop close fun room after => sequel false room after body
    let later ← sequel false room after next
    .ok (later.cons (.block inner span))
  | .line first more stop next =>
    match first.kind with
    | .keyword .ifWord => do
      let cond ← header .ifWord room stop more
      match next with
      | .block brace stop body close next => do
        let (inner, span) ←
          blockBody room after brace stop close fun room after => sequel false room after body
        let later ← sequel true room after next
        let span := first.span.join (later.lastBlock.getD span)
        .ok (later.cons (.branch cond inner later.otherwise span))
      | next => fail (next.firstSpan after) (.expectedBlock (.condition .ifWord))
    | .keyword .whileWord => do
      let cond ← header .whileWord room stop more
      match next with
      | .block brace stop body close next => do
        let (inner, span) ←
          blockBody room after brace stop close fun room after => sequel false room after body
        let later ← sequel false room after next
        .ok (later.cons (.loop cond inner (first.span.join span)))
      | next => fail (next.firstSpan after) (.expectedBlock (.condition .whileWord))
    | .keyword .elifWord =>
      if afterBranch then do
        let cond ← header .elifWord room stop more
        match next with
        | .block brace stop body close next => do
          let (inner, span) ←
            blockBody room after brace stop close fun room after => sequel false room after body
          let later ← sequel true room after next
          .ok ⟨.branch cond inner later.otherwise, some (later.lastBlock.getD span),
            later.statements⟩
        | next => fail (next.firstSpan after) (.expectedBlock (.condition .elifWord))
      else
        fail first.span (.danglingBranch first.lexeme)
    | .keyword .elseWord =>
      if afterBranch then do
        endOfLine .elseWord more
        match next with
        | .block brace stop body close next => do
          let (inner, span) ←
            blockBody room after brace stop close fun room after => sequel false room after body
          let later ← sequel false room after next
          .ok ⟨.block inner, some span, later.statements⟩
        | next => fail (next.firstSpan after) (.expectedBlock .elseWord)
      else
        fail first.span (.danglingBranch first.lexeme)
    | _ =>
      if hasEqual (first :: more) then do
        let stmt ← assignment room stop (first :: more)
        let later ← sequel false room after next
        .ok (later.cons stmt)
      else do
        let later ← sequel false room after next
        .ok ⟨.done, none, later.statements⟩

/-- The statements of a scanned script that nests at most `limit` levels. -/
def readProgram (limit : Nat) (lines : List TokenLine) : Except ScriptError (List Stmt) := do
  let all ← sequel false limit (endSpan lines) (.ofLines lines)
  .ok all.statements

/-- What a reader makes of a scanned text that holds nothing else. -/
def readAlone {α : Type} (subject : Subject) (reader : Reader α) (lines : List TokenLine) :
    Except ScriptError α :=
  match lines.filter (!·.tokens.isEmpty) with
  | [] => do
    let (a, _) ← reader (endSpan lines) []
    .ok a
  | line :: later => do
    let (a, rest) ← reader line.stop line.tokens
    match rest ++ later.flatMap TokenLine.tokens with
    | [] => .ok a
    | t :: _ => fail t.span (.notAlone t.lexeme subject)

/-- Read a whole script. -/
def parseProgram (source : String) : Except ScriptError (List Stmt) := do
  let lines ← scan source
  readProgram maxNesting lines

/-- Read a text that is one expression. -/
def parseExpression (source : String) : Except ScriptError Expr := do
  let lines ← scan source
  readAlone .expression (expression maxNesting) lines

/-- Read a text that is one condition. -/
def parseCondition (source : String) : Except ScriptError Cond := do
  let lines ← scan source
  readAlone .condition (condition maxNesting) lines

end NumericScript
