import NumericScript.Proofs.Cursor.Course

/-!
# The scanner

How a machine with a cursor scans a text: line by line, from the start of a token up to the first
character after it. A word that begins with a function's name takes the cursor back to the end of
that name. The characters of a token are a slice of the line, which the line has to have.
-/

namespace NumericScript

/-- Where the scanner is in a line: the first character of a token, and the next character. -/
structure Spot where
  start : Nat
  current : Nat

/-- The parts of the scanner that call themselves. -/
inductive Crawl.Part : Type → Type
  | run (line : Line) (isPart : Char → Bool) : Part Unit
  | lineRest (line : Line) (before : List Mark) : Part (List Mark)

/-- A run of the scanner. -/
abbrev Crawl (α : Type) := Course Crawl.Part Spot α

namespace Crawl

open Course

variable (line : Line)

/-- Whether no character is left. -/
def isAtEnd : Crawl Bool := return line.text.length ≤ (← get).current

/-- The next character, or a zero character after the last one. -/
def peek : Crawl Char := return (line.text[(← get).current]?).getD '\x00'

/-- The character after the next one. -/
def peekNext : Crawl Char := return (line.text[(← get).current + 1]?).getD '\x00'

/-- Take the next character. -/
def advance : Crawl Char := do
  let c ← peek line
  modify fun spot => { spot with current := spot.current + 1 }
  return c

/-- Take the next character if it is a given one. -/
def accept (expected : Char) : Crawl Bool := do
  if (← isAtEnd line) || (← peek line) ≠ expected then return false
  else
    modify fun spot => { spot with current := spot.current + 1 }
    return true

/-- The characters from the start of the token up to the cursor. -/
def slice : Crawl (List Char) := do
  let spot ← get
  if spot.start ≤ spot.current ∧ spot.current ≤ line.text.length then
    return (line.text.drop spot.start).take (spot.current - spot.start)
  else crash .outOfBounds

/-- The span from the start of the token up to the cursor. -/
def span : Crawl Span := do
  let spot ← get
  if spot.current = 0 then crash .unbalanced
  else return ⟨line.offset spot.start, line.offset (spot.current - 1) + 1, line.index⟩

/-- Fail because of a character. -/
def unexpected {α : Type} (c : Char) : Crawl α := do
  refuse (← span line) (.unexpectedCharacter c)

/-- The token from its start up to the cursor. -/
def token (kind : TokenKind) : Crawl Token := do
  let text ← slice line
  return ⟨kind, String.ofList text, ← span line⟩

/-- Take all characters of a class that follow. -/
def run (isPart : Char → Bool) : Crawl Unit := do
  if isPart (← peek line) then
    let _ ← advance line
    enter (.run line isPart)

/-- The token of a word with a letter in it, which the cursor is behind. -/
def lettered (text : List Char) : Crawl Token := do
  match Keyword.ofWord? text with
  | some k => token line (.keyword k)
  | none =>
    match Builtin.ofWordStart? text with
    | some f =>
      modify fun spot => { spot with current := spot.start + f.name.length }
      token line (.function f)
    | none => token line .identifier

/-- Take a point and the digits after it, if there are any. -/
def fraction : Crawl Unit := do
  if (← peek line) = '.' && (← peekNext line).isDigit then
    let _ ← advance line
    run line Char.isDigit

/-- Scan a word or a numeral. -/
def word : Crawl Token := do
  run line isWordChar
  let text ← slice line
  if text.any Char.isAlpha then lettered line text
  else if text.any (· = '_') then token line .identifier
  else
    fraction line
    token line .number

/-- Scan the token at the cursor. -/
def scanToken : Crawl Token := do
  let c ← advance line
  match c with
  | '(' => token line .leftParen
  | ')' => token line .rightParen
  | '\x7b' => token line .leftBrace
  | '\x7d' => token line .rightBrace
  | '[' => token line .leftBracket
  | ']' => token line .rightBracket
  | '-' => token line .minus
  | '+' => token line .plus
  | '*' => token line .star
  | '/' => token line .slash
  | '^' => token line .caret
  | '<' => token line .less
  | '>' => token line .greater
  | '=' => if ← accept line '=' then token line .equalEqual else token line .equal
  | '!' => if ← accept line '=' then token line .bangEqual else unexpected line c
  | '&' => if ← accept line '&' then token line .andAnd else unexpected line c
  | '|' => if ← accept line '|' then token line .orOr else unexpected line c
  | '.' =>
    if (← peek line).isDigit then
      run line Char.isDigit
      token line .number
    else unexpected line c
  | c => if isWordChar c then word line else unexpected line c

/-- Scan what is left of a line. Every token has to take at least one character. -/
def lineRest (before : List Mark) : Crawl (List Mark) := do
  if ← isAtEnd line then return before ++ [.newline line.stopSpan]
  else
    let spot ← get
    set (Spot.mk spot.current spot.current)
    let t ← scanToken line
    if (← get).current ≤ spot.current then crash .idle
    else enter (.lineRest line (before ++ [.token t]))

instance : Mechanism Part Spot where
  body
    | .run line isPart => run line isPart
    | .lineRest line before => lineRest line before

/-- Scan lines one after the other. -/
def linesRest (before : List Mark) : List Line → Crawl (List Mark)
  | [] => return before
  | line :: later => do
    set (Spot.mk 0 0)
    let marks ← lineRest line before
    linesRest marks later

/-- Scan all lines of a text; the end of the text is where its last line ends. -/
def text (lines : List Line) : Crawl (List Mark) := do
  let marks ← linesRest [] lines
  let stop := (lines.getLast?.map Line.stop).getD 0
  return marks ++ [.endOfText (.point stop (lines.length - 1))]

end Crawl

end NumericScript
