import NumericScript.Error
import NumericScript.Source.Line

/-!
# Scanning

The text of a logical line is cut into lexemes, each the longest that can stand at its place; only
a word that begins with a function's name is cut right after that name, so that the name applies
to what follows. Cutting looks at the text alone. The places of the characters join in afterwards.
-/

namespace NumericScript

/-- How many characters of a text belong to a fraction: a point and at least one digit. -/
def fractionLength : List Char → Nat
  | c :: rest =>
    if c = '.' then
      match (rest.takeWhile Char.isDigit).length with
      | 0 => 0
      | digits + 1 => digits + 2
    else 0
  | [] => 0

/--
 What a word is and how many characters belong to it, given what follows the word. With a letter
in it it is a keyword, a function's name with something after it, or a name; without one it is a
numeral, unless it holds an underscore.
-/
def classifyWord (word after : List Char) : TokenKind × Nat :=
  if word.any Char.isAlpha then
    match Keyword.ofWord? word with
    | some k => (.keyword k, word.length)
    | none =>
      match Builtin.ofWordStart? word with
      | some f => (.function f, f.name.length)
      | none => (.identifier, word.length)
  else if word.any (· = '_') then (.identifier, word.length)
  else (.number, word.length + fractionLength after)

/-- The kind of the token that a nonempty text begins with, and how many characters it has. -/
def munch? (c : Char) (rest : List Char) : Option (TokenKind × Nat) :=
  if isWordChar c then
    some (classifyWord (c :: rest.takeWhile isWordChar) (rest.dropWhile isWordChar))
  else
    match c with
    | '(' => some (.leftParen, 1)
    | ')' => some (.rightParen, 1)
    | '\x7b' => some (.leftBrace, 1)
    | '\x7d' => some (.rightBrace, 1)
    | '[' => some (.leftBracket, 1)
    | ']' => some (.rightBracket, 1)
    | '-' => some (.minus, 1)
    | '+' => some (.plus, 1)
    | '*' => some (.star, 1)
    | '/' => some (.slash, 1)
    | '^' => some (.caret, 1)
    | '<' => some (.less, 1)
    | '>' => some (.greater, 1)
    | '=' => if rest.head? = some '=' then some (.equalEqual, 2) else some (.equal, 1)
    | '!' => if rest.head? = some '=' then some (.bangEqual, 2) else none
    | '&' => if rest.head? = some '&' then some (.andAnd, 2) else none
    | '|' => if rest.head? = some '|' then some (.orOr, 2) else none
    | '.' =>
      match fractionLength (c :: rest) with
      | 0 => none
      | length => some (.number, length)
    | _ => none

/-- A character that no token can hold, and its position in the text. -/
structure Stray where
  char : Char
  position : Nat
  deriving DecidableEq

/--
 Cut a text into lexemes. The first argument counts the characters at the start of the text that
belong to the lexeme before.
-/
def cutFrom : Nat → List Char → Except Stray (List Lexeme)
  | _, [] => .ok []
  | pending + 1, _ :: rest =>
    match cutFrom pending rest with
    | .ok later => .ok later
    | .error stray => .error ⟨stray.char, stray.position + 1⟩
  | 0, c :: rest =>
    match munch? c rest with
    | none => .error ⟨c, 0⟩
    | some (kind, length) =>
      match cutFrom (length - 1) rest with
      | .ok later => .ok (⟨kind, (c :: rest).take length⟩ :: later)
      | .error stray => .error ⟨stray.char, stray.position + 1⟩

/-- The lexemes of a text. -/
def cut (text : List Char) : Except Stray (List Lexeme) := cutFrom 0 text

/-- The span of some neighbouring characters of a line. -/
def spanOf (line : Nat) (chars : List Placed) : Span :=
  ⟨(chars.head?.map (·.offset)).getD 0, (chars.getLast?.map (·.offset + 1)).getD 0, line⟩

/-- Give each lexeme the place of its characters. -/
def place (line : Nat) : List Placed → List Lexeme → List Token
  | _, [] => []
  | chars, lexeme :: later =>
    let length := lexeme.text.length
    ⟨lexeme.kind, String.ofList lexeme.text, spanOf line (chars.take length)⟩ ::
      place line (chars.drop length) later

namespace Line

/-- The tokens of a line; a character that no token can hold is an error at its place. -/
def tokens (line : Line) : Except ScriptError (List Token) :=
  match cut line.text with
  | .ok lexemes => .ok (place line.index line.chars lexemes)
  | .error stray =>
    .error ⟨.point (line.offset stray.position) line.index, .unexpectedCharacter stray.char⟩

/-- The tokens of a line with the line's end. -/
def tokenLine (line : Line) : Except ScriptError TokenLine :=
  match line.tokens with
  | .ok tokens => .ok ⟨tokens, line.stopSpan⟩
  | .error error => .error error

end Line

/-- The tokens of all logical lines of a text, or the first error. -/
def scan (source : String) : Except ScriptError (List TokenLine) :=
  (logicalLines source).mapM Line.tokenLine

/-- The span of the end of a text: that of its last line's end. -/
def endSpan (lines : List TokenLine) : Span :=
  (lines.getLast?.map TokenLine.stop).getD (.point 0 0)

/-- An element of the token stream of a whole text. -/
inductive Mark
  | token (token : Token)
  | newline (span : Span)
  | endOfText (span : Span)

/-- The span of an element of the stream. -/
def Mark.span : Mark → Span
  | token t => t.span
  | newline span | endOfText span => span

/--
The tokens of a text as one stream: each line closed by its end, the whole by the end of text.
-/
def stream (lines : List TokenLine) : List Mark :=
  lines.flatMap (fun line => line.tokens.map Mark.token ++ [.newline line.stop]) ++
    [.endOfText (endSpan lines)]

end NumericScript
