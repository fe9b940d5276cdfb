import NumericScript.Builtin
import NumericScript.Source.Span

/-!
# Tokens

The words and signs of a script. A lexeme is a token before it has a place: its kind and the
characters it is written with.
-/

namespace NumericScript

/-- An ASCII letter, a digit or an underscore. -/
def isWordChar (c : Char) : Bool := c.isAlphanum || c = '_'

/-- The words that control the flow of a script. -/
inductive Keyword
  | ifWord
  | elifWord
  | elseWord
  | whileWord
  deriving DecidableEq, Repr

namespace Keyword

/-- All keywords, in the order in which names are searched for them. -/
def all : List Keyword := [ifWord, elifWord, elseWord, whileWord]

/-- The keyword as a script has it. -/
def text : Keyword → String
  | ifWord => "if"
  | elifWord => "elif"
  | elseWord => "else"
  | whileWord => "while"

/-- The keyword that a whole word is. -/
def ofWord? (word : List Char) : Option Keyword :=
  all.find? fun k => k.text.toList = word

end Keyword

/-- The words that no variable name may contain, in the order in which they are looked for. -/
def reservedWords : List String := Keyword.all.map Keyword.text ++ Builtin.all.map Builtin.name

/-- What a token is. -/
inductive TokenKind
  | leftParen
  | rightParen
  | leftBrace
  | rightBrace
  | leftBracket
  | rightBracket
  | minus
  | plus
  | slash
  | star
  | caret
  | less
  | greater
  | equal
  | equalEqual
  | bangEqual
  | andAnd
  | orOr
  | identifier
  | number
  | keyword (word : Keyword)
  | function (builtin : Builtin)
  deriving DecidableEq, Repr

/-- A token of a line's text, before it has a place in the script. -/
structure Lexeme where
  kind : TokenKind
  text : List Char
  deriving DecidableEq

/-- A token in its place. -/
structure Token where
  kind : TokenKind
  lexeme : String
  span : Span
  deriving DecidableEq

/-- The tokens of one logical line and the span of the line's end. -/
structure TokenLine where
  tokens : List Token
  stop : Span

end NumericScript
