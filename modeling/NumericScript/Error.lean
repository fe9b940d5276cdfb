import NumericScript.Single.Decimal
import NumericScript.Token.Basic

/-!
# Errors

What stops a script: a cause and the place it is found at. A refused name and a read of an unset
name stop nothing; they are diagnostics. All wording is in this module.
-/

namespace NumericScript

/-- The deepest nesting of blocks, brackets, signs, functions and chained operators. -/
def maxNesting : Nat := 256

/-- The stage of a run that an error belongs to. -/
inductive ErrorKind
  | lexical
  | parse
  | runtime
  deriving DecidableEq, Repr

/-- What the errors of a stage are called. -/
def ErrorKind.title : ErrorKind → String
  | lexical => "Lexical Error"
  | parse => "Parse Error"
  | runtime => "Runtime Error"

/-- What a text on its own is read as. -/
inductive Subject
  | expression
  | condition
  deriving DecidableEq, Repr

/-- The subject in words. -/
def Subject.text : Subject → String
  | expression => "expression"
  | condition => "condition"

/-- The part of a statement that comes before the end of its line. -/
inductive Clause
  | condition (header : Keyword)
  | elseWord
  | assignment
  deriving DecidableEq, Repr

/-- The clause in words. -/
def Clause.text : Clause → String
  | condition header => header.text ++ " condition"
  | elseWord => "'else'"
  | assignment => "assignment"

/-- The kinds of operator whose right operand can be missing. -/
inductive OperatorClass
  | comparison
  | sum
  | product
  | power
  deriving DecidableEq, Repr

/-- Why a script stops. -/
inductive Cause
  /-- A character that no token starts with or goes on with. -/
  | unexpectedCharacter (c : Char)
  | tooDeep
  /-- Something follows where the text should be at its end. -/
  | notAlone (lexeme : String) (subject : Subject)
  /-- Something follows where the line should be at its end. -/
  | notAtEnd (lexeme : String) (clause : Clause)
  | danglingBranch (lexeme : String)
  | unmatchedBrace
  | expectedHeaderParen (header : Keyword)
  | unclosedHeader (header : Keyword)
  | expectedBlock (clause : Clause)
  | unclosedBlock
  | expectedEqual
  | invalidTarget
  | unclosedIndex
  | unclosedParen
  | emptyParens
  | expectedComparison
  | missingOperand (lexeme : String) (operator : OperatorClass)
  | missingArgument (builtin : Builtin)
  | lineTooShort
  | expectedOperand (kind : TokenKind) (lexeme : String)
  | invalidNumber (lexeme : String)
  | invalidIndex (value : Single)
  | iterationLimit (limit : Nat)
  /-- A time limit in milliseconds. -/
  | timeLimit (limit : Nat)
  deriving DecidableEq

namespace Cause

/-- The stage that a cause belongs to. -/
def kind : Cause → ErrorKind
  | unexpectedCharacter _ => .lexical
  | invalidIndex _ | iterationLimit _ | timeLimit _ => .runtime
  | _ => .parse

/-- What is wrong. -/
def message : Cause → String
  | unexpectedCharacter c => "Unexpected character: '" ++ String.singleton c ++ "'"
  | tooDeep => "Too deeply nested"
  | notAlone lexeme subject => "Unexpected '" ++ lexeme ++ "' after " ++ subject.text
  | notAtEnd lexeme clause => "Unexpected '" ++ lexeme ++ "' after " ++ clause.text
  | danglingBranch lexeme => "'" ++ lexeme ++ "' without a preceding 'if'"
  | unmatchedBrace => "Unmatched '\x7d'"
  | expectedHeaderParen header => "Expected '(' after '" ++ header.text ++ "'"
  | unclosedHeader header => "Expected ')' after " ++ (Clause.condition header).text
  | expectedBlock clause => "Expected '\x7b' after " ++ clause.text
  | unclosedBlock => "Expected '\x7d' after block"
  | expectedEqual => "Expected '=' after assignment target"
  | invalidTarget => "Invalid assignment target"
  | unclosedIndex => "Expected ']' after array index"
  | unclosedParen => "Expected ')' after expression"
  | emptyParens => "Empty parentheses are not allowed"
  | expectedComparison => "Expected comparison operator"
  | missingOperand lexeme _ => "Expected expression after '" ++ lexeme ++ "'"
  | missingArgument builtin => "Expected operand after '" ++ builtin.name ++ "'"
  | lineTooShort => "Unexpected end of line"
  | expectedOperand _ lexeme => "Expected expression, found '" ++ lexeme ++ "'"
  | invalidNumber lexeme => "Invalid number: " ++ lexeme
  | invalidIndex value => "Invalid array index: " ++ toString value
  | iterationLimit limit => "Loop iteration limit of " ++ toString limit ++ " exceeded"
  | timeLimit limit => "Time limit of " ++ toString limit ++ " ms exceeded"

/-- What to do about a character that starts no token. -/
def characterHelp (c : Char) : String :=
  if c = '!' then "Use '!=' to test for inequality."
  else if c = '&' then "Use '&&' to join two comparisons."
  else if c = '|' then "Use '||' to join two comparisons."
  else if c = '.' then "Numbers need digits after the '.', e.g. 0.5 or .5"
  else
    "Scripts may only use letters, digits, '_', " ++
      "arithmetic and comparison operators, brackets and braces."

/-- What to do about an operator without its right operand. -/
def operandHelp : OperatorClass → String
  | .comparison =>
    "Comparison operators like '<', '>', '==' and '!=' require expressions on both sides."
  | .sum => "Arithmetic operators like '+' and '-' require expressions on both sides."
  | .product => "Multiplication and division operators require expressions on both sides."
  | .power => "The power operator requires expressions on both sides, e.g. 2^3."

/-- What to do about a token that starts no operand. -/
def tokenHelp : TokenKind → String
  | .rightParen => "Found ')' without matching '('. Check for unbalanced parentheses."
  | .rightBracket => "Found ']' without matching '['. Check for unbalanced brackets."
  | .keyword _ => "Keywords cannot be used inside expressions."
  | _ => "Expected a number, variable, array element, function or parenthesized expression here."

/-- A hint at what to do about it. -/
def help? : Cause → Option String
  | unexpectedCharacter c => some (characterHelp c)
  | tooDeep =>
    some ("Scripts may nest at most " ++ toString maxNesting ++
      " levels of blocks, brackets, signs, functions and chained operators.")
  | notAlone _ subject => some ("Only a single " ++ subject.text ++ " can be evaluated here.")
  | notAtEnd .. => some "Each statement must be on its own line or separated by ';'."
  | danglingBranch _ =>
    some "'elif' and 'else' must directly follow the closing '\x7d' of an 'if' or 'elif' block."
  | unmatchedBrace => some "Found '\x7d' without matching '\x7b'. Check for unbalanced braces."
  | expectedHeaderParen header =>
    some ("Conditions must be enclosed in parentheses: " ++ header.text ++ "(x > 0) \x7b ... \x7d")
  | unclosedHeader _ =>
    some "A condition is one or more comparisons joined by '&&' or '||', closed with ')'."
  | expectedBlock _ =>
    some "Bodies of 'if', 'elif', 'else' and 'while' must be enclosed in braces: \x7b ... \x7d"
  | unclosedBlock =>
    some "Block statements must be closed with '\x7d' after the opening '\x7b'."
  | expectedEqual =>
    some "Assignments have the form 'name = expression' or 'name[index] = expression'."
  | invalidTarget =>
    some "Only variables and array elements can be assigned to. Examples: 'x = 10' or 'A[2] = 5'"
  | unclosedIndex => some "Array elements are written as name[index], e.g. A[i + 1]."
  | unclosedParen =>
    some "Every opening parenthesis '(' must have a matching closing parenthesis ')'."
  | emptyParens => some "Parentheses must contain an expression, e.g. (x + 1)."
  | expectedComparison => some "Conditions compare two expressions with '<', '>', '==' or '!='."
  | missingOperand _ operator => some (operandHelp operator)
  | missingArgument builtin =>
    some ("Functions take a single operand, e.g. " ++ builtin.name ++ "(x) or " ++ builtin.name ++
      "2. Wrap negative operands in parentheses: " ++ builtin.name ++ "(-x).")
  | lineTooShort =>
    some ("Expected an expression here. " ++
      "Check for unmatched parentheses, brackets, or incomplete statements.")
  | expectedOperand kind _ => some (tokenHelp kind)
  | invalidNumber _ => none
  | invalidIndex _ =>
    some "Array indices must be finite and not negative; fractions are truncated."
  | iterationLimit _ =>
    some ("The loop condition may never become false. " ++
      "Raise the limit with --max-iterations if the script needs more iterations.")
  | timeLimit _ =>
    some ("The loop condition may never become false. " ++
      "Raise the limit with --timeout-ms if the script needs more time.")

end Cause

/-- A cause and the place in the script that it is found at. -/
structure ScriptError where
  span : Span
  cause : Cause
  deriving DecidableEq

/-- The error in one line; logical lines are counted from one here. -/
def ScriptError.text (error : ScriptError) : String :=
  error.cause.kind.title ++ " in logical line " ++ toString (error.span.line + 1) ++ ": " ++
    error.cause.message

end NumericScript
