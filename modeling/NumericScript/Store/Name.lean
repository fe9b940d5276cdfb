import NumericScript.Token.Basic

/-!
# Names

A scalar's name has a letter in it, before that letter only digits and underscores and after it
letters as well. The key of an array element may also have the delimiter after the letter. No name
contains a reserved word, wherever it stands in the name.
-/

namespace NumericScript

/-- Stands between an array's name and an index in the key of an element. -/
def keyDelimiter : Char := '$'

/-- Why a name is refused. -/
inductive NameViolation
  | pattern
  | reserved (word : String)
  deriving DecidableEq, Repr

/-- The violated rule in words. -/
def NameViolation.text : NameViolation → String
  | pattern => "names must contain a letter and only letters, digits or '_'"
  | reserved word => "names may not contain the reserved word '" ++ word ++ "'"

/-- Digits and underscores, then a letter, then characters of a class. -/
def matchesName (tail : Char → Bool) (name : List Char) : Bool :=
  match name.dropWhile fun c => c.isDigit || c = '_' with
  | [] => false
  | c :: rest => c.isAlpha && rest.all tail

/-- The pattern of scalar names. -/
def isScalarName (name : List Char) : Bool := matchesName isWordChar name

/-- The pattern of keys. -/
def isElementName (name : List Char) : Bool :=
  matchesName (fun c => isWordChar c || c = keyDelimiter) name

/-- Whether a word stands somewhere in a text. -/
def occursIn (word : List Char) : List Char → Bool
  | [] => word.isEmpty
  | c :: rest => word.isPrefixOf (c :: rest) || occursIn word rest

/-- The first reserved word that occurs in a name. -/
def reservedIn? (name : List Char) : Option String :=
  reservedWords.find? fun word => occursIn word.toList name

/-- Why a name is refused, if it is. The pattern comes before the reserved words. -/
def violation? (asElement : Bool) (name : String) : Option NameViolation :=
  if (if asElement then isElementName name.toList else isScalarName name.toList) then
    (reservedIn? name.toList).map .reserved
  else
    some .pattern

end NumericScript
