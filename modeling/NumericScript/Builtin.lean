import NumericScript.Single.Elementary

/-!
# Built-in functions

The functions of one operand that a script can apply, and the constants that it finds set.
-/

namespace NumericScript

/-- A function of one operand. -/
inductive Builtin
  | asin
  | sign
  | sqrt
  | sin
  | log
  deriving DecidableEq, Repr

namespace Builtin

/-- All functions, in the order in which a word is searched for their names. -/
def all : List Builtin := [asin, sign, sqrt, sin, log]

/-- The name that a script uses. -/
def name : Builtin → String
  | asin => "Asin"
  | sign => "Sign"
  | sqrt => "Sqrt"
  | sin => "Sin"
  | log => "Log"

/-- The function whose name a word begins with. -/
def ofWordStart? (word : List Char) : Option Builtin :=
  all.find? fun f => f.name.toList.isPrefixOf word

/-- The value at a number; outside of the function's domain it is not a number. -/
def apply : Builtin → Single → Single
  | asin, x => x.asin
  | sign, x => x.sign
  | sqrt, x => x.sqrt
  | sin, x => x.sin
  | log, x => x.log

end Builtin

/-- The single precision number nearest to `π`. -/
def Single.pi : Single := .ofScaled false 13176795 1 (-22)

/-- The single precision number nearest to the base of the natural logarithm. -/
def Single.e : Single := .ofScaled false 11401300 1 (-22)

/-- The names that every new store has set, in order. -/
def constants : List (String × Single) := [("pi", .pi), ("e", .e)]

end NumericScript
