import NumericScript.Single.Decimal
import NumericScript.Store.Address

/-!
# Diagnostics

What a store reports while it is used: values that are written, names that are refused, and
reads of what is not set. None of these stops a script. The reports are the same for values of any
kind.
-/

namespace NumericScript

/-- A report of a store of values. -/
inductive DiagnosticOf (α : Type)
  | created (address : Address) (value : α)
  | updated (address : Address) (value : α)
  | invalid (name : String) (reason : NameViolation)
  | undefined (name : String)
  deriving DecidableEq

/-- A report of a store of numbers. -/
abbrev Diagnostic := DiagnosticOf Single

namespace DiagnosticOf

variable {α : Type}

/-- The name that is reported; an element is named by its key. -/
def name : DiagnosticOf α → String
  | created address _ => address.key
  | updated address _ => address.key
  | invalid name _ => name
  | undefined name => name

/-- Whether something went wrong. -/
def isError : DiagnosticOf α → Bool
  | created .. | updated .. => false
  | invalid .. | undefined _ => true

/-- The report as a sentence. -/
def text [ToString α] : DiagnosticOf α → String
  | created address value =>
    "added new variable " ++ address.key ++ " with value " ++ toString value
  | updated address value => "updated variable " ++ address.key ++ " with value " ++ toString value
  | invalid name reason => "invalid variable name '" ++ name ++ "': " ++ reason.text
  | undefined name => "undefined variable '" ++ name ++ "', using 0"

end DiagnosticOf

end NumericScript
