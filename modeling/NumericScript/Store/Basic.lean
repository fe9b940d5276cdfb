import NumericScript.Single.Basic
import NumericScript.Store.Address

/-!
# Stores

A value for each address that is set. Scalars and elements have addresses of their own, so a scalar
and an array of one name do not meet; arrays are sparse. A store moves values and looks into none of
them, so that they may be of any kind; scripts store numbers.
-/

namespace NumericScript

/-- The values that are set. -/
abbrev StoreOf (α : Type) := Std.ExtTreeMap Address α compare

/-- The numbers that are set. -/
abbrev Store := StoreOf Single

namespace StoreOf

variable {α : Type}

/-- The scalars by name. -/
def scalars (store : StoreOf α) : List (String × α) :=
  store.toList.filterMap fun
    | (.scalar name, value) => some (name, value)
    | (.element .., _) => none

/-- Put an element before those of the arrays, with its own array if that is the first. -/
def consElement (name : String) (index : UInt64) (value : α) :
    List (String × List (UInt64 × α)) → List (String × List (UInt64 × α))
  | [] => [(name, [(index, value)])]
  | (first, elements) :: later =>
    if name = first then (first, (index, value) :: elements) :: later
    else (name, [(index, value)]) :: (first, elements) :: later

/-- The arrays by name, each with its elements by index. -/
def arrays (store : StoreOf α) : List (String × List (UInt64 × α)) :=
  store.toList.foldr
    (fun
      | (.scalar _, _), later => later
      | (.element name index, value), later => consElement name index value later)
    []

end StoreOf

end NumericScript
