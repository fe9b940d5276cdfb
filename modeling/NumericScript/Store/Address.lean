import Std.Data.ExtTreeMap
import NumericScript.Store.Name
import NumericScript.Word

/-!
# Addresses

A number is stored under a scalar's name or under an array's name and an index. An element is
written as one word, its key: the array's name, a delimiter and the index in decimal. Scalars come
before elements, names are in the order of their characters, and indices ascend.
-/

namespace NumericScript

/-- A place in the store. -/
inductive Address
  | scalar (name : String)
  | element (array : String) (index : UInt64)
  deriving DecidableEq

namespace Address

/-- Whether an address belongs to an array. -/
def isElement : Address → Bool
  | scalar _ => false
  | element .. => true

/-- The name of the scalar or of the array. -/
def name : Address → String
  | scalar name => name
  | element array _ => array

/-- The index of an element; a scalar counts as the first. -/
def index : Address → UInt64
  | scalar _ => 0
  | element _ index => index

instance : Ord Address :=
  ⟨compareLex (compareOn isElement) (compareLex (compareOn name) (compareOn index))⟩

instance : Std.TransOrd Address :=
  inferInstanceAs (Std.TransCmp
    (compareLex (compareOn isElement) (compareLex (compareOn name) (compareOn index))))

/-- Addresses are compared by their sort, then by name, then by index. -/
theorem compare_eq (a b : Address) :
    compare a b = (compare a.isElement b.isElement).then
      ((compare a.name b.name).then (compare a.index b.index)) :=
  rfl

instance : Std.LawfulEqOrd Address where
  eq_of_compare {a b} h := by
    rw [compare_eq, Ordering.then_eq_eq, Ordering.then_eq_eq] at h
    obtain ⟨hkind, hname, hindex⟩ := h
    have hkind := Std.LawfulEqOrd.eq_of_compare hkind
    have hname := Std.LawfulEqOrd.eq_of_compare hname
    have hindex := Std.LawfulEqOrd.eq_of_compare hindex
    cases a <;> cases b <;> simp_all [isElement, name, index]

/-- The word for an address. -/
def key : Address → String
  | scalar name => name
  | element array index =>
    String.ofList (array.toList ++ keyDelimiter :: Nat.toDigits 10 index.toNat)

/-- The parts of a text around its last delimiter. -/
def splitKey? (key : List Char) : Option (List Char × List Char) :=
  match key with
  | [] => none
  | c :: rest =>
    match splitKey? rest with
    | some (array, index) => some (c :: array, index)
    | none => if c = keyDelimiter then some ([], rest) else none

/-- The address that a word stands for: an element if the word reads as a key, else a scalar. -/
def ofKey (key : String) : Address :=
  match splitKey? key.toList with
  | none => .scalar key
  | some (array, index) =>
    match readWord? index with
    | some index => if isScalarName array then .element (String.ofList array) index else .scalar key
    | none => .scalar key

end Address

end NumericScript
