import NumericScript.Store.Basic
import NumericScript.Store.Diagnostic

/-!
# Environments

A store together with the journal of what it reported. Every write is in the journal, as are refused
names and reads of what is not set, which count as zero. That is all that the values have to have: a
zero to read where nothing is set.
-/

namespace NumericScript

/-- A store and its reports, the earliest first. -/
structure EnvironmentOf (α : Type) where
  store : StoreOf α
  journal : Array (DiagnosticOf α)

/-- A store of numbers and its reports. -/
abbrev Environment := EnvironmentOf Single

namespace EnvironmentOf

variable {α : Type}

/-- Add a report. -/
def report (env : EnvironmentOf α) (diagnostic : DiagnosticOf α) : EnvironmentOf α :=
  { env with journal := env.journal.push diagnostic }

/-- Write to an address. -/
def write (env : EnvironmentOf α) (address : Address) (value : α) : EnvironmentOf α :=
  let diagnostic :=
    if env.store.contains address then DiagnosticOf.updated address value
    else DiagnosticOf.created address value
  ⟨env.store.insert address value, env.journal.push diagnostic⟩

/-- Read an address; what is not set is zero and reported by its key. -/
def read [Zero α] (env : EnvironmentOf α) (address : Address) : α × EnvironmentOf α :=
  match env.store[address]? with
  | some value => (value, env)
  | none => (0, env.report (.undefined address.key))

/--
 Write under a scalar's name or, for an element, under a key. Gives whether the name is accepted;
a key that matches the pattern but does not split into a name and an index is refused as well.
-/
def set (env : EnvironmentOf α) (name : String) (value : α) (asElement : Bool) :
    Bool × EnvironmentOf α :=
  match violation? asElement name with
  | some reason => (false, env.report (.invalid name reason))
  | none =>
    if asElement then
      match Address.ofKey name with
      | .element array index => (true, env.write (.element array index) value)
      | .scalar _ => (false, env.report (.invalid name .pattern))
    else
      (true, env.write (.scalar name) value)

/-- Read a scalar's name or a key. -/
def get [Zero α] (env : EnvironmentOf α) (name : String) : α × EnvironmentOf α :=
  env.read (.ofKey name)

/-- Whether a scalar's name or a key is set. -/
def contains (env : EnvironmentOf α) (name : String) : Bool := env.store.contains (.ofKey name)

/-- Write an element. Gives whether the array's name is accepted. -/
def setElement (env : EnvironmentOf α) (name : String) (index : UInt64) (value : α) :
    Bool × EnvironmentOf α :=
  match violation? false name with
  | some reason => (false, env.report (.invalid (Address.element name index).key reason))
  | none => (true, env.write (.element name index) value)

/-- Read an element. -/
def getElement [Zero α] (env : EnvironmentOf α) (name : String) (index : UInt64) :
    α × EnvironmentOf α :=
  env.read (.element name index)

/-- Write elements one after the other, from an index on. -/
def loadArrayFrom (name : String) : UInt64 → List α → EnvironmentOf α → EnvironmentOf α
  | _, [], env => env
  | index, value :: values, env =>
    loadArrayFrom name (index + 1) values (env.setElement name index value).2

/-- Write the elements of an array from the first on. -/
def loadArray (env : EnvironmentOf α) (name : String) (values : List α) : EnvironmentOf α :=
  loadArrayFrom name 0 values env

end EnvironmentOf

/-- A new environment has the constants set, which its journal shows. -/
def Environment.fresh : Environment :=
  constants.foldl (fun env constant => (env.set constant.1 constant.2 false).2) ⟨∅, #[]⟩

end NumericScript
