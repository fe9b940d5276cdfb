import NumericScript.Error
import NumericScript.Store.Basic
import NumericScript.Tree.Expr

/-!
# Evaluation

Evaluating an expression or a condition only reads the store. A reading is what came of it and the
names, in order, that were read without being set. Both sides of every operator are evaluated, the
left one first, those of `&&` and `||` as well.
-/

namespace NumericScript

/-- The names that were read but are not set, in order, and the value or the error. -/
structure Reading (α : Type) where
  missing : List String
  result : Except ScriptError α

namespace Reading

/-- Evaluate what depends on a value after that value; an error ends the evaluation. -/
def andThen {α β : Type} (reading : Reading α) (next : α → Reading β) : Reading β :=
  match reading.result with
  | .error error => ⟨reading.missing, .error error⟩
  | .ok a =>
    let later := next a
    ⟨reading.missing ++ later.missing, later.result⟩

instance : Monad Reading where
  pure a := ⟨[], .ok a⟩
  bind := andThen

/-- The number at an address; what is not set counts as zero. -/
def look (store : Store) (address : Address) : Reading Single :=
  match store[address]? with
  | some value => ⟨[], .ok value⟩
  | none => ⟨[address.key], .ok .zero⟩

end Reading

/--
The index that a number stands for: its whole part, if that is finite and not negative. What is too
large for an index stands for the largest one.
-/
def Single.toIndex? : Single → Option UInt64
  | .finite negative units _ =>
    let whole := units / unitsPerOne
    if negative && whole != 0 then none else some (UInt64.ofNat (min whole (2 ^ 64 - 1)))
  | _ => none

/-- The index that a value read at a place stands for. -/
def Reading.index (span : Span) (value : Single) : Reading UInt64 :=
  match value.toIndex? with
  | some index => ⟨[], .ok index⟩
  | none => ⟨[], .error ⟨span, .invalidIndex value⟩⟩

/-- Evaluate an expression. -/
def Expr.eval (store : Store) : Expr → Reading Single
  | number value _ => pure value
  | scalar name _ => .look store (.ofKey name)
  | element name index _ => do
    let value ← index.eval store
    let position ← Reading.index index.span value
    .look store (.element name position)
  | binary op left right _ => do
    let x ← left.eval store
    let y ← right.eval store
    pure (op.apply x y)
  | negate operand _ => do
    let x ← operand.eval store
    pure x.neg
  | call builtin argument _ => do
    let x ← argument.eval store
    pure (builtin.apply x)
  | group inner _ => inner.eval store

/-- Evaluate an index expression. -/
def Expr.evalIndex (store : Store) (index : Expr) : Reading UInt64 := do
  let value ← index.eval store
  Reading.index index.span value

/-- Evaluate a condition. -/
def Cond.eval (store : Store) : Cond → Reading Bool
  | compare op left right _ => do
    let x ← left.eval store
    let y ← right.eval store
    pure (op.holds x y)
  | logical op left right _ => do
    let p ← left.eval store
    let q ← right.eval store
    pure (op.combine p q)

end NumericScript
