import NumericScript.Run.Reading

/-!
# What evaluation does

Evaluation looks at addresses and takes numbers for indices, and does nothing else with a store. So
what is true of how each of these ends, and stays true in sequence, is true of every evaluation.
-/

namespace NumericScript

namespace Reading

/-- What is true of all that evaluation does at once, and stays true in sequence. -/
structure Describes (store : Store) (P : ∀ {α : Type}, Reading α → Prop) : Prop where
  pure : ∀ {α : Type} (a : α), P (Pure.pure a : Reading α)
  bind : ∀ {α β : Type} {reading : Reading α} {next : α → Reading β}, P reading →
    (∀ a, P (next a)) → P (reading >>= next)
  scalar : ∀ name : String, P (look store (.ofKey name))
  element : ∀ (name : String) (index : UInt64), P (look store (.element name index))
  index : ∀ (span : Span) (value : Single), P (index span value)

namespace Describes

variable {store : Store} {P : ∀ {α : Type}, Reading α → Prop} (h : Describes store P)

include h

/-- It is true of evaluating every expression. -/
theorem eval (e : Expr) : P (e.eval store) := by
  induction e with
  | number value => exact h.pure value
  | scalar name => exact h.scalar name
  | element name index span ih =>
    exact h.bind ih fun value => h.bind (h.index _ value) fun position => h.element name position
  | binary op left right span ihl ihr => exact h.bind ihl fun _ => h.bind ihr fun _ => h.pure _
  | negate operand span ih => exact h.bind ih fun _ => h.pure _
  | call f argument span ih => exact h.bind ih fun _ => h.pure _
  | group inner span ih => exact ih

/-- It is true of evaluating every index. -/
theorem evalIndex (index : Expr) : P (index.evalIndex store) :=
  h.bind (h.eval index) fun value => h.index _ value

/-- It is true of deciding every condition. -/
theorem decide (c : Cond) : P (c.eval store) := by
  induction c with
  | compare op left right =>
    exact h.bind (h.eval left) fun _ => h.bind (h.eval right) fun _ => h.pure _
  | logical op left right span ihl ihr => exact h.bind ihl fun _ => h.bind ihr fun _ => h.pure _

end Describes

end Reading

end NumericScript
