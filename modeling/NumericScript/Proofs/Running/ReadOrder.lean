import Mathlib.Data.List.Forall2
import NumericScript.Proofs.Running.Evaluation
import NumericScript.Run.Basic

/-!
# What evaluation reads, in order

Evaluation goes through the places of a tree where the store is read, from left to right, and
reports those at which nothing is set. It skips none of them, on neither side of `&&` and `||`, and
it stops at an index only: at the first one that no element can have.
-/

namespace NumericScript

/-- A place in a tree where the store is read. -/
inductive Site
  | scalar (name : String)
  | element (name : String) (index : Expr)

/-- The places where an expression reads, from left to right. An element is read after its index. -/
def Expr.sites : Expr → List Site
  | number .. => []
  | scalar name _ => [.scalar name]
  | element name index _ => index.sites ++ [.element name index]
  | binary _ left right _ => left.sites ++ right.sites
  | negate operand _ => operand.sites
  | call _ argument _ => argument.sites
  | group inner _ => inner.sites

/-- The places where a condition reads, from left to right. -/
def Cond.sites : Cond → List Site
  | compare _ left right _ => left.sites ++ right.sites
  | logical _ left right _ => left.sites ++ right.sites

/-- The value of an expression, if there is an element for every index; what is not set is zero. -/
def Expr.value? (store : Store) : Expr → Option Single
  | number value _ => some value
  | scalar name _ => some (store[Address.ofKey name]?.getD .zero)
  | element name index _ =>
    ((index.value? store).bind Single.toIndex?).map fun position =>
      store[Address.element name position]?.getD .zero
  | binary op left right _ =>
    (left.value? store).bind fun x => (right.value? store).map (op.apply x)
  | negate operand _ => (operand.value? store).map Single.neg
  | call builtin argument _ => (argument.value? store).map builtin.apply
  | group inner _ => inner.value? store

/-- Whether a condition holds, if its expressions have values. -/
def Cond.truth? (store : Store) : Cond → Option Bool
  | compare op left right _ =>
    (left.value? store).bind fun x => (right.value? store).map (op.holds x)
  | logical op left right _ =>
    (left.truth? store).bind fun p => (right.truth? store).map (op.combine p)

/-- The address that is read at a place, unless it is an element whose index has none. -/
def Site.address? (store : Store) : Site → Option Address
  | scalar name => some (.ofKey name)
  | element name index => ((index.value? store).bind Single.toIndex?).map (.element name)

/-- The keys of those of some addresses that are not set, in order. -/
def Store.unset (store : Store) (addresses : List Address) : List String :=
  (addresses.filter (!store.contains ·)).map Address.key

/--
A reading goes through some places in order. It reaches the last one and has a value, or it ends at
the first place whose index no element can have; it misses what is not set on the way.
-/
inductive Reading.Through {α : Type} (store : Store) : List Site → Option α → Reading α → Prop
  | all {sites : List Site} {addresses : List Address}
    (h : List.Forall₂ (fun site address => site.address? store = some address) sites addresses)
    (a : α) : Through store sites (some a) ⟨store.unset addresses, .ok a⟩
  | upTo {before : List Site} {addresses : List Address}
    (h : List.Forall₂ (fun site address => site.address? store = some address) before addresses)
    {index : Expr} {value : Single} (hvalue : index.value? store = some value)
    (hindex : value.toIndex? = none) (name : String) (after : List Site) :
    Through store (before ++ .element name index :: after) none
      ⟨store.unset addresses, .error ⟨index.span, .invalidIndex value⟩⟩

namespace Reading.Through

variable {α β : Type} {store : Store} {sites more : List Site} {value? : Option α}
  {reading : Reading α}

private theorem unset_append (addresses later : List Address) :
    store.unset (addresses ++ later) = store.unset addresses ++ store.unset later := by
  rw [Store.unset, List.filter_append, List.map_append]
  rfl

private theorem pure (a : α) : Through store [] (some a) (Pure.pure a) := .all .nil a

/-- A reading after another one goes on with the places that come after those of the other. -/
theorem bind (h : Through store sites value? reading) {next : α → Reading β}
    {nextValue? : α → Option β}
    (hnext : ∀ a, value? = some a → Through store more (nextValue? a) (next a)) :
    Through store (sites ++ more) (value?.bind nextValue?) (reading >>= next) := by
  cases h with
  | upTo h hvalue hindex name after =>
    rw [List.append_assoc, List.cons_append]
    exact .upTo h hvalue hindex name _
  | @all sites addresses h a =>
    have hlater := hnext a rfl
    change Through store _ (nextValue? a)
      ⟨store.unset addresses ++ (next a).missing, (next a).result⟩
    generalize nextValue? a = later? at hlater
    generalize next a = later at hlater
    cases hlater with
    | all hlater b =>
      rw [← unset_append]
      exact .all (List.rel_append h hlater) b
    | @upTo before last hlater index value hvalue hindex name after =>
      rw [← unset_append, ← List.append_assoc]
      exact .upTo (List.rel_append h hlater) hvalue hindex name after

private theorem map (h : Through store sites value? reading) (f : α → β) :
    Through store sites (value?.map f) (reading >>= fun a => Pure.pure (f a)) := by
  have hnext : ∀ a, value? = some a → Through store [] (some (f a)) (Pure.pure (f a)) :=
    fun a _ => pure (f a)
  have hbind := h.bind hnext
  rw [List.append_nil] at hbind
  rw [Option.map_eq_bind]
  exact hbind

/-- One place is read, and it is missed if nothing is set at its address. -/
theorem look (site : Site) {address : Address} (h : site.address? store = some address) :
    Through store [site] (some (store[address]?.getD .zero)) (Reading.look store address) := by
  have hall := Through.all (.cons h .nil) (store[address]?.getD .zero)
  rw [Store.unset, List.filter_singleton, Std.ExtTreeMap.contains_eq_isSome_getElem?] at hall
  rw [Reading.look]
  cases hvalue : store[address]? with
  | some value =>
    rw [hvalue] at hall
    exact hall
  | none =>
    rw [hvalue] at hall
    exact hall

/-- An index that has a value is taken, or the reading ends at its element. -/
theorem index {index : Expr} {value : Single} (hvalue : index.value? store = some value)
    (name : String) :
    Through store [.element name index]
      (value.toIndex?.map fun position => store[Address.element name position]?.getD .zero)
      (Reading.index index.span value >>= fun position =>
        Reading.look store (.element name position)) := by
  rw [Reading.index]
  cases hindex : value.toIndex? with
  | none => exact .upTo .nil hvalue hindex name []
  | some position =>
    have haddress : (Site.element name index).address? store = some (.element name position) := by
      rw [Site.address?, hvalue, Option.bind_some, hindex, Option.map_some]
    exact look _ haddress

end Reading.Through

/-- An expression is evaluated from left to right, and its value is the one that it should have. -/
theorem Expr.through_eval (store : Store) (e : Expr) :
    Reading.Through store e.sites (e.value? store) (e.eval store) := by
  induction e with
  | number value => exact .pure value
  | scalar name => exact .look _ rfl
  | element name index span ih =>
    have hbind := ih.bind fun value hvalue => Reading.Through.index hvalue name
    rw [Expr.value?, Option.map_bind]
    exact hbind
  | binary op left right span ihl ihr => exact ihl.bind fun x _ => ihr.map (op.apply x)
  | negate operand span ih => exact ih.map Single.neg
  | call builtin argument span ih => exact ih.map builtin.apply
  | group inner span ih => exact ih

/-- A condition is evaluated from left to right, on both sides of its operators. -/
theorem Cond.through_eval (store : Store) (c : Cond) :
    Reading.Through store c.sites (c.truth? store) (c.eval store) := by
  induction c with
  | compare op left right =>
    exact (left.through_eval store).bind fun x _ => (right.through_eval store).map (op.holds x)
  | logical op left right span ihl ihr => exact ihl.bind fun p _ => ihr.map (op.combine p)

namespace EnvironmentOf

variable {α : Type}

/-- An environment after names were read that are not set. -/
def told (env : EnvironmentOf α) (names : List String) : EnvironmentOf α :=
  ⟨env.store, env.journal ++ (names.map DiagnosticOf.undefined).toArray⟩

/-- Reporting missing names leaves the environment that was told of them. -/
theorem reportMissing_eq (env : EnvironmentOf α) (names : List String) :
    env.reportMissing names = env.told names := by
  induction names generalizing env with
  | nil => simp [reportMissing, told]
  | cons name names ih =>
    refine (ih (env.report (.undefined name))).trans ?_
    simp [told, report]

end EnvironmentOf

namespace Environment

/--
Evaluation only reads, and it reads everything in order. An expression or a condition is evaluated
by a reading that goes through its places from left to right, on both sides of every operator, up to
the last one or up to the first index that no element can have. What comes of it is the value or the
error of that reading. The store is left as it is, and the journal has one more report for each name
that was read and is not set, in order.
-/
theorem observe_in_order (env : Environment) :
    (∀ e : Expr, ∃ reading : Reading Single,
      reading.Through env.store e.sites (e.value? env.store) ∧
        env.observe (fun store => e.eval store) = (reading.result, env.told reading.missing)) ∧
    ∀ c : Cond, ∃ reading : Reading Bool,
      reading.Through env.store c.sites (c.truth? env.store) ∧
        env.observe (fun store => c.eval store) = (reading.result, env.told reading.missing) := by
  refine ⟨fun e => ⟨_, e.through_eval env.store, ?_⟩, fun c => ⟨_, c.through_eval env.store, ?_⟩⟩
  · rw [observe, EnvironmentOf.reportMissing_eq]
  · rw [observe, EnvironmentOf.reportMissing_eq]

/-- Two comparisons, the first of which does not hold, joined by `&&`. -/
def decidedEarly : Cond :=
  .logical .and (.compare .less (.number .one default) (.number .one default) default)
    (.compare .less (.scalar "x" default) (.element "A" (.scalar "i" default) default) default)
    default

/-- What the second one reads is reported nevertheless. -/
example : (fresh.observe fun store => decidedEarly.eval store).2.journal.toList.map
    DiagnosticOf.name = ["pi", "e", "x", "i", "A$0"] := by
  decide +kernel

end Environment

end NumericScript
