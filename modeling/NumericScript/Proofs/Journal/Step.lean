import Mathlib.Logic.Relation
import NumericScript.Proofs.Journal.Key
import NumericScript.Proofs.Running.Evaluation
import NumericScript.Proofs.Running.Reach

/-!
# Steps of an environment

Whatever is done with an environment comes down to three steps: it writes to an address with an
accepted name, it refuses a name, or it misses an address that is not set. A run goes in such steps
as well, whether it finishes or fails.
-/

namespace NumericScript

variable {α : Type}

/-- An address without a value is not in the store. -/
theorem StoreOf.not_mem_of_getElem? {store : StoreOf α} {address : Address}
    (h : store[address]? = none) : address ∉ store := by
  rw [Std.ExtTreeMap.mem_iff_isSome_getElem?, h]
  exact Bool.false_ne_true

namespace EnvironmentOf

/-- What an environment does at once, with one report. -/
inductive Step (env : EnvironmentOf α) : EnvironmentOf α → Prop
  | write (address : Address) (value : α) (h : address.Accepted) :
    Step env (env.write address value)
  | refuse (name : String) (reason : NameViolation) : Step env (env.report (.invalid name reason))
  | miss (address : Address) (h : address.Readable) (habsent : address ∉ env.store) :
    Step env (env.report (.undefined address.key))

/-- One step after the other. -/
abbrev Steps : EnvironmentOf α → EnvironmentOf α → Prop := Relation.ReflTransGen Step

private theorem Step.steps {env env' : EnvironmentOf α} (h : Step env env') :
    Steps env env' := .single h

/-- Setting a name is a step. -/
theorem steps_set (env : EnvironmentOf α) (name : String) (value : α) (asElement : Bool) :
    Steps env (env.set name value asElement).2 := by
  unfold set
  split
  · exact (Step.refuse name _).steps
  · rename_i haccepted
    cases asElement with
    | false => exact (Step.write (.scalar name) value haccepted).steps
    | true =>
      rw [if_pos rfl]
      cases hkey : Address.ofKey name with
      | scalar => exact (Step.refuse name .pattern).steps
      | element array index =>
        have hwrite := Address.accepted_of_key haccepted hkey
        exact (Step.write (.element array index) value hwrite).steps

/-- Setting an element is a step. -/
theorem steps_setElement (env : EnvironmentOf α) (name : String) (index : UInt64) (value : α) :
    Steps env (env.setElement name index value).2 := by
  unfold setElement
  split
  · exact (Step.refuse _ _).steps
  · rename_i haccepted
    exact (Step.write (.element name index) value haccepted).steps

/-- Loading values from an index on is a number of steps. -/
theorem steps_loadArrayFrom (name : String) (index : UInt64) (values : List α)
    (env : EnvironmentOf α) : Steps env (loadArrayFrom name index values env) := by
  induction values generalizing index env with
  | nil => exact .refl
  | cons value values ih => exact (env.steps_setElement name index value).trans (ih _ _)

/-- Reading an address that can be read is a step. -/
theorem steps_read [Zero α] (env : EnvironmentOf α) {address : Address} (h : address.Readable) :
    Steps env (env.read address).2 := by
  unfold read
  split
  · exact .refl
  · rename_i hnone
    exact (Step.miss address h (StoreOf.not_mem_of_getElem? hnone)).steps

end EnvironmentOf

/-- The first environment is come to in steps from an empty one. -/
theorem Environment.steps_fresh : EnvironmentOf.Steps ⟨∅, #[]⟩ fresh :=
  (EnvironmentOf.steps_set _ _ _ _).trans (EnvironmentOf.steps_set _ _ _ _)

namespace Reading

/-- The names that a reading misses are the keys of addresses that are not set. -/
def Misses (store : Store) (reading : Reading α) : Prop :=
  ∀ name ∈ reading.missing, ∃ address : Address,
    address.Readable ∧ address ∉ store ∧ address.key = name

section

variable {β : Type} {store : Store}

private theorem misses_pure (a : α) : Misses store (pure a : Reading α) := fun _ hm => nomatch hm

private theorem Misses.bind {reading : Reading α} {next : α → Reading β} (h : reading.Misses store)
    (hnext : ∀ a, (next a).Misses store) : (reading >>= next).Misses store := by
  show (reading.andThen next).Misses store
  unfold andThen
  split
  · exact h
  · intro name hm
    rcases List.mem_append.mp hm with hm | hm
    · exact h name hm
    · exact hnext _ name hm

private theorem misses_look {address : Address} (h : address.Readable) :
    (look store address).Misses store := by
  unfold look
  split
  · exact fun _ hm => nomatch hm
  · rename_i hnone
    intro name hm
    obtain rfl := List.mem_singleton.mp hm
    exact ⟨address, h, StoreOf.not_mem_of_getElem? hnone, rfl⟩

private theorem misses_index (span : Span) (value : Single) : (index span value).Misses store := by
  unfold index
  split <;> exact fun _ hm => nomatch hm

end

/-- Evaluation misses nothing but what is not set. -/
theorem describes_misses (store : Store) : Describes store (Misses store) where
  pure := misses_pure
  bind h hnext := h.bind hnext
  scalar name := misses_look (Address.readable_ofKey name)
  element _ _ := misses_look trivial
  index := misses_index

end Reading

/-- The names that an expression misses are not set. -/
theorem Expr.misses_eval (store : Store) (e : Expr) : (e.eval store).Misses store :=
  (Reading.describes_misses store).eval e

private theorem Expr.misses_evalIndex (store : Store) (index : Expr) :
    (index.evalIndex store).Misses store :=
  (Reading.describes_misses store).evalIndex index

/-- The names that a condition misses are not set. -/
theorem Cond.misses_eval (store : Store) (c : Cond) : (c.eval store).Misses store :=
  (Reading.describes_misses store).decide c

/-- To report what is missing leaves the store alone, so that it stays missing. -/
theorem EnvironmentOf.steps_reportMissing {names : List String} {env : EnvironmentOf α}
    (h : ∀ name ∈ names, ∃ address : Address,
      address.Readable ∧ address ∉ env.store ∧ address.key = name) :
    Steps env (env.reportMissing names) := by
  induction names generalizing env with
  | nil => exact .refl
  | cons name names ih =>
    obtain ⟨address, hreadable, habsent, rfl⟩ := h name List.mem_cons_self
    have hmiss : Step env (env.report (.undefined address.key)) := .miss address hreadable habsent
    exact .head hmiss (ih fun later hm => h later (List.mem_cons_of_mem _ hm))

/-- Observing an evaluation that misses unset names only is a number of steps. -/
theorem Environment.steps_observe {env : Environment} {eval : Store → Reading α}
    (h : (eval env.store).Misses env.store) : env.Steps (env.observe eval).2 :=
  EnvironmentOf.steps_reportMissing h

/-- A run that came from an environment in steps, if it has come to an end. -/
def Outcome.From (env : Environment) : Outcome → Prop
  | finished machine => env.Steps machine.env
  | failed _ machine => env.Steps machine.env
  | unfinished => True

private theorem Outcome.From.of_steps {env env' : Environment} {outcome : Outcome}
    (h : env.Steps env') (hfrom : outcome.From env') : outcome.From env := by
  cases outcome with
  | finished machine => exact h.trans hfrom
  | failed error machine => exact h.trans hfrom
  | unfinished => trivial

section Run

variable {limits : Limits} {rounds : Nat}

/-- To observe an environment is to go on from it in steps. -/
theorem Machine.steps_observe {machine machine' : Machine} {eval : Store → Reading α}
    {result : Except ScriptError α} (heval : ∀ store, (eval store).Misses store)
    (h : machine.observe eval = (result, machine')) : machine.env.Steps machine'.env := by
  have hsteps := Environment.steps_observe (heval machine.env.store)
  obtain ⟨rfl, rfl⟩ := Prod.mk.inj h
  exact hsteps

private theorem Machine.from_assign (machine : Machine) (target : Target) (value : Expr) :
    (machine.assign target value).From machine.env := by
  unfold assign
  split
  · rename_i error after hvalue
    exact steps_observe (fun store => value.misses_eval store) hvalue
  · rename_i written after hvalue
    have hsteps := steps_observe (fun store => value.misses_eval store) hvalue
    cases target with
    | scalar name => exact hsteps.trans (EnvironmentOf.steps_set ..)
    | element name index =>
      dsimp only
      split
      · rename_i error last hindex
        exact hsteps.trans (steps_observe (fun store => index.misses_evalIndex store) hindex)
      · rename_i position last hindex
        have hlast := steps_observe (fun store => index.misses_evalIndex store) hindex
        exact (hsteps.trans hlast).trans (EnvironmentOf.steps_setElement ..)

/-- A run goes in steps in all that it does. -/
theorem describes_steps (limits : Limits) :
    Describes limits fun machine outcome => outcome.From machine.env where
  unfinished _ := trivial
  finished _ := .refl
  trans h hlater := hlater.of_steps h
  decide machine condition := by
    unfold Machine.branch
    split
    all_goals
      rename_i after hcondition
      exact Machine.steps_observe (fun store => condition.misses_eval store) hcondition
  assign := Machine.from_assign
  start machine span := by
    unfold Machine.enter
    split
    all_goals
      rename_i after hstart
      obtain ⟨_, rfl⟩ := Prod.mk.inj hstart
      exact .refl

/-- Statements go on in steps, also those that fail. -/
theorem from_execAll (stmts : List Stmt) (machine : Machine) :
    (execAll limits rounds stmts machine).From machine.env :=
  (describes_steps limits).execAll stmts machine

end Run

end NumericScript
