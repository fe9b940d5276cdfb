import NumericScript.Proofs.Glyph.Tree
import NumericScript.Run.Basic

/-!
# What runs do

A run decides on conditions, assigns and starts loop bodies, and does nothing else with its machine.
So what is true of how each of these ends is true of how a run ends, whether it finishes or fails.
It is enough to know it of the assignments and the conditions of the program.
-/

namespace NumericScript

namespace Machine

/-- Go on as a condition says. -/
def branch (machine : Machine) (condition : Cond) (yes no : Machine → Outcome) : Outcome :=
  match machine.observe fun store => condition.eval store with
  | (.error error, machine) => .failed error machine
  | (.ok true, machine) => yes machine
  | (.ok false, machine) => no machine

/-- Go on with a loop body unless that exceeds a limit; the loop's condition is at fault then. -/
def enter (machine : Machine) (limits : Limits) (span : Span) (body : Machine → Outcome) :
    Outcome :=
  match machine.startBody limits with
  | (some cause, machine) => .failed ⟨span, cause⟩ machine
  | (none, machine) => body machine

end Machine

section Equations

variable {limits : Limits} {rounds : Nat} {condition : Cond} {machine : Machine}

/-- A round of a loop decides on the condition, starts a body and goes on with the loop. -/
theorem repeatWhile_succ (body : Machine → Outcome) :
    repeatWhile limits condition body (rounds + 1) machine =
      machine.branch condition
        (fun machine => machine.enter limits condition.span fun machine =>
          (body machine).andThen (repeatWhile limits condition body rounds))
        .finished := by
  rw [repeatWhile, Machine.branch]
  rcases machine.observe fun store => condition.eval store with ⟨error | holds, after⟩
  · rfl
  · cases holds with
    | false => rfl
    | true =>
      dsimp only
      rw [Machine.enter]
      rcases after.startBody limits with ⟨none | cause, started⟩ <;> rfl

/-- A conditional is executed by its condition, its body and what stands otherwise. -/
theorem Stmt.exec_branch (body : List Stmt) (otherwise : Chain) (span : Span) :
    (Stmt.branch condition body otherwise span).exec limits rounds machine =
      machine.branch condition (execAll limits rounds body) (otherwise.exec limits rounds) := by
  rw [Stmt.exec]
  rfl

/-- A further branch is executed as a conditional is. -/
theorem Chain.exec_branch (body : List Stmt) (otherwise : Chain) :
    (Chain.branch condition body otherwise).exec limits rounds machine =
      machine.branch condition (execAll limits rounds body) (otherwise.exec limits rounds) := by
  rw [Chain.exec]
  rfl

end Equations

/--
What is true of all that a run does at once if its assignments and conditions are admitted, and
stays true when one goes on with a run.
-/
structure Performs (limits : Limits) (admits : Phrase → Prop) (P : Machine → Outcome → Prop) :
    Prop where
  unfinished : ∀ machine, P machine .unfinished
  finished : ∀ machine, P machine (.finished machine)
  trans : ∀ {machine after outcome}, P machine (.finished after) → P after outcome →
    P machine outcome
  decide : ∀ (machine : Machine) {condition : Cond}, admits (.condition condition) →
    P machine (machine.branch condition .finished .finished)
  assign : ∀ (machine : Machine) {target : Target} {value : Expr},
    admits (.assignment target value) → P machine (machine.assign target value)
  start : ∀ (machine : Machine) {condition : Cond}, admits (.condition condition) →
    P machine (machine.enter limits condition.span .finished)

namespace Performs

variable {limits : Limits} {rounds : Nat} {admits : Phrase → Prop} {P : Machine → Outcome → Prop}
  (h : Performs limits admits P)

include h

private theorem andThen {machine : Machine} {outcome : Outcome} {next : Machine → Outcome}
    (houtcome : P machine outcome) (hnext : ∀ after, P after (next after)) :
    P machine (outcome.andThen next) := by
  cases outcome with
  | finished after => exact h.trans houtcome (hnext after)
  | failed error after => exact houtcome
  | unfinished => exact houtcome

private theorem branch {condition : Cond} (hcondition : admits (.condition condition))
    {yes no : Machine → Outcome} (hyes : ∀ machine, P machine (yes machine))
    (hno : ∀ machine, P machine (no machine)) (machine : Machine) :
    P machine (machine.branch condition yes no) := by
  have hdecide := h.decide machine hcondition
  unfold Machine.branch at hdecide ⊢
  generalize (machine.observe fun store => condition.eval store) = observed at hdecide ⊢
  rcases observed with ⟨error | holds, after⟩
  · exact hdecide
  · cases holds with
    | false => exact h.trans hdecide (hno after)
    | true => exact h.trans hdecide (hyes after)

private theorem enter {condition : Cond} (hcondition : admits (.condition condition))
    {body : Machine → Outcome} (hbody : ∀ machine, P machine (body machine)) (machine : Machine) :
    P machine (machine.enter limits condition.span body) := by
  have hstart := h.start machine hcondition
  unfold Machine.enter at hstart ⊢
  generalize machine.startBody limits = started at hstart ⊢
  rcases started with ⟨none | cause, after⟩
  · exact h.trans hstart (hbody after)
  · exact hstart

private theorem repeatWhile {condition : Cond} (hcondition : admits (.condition condition))
    {body : Machine → Outcome} (hbody : ∀ machine, P machine (body machine)) (rounds : Nat)
    (machine : Machine) : P machine (repeatWhile limits condition body rounds machine) := by
  induction rounds generalizing machine with
  | zero => exact h.unfinished machine
  | succ rounds ih =>
    rw [repeatWhile_succ]
    refine h.branch hcondition (h.enter hcondition fun started => ?_) h.finished machine
    exact h.andThen (hbody started) ih

mutual

private theorem exec : ∀ (s : Stmt), (∀ phrase ∈ s.phrases, admits phrase) → ∀ machine : Machine,
    P machine (s.exec limits rounds machine)
  | .assign target value _, hadmits, machine => h.assign machine (hadmits _ List.mem_cons_self)
  | .block body _, hadmits, machine => execAll body hadmits machine
  | .branch condition body otherwise _, hadmits, machine => by
    obtain ⟨hcondition, hlater⟩ := List.forall_mem_cons.mp hadmits
    obtain ⟨hbody, hotherwise⟩ := List.forall_mem_append.mp hlater
    rw [Stmt.exec_branch]
    exact h.branch hcondition (execAll body hbody) (chainExec otherwise hotherwise) machine
  | .loop condition body _, hadmits, machine => by
    obtain ⟨hcondition, hbody⟩ := List.forall_mem_cons.mp hadmits
    exact h.repeatWhile hcondition (execAll body hbody) rounds machine

private theorem chainExec : ∀ (chain : Chain), (∀ phrase ∈ chain.phrases, admits phrase) →
    ∀ machine : Machine, P machine (chain.exec limits rounds machine)
  | .done, _, machine => h.finished machine
  | .block body, hadmits, machine => execAll body hadmits machine
  | .branch condition body otherwise, hadmits, machine => by
    obtain ⟨hcondition, hlater⟩ := List.forall_mem_cons.mp hadmits
    obtain ⟨hbody, hotherwise⟩ := List.forall_mem_append.mp hlater
    rw [Chain.exec_branch]
    exact h.branch hcondition (execAll body hbody) (chainExec otherwise hotherwise) machine

/-- What is true of all that a run of a program does at once is true of the run. -/
theorem execAll : ∀ (stmts : List Stmt), (∀ phrase ∈ phrasesOf stmts, admits phrase) →
    ∀ machine : Machine, P machine (execAll limits rounds stmts machine)
  | [], _, machine => h.finished machine
  | s :: later, hadmits, machine => by
    obtain ⟨hfirst, hlater⟩ := List.forall_mem_append.mp hadmits
    exact h.andThen (exec s hfirst machine) (execAll later hlater)

end

end Performs

/-- What is true of all that a run does at once, and stays true when one goes on with a run. -/
structure Describes (limits : Limits) (P : Machine → Outcome → Prop) : Prop where
  unfinished : ∀ machine, P machine .unfinished
  finished : ∀ machine, P machine (.finished machine)
  trans : ∀ {machine after outcome}, P machine (.finished after) → P after outcome →
    P machine outcome
  decide : ∀ (machine : Machine) (condition : Cond),
    P machine (machine.branch condition .finished .finished)
  assign : ∀ (machine : Machine) (target : Target) (value : Expr),
    P machine (machine.assign target value)
  start : ∀ (machine : Machine) (span : Span), P machine (machine.enter limits span .finished)

namespace Describes

variable {limits : Limits} {rounds : Nat} {P : Machine → Outcome → Prop} (h : Describes limits P)

include h

/-- Every program may be run then. -/
theorem performs : Performs limits (fun _ => True) P where
  unfinished := h.unfinished
  finished := h.finished
  trans := h.trans
  decide machine condition _ := h.decide machine condition
  assign machine target value _ := h.assign machine target value
  start machine condition _ := h.start machine condition.span

/-- It is true of one outcome after another. -/
theorem andThen {machine : Machine} {outcome : Outcome} {next : Machine → Outcome}
    (houtcome : P machine outcome) (hnext : ∀ after, P after (next after)) :
    P machine (outcome.andThen next) :=
  h.performs.andThen houtcome hnext

/-- It is true of a loop if it is true of its body. -/
theorem repeatWhile {condition : Cond} {body : Machine → Outcome}
    (hbody : ∀ machine, P machine (body machine)) (rounds : Nat) (machine : Machine) :
    P machine (repeatWhile limits condition body rounds machine) :=
  h.performs.repeatWhile trivial hbody rounds machine

/-- What is true of all that a run does at once is true of the run. -/
theorem execAll (stmts : List Stmt) (machine : Machine) :
    P machine (execAll limits rounds stmts machine) :=
  h.performs.execAll stmts (fun _ _ => trivial) machine

end Describes

end NumericScript
