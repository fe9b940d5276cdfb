import NumericScript.Grammar.Program
import NumericScript.Run.Limits
import NumericScript.Run.Reading
import NumericScript.Store.Environment
import NumericScript.Tree.Stmt

/-!
# Runs

Statements change a machine: an environment and, for every loop body that was started, the length
of the journal at that moment. A run finishes, or it fails at some place; the machine is kept
either way. Since a loop may go on forever, every execution of a loop is given the number of
rounds after which it is left unfinished.
-/

namespace NumericScript

/-- The state of a run. -/
structure Machine where
  env : Environment
  /-- The length of the journal at the start of each loop body, in order. -/
  starts : Array Nat

/-- How a run ends. -/
inductive Outcome
  | finished (machine : Machine)
  | failed (error : ScriptError) (machine : Machine)
  | unfinished

/-- Report names that were read without being set. -/
def EnvironmentOf.reportMissing {α : Type} (env : EnvironmentOf α) (names : List String) :
    EnvironmentOf α :=
  names.foldl (fun env name => env.report (.undefined name)) env

/-- Evaluate in an environment, whose journal gets the names that are not set. -/
def Environment.observe {α : Type} (env : Environment) (eval : Store → Reading α) :
    Except ScriptError α × Environment :=
  let reading := eval env.store
  (reading.result, env.reportMissing reading.missing)

namespace Machine

/-- Evaluate in the environment of a machine. -/
def observe {α : Type} (machine : Machine) (eval : Store → Reading α) :
    Except ScriptError α × Machine :=
  let (result, env) := machine.env.observe eval
  (result, { machine with env })

/-- Count the start of a loop body and give the limit that it exceeds. -/
def startBody (machine : Machine) (limits : Limits) : Option Cause × Machine :=
  let starts := machine.starts.push machine.env.journal.size
  (limits.exceeded? starts.size, { machine with starts })

/-- Assign. The value is evaluated before the index; a refused name only leaves a report. -/
def assign (machine : Machine) (target : Target) (value : Expr) : Outcome :=
  match machine.observe fun store => value.eval store with
  | (.error error, machine) => .failed error machine
  | (.ok value, machine) =>
    match target with
    | .scalar name _ => .finished { machine with env := (machine.env.set name value false).2 }
    | .element name index _ =>
      match machine.observe index.evalIndex with
      | (.error error, machine) => .failed error machine
      | (.ok position, machine) =>
        .finished { machine with env := (machine.env.setElement name position value).2 }

end Machine

/-- Go on with a finished run. -/
@[inline]
def Outcome.andThen (outcome : Outcome) (next : Machine → Outcome) : Outcome :=
  match outcome with
  | finished machine => next machine
  | failed error machine => failed error machine
  | unfinished => unfinished

/-- Execute a body as long as a condition holds, for less than a number of rounds. -/
def repeatWhile (limits : Limits) (condition : Cond) (body : Machine → Outcome) :
    Nat → Machine → Outcome
  | 0, _ => .unfinished
  | rounds + 1, machine =>
    match machine.observe fun store => condition.eval store with
    | (.error error, machine) => .failed error machine
    | (.ok false, machine) => .finished machine
    | (.ok true, machine) =>
      match machine.startBody limits with
      | (some cause, machine) => .failed ⟨condition.span, cause⟩ machine
      | (none, machine) =>
        match body machine with
        | .finished machine => repeatWhile limits condition body rounds machine
        | .failed error machine => .failed error machine
        | .unfinished => .unfinished

mutual

/-- Execute a statement. -/
def Stmt.exec (limits : Limits) (rounds : Nat) : Stmt → Machine → Outcome
  | .assign target value _, machine => machine.assign target value
  | .block body _, machine => execAll limits rounds body machine
  | .branch condition body otherwise _, machine =>
    match machine.observe fun store => condition.eval store with
    | (.error error, machine) => .failed error machine
    | (.ok true, machine) => execAll limits rounds body machine
    | (.ok false, machine) => otherwise.exec limits rounds machine
  | .loop condition body _, machine =>
    repeatWhile limits condition (fun machine => execAll limits rounds body machine) rounds machine

/-- Execute what a branch does otherwise. -/
def Chain.exec (limits : Limits) (rounds : Nat) : Chain → Machine → Outcome
  | .done, machine => .finished machine
  | .block body, machine => execAll limits rounds body machine
  | .branch condition body otherwise, machine =>
    match machine.observe fun store => condition.eval store with
    | (.error error, machine) => .failed error machine
    | (.ok true, machine) => execAll limits rounds body machine
    | (.ok false, machine) => otherwise.exec limits rounds machine

/-- Execute statements one after the other. -/
def execAll (limits : Limits) (rounds : Nat) : List Stmt → Machine → Outcome
  | [], machine => .finished machine
  | stmt :: later, machine =>
    (stmt.exec limits rounds machine).andThen fun machine => execAll limits rounds later machine

end

/-- Run a program in an environment, no loop body having been started. -/
def runProgram (limits : Limits) (rounds : Nat) (program : List Stmt) (env : Environment) :
    Outcome :=
  execAll limits rounds program ⟨env, #[]⟩

/-- Read a script and run it in a fresh environment; an error is one of reading it. -/
def runScript (limits : Limits) (rounds : Nat) (source : String) : Except ScriptError Outcome :=
  match parseProgram source with
  | .error error => .error error
  | .ok program => .ok (runProgram limits rounds program .fresh)

/-- Evaluate a text that is one expression. -/
def Environment.evaluate (env : Environment) (source : String) :
    Except ScriptError Single × Environment :=
  match parseExpression source with
  | .error error => (.error error, env)
  | .ok expr => env.observe fun store => expr.eval store

/-- Evaluate a text that is one condition. -/
def Environment.evaluateCondition (env : Environment) (source : String) :
    Except ScriptError Bool × Environment :=
  match parseCondition source with
  | .error error => (.error error, env)
  | .ok cond => env.observe fun store => cond.eval store

end NumericScript
