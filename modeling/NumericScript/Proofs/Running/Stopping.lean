import Mathlib.Order.Basic
import NumericScript.Proofs.Running.Limit

/-!
# Every limited run stops

Under a limit on loop bodies every run comes to its end: no loop can go on for more rounds than the
limit has bodies left, and what one loop uses up is gone for all others. On the way a condition is
evaluated once for each body that is started and once more for each execution of a loop.
-/

namespace NumericScript

/-- What a run does with its loops. -/
inductive LoopEvent
  /-- A loop is executed. -/
  | entered
  /-- The condition of a loop is evaluated. -/
  | tested
  /-- A loop body is started. -/
  | started
  deriving DecidableEq

/-- How a run ends and what it has done with its loops by then, in order. -/
structure Traced where
  outcome : Outcome
  events : List LoopEvent

namespace Traced

/-- A run that does nothing with loops. -/
def silent (outcome : Outcome) : Traced := ⟨outcome, []⟩

/-- A run after an event. -/
def after (event : LoopEvent) (run : Traced) : Traced := ⟨run.outcome, event :: run.events⟩

/-- Go on with a finished run. -/
def andThen (run : Traced) (next : Machine → Traced) : Traced :=
  match run.outcome with
  | .finished machine => ⟨(next machine).outcome, run.events ++ (next machine).events⟩
  | _ => run

/-- The event that comes first counts with the others. -/
theorem count_after (first event : LoopEvent) (run : Traced) :
    (after first run).events.count event =
      run.events.count event + if first = event then 1 else 0 := by
  rw [after, List.count_cons]
  exact congrArg _ (if_congr beq_iff_eq rfl rfl)

end Traced

section Interpreter

/-- Go on as a condition says. -/
def Machine.traceBranch (machine : Machine) (condition : Cond) (yes no : Machine → Traced) :
    Traced :=
  match machine.observe fun store => condition.eval store with
  | (.error error, machine) => .silent (.failed error machine)
  | (.ok true, machine) => yes machine
  | (.ok false, machine) => no machine

/-- Start a loop body and go on with it unless the start exceeds a limit. -/
def Machine.traceEnter (machine : Machine) (limits : Limits) (span : Span)
    (body : Machine → Traced) : Traced :=
  match machine.startBody limits with
  | (some cause, machine) => .silent (.failed ⟨span, cause⟩ machine)
  | (none, machine) => .after .started (body machine)

/-- Execute a body as long as a condition holds, for less than a number of rounds. -/
def traceWhile (limits : Limits) (condition : Cond) (body : Machine → Traced) :
    Nat → Machine → Traced
  | 0, _ => .silent .unfinished
  | rounds + 1, machine =>
    .after .tested <| machine.traceBranch condition
      (fun machine => machine.traceEnter limits condition.span fun machine =>
        (body machine).andThen (traceWhile limits condition body rounds))
      fun machine => .silent (.finished machine)

mutual

/-- Execute a statement and tell what it does with loops. -/
def Stmt.trace (limits : Limits) (rounds : Nat) : Stmt → Machine → Traced
  | .assign target value _, machine => .silent (machine.assign target value)
  | .block body _, machine => traceAll limits rounds body machine
  | .branch condition body otherwise _, machine =>
    machine.traceBranch condition (fun machine => traceAll limits rounds body machine)
      fun machine => otherwise.trace limits rounds machine
  | .loop condition body _, machine =>
    .after .entered <|
      traceWhile limits condition (fun machine => traceAll limits rounds body machine) rounds
        machine

/-- Execute what a branch does otherwise and tell what it does with loops. -/
def Chain.trace (limits : Limits) (rounds : Nat) : Chain → Machine → Traced
  | .done, machine => .silent (.finished machine)
  | .block body, machine => traceAll limits rounds body machine
  | .branch condition body otherwise, machine =>
    machine.traceBranch condition (fun machine => traceAll limits rounds body machine)
      fun machine => otherwise.trace limits rounds machine

/-- Execute statements one after the other and tell what they do with loops. -/
def traceAll (limits : Limits) (rounds : Nat) : List Stmt → Machine → Traced
  | [], machine => .silent (.finished machine)
  | stmt :: later, machine =>
    (stmt.trace limits rounds machine).andThen fun machine => traceAll limits rounds later machine

end

end Interpreter

section Projection

variable {limits : Limits} {rounds : Nat}

/-- Without its events a run goes on as the run alone. -/
theorem Traced.outcome_andThen (run : Traced) {next : Machine → Traced}
    {plain : Machine → Outcome} (h : ∀ machine, (next machine).outcome = plain machine) :
    (run.andThen next).outcome = run.outcome.andThen plain := by
  unfold andThen
  split
  · rename_i machine hfinished
    rw [hfinished]
    exact h machine
  · rename_i hother
    cases houtcome : run.outcome with
    | finished machine => exact absurd houtcome (hother machine)
    | failed error machine => rfl
    | unfinished => rfl

private theorem Machine.outcome_traceBranch (machine : Machine) (condition : Cond)
    {yes no : Machine → Traced} {plainYes plainNo : Machine → Outcome}
    (hyes : ∀ machine, (yes machine).outcome = plainYes machine)
    (hno : ∀ machine, (no machine).outcome = plainNo machine) :
    (machine.traceBranch condition yes no).outcome =
      machine.branch condition plainYes plainNo := by
  rw [traceBranch, branch]
  rcases machine.observe fun store => condition.eval store with ⟨error | holds, between⟩
  · rfl
  · cases holds with
    | false => exact hno between
    | true => exact hyes between

private theorem Machine.outcome_traceEnter (machine : Machine) (span : Span)
    {body : Machine → Traced} {plain : Machine → Outcome}
    (hbody : ∀ machine, (body machine).outcome = plain machine) :
    (machine.traceEnter limits span body).outcome = machine.enter limits span plain := by
  rw [traceEnter, enter]
  rcases machine.startBody limits with ⟨none | cause, started⟩
  · exact hbody started
  · rfl

/-- The rounds of a loop are those of the loop without its events. -/
theorem outcome_traceWhile (condition : Cond) {body : Machine → Traced}
    {plain : Machine → Outcome} (hbody : ∀ machine, (body machine).outcome = plain machine)
    (rounds : Nat) (machine : Machine) :
    (traceWhile limits condition body rounds machine).outcome =
      repeatWhile limits condition plain rounds machine := by
  induction rounds generalizing machine with
  | zero => rfl
  | succ rounds ih =>
    rw [repeatWhile_succ]
    refine machine.outcome_traceBranch condition (fun machine => ?_) fun _ => rfl
    refine machine.outcome_traceEnter condition.span fun machine => ?_
    rw [Traced.outcome_andThen _ ih, hbody]

mutual

private theorem Stmt.outcome_trace : ∀ (s : Stmt) (machine : Machine),
    (s.trace limits rounds machine).outcome = s.exec limits rounds machine
  | .assign .., _ => rfl
  | .block body _, machine => outcome_traceAll body machine
  | .branch condition body otherwise _, machine => by
    rw [Stmt.exec_branch]
    exact machine.outcome_traceBranch condition (outcome_traceAll body) otherwise.outcome_trace
  | .loop condition body _, machine =>
    outcome_traceWhile condition (outcome_traceAll body) rounds machine

private theorem Chain.outcome_trace : ∀ (chain : Chain) (machine : Machine),
    (chain.trace limits rounds machine).outcome = chain.exec limits rounds machine
  | .done, _ => rfl
  | .block body, machine => outcome_traceAll body machine
  | .branch condition body otherwise, machine => by
    rw [Chain.exec_branch]
    exact machine.outcome_traceBranch condition (outcome_traceAll body) otherwise.outcome_trace

/-- A traced run ends as the run without the trace does. -/
theorem outcome_traceAll : ∀ (stmts : List Stmt) (machine : Machine),
    (traceAll limits rounds stmts machine).outcome = execAll limits rounds stmts machine
  | [], _ => rfl
  | s :: later, machine => by
    rw [traceAll, execAll, Traced.outcome_andThen _ (outcome_traceAll later), s.outcome_trace]

end

end Projection

private theorem Machine.traceEnter_iterations (limit : Nat) (machine : Machine) (span : Span)
    (body : Machine → Traced) :
    machine.traceEnter (.iterations limit) span body =
      if limit < machine.starts.size + 1 then
        .silent (.failed ⟨span, .iterationLimit limit⟩ machine.counted)
      else .after .started (body machine.counted) := by
  unfold Machine.traceEnter Machine.startBody
  by_cases hlt : limit < machine.starts.size + 1
  · simp [Limits.exceeded?, Limits.iterations, hlt, Machine.counted]
  · simp [Limits.exceeded?, Limits.exceeded?.late?, Limits.iterations, hlt, Machine.counted]

/-- A run that comes to an end: it finishes, or it fails at its limit or at an index. -/
def Outcome.StopsAt (limit : Nat) : Outcome → Prop
  | finished _ => True
  | failed error _ =>
    error.cause = .iterationLimit limit ∨ ∃ value, error.cause = .invalidIndex value
  | unfinished => False

/--
A run from a machine that comes to an end within a limit, with the events of its loops. It may begin
inside of some loops, whose executions are not among the events. If it finishes, all loops have come
to their last evaluation of a condition.
-/
structure Halts (limit inside : Nat) (machine : Machine) (run : Traced) : Prop where
  ending : run.outcome.StopsAt limit
  within : run.outcome.bodies ≤ limit
  started : run.outcome.bodies = machine.starts.size + run.events.count .started
  tested : run.events.count .tested ≤
    run.events.count .started + run.events.count .entered + inside
  testedAll : ∀ last, run.outcome = .finished last → run.events.count .tested =
    run.events.count .started + run.events.count .entered + inside

namespace Halts

variable {limit inside : Nat} {machine last : Machine} {run : Traced}

/-- What leaves the starts of bodies alone does nothing with loops. -/
theorem finished (h : last.starts.size = machine.starts.size)
    (hle : machine.starts.size ≤ limit) : Halts limit 0 machine (.silent (.finished last)) :=
  ⟨trivial, h.trans_le hle, h, Nat.zero_le _, fun _ _ => rfl⟩

private theorem failed {error : ScriptError} (hcause : ∃ value, error.cause = .invalidIndex value)
    (h : last.starts.size = machine.starts.size) (hle : machine.starts.size ≤ limit) :
    Halts limit inside machine (.silent (.failed error last)) := by
  have hbodies : (Outcome.failed error last).bodies = machine.starts.size := by
    obtain ⟨value, hcause⟩ := hcause
    have hlimit : ¬ error.cause.isLimit = true := by simp [hcause, Cause.isLimit]
    rw [Outcome.bodies, if_neg hlimit, h]
  exact ⟨.inr hcause, hbodies.trans_le hle, hbodies, Nat.zero_le _,
    fun _ hlast => by cases hlast⟩

private theorem of_size (h : last.starts.size = machine.starts.size)
    (hstops : Halts limit inside last run) : Halts limit inside machine run :=
  { hstops with started := by rw [hstops.started, h] }

/-- The events of two runs in sequence are told in sequence. -/
theorem andThen {next : Machine → Traced} (h : Halts limit 0 machine run)
    (hnext : ∀ {between : Machine}, machine.starts.size ≤ between.starts.size →
      between.starts.size ≤ limit → Halts limit inside between (next between)) :
    Halts limit inside machine (run.andThen next) := by
  obtain ⟨hending, hwithin, hstarted, htested, hall⟩ := h
  rcases run with ⟨between | ⟨error, last⟩ | _, events⟩
  · have hsize : between.starts.size = machine.starts.size + events.count .started := hstarted
    have hlater := hnext (hsize ▸ Nat.le_add_right _ _) hwithin
    have hlaterTested := hlater.tested
    have hfirst := hall between rfl
    refine ⟨hlater.ending, hlater.within, ?_, ?_, fun last hlast => ?_⟩
    · simp only [Traced.andThen, List.count_append]
      rw [hlater.started, hsize, Nat.add_assoc]
    · simp only [Traced.andThen, List.count_append] at htested ⊢
      omega
    · have hlaterAll := hlater.testedAll last hlast
      simp only [Traced.andThen, List.count_append] at hfirst ⊢
      omega
  · exact ⟨hending, hwithin, hstarted, Nat.le_add_right_of_le htested,
      fun _ hlast => by cases hlast⟩
  · exact absurd hending id

private theorem branch (hle : machine.starts.size ≤ limit) (condition : Cond)
    {yes no : Machine → Traced}
    (hyes : ∀ {between : Machine}, between.starts.size = machine.starts.size →
      Halts limit inside between (yes between))
    (hno : ∀ {between : Machine}, between.starts.size = machine.starts.size →
      Halts limit inside between (no between)) :
    Halts limit inside machine (machine.traceBranch condition yes no) := by
  have hstarts : (machine.observe fun store => condition.eval store).2.starts =
      machine.starts := rfl
  have hfails : ∀ error, (machine.observe fun store => condition.eval store).1 = .error error →
      ∃ value, error.cause = .invalidIndex value :=
    (Reading.describes_failsAtIndex machine.env.store).decide condition
  unfold Machine.traceBranch
  generalize (machine.observe fun store => condition.eval store) = observed at hstarts hfails ⊢
  have hsize := congrArg Array.size hstarts
  rcases observed with ⟨error | holds, between⟩
  · exact failed (hfails error rfl) hsize hle
  · cases holds with
    | false => exact of_size hsize (hno hsize)
    | true => exact of_size hsize (hyes hsize)

private theorem assign (hle : machine.starts.size ≤ limit) (target : Target) (value : Expr) :
    Halts limit 0 machine (.silent (machine.assign target value)) := by
  rw [Machine.assign_eq]
  split
  · rename_i error env hassign
    exact failed (Environment.assign_fails hassign) rfl hle
  · exact finished rfl hle

/-- The start of a body makes up for one more evaluation of a condition inside of the loop. -/
theorem enter (hle : machine.starts.size ≤ limit) (span : Span) {body : Machine → Traced}
    (hbody : ∀ {between : Machine}, between.starts.size = machine.starts.size + 1 →
      between.starts.size ≤ limit → Halts limit (inside + 1) between (body between)) :
    Halts limit inside machine (machine.traceEnter (.iterations limit) span body) := by
  have hsize : machine.counted.starts.size = machine.starts.size + 1 := Array.size_push _
  rw [Machine.traceEnter_iterations]
  split
  · rename_i hlt
    have hbodies : (Outcome.failed ⟨span, .iterationLimit limit⟩ machine.counted).bodies =
        machine.starts.size := by
      rw [Outcome.bodies, if_pos (by rfl), hsize, Nat.add_sub_cancel]
    exact ⟨.inl rfl, hbodies.trans_le hle, hbodies, Nat.zero_le _, fun _ hlast => by cases hlast⟩
  · rename_i hnot
    have hstops := hbody hsize (by omega)
    have htested := hstops.tested
    refine ⟨hstops.ending, hstops.within, ?_, ?_, fun last hlast => ?_⟩
    · rw [Traced.count_after, if_pos rfl]
      exact hstops.started.trans (by omega)
    · simp only [Traced.count_after, reduceCtorEq, if_true, if_false]
      omega
    · have hall := hstops.testedAll last hlast
      simp only [Traced.count_after, reduceCtorEq, if_true, if_false]
      omega

/-- An event other than the start of a body, and how many loops one is inside of before it. -/
private theorem after {event : LoopEvent} {outside : Nat} (h : Halts limit inside machine run)
    (hother : event ≠ .started)
    (hbalance : inside + (if event = .tested then 1 else 0) =
      outside + if event = .entered then 1 else 0) :
    Halts limit outside machine (.after event run) := by
  have htested := h.tested
  refine ⟨h.ending, h.within, ?_, ?_, fun last hlast => ?_⟩
  · rw [Traced.count_after, if_neg hother]
    exact h.started
  · simp only [Traced.count_after, if_neg hother]
    omega
  · have hall := h.testedAll last hlast
    simp only [Traced.count_after, if_neg hother]
    omega

/-- The evaluation of a condition inside of a loop. -/
theorem test (h : Halts limit inside machine run) :
    Halts limit (inside + 1) machine (.after .tested run) :=
  h.after (by decide) rfl

/-- The execution of a loop, which one is inside of from then on. -/
theorem loop (h : Halts limit (inside + 1) machine run) :
    Halts limit inside machine (.after .entered run) :=
  h.after (by decide) rfl

/--
The rounds of a loop stop: each of them but the last starts a body, and there are more rounds than
bodies left.
-/
theorem traceWhile {condition : Cond} {body : Machine → Traced}
    (hbody : ∀ {machine : Machine}, machine.starts.size ≤ limit →
      Halts limit 0 machine (body machine))
    {rounds : Nat} (hrounds : limit < machine.starts.size + rounds)
    (hle : machine.starts.size ≤ limit) :
    Halts limit 1 machine (traceWhile (.iterations limit) condition body rounds machine) := by
  induction rounds generalizing machine with
  | zero => exact absurd hle (Nat.not_le.mpr hrounds)
  | succ rounds ih =>
    refine test (branch hle condition (fun hsize => ?_) fun hsize => ?_)
    · refine enter (hsize.trans_le hle) condition.span fun hcounted hwithin => ?_
      exact (hbody hwithin).andThen fun hmore hlast => ih (by omega) hlast
    · exact finished rfl (hsize.trans_le hle)

mutual

private theorem trace {rounds : Nat} (hrounds : limit < rounds) :
    ∀ (s : Stmt) {machine : Machine}, machine.starts.size ≤ limit →
      Halts limit 0 machine (s.trace (.iterations limit) rounds machine)
  | .assign target value _, _, hle => assign hle target value
  | .block body _, _, hle => traceAll hrounds body hle
  | .branch condition body otherwise _, _, hle =>
    branch hle condition (fun hsize => traceAll hrounds body (hsize.trans_le hle))
      fun hsize => chainTrace hrounds otherwise (hsize.trans_le hle)
  | .loop _ body _, _, hle =>
    loop (traceWhile (traceAll hrounds body) (Nat.lt_add_left _ hrounds) hle)

private theorem chainTrace {rounds : Nat} (hrounds : limit < rounds) :
    ∀ (chain : Chain) {machine : Machine}, machine.starts.size ≤ limit →
      Halts limit 0 machine (chain.trace (.iterations limit) rounds machine)
  | .done, _, hle => finished rfl hle
  | .block body, _, hle => traceAll hrounds body hle
  | .branch condition body otherwise, _, hle =>
    branch hle condition (fun hsize => traceAll hrounds body (hsize.trans_le hle))
      fun hsize => chainTrace hrounds otherwise (hsize.trans_le hle)

/-- Statements stop if their loops are given more rounds than the limit allows bodies. -/
theorem traceAll {rounds : Nat} (hrounds : limit < rounds) :
    ∀ (stmts : List Stmt) {machine : Machine}, machine.starts.size ≤ limit →
      Halts limit 0 machine (traceAll (.iterations limit) rounds stmts machine)
  | [], _, hle => finished rfl hle
  | s :: later, _, hle =>
    (trace hrounds s hle).andThen fun _ hlast => traceAll hrounds later hlast

end

end Halts

private theorem Outcome.StopsAt.ne_unfinished {limit : Nat} {outcome : Outcome}
    (h : outcome.StopsAt limit) : outcome ≠ .unfinished := by
  rintro rfl
  exact h

/-- With more rounds than a limit allows bodies, a program comes to an end under the limit. -/
theorem halts_run {limit rounds : Nat} (hrounds : limit < rounds) (program : List Stmt)
    (machine : Machine) : Halts limit 0 ⟨machine.env, #[]⟩
      (traceAll (.iterations limit) rounds program ⟨machine.env, #[]⟩) :=
  .traceAll hrounds program (Nat.zero_le limit)

/-- Under a limit on loop bodies every program comes to an end. -/
theorem exists_runsTo (limit : Nat) (program : List Stmt) (machine : Machine) :
    ∃ outcome, RunsTo (.iterations limit) program machine outcome := by
  have hending := (halts_run (Nat.lt_succ_self limit) program machine).ending
  rw [outcome_traceAll] at hending
  exact ⟨_, hending.ne_unfinished, limit + 1, rfl⟩

/--
Under a limit on loop bodies every run stops. Whatever the program and the machine it starts from,
one round more than the limit allows bodies is enough for all loops, and so is any larger number:
the run finishes, or it fails at the limit or at an index. All loops together have started at most
as many bodies as the limit allows, and evaluated at most as many conditions as that and once more
for each time that a loop was executed. In a run that finishes that is the number of evaluations.
-/
theorem limited_run_stops (limit more : Nat) (program : List Stmt) (machine : Machine) :
    let outcome := runProgram (.iterations limit) (limit + 1 + more) program machine.env
    let run := traceAll (.iterations limit) (limit + 1 + more) program ⟨machine.env, #[]⟩
    run.outcome = outcome ∧ RunsTo (.iterations limit) program machine outcome ∧
      outcome.StopsAt limit ∧ run.events.count .started = outcome.bodies ∧
      run.events.count .started ≤ limit ∧
      run.events.count .tested ≤ limit + run.events.count .entered ∧
      ∀ last, outcome = .finished last →
        run.events.count .tested = outcome.bodies + run.events.count .entered := by
  intro outcome run
  have houtcome : run.outcome = outcome := outcome_traceAll program _
  obtain ⟨hending, hwithin, hstarted, htested, hall⟩ : Halts limit 0 ⟨machine.env, #[]⟩ run :=
    halts_run (by omega) program machine
  rw [houtcome] at hending hwithin hstarted hall
  have hcount : run.events.count .started = outcome.bodies :=
    (Nat.zero_add _).symm.trans hstarted.symm
  refine ⟨houtcome, ⟨hending.ne_unfinished, _, rfl⟩, hending, hcount, by omega, by omega,
    fun last hlast => ?_⟩
  rw [hall last hlast, hcount, Nat.add_zero]

end NumericScript
