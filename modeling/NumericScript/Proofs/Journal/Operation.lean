import NumericScript.Proofs.Journal.Replay

/-!
# The journal of an environment

Whatever is done with a new environment, one operation after the other, its journal is complete: it
can be replayed to the store, and it shows every address as created once, before all its updates.
-/

namespace NumericScript

/-- What can be done with an environment. -/
inductive Operation
  | set (name : String) (value : Single) (asElement : Bool)
  | setElement (name : String) (index : UInt64) (value : Single)
  | loadArray (name : String) (values : List Single)
  | get (name : String)
  | getElement (name : String) (index : UInt64)
  | evaluate (e : Expr)
  | decideOn (c : Cond)
  /-- To read and evaluate a text that is one expression. -/
  | evaluateText (source : String)
  /-- To read and evaluate a text that is one condition. -/
  | decideOnText (source : String)
  | run (limits : Limits) (rounds : Nat) (program : List Stmt)

/-- The environment that a run leaves, also if it fails. -/
def Outcome.env? : Outcome → Option Environment
  | finished machine | failed _ machine => some machine.env
  | unfinished => none

namespace Operation

/-- The environment after an operation, if the operation comes to an end. -/
def perform (env : Environment) : Operation → Option Environment
  | set name value asElement => some (env.set name value asElement).2
  | setElement name index value => some (env.setElement name index value).2
  | loadArray name values => some (env.loadArray name values)
  | get name => some (env.get name).2
  | getElement name index => some (env.getElement name index).2
  | evaluate e => some (env.observe fun store => e.eval store).2
  | decideOn c => some (env.observe fun store => c.eval store).2
  | evaluateText source => some (env.evaluate source).2
  | decideOnText source => some (env.evaluateCondition source).2
  | run limits rounds program => (runProgram limits rounds program env).env?

/-- The environment after operations, one after the other. -/
def performAll (operations : List Operation) (env : Environment) : Option Environment :=
  operations.foldlM perform env

end Operation

private theorem Outcome.From.env? {env env' : Environment} {outcome : Outcome}
    (h : outcome.From env) (henv : outcome.env? = some env') : env.Steps env' := by
  cases outcome with
  | finished machine => exact Option.some.inj henv ▸ h
  | failed error machine => exact Option.some.inj henv ▸ h
  | unfinished => cases henv

namespace Environment

private theorem steps_evaluate (env : Environment) (source : String) :
    env.Steps (env.evaluate source).2 := by
  unfold evaluate
  split
  · exact .refl
  · rename_i expr _
    exact steps_observe (expr.misses_eval env.store)

private theorem steps_evaluateCondition (env : Environment) (source : String) :
    env.Steps (env.evaluateCondition source).2 := by
  unfold evaluateCondition
  split
  · exact .refl
  · rename_i cond _
    exact steps_observe (cond.misses_eval env.store)

end Environment

namespace Operation

/-- An operation goes on in steps. -/
theorem steps_perform {env env' : Environment} {operation : Operation}
    (h : operation.perform env = some env') : env.Steps env' := by
  cases operation with
  | run limits rounds program =>
    exact Outcome.From.env? (from_execAll program ⟨env, #[]⟩) h
  | set name value asElement => exact Option.some.inj h ▸ env.steps_set name value asElement
  | setElement name index value => exact Option.some.inj h ▸ env.steps_setElement name index value
  | loadArray name values =>
    exact Option.some.inj h ▸ EnvironmentOf.steps_loadArrayFrom name 0 values env
  | get name => exact Option.some.inj h ▸ env.steps_read (Address.readable_ofKey name)
  | getElement name index =>
    have hreadable : (Address.element name index).Readable := trivial
    exact Option.some.inj h ▸ env.steps_read hreadable
  | evaluate e => exact Option.some.inj h ▸ Environment.steps_observe (e.misses_eval env.store)
  | decideOn c => exact Option.some.inj h ▸ Environment.steps_observe (c.misses_eval env.store)
  | evaluateText source => exact Option.some.inj h ▸ env.steps_evaluate source
  | decideOnText source => exact Option.some.inj h ▸ env.steps_evaluateCondition source

/-- Operations that come to an end lead from one environment to the other in steps. -/
theorem steps_performAll {operations : List Operation} {env env' : Environment}
    (h : performAll operations env = some env') : env.Steps env' := by
  induction operations generalizing env with
  | nil => exact Option.some.inj h ▸ .refl
  | cons operation operations ih =>
    obtain ⟨between, hfirst, hlater⟩ := Option.bind_eq_some_iff.mp h
    exact (steps_perform hfirst).trans (ih hlater)

/--
The journal of an environment is complete. Replayed from nothing by names and values it gives the
store; every report fits the store before it, so that a name is missing at the moment when it is
reported so; what is set was created by exactly one report, before all that update it, and nothing
else was ever reported as written; and any further operation does to the store what it reports.
-/
theorem performAll_journal {operations : List Operation} {env : Environment}
    (h : performAll operations .fresh = some env) :
    replay env.journal.toList = env.store ∧
    (∀ before d after, env.journal.toList = before ++ d :: after → d.Fits (replay before)) ∧
    (∀ address ∈ env.store, ∃ before d after, env.journal.toList = before ++ d :: after ∧
      d.created? = some address ∧
      (∀ e ∈ before, e.created? ≠ some address ∧ e.updated? ≠ some address) ∧
      ∀ e ∈ after, e.created? ≠ some address) ∧
    (∀ address ∉ env.store, ∀ d ∈ env.journal.toList,
      d.created? ≠ some address ∧ d.updated? ≠ some address) ∧
    ∀ (operation : Operation) (env' : Environment), operation.perform env = some env' →
      ∃ more, env'.journal.toList = env.journal.toList ++ more ∧
        env'.store = more.foldl DiagnosticOf.replay env.store := by
  have hsteps := Environment.steps_fresh.trans (steps_performAll h)
  obtain ⟨hsound, _⟩ := EnvironmentOf.Steps.reports hsteps EnvironmentOf.sound_empty
  refine ⟨hsound.tells.replay_eq, fun _ _ _ hsplit => hsound.tells.fits hsplit,
    fun _ hm => hsound.tells.created_once hm, fun _ hm => hsound.tells.not_written hm,
    fun operation env' hperform => ?_⟩
  exact (EnvironmentOf.Steps.reports (steps_perform hperform) hsound).2

/-- Elements are written, also by a key, a name is refused, and a program fails at an index. -/
def brief : List Operation :=
  [.loadArray "A" [.ofDecimal 1 0, .ofDecimal 2 0], .set "A$01" (.ofDecimal 3 0) true,
    .set "Sine" (.ofDecimal 1 0) false,
    .run {} 1 [.assign (.scalar "x" default)
        (.element "A" (.number (.ofDecimal 1 0) default) default) default,
      .assign (.element "B" (.negate (.number (.ofDecimal 1 0) default) default) default)
        (.scalar "y" default) default]]

/-- The journal after `brief`. -/
def briefJournal : List Diagnostic :=
  [.created (.scalar "pi") .pi, .created (.scalar "e") .e,
    .created (.element "A" 0) (.ofDecimal 1 0), .created (.element "A" 1) (.ofDecimal 2 0),
    .updated (.element "A" 1) (.ofDecimal 3 0), .invalid "Sine" (.reserved "Sin"),
    .created (.scalar "x") (.ofDecimal 3 0), .undefined "y"]

/-- The journal of a few operations, one of which fails, tells their store. -/
theorem performAll_journal_brief :
    ∃ env, performAll brief .fresh = some env ∧ env.journal.toList = briefJournal ∧
      replay briefJournal = env.store := by
  have hjournal : (performAll brief .fresh).map (·.journal.toList) = some briefJournal := by
    decide +kernel
  obtain ⟨env, h, htold⟩ := Option.map_eq_some_iff.mp hjournal
  exact ⟨env, h, htold, htold ▸ (performAll_journal h).1⟩

end Operation

end NumericScript
