import NumericScript.Proofs.Glyph.Tree
import NumericScript.Proofs.Journal.Step

/-!
# Two runs side by side

A program is run twice, under different limits, for different numbers of rounds or from different
machines with the same environment. What is said of two outcomes may speak of a run that goes on
after the other one has stopped, so that one has to know how a run changes its machine.
-/

namespace NumericScript

/-- An assignment as far as the environment is concerned. -/
def Environment.assign (env : Environment) (target : Target) (value : Expr) :
    Except ScriptError Unit × Environment :=
  match env.observe fun store => value.eval store with
  | (.error error, env) => (.error error, env)
  | (.ok value, env) =>
    match target with
    | .scalar name _ => (.ok (), (env.set name value false).2)
    | .element name index _ =>
      match env.observe fun store => index.evalIndex store with
      | (.error error, env) => (.error error, env)
      | (.ok position, env) => (.ok (), (env.setElement name position value).2)

/-- Only the environment counts for an assignment, and only the environment changes. -/
theorem Machine.assign_eq (machine : Machine) (target : Target) (value : Expr) :
    machine.assign target value =
      match machine.env.assign target value with
      | (.error error, env) => .failed error { machine with env }
      | (.ok (), env) => .finished { machine with env } := by
  rw [Machine.assign, Environment.assign, Machine.observe]
  rcases machine.env.observe fun store => value.eval store with ⟨error | written, env⟩
  · rfl
  · cases target with
    | scalar name => rfl
    | element name index =>
      dsimp only
      rw [Machine.observe]
      rcases env.observe fun store => index.evalIndex store with ⟨error | position, env'⟩ <;> rfl

/-- What a run can turn a machine into: the environment goes on in steps, and starts of bodies come
after the earlier ones. -/
structure Machine.Grows (machine machine' : Machine) : Prop where
  env : machine.env.Steps machine'.env
  starts : machine.starts.toList <+: machine'.starts.toList

/-- What grows from what has grown has grown. -/
theorem Machine.Grows.trans {a b c : Machine} (h : a.Grows b) (h' : b.Grows c) : a.Grows c :=
  ⟨h.env.trans h'.env, h.starts.trans h'.starts⟩

/-- A property of the machine that a run leaves, if the run comes to an end. -/
def Outcome.Leaves (p : Machine → Prop) : Outcome → Prop
  | finished machine | failed _ machine => p machine
  | unfinished => True

/-- An outcome leaves what follows from something it leaves. -/
theorem Outcome.Leaves.imp {p q : Machine → Prop} {outcome : Outcome} (h : outcome.Leaves p)
    (himp : ∀ machine, p machine → q machine) : outcome.Leaves q := by
  cases outcome with
  | finished machine => exact himp machine h
  | failed error machine => exact himp machine h
  | unfinished => trivial

/-- The machine of a finished run. -/
def Outcome.machine? : Outcome → Option Machine
  | finished machine => some machine
  | _ => none

/-- Only a run that finished has a machine, the one it finished with. -/
theorem Outcome.machine?_eq_some {outcome : Outcome} {machine : Machine} :
    outcome.machine? = some machine ↔ outcome = .finished machine := by
  cases outcome <;> simp [machine?]

/-- What comes to an end leaves one machine. -/
theorem Outcome.exists_machine {outcome : Outcome} (h : outcome ≠ .unfinished) :
    ∃ machine, ∀ p, outcome.Leaves p ↔ p machine := by
  cases outcome with
  | finished machine => exact ⟨machine, fun _ => .rfl⟩
  | failed error machine => exact ⟨machine, fun _ => .rfl⟩
  | unfinished => exact absurd rfl h

/--
A relation between environments holds of what a run leaves if it is kept by going on, by conditions
and by assignments.
-/
theorem performs_leaves (limits : Limits) {admits : Phrase → Prop}
    (related : Environment → Environment → Prop) (refl : ∀ env, related env env)
    (trans : ∀ {a b c}, related a b → related b c → related a c)
    (decide : ∀ (env : Environment) (condition : Cond), admits (.condition condition) →
      related env (env.observe fun store => condition.eval store).2)
    (assign : ∀ (env : Environment) (target : Target) (value : Expr),
      admits (.assignment target value) → related env (env.assign target value).2) :
    Performs limits admits fun machine outcome =>
      outcome.Leaves fun after => related machine.env after.env where
  unfinished _ := trivial
  finished machine := refl machine.env
  trans h hlater := hlater.imp fun _ => trans h
  decide machine condition hcondition := by
    have hdecide := decide machine.env condition hcondition
    unfold Machine.branch
    split
    all_goals
      rename_i after heq
      obtain ⟨_, rfl⟩ := Prod.mk.inj heq
      exact hdecide
  assign machine target value hassignment := by
    have hassign := assign machine.env target value hassignment
    rw [Machine.assign_eq]
    split
    all_goals
      rename_i after heq
      rwa [heq] at hassign
  start machine condition _ := by
    unfold Machine.enter
    split
    all_goals
      rename_i after heq
      obtain ⟨_, rfl⟩ := Prod.mk.inj heq
      exact refl machine.env

/-- Every run makes its machine grow. -/
theorem describes_grows (limits : Limits) :
    Describes limits fun machine outcome => outcome.Leaves machine.Grows where
  unfinished _ := trivial
  finished _ := ⟨.refl, List.prefix_rfl⟩
  trans h hlater := hlater.imp fun _ => h.trans
  decide machine condition := by
    have hsteps := (describes_steps limits).decide machine condition
    unfold Machine.branch at hsteps ⊢
    split at hsteps
    all_goals
      rename_i after hcondition
      obtain ⟨_, rfl⟩ := Prod.mk.inj hcondition
      exact ⟨hsteps, List.prefix_rfl⟩
  assign machine target value := by
    have hsteps := (describes_steps limits).assign machine target value
    rw [Machine.assign_eq] at hsteps ⊢
    split at hsteps <;> exact ⟨hsteps, List.prefix_rfl⟩
  start machine span := by
    have hstarts : machine.Grows (machine.startBody limits).2 := by
      refine ⟨.refl, ?_⟩
      simp only [Machine.startBody, Array.toList_push]
      exact List.prefix_append _ _
    unfold Machine.enter
    split
    all_goals
      rename_i started hstart
      rwa [hstart] at hstarts

/--
What two runs of a program, all of whose assignments and conditions are admitted, have in common.
The relation between outcomes may hold although the run on the right has stopped; then it has to go
on to hold whatever the run on the left, growing its machine, does.
-/
structure Relates (limits limits' : Limits) (admits : Phrase → Prop)
    (before : Machine → Machine → Prop) (after : Outcome → Outcome → Prop) : Prop where
  unfinished : ∀ outcome, after .unfinished outcome
  finished : ∀ {machine machine'}, before machine machine' →
    after (.finished machine) (.finished machine')
  assign : ∀ {machine machine'}, before machine machine' → ∀ {target value},
    admits (.assignment target value) →
    after (machine.assign target value) (machine'.assign target value)
  branch : ∀ {machine machine'}, before machine machine' → ∀ {condition},
    admits (.condition condition) → ∀ {yes yes' no no' : Machine → Outcome},
    (∀ {machine machine'}, before machine machine' → after (yes machine) (yes' machine')) →
    (∀ {machine machine'}, before machine machine' → after (no machine) (no' machine')) →
    after (machine.branch condition yes no) (machine'.branch condition yes' no')
  enter : ∀ {machine machine'}, before machine machine' → ∀ (span : Span) {next next'},
    (∀ {started started'}, before started started' → after (next started) (next' started')) →
    (∀ started, (next started).Leaves started.Grows) →
    after (machine.enter limits span next) (machine'.enter limits' span next')
  andThen : ∀ {outcome outcome'}, after outcome outcome' → ∀ {next next' : Machine → Outcome},
    (∀ {machine machine'}, before machine machine' → after (next machine) (next' machine')) →
    (∀ machine, (next machine).Leaves machine.Grows) →
    after (outcome.andThen next) (outcome'.andThen next')

namespace Relates

variable {limits limits' : Limits} {admits : Phrase → Prop} {before : Machine → Machine → Prop}
  {after : Outcome → Outcome → Prop} (h : Relates limits limits' admits before after)

include h

/-- The run on the right may go on for more rounds. -/
theorem repeatWhile {rounds rounds' : Nat} (hrounds : rounds ≤ rounds') {condition : Cond}
    (hcondition : admits (.condition condition)) {body body' : Machine → Outcome}
    (hbody : ∀ {machine machine'}, before machine machine' → after (body machine) (body' machine'))
    (hgrows : ∀ machine, (body machine).Leaves machine.Grows) {machine machine' : Machine}
    (hbefore : before machine machine') :
    after (repeatWhile limits condition body rounds machine)
      (repeatWhile limits' condition body' rounds' machine') := by
  induction rounds generalizing rounds' machine machine' with
  | zero => exact h.unfinished _
  | succ rounds ih =>
    obtain ⟨rounds', rfl⟩ := Nat.exists_eq_add_of_le' (Nat.le_of_add_left_le hrounds)
    have hloop : ∀ started, Outcome.Leaves started.Grows
        (NumericScript.repeatWhile limits condition body rounds started) :=
      (describes_grows limits).repeatWhile hgrows rounds
    have hround := fun machine => (describes_grows limits).andThen (hgrows machine) hloop
    rw [repeatWhile_succ, repeatWhile_succ]
    refine h.branch hbefore hcondition (fun hbefore => ?_) h.finished
    refine h.enter hbefore condition.span (fun hbefore => ?_) hround
    exact h.andThen (hbody hbefore) (ih (Nat.le_of_succ_le_succ hrounds)) hloop

mutual

private theorem exec {rounds rounds' : Nat} (hrounds : rounds ≤ rounds') :
    ∀ (s : Stmt), (∀ phrase ∈ s.phrases, admits phrase) → ∀ {machine machine' : Machine},
      before machine machine' →
      after (s.exec limits rounds machine) (s.exec limits' rounds' machine')
  | .assign target value _, hadmits, _, _, hbefore =>
    h.assign hbefore (hadmits _ List.mem_cons_self)
  | .block body _, hadmits, _, _, hbefore => execAll hrounds body hadmits hbefore
  | .branch condition body otherwise _, hadmits, _, _, hbefore => by
    obtain ⟨hcondition, hlater⟩ := List.forall_mem_cons.mp hadmits
    obtain ⟨hbody, hotherwise⟩ := List.forall_mem_append.mp hlater
    rw [Stmt.exec_branch, Stmt.exec_branch]
    exact h.branch hbefore hcondition (execAll hrounds body hbody)
      (chainExec hrounds otherwise hotherwise)
  | .loop condition body _, hadmits, _, _, hbefore => by
    obtain ⟨hcondition, hbody⟩ := List.forall_mem_cons.mp hadmits
    exact h.repeatWhile hrounds hcondition (execAll hrounds body hbody)
      ((describes_grows limits).execAll body) hbefore

private theorem chainExec {rounds rounds' : Nat} (hrounds : rounds ≤ rounds') :
    ∀ (chain : Chain), (∀ phrase ∈ chain.phrases, admits phrase) → ∀ {machine machine' : Machine},
      before machine machine' →
      after (chain.exec limits rounds machine) (chain.exec limits' rounds' machine')
  | .done, _, _, _, hbefore => h.finished hbefore
  | .block body, hadmits, _, _, hbefore => execAll hrounds body hadmits hbefore
  | .branch condition body otherwise, hadmits, _, _, hbefore => by
    obtain ⟨hcondition, hlater⟩ := List.forall_mem_cons.mp hadmits
    obtain ⟨hbody, hotherwise⟩ := List.forall_mem_append.mp hlater
    rw [Chain.exec_branch, Chain.exec_branch]
    exact h.branch hbefore hcondition (execAll hrounds body hbody)
      (chainExec hrounds otherwise hotherwise)

/-- Two runs of the same statements have in common what all that they do at once has. -/
theorem execAll {rounds rounds' : Nat} (hrounds : rounds ≤ rounds') :
    ∀ (stmts : List Stmt), (∀ phrase ∈ phrasesOf stmts, admits phrase) →
      ∀ {machine machine' : Machine}, before machine machine' →
      after (execAll limits rounds stmts machine) (execAll limits' rounds' stmts machine')
  | [], _, _, _, hbefore => h.finished hbefore
  | s :: later, hadmits, _, _, hbefore => by
    obtain ⟨hfirst, hlater⟩ := List.forall_mem_append.mp hadmits
    exact h.andThen (exec hrounds s hfirst hbefore) (execAll hrounds later hlater)
      ((describes_grows limits).execAll later)

end

end Relates

/-- What two runs from machines with the same environment have in common, whatever the program. -/
structure Accords (limits limits' : Limits) (before : Machine → Machine → Prop)
    (after : Outcome → Outcome → Prop) : Prop where
  env : ∀ {machine machine'}, before machine machine' → machine'.env = machine.env
  update : ∀ {machine machine'}, before machine machine' →
    ∀ env, before { machine with env } { machine' with env }
  unfinished : ∀ outcome, after .unfinished outcome
  finished : ∀ {machine machine'}, before machine machine' →
    after (.finished machine) (.finished machine')
  failed : ∀ {machine machine'}, before machine machine' →
    ∀ error, after (.failed error machine) (.failed error machine')
  enter : ∀ {machine machine'}, before machine machine' → ∀ (span : Span) {next next'},
    (∀ {started started'}, before started started' → after (next started) (next' started')) →
    (∀ started, (next started).Leaves started.Grows) →
    after (machine.enter limits span next) (machine'.enter limits' span next')
  andThen : ∀ {outcome outcome'}, after outcome outcome' → ∀ {next next' : Machine → Outcome},
    (∀ {machine machine'}, before machine machine' → after (next machine) (next' machine')) →
    (∀ machine, (next machine).Leaves machine.Grows) →
    after (outcome.andThen next) (outcome'.andThen next')

namespace Accords

variable {limits limits' : Limits} {before : Machine → Machine → Prop}
  {after : Outcome → Outcome → Prop} (h : Accords limits limits' before after)

include h

private theorem relates : Relates limits limits' (fun _ => True) before after where
  unfinished := h.unfinished
  finished := h.finished
  assign hbefore target value _ := by
    rw [Machine.assign_eq, Machine.assign_eq, h.env hbefore]
    split
    · exact h.failed (h.update hbefore _) _
    · exact h.finished (h.update hbefore _)
  branch {machine _} hbefore condition _ _ _ _ _ hyes hno := by
    rw [Machine.branch, Machine.branch, Machine.observe, Machine.observe, h.env hbefore]
    rcases machine.env.observe fun store => condition.eval store with ⟨error | holds, env⟩
    · exact h.failed (h.update hbefore env) error
    · cases holds with
      | false => exact hno (h.update hbefore env)
      | true => exact hyes (h.update hbefore env)
  enter := h.enter
  andThen := h.andThen

/-- Lists of statements that are run side by side stay in accord. -/
theorem execAll {rounds rounds' : Nat} (hrounds : rounds ≤ rounds') (stmts : List Stmt)
    {machine machine' : Machine} (hbefore : before machine machine') :
    after (execAll limits rounds stmts machine) (execAll limits' rounds' stmts machine') :=
  h.relates.execAll hrounds stmts (fun _ _ => trivial) hbefore

end Accords

end NumericScript
