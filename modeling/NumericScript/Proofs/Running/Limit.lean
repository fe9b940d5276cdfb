import NumericScript.Proofs.Running.Accord

/-!
# Iteration limits

A limit on loop bodies changes nothing about a run that starts no more bodies than that. Any other
run fails when it is about to start the next body, having done up to there what it does without a
limit.
-/

namespace NumericScript

/--
A program ends with an outcome on a machine that earlier runs have left, if its loops are given
enough rounds. Whatever the machine counts, the starts of loop bodies are counted anew.
-/
def RunsTo (limits : Limits) (program : List Stmt) (machine : Machine) (outcome : Outcome) : Prop :=
  outcome ≠ .unfinished ∧ ∃ rounds, runProgram limits rounds program machine.env = outcome

/-- A limit on loop bodies, and no other one. -/
def Limits.iterations (limit : Nat) : Limits := { maxIterations := some limit }

/-- A limit that a start exceeds, not a failure of what is evaluated. -/
def Cause.isLimit : Cause → Bool
  | iterationLimit _ | timeLimit _ => true
  | _ => false

/-- How many loop bodies a run started. A start that exceeds a limit is counted by the machine, but
no body is started then. -/
def Outcome.bodies : Outcome → Nat
  | finished machine => machine.starts.size
  | failed error machine =>
    if error.cause.isLimit then machine.starts.size - 1 else machine.starts.size
  | unfinished => 0

section Rounds

/-- With more rounds a run ends as it does with fewer. -/
theorem accords_rounds (limits : Limits) :
    Accords limits limits Eq fun outcome outcome' =>
      outcome = .unfinished ∨ outcome' = outcome where
  env h := by rw [h]
  update h env := by rw [h]
  unfinished _ := .inl rfl
  finished h := .inr (by rw [h])
  failed h error := .inr (by rw [h])
  enter h span next next' hnext _ := by
    subst h
    unfold Machine.enter
    split
    · exact .inr rfl
    · exact hnext rfl
  andThen {outcome outcome'} h {next next'} hnext _ := by
    rcases h with rfl | rfl
    · exact .inl rfl
    · cases outcome' with
      | finished machine => exact hnext rfl
      | failed error machine => exact .inr rfl
      | unfinished => exact .inl rfl

variable {limits : Limits} {program : List Stmt} {machine : Machine}

/-- A run that ends does so with any larger number of rounds. -/
theorem runProgram_rounds {rounds rounds' : Nat} {env : Environment} (hle : rounds ≤ rounds')
    (h : runProgram limits rounds program env ≠ .unfinished) :
    runProgram limits rounds' program env = runProgram limits rounds program env :=
  ((accords_rounds limits).execAll hle program rfl).resolve_left h

/-- A program ends in one way only. -/
theorem RunsTo.iff_eq {outcome outcome' : Outcome} (h : RunsTo limits program machine outcome) :
    RunsTo limits program machine outcome' ↔ outcome' = outcome := by
  constructor
  · rintro ⟨hends', rounds', hrun'⟩
    obtain ⟨hends, rounds, hrun⟩ := h
    subst hrun hrun'
    rcases Nat.le_total rounds rounds' with hle | hle
    · exact runProgram_rounds hle hends
    · exact (runProgram_rounds hle hends').symm
  · rintro rfl
    exact h

end Rounds

section Causes

/-- Evaluation never fails at a limit. -/
def Reading.Unlimited {α : Type} (reading : Reading α) : Prop :=
  ∀ error, reading.result = .error error → error.cause.isLimit = false

namespace Reading

/-- Evaluation fails at an index only. -/
def FailsAtIndex {α : Type} (reading : Reading α) : Prop :=
  ∀ error, reading.result = .error error → ∃ value, error.cause = .invalidIndex value

/-- Evaluation as a whole fails at an index only, as each of its parts does. -/
theorem describes_failsAtIndex (store : Store) : Describes store FailsAtIndex where
  pure _ := nofun
  bind {_ _ reading next} h hnext := by
    show (reading.andThen next).FailsAtIndex
    unfold andThen
    split
    · rename_i error herror
      rintro _ ⟨⟩
      exact h error herror
    · exact hnext _
  scalar name := by
    unfold look
    split <;> exact nofun
  element name index := by
    unfold look
    split <;> exact nofun
  index span value := by
    unfold index
    split
    · exact nofun
    · rintro _ ⟨⟩
      exact ⟨value, rfl⟩

private theorem FailsAtIndex.unlimited {α : Type} {reading : Reading α} (h : reading.FailsAtIndex) :
    reading.Unlimited := by
  intro error herror
  obtain ⟨value, hcause⟩ := h error herror
  rw [hcause]
  rfl

end Reading

/-- An assignment fails at an index only. -/
theorem Environment.assign_fails {env after : Environment} {target : Target} {value : Expr}
    {error : ScriptError} (h : env.assign target value = (.error error, after)) :
    ∃ index, error.cause = .invalidIndex index := by
  unfold assign at h
  split at h
  · rename_i failure between hvalue
    obtain ⟨heq, _⟩ := Prod.mk.inj h
    cases heq
    exact (Reading.describes_failsAtIndex env.store).eval value error (Prod.mk.inj hvalue).1
  · rename_i between hvalue
    cases target with
    | scalar name => cases (Prod.mk.inj h).1
    | element name index =>
      dsimp only at h
      split at h
      · rename_i failure last hindex
        obtain ⟨heq, _⟩ := Prod.mk.inj h
        cases heq
        have hfails := (Reading.describes_failsAtIndex between.store).evalIndex index
        exact hfails error (Prod.mk.inj hindex).1
      · cases (Prod.mk.inj h).1

/-- A run that does not fail at a limit. -/
def Outcome.Unlimited : Outcome → Prop
  | failed error _ => error.cause.isLimit = false
  | _ => True

/-- Without limits no run fails at one. -/
theorem describes_unlimited : Describes {} fun _ outcome => outcome.Unlimited where
  unfinished _ := trivial
  finished _ := trivial
  trans _ hlater := hlater
  decide machine condition := by
    have hfails := (Reading.describes_failsAtIndex machine.env.store).decide condition
    unfold Machine.branch
    split
    · rename_i error after hcondition
      exact hfails.unlimited error (Prod.mk.inj hcondition).1
    · trivial
    · trivial
  assign machine target value := by
    rw [Machine.assign_eq]
    split
    · rename_i error env hassign
      obtain ⟨index, hcause⟩ := Environment.assign_fails hassign
      show error.cause.isLimit = false
      rw [hcause]
      rfl
    · trivial
  start _ _ := trivial

/-- Without limits all starts are starts of bodies. -/
theorem bodies_eq_size (rounds : Nat) (program : List Stmt) (machine : Machine) :
    (execAll {} rounds program machine).Leaves fun last =>
      (execAll {} rounds program machine).bodies = last.starts.size := by
  have hunlimited : (execAll {} rounds program machine).Unlimited :=
    describes_unlimited.execAll program machine
  cases hrun : execAll {} rounds program machine with
  | finished last => rfl
  | failed error last =>
    rw [hrun] at hunlimited
    have hcause : error.cause.isLimit = false := hunlimited
    show Outcome.bodies _ = _
    rw [Outcome.bodies, if_neg (by simp [hcause])]
  | unfinished => trivial

end Causes

section Cutting

/-- A limited run compared with the same run without limits. -/
inductive Outcome.Cut (limit : Nat) : Outcome → Outcome → Prop
  | unfinished (limited : Outcome) : Cut limit .unfinished limited
  | within {outcome : Outcome} (h : outcome.Leaves fun last => last.starts.size ≤ limit) :
    Cut limit outcome outcome
  | exceeded {free : Outcome} (span : Span) {machine : Machine}
    (hsize : machine.starts.size = limit + 1) (hgrows : free.Leaves machine.Grows) :
    Cut limit free (.failed ⟨span, .iterationLimit limit⟩ machine)

private theorem Outcome.Cut.eq_unfinished {limit : Nat} {free : Outcome}
    (h : free.Cut limit .unfinished) : free = .unfinished := by
  cases h <;> rfl

/-- The machine that has counted the start of one more body. -/
def Machine.counted (machine : Machine) : Machine :=
  { machine with starts := machine.starts.push machine.env.journal.size }

private theorem Machine.enter_unlimited (machine : Machine) (span : Span)
    (body : Machine → Outcome) : machine.enter {} span body = body machine.counted := rfl

private theorem Machine.enter_iterations (limit : Nat) (machine : Machine) (span : Span)
    (body : Machine → Outcome) :
    machine.enter (.iterations limit) span body =
      if limit < machine.starts.size + 1 then .failed ⟨span, .iterationLimit limit⟩ machine.counted
      else body machine.counted := by
  unfold Machine.enter Machine.startBody
  by_cases hlt : limit < machine.starts.size + 1
  · simp [Limits.exceeded?, Limits.iterations, hlt, Machine.counted]
  · simp [Limits.exceeded?, Limits.exceeded?.late?, Limits.iterations, hlt, Machine.counted]

private theorem Machine.Grows.size_le {machine machine' : Machine} (h : machine.Grows machine') :
    machine.starts.size ≤ machine'.starts.size := by
  simpa using h.starts.length_le

/-- A limit cuts off what comes after the last start that it allows. -/
theorem accords_cut (limit : Nat) :
    Accords {} (.iterations limit)
      (fun machine machine' => machine' = machine ∧ machine.starts.size ≤ limit)
      (Outcome.Cut limit) where
  env h := by rw [h.1]
  update h env := ⟨by rw [h.1], h.2⟩
  unfinished := .unfinished
  finished h := by
    rw [h.1]
    exact .within h.2
  failed h error := by
    rw [h.1]
    exact .within h.2
  enter := by
    rintro _ machine ⟨rfl, hsize⟩ span next next' hnext hgrows
    rw [Machine.enter_unlimited, Machine.enter_iterations]
    have hpush : (machine.starts.push machine.env.journal.size).size = machine.starts.size + 1 :=
      Array.size_push _
    split
    · refine .exceeded span ?_ (hgrows _)
      rw [Machine.counted, hpush]
      omega
    · refine hnext ⟨rfl, ?_⟩
      rw [Machine.counted, hpush]
      omega
  andThen {outcome _} h {next next'} hnext hgrows := by
    cases h with
    | unfinished => exact .unfinished _
    | within h =>
      cases outcome with
      | finished machine => exact hnext ⟨rfl, h⟩
      | failed error machine => exact .within h
      | unfinished => exact .unfinished _
    | exceeded span hsize hlater =>
      cases outcome with
      | finished machine => exact .exceeded span hsize ((hgrows machine).imp fun _ => hlater.trans)
      | failed error machine => exact .exceeded span hsize hlater
      | unfinished => exact .unfinished _

/-- The journal only gets longer. -/
theorem EnvironmentOf.Steps.journal {α : Type} {env env' : EnvironmentOf α} (h : env.Steps env') :
    env.journal.toList <+: env'.journal.toList := by
  induction h with
  | refl => exact List.prefix_rfl
  | tail _ hstep ih =>
    refine ih.trans ?_
    cases hstep <;> simp [EnvironmentOf.write, EnvironmentOf.report]

variable {program : List Stmt} {machine : Machine} {free : Outcome}

/-- A run without limits is cut off after as many bodies as a limit allows. -/
theorem RunsTo.exists_cut (h : RunsTo {} program machine free) (limit : Nat) :
    ∃ limited, RunsTo (.iterations limit) program machine limited ∧ free.Cut limit limited ∧
      free.Leaves fun last => free.bodies = last.starts.size := by
  obtain ⟨hends, rounds, rfl⟩ := h
  have hcut : Outcome.Cut limit (execAll {} rounds program ⟨machine.env, #[]⟩)
      (execAll (.iterations limit) rounds program ⟨machine.env, #[]⟩) :=
    (accords_cut limit).execAll (Nat.le_refl rounds) program ⟨rfl, Nat.zero_le limit⟩
  refine ⟨_, ⟨?_, rounds, rfl⟩, hcut, bodies_eq_size rounds program ⟨machine.env, #[]⟩⟩
  intro hunfinished
  change execAll (.iterations limit) rounds program ⟨machine.env, #[]⟩ = .unfinished at hunfinished
  rw [hunfinished] at hcut
  exact hends hcut.eq_unfinished

/--
What a limit makes of a run that ends without limits. If the run starts no more bodies than the
limit allows, nothing changes. If not, it fails at the limit, having started just as many bodies,
and what it has reported and started up to there the other run reports and starts as well.
-/
structure Outcome.CutAt (limit : Nat) (free limited : Outcome) : Prop where
  within : free.bodies ≤ limit → limited = free
  beyond : limit < free.bodies → ∃ error last, limited = .failed error last ∧
    error.cause.message = "Loop iteration limit of " ++ toString limit ++ " exceeded" ∧
    (Outcome.failed error last).bodies = limit ∧
    free.Leaves fun final => last.env.journal.toList <+: final.env.journal.toList ∧
      last.starts.toList <+: final.starts.toList

/-- A run that ends without limits ends under a limit, as the limit makes it. -/
theorem RunsTo.exists_cutAt (h : RunsTo {} program machine free) (limit : Nat) :
    ∃ limited, RunsTo (.iterations limit) program machine limited ∧ free.CutAt limit limited := by
  obtain ⟨limited, hlimited, hcut, hbodies⟩ := h.exists_cut limit
  obtain ⟨final, hfinal⟩ := Outcome.exists_machine h.1
  rw [hfinal] at hbodies
  refine ⟨limited, hlimited, ?_⟩
  cases hcut with
  | unfinished => exact absurd rfl h.1
  | within hwithin =>
    rw [hfinal, ← hbodies] at hwithin
    exact ⟨fun _ => rfl, fun hlt => absurd hwithin (Nat.not_le.mpr hlt)⟩
  | @exceeded _ span last hsize hgrows =>
    rw [hfinal] at hgrows
    have hlarger := hgrows.size_le
    refine ⟨fun hle => by omega, fun _ => ⟨_, last, rfl, rfl, ?_, ?_⟩⟩
    · rw [Outcome.bodies, if_pos (by rfl), hsize, Nat.add_sub_cancel]
    · exact (hfinal _).mpr ⟨hgrows.env.journal, hgrows.starts⟩

/--
A limit on loop bodies is transparent. Under a limit that is no less than the number of bodies that
a program starts without limits, the program ends in the same way. Under any other limit it fails at
the limit, having started just as many bodies, and up to there it has done what it does without
limits.
-/
theorem iterationLimit_transparent (h : RunsTo {} program machine free) (limit : Nat) :
    (free.bodies ≤ limit → ∀ outcome,
      RunsTo (.iterations limit) program machine outcome ↔ outcome = free) ∧
    (limit < free.bodies → ∃ error last,
      (∀ outcome, RunsTo (.iterations limit) program machine outcome ↔
        outcome = .failed error last) ∧
      error.cause.message = "Loop iteration limit of " ++ toString limit ++ " exceeded" ∧
      (Outcome.failed error last).bodies = limit ∧
      free.Leaves fun final => last.env.journal.toList <+: final.env.journal.toList ∧
        last.starts.toList <+: final.starts.toList) := by
  obtain ⟨limited, hlimited, hcut⟩ := h.exists_cutAt limit
  refine ⟨fun hle => ?_, fun hlt => ?_⟩
  · obtain rfl := hcut.within hle
    exact fun _ => hlimited.iff_eq
  · obtain ⟨error, last, rfl, hmessage, hbodies, hprefix⟩ := hcut.beyond hlt
    exact ⟨error, last, fun _ => hlimited.iff_eq, hmessage, hbodies, hprefix⟩

/-- A loop that starts its body three times. -/
def countUp : List Stmt :=
  let i := Expr.scalar "i" default
  [.loop (.compare .less i (.number (.ofDecimal 3 0) default) default)
    [.assign (.scalar "i" default) (.binary .add i (.number .one default) default) default] default]

/-- The starts of an earlier run do not count. -/
theorem iterationLimit_transparent_countUp :
    ∃ free, RunsTo {} countUp ⟨.fresh, #[0, 0]⟩ free ∧ free.bodies = 3 ∧
      (∀ outcome, RunsTo (.iterations 3) countUp ⟨.fresh, #[0, 0]⟩ outcome ↔ outcome = free) ∧
      ∃ error last, (∀ outcome, RunsTo (.iterations 2) countUp ⟨.fresh, #[0, 0]⟩ outcome ↔
        outcome = .failed error last) ∧
        error.cause.message = "Loop iteration limit of 2 exceeded" := by
  have hbodies : (runProgram {} 4 countUp .fresh).bodies = 3 := by decide +kernel
  have hends : RunsTo {} countUp ⟨.fresh, #[0, 0]⟩ (runProgram {} 4 countUp .fresh) := by
    refine ⟨fun hunfinished => ?_, 4, rfl⟩
    rw [hunfinished] at hbodies
    cases hbodies
  obtain ⟨error, last, honly, hmessage, _⟩ :=
    (iterationLimit_transparent hends 2).2 (by rw [hbodies]; decide)
  refine ⟨_, hends, hbodies, (iterationLimit_transparent hends 3).1 (Nat.le_of_eq hbodies), ?_⟩
  exact ⟨error, last, honly, hmessage⟩

end Cutting

end NumericScript
