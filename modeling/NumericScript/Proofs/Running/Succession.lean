import NumericScript.Proofs.Running.Stopping

/-!
# Programs in a row

One machine runs several programs, one after the other. Each of them goes on with the environment
that the one before it has left, whether that has finished or failed, and whatever the machine has
counted by then, each may start as many loop bodies as a limit allows.
-/

namespace NumericScript

/-- A program, the machine that it is run on, and how the run ends. -/
structure Call where
  program : List Stmt
  before : Machine
  outcome : Outcome

/-- Calls in a row: each comes to an end, and the next one is made on the machine that it leaves. -/
inductive InRow (limits : Limits) : Machine → List Call → Prop
  | nil (machine : Machine) : InRow limits machine []
  | cons {program : List Stmt} {machine after : Machine} {outcome : Outcome} {later : List Call}
    (run : RunsTo limits program machine outcome) (left : outcome.Leaves (· = after))
    (rest : InRow limits after later) :
    InRow limits machine (⟨program, machine, outcome⟩ :: later)

/-- What comes to an end leaves one machine, which is known if anything is. -/
theorem Outcome.Leaves.eq {outcome : Outcome} {after after' : Machine}
    (hends : outcome ≠ .unfinished) (h : outcome.Leaves (· = after))
    (h' : outcome.Leaves (· = after')) : after' = after := by
  obtain ⟨machine, hmachine⟩ := Outcome.exists_machine hends
  exact ((hmachine _).mp h').symm.trans ((hmachine _).mp h)

namespace InRow

variable {limits : Limits} {limit : Nat} {machine : Machine} {calls : List Call}

/-- Each call of a row is the run of its program on the machine that is there by then. -/
theorem runsTo (h : InRow limits machine calls) :
    ∀ call ∈ calls, RunsTo limits call.program call.before call.outcome := by
  induction h with
  | nil => nofun
  | cons run _ _ ih => exact List.forall_mem_cons.mpr ⟨run, ih⟩

/-- The programs and the first machine determine a row of calls. -/
theorem unique (h : InRow limits machine calls) {calls' : List Call}
    (h' : InRow limits machine calls')
    (hprograms : calls'.map (·.program) = calls.map (·.program)) : calls' = calls := by
  induction h generalizing calls' with
  | nil => exact List.map_eq_nil_iff.mp hprograms
  | cons run left _ ih =>
    cases h' with
    | nil => cases hprograms
    | cons run' left' rest' =>
      obtain ⟨rfl, hlater⟩ := List.cons_eq_cons.mp hprograms
      obtain rfl := run.iff_eq.mp run'
      obtain rfl := left.eq run.1 left'
      rw [ih rest' hlater]

/--
A limit on loop bodies is transparent for each call of a row, whatever the calls before it have
started and however they have failed: the call ends as the limit makes of it what its program does
without limits on the same machine, if that ends.
-/
theorem cutAt (h : InRow (.iterations limit) machine calls) :
    ∀ call ∈ calls, ∀ free, RunsTo {} call.program call.before free →
      free.CutAt limit call.outcome := by
  intro call hcall free hfree
  obtain ⟨limited, hlimited, hcut⟩ := hfree.exists_cutAt limit
  obtain rfl := (h.runsTo call hcall).iff_eq.mp hlimited
  exact hcut

/--
A row of calls that all start no more bodies than a limit allows is the same row under the limit,
and the only one with these programs.
-/
theorem iterations_iff (h : InRow {} machine calls)
    (hwithin : ∀ call ∈ calls, call.outcome.bodies ≤ limit) {calls' : List Call}
    (hprograms : calls'.map (·.program) = calls.map (·.program)) :
    InRow (.iterations limit) machine calls' ↔ calls' = calls := by
  have hlimited : InRow (.iterations limit) machine calls := by
    clear hprograms
    induction h with
    | nil machine => exact .nil machine
    | cons run left _ ih =>
      obtain ⟨hfirst, hlater⟩ := List.forall_mem_cons.mp hwithin
      obtain ⟨limited, hlimited, hcut⟩ := run.exists_cutAt limit
      obtain rfl := hcut.within hfirst
      exact .cons hlimited left (ih hlater)
  refine ⟨fun h' => hlimited.unique h' hprograms, ?_⟩
  rintro rfl
  exact hlimited

end InRow

/-- Under a limit on loop bodies any programs can be run in a row. -/
theorem exists_inRow (limit : Nat) (programs : List (List Stmt)) (machine : Machine) :
    ∃ calls, calls.map (·.program) = programs ∧ InRow (.iterations limit) machine calls := by
  induction programs generalizing machine with
  | nil => exact ⟨[], rfl, .nil machine⟩
  | cons program programs ih =>
    obtain ⟨outcome, hrun⟩ := exists_runsTo limit program machine
    obtain ⟨after, hafter⟩ := Outcome.exists_machine hrun.1
    obtain ⟨later, rfl, hlater⟩ := ih after
    exact ⟨⟨program, machine, outcome⟩ :: later, rfl, .cons hrun ((hafter _).mpr rfl) hlater⟩

end NumericScript
