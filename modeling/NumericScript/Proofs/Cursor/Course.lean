import NumericScript.Grammar.Program

/-!
# Runs of a machine

A run of a machine with a state ends with a result or is halted, and it leaves the state as it is in
both cases. The parts of a machine that call themselves or each other are called by name, so that a
run can be followed up to any number of calls inside each other. A run that has not ended within any
such number has no outcome. Whatever a machine could not survive is a fault: a cursor that leaves
its text, a difference below zero, an arm that should not be reached, and a step of a loop that
takes nothing.
-/

namespace NumericScript

/-- What no run of the machine survives. -/
inductive Fault
  /-- A cursor outside the text, a slice that the text does not have, or a depth above the limit. -/
  | outOfBounds
  /-- A difference below zero. -/
  | unbalanced
  /-- An arm that is there for completeness. -/
  | unreachable
  /-- A step that takes nothing, so that the loop around it would not come to an end. -/
  | idle

/-- Why a run has no result. -/
inductive Halt
  | fault (fault : Fault)
  | error (error : ScriptError)

/-- How the calls of the parts of a machine end, as far as that is known. -/
def Calls (part : Type → Type) (σ : Type) : Type 1 :=
  (α : Type) → part α → σ → Option (Except Halt α × σ)

/-- A run of a machine with a state, which goes by what its calls come to. -/
def Course (part : Type → Type) (σ α : Type) : Type 1 :=
  Calls part σ → σ → Option (Except Halt α × σ)

namespace Course

variable {part : Type → Type} {σ α β : Type}

/-- A run that is over. -/
def ended (result : Except Halt α) : Course part σ α := fun _ state => some (result, state)

/-- Go on after a run, however it has ended. -/
def after (course : Course part σ α) (f : Except Halt α → Course part σ β) : Course part σ β :=
  fun calls state =>
    match course calls state with
    | none => none
    | some (result, last) => f result calls last

instance : Monad (Course part σ) where
  pure a := ended (.ok a)
  bind course f := course.after fun
    | .ok a => f a
    | .error halt => ended (.error halt)

instance : MonadStateOf σ (Course part σ) where
  get := fun _ state => some (.ok state, state)
  set state := fun _ _ => some (.ok (), state)
  modifyGet f := fun _ state => some (.ok (f state).1, (f state).2)

/-- Enter a part of the machine by its name. -/
def enter (callee : part α) : Course part σ α := fun calls state => calls α callee state

/-- End with an error of the script. -/
def refuse (span : Span) (cause : Cause) : Course part σ α := ended (.error (.error ⟨span, cause⟩))

/-- End with a fault of the machine. -/
def crash (fault : Fault) : Course part σ α := ended (.error (.fault fault))

end Course

/-- What the parts of a machine do. -/
class Mechanism (part : Type → Type) (σ : outParam Type) where
  body {α : Type} (callee : part α) : Course part σ α

namespace Course

variable {part : Type → Type} {σ α β : Type} [Mechanism part σ]

/-- How calls end if no more than some number of them are open at once. -/
def callsWithin : Nat → Calls part σ
  | 0, _, _, _ => none
  | n + 1, _, callee, state => Mechanism.body callee (callsWithin n) state

/-- A run ends if it does so however many more calls could be open than some number of them. -/
def Ends (course : Course part σ α) (state : σ) (outcome : Except Halt α × σ) : Prop :=
  ∃ enough, ∀ n ≥ enough, course (callsWithin n) state = some outcome

open Classical in
/-- How a run ends that starts in a state, if it ends. -/
noncomputable def endsAt (course : Course part σ α) (state : σ) : Option (Except Halt α × σ) :=
  if h : ∃ outcome, course.Ends state outcome then some h.choose else none

section

variable {course : Course part σ α} {state last : σ} {outcome : Except Halt α × σ}

private theorem Ends.unique {outcome' : Except Halt α × σ} (h : course.Ends state outcome)
    (h' : course.Ends state outcome') : outcome = outcome' := by
  obtain ⟨enough, h⟩ := h
  obtain ⟨enough', h'⟩ := h'
  have heq := (h _ (Nat.le_max_left enough enough')).symm.trans (h' _ (Nat.le_max_right _ _))
  exact Option.some.inj heq

private theorem endsAt_eq_some :
    course.endsAt state = some outcome ↔ course.Ends state outcome := by
  rw [endsAt]
  constructor
  · intro h
    split at h
    · rename_i hends
      exact Option.some.inj h ▸ hends.choose_spec
    · cases h
  · intro h
    have hends : ∃ outcome, course.Ends state outcome := ⟨outcome, h⟩
    rw [dif_pos hends, hends.choose_spec.unique h]

/-- Runs end alike if they do so as soon as enough calls may be open. -/
theorem endsAt_congr {course' : Course part σ α} {state' : σ}
    (h : ∀ outcome, course.Ends state outcome ↔ course'.Ends state' outcome) :
    course.endsAt state = course'.endsAt state' :=
  Option.ext fun outcome => by
    rw [endsAt_eq_some, endsAt_eq_some, h]

/-- What a run comes to without a call. -/
theorem endsAt_of_run (h : ∀ calls, course calls state = some outcome) :
    course.endsAt state = some outcome :=
  endsAt_eq_some.mpr ⟨0, fun _ _ => h _⟩

theorem endsAt_pure (a : α) : (pure a : Course part σ α).endsAt state = some (.ok a, state) :=
  endsAt_of_run fun _ => rfl

theorem endsAt_get : (get : Course part σ σ).endsAt state = some (.ok state, state) :=
  endsAt_of_run fun _ => rfl

/-- A refusal ends a run where it stands. -/
theorem endsAt_refuse (span : Span) (cause : Cause) :
    (refuse span cause : Course part σ α).endsAt state =
      some (.error (.error ⟨span, cause⟩), state) :=
  endsAt_of_run fun _ => rfl

/-- A call ends as the part does that it is a call of. -/
theorem endsAt_enter (callee : part α) (state : σ) :
    (enter callee).endsAt state = (Mechanism.body callee).endsAt state := by
  refine endsAt_congr fun outcome => ⟨?_, ?_⟩
  · rintro ⟨enough, h⟩
    exact ⟨enough, fun n hn => h (n + 1) (Nat.le_succ_of_le hn)⟩
  · rintro ⟨enough, h⟩
    refine ⟨enough + 1, fun n hn => ?_⟩
    obtain ⟨n, rfl⟩ := Nat.exists_eq_succ_of_ne_zero (Nat.ne_of_gt (Nat.zero_lt_of_lt hn))
    exact h n (Nat.le_of_succ_le_succ hn)

/-- What goes on after a run depends on how that run has ended. -/
theorem endsAt_after {result : Except Halt α} {f : Except Halt α → Course part σ β}
    (h : course.endsAt state = some (result, last)) :
    (course.after f).endsAt state = (f result).endsAt last := by
  obtain ⟨enough, h⟩ := endsAt_eq_some.mp h
  have hafter : ∀ n ≥ enough,
      course.after f (callsWithin n) state = f result (callsWithin n) last := fun n hn => by
    simp only [after, h n hn]
  have hle : ∀ least n, n ≥ max enough least → n ≥ enough ∧ n ≥ least := fun least n hn =>
    ⟨Nat.le_trans (Nat.le_max_left enough least) hn, Nat.le_trans (Nat.le_max_right _ _) hn⟩
  refine endsAt_congr fun outcome => ⟨?_, ?_⟩
  all_goals
    rintro ⟨least, hends⟩
    refine ⟨max enough least, fun n hn => ?_⟩
  · rw [← hafter n (hle least n hn).1, hends n (hle least n hn).2]
  · rw [hafter n (hle least n hn).1, hends n (hle least n hn).2]

variable {f : α → Course part σ β}

omit [Mechanism part σ] in
theorem bind_of_pure (a : α) : (pure a : Course part σ α) >>= f = f a := rfl

/-- A run goes on after a part that has a result. -/
theorem endsAt_bind_ok {a : α} (h : course.endsAt state = some (.ok a, last)) :
    (course >>= f).endsAt state = (f a).endsAt last :=
  endsAt_after h

/-- A run is halted with its part. -/
theorem endsAt_bind_error {halt : Halt} (h : course.endsAt state = some (.error halt, last)) :
    (course >>= f).endsAt state = some (.error halt, last) :=
  (endsAt_after h).trans (endsAt_of_run fun _ => rfl)

end

end Course

end NumericScript
