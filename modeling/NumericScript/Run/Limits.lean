import NumericScript.Error

/-!
# Limits

A run may be limited in the loop bodies that it starts, over all loops together, and in the time
that has passed when it starts one.
-/

namespace NumericScript

/-- The limits of a run; without any, a loop may go on forever. -/
structure Limits where
  /-- How many loop bodies a run may start. -/
  maxIterations : Option Nat := none
  /-- How many milliseconds may have passed when a loop body starts. -/
  timeout : Option Nat := none
  /--
  The nanoseconds that have passed when the loop body with a number, counted from one, starts.
  -/
  elapsed : Nat → Nat := fun _ => 1

/-- The limit that the start of a loop body exceeds, the number of bodies first. -/
def Limits.exceeded? (limits : Limits) (iteration : Nat) : Option Cause :=
  match limits.maxIterations with
  | some limit => if limit < iteration then some (.iterationLimit limit) else late?
  | none => late?
where
  /-- The time limit, if it has passed. -/
  late? : Option Cause :=
    match limits.timeout with
    | some limit =>
      if limit * 1000000 < limits.elapsed iteration then some (.timeLimit limit) else none
    | none => none

end NumericScript
