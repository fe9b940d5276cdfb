import NumericScript.Proofs.Running.ReadOrder
import NumericScript.Proofs.Running.Writes

/-!
# Finished loops

A loop that finishes goes through whole rounds, in each of which its condition holds, and ends when
its condition does not hold. To evaluate a condition changes nothing that it reads, so that the
condition does not hold afterwards either and the loop, executed again, ends at once. What every
round keeps is kept by the loop.
-/

namespace NumericScript

namespace Machine

/-- Observation leaves the store and the starts of bodies alone and tells what is missing. -/
theorem observe_eq {α : Type} (machine : Machine) (eval : Store → Reading α) :
    machine.observe eval = ((eval machine.env.store).result,
      { machine with env := machine.env.told (eval machine.env.store).missing }) := by
  rw [observe, Environment.observe, EnvironmentOf.reportMissing_eq]

/--
Evaluation leaves the store alone, so that what is evaluated again has the same result and makes the
same reports.
-/
theorem observe_again {α : Type} {machine after : Machine} {eval : Store → Reading α}
    {result : Except ScriptError α} (h : machine.observe eval = (result, after)) :
    after.env.store = machine.env.store ∧
      ∃ again reports, after.env.journal.toList = machine.env.journal.toList ++ reports ∧
        after.observe eval = (result, again) ∧ again.starts = after.starts ∧
        again.env.store = after.env.store ∧
        again.env.journal.toList = after.env.journal.toList ++ reports := by
  rw [observe_eq] at h
  obtain ⟨rfl, rfl⟩ := Prod.mk.inj h
  have htold : ∀ env : Environment, (env.told (eval machine.env.store).missing).journal.toList =
      env.journal.toList ++ (eval machine.env.store).missing.map .undefined := fun _ =>
    Array.toList_append
  exact ⟨rfl, _, _, htold _, observe_eq _ _, rfl, rfl, htold _⟩

/--
One round of a loop: the condition holds, the start of the body exceeds no limit, and the body
finishes.
-/
inductive Round (limits : Limits) (condition : Cond) (body : Machine → Outcome) :
    Machine → Machine → Prop
  | step {machine tested started next : Machine}
    (htest : machine.observe (fun store => condition.eval store) = (.ok true, tested))
    (hstart : tested.startBody limits = (none, started)) (hbody : body started = .finished next) :
    Round limits condition body machine next

/-- One round after the other. -/
abbrev Rounds (limits : Limits) (condition : Cond) (body : Machine → Outcome) :
    Machine → Machine → Prop :=
  Relation.ReflTransGen (Round limits condition body)

variable {limits : Limits} {condition : Cond} {body : Machine → Outcome}
  {machine next after : Machine}

section Keeping

variable {kept : Store → Prop}
  (hbody : ∀ started finished : Machine, (condition.eval started.env.store).result = .ok true →
    kept started.env.store → body started = .finished finished → kept finished.env.store)

include hbody

/-- What is kept by bodies that are executed where the condition holds is kept by a round. -/
theorem Round.keeps (h : Round limits condition body machine next)
    (hkept : kept machine.env.store) : kept next.env.store := by
  obtain ⟨htest, hstart, hfinish⟩ := h
  rw [observe_eq] at htest
  obtain ⟨hholds, rfl⟩ := Prod.mk.inj htest
  obtain ⟨-, rfl⟩ := Prod.mk.inj hstart
  refine hbody _ _ ?_ ?_ hfinish
  · exact hholds
  · exact hkept

private theorem Rounds.keeps (h : Rounds limits condition body machine next)
    (hkept : kept machine.env.store) : kept next.env.store := by
  induction h with
  | refl => exact hkept
  | tail _ hround ih => exact Round.keeps hbody hround ih

end Keeping

/-- A loop that finishes goes through rounds until its condition does not hold. -/
theorem rounds_of_repeatWhile {rounds : Nat}
    (h : repeatWhile limits condition body rounds machine = .finished after) :
    ∃ last, Rounds limits condition body machine last ∧
      last.observe (fun store => condition.eval store) = (.ok false, after) := by
  -- What is left of the loop after one round is a loop again, with fewer rounds to go.
  induction rounds generalizing machine with
  | zero => cases h
  | succ rounds ih =>
    rw [repeatWhile] at h
    split at h
    · cases h
    · rename_i tested htest
      obtain rfl := Outcome.finished.inj h
      exact ⟨machine, .refl, htest⟩
    · rename_i tested htest
      split at h
      · cases h
      · rename_i started hstart
        split at h
        · rename_i next hbody
          obtain ⟨last, hrounds, hlast⟩ := ih h
          exact ⟨last, .head (.step htest hstart hbody) hrounds, hlast⟩
        · cases h
        · cases h

/-- A loop whose condition does not hold ends at once, without starting its body. -/
theorem repeatWhile_of_not (h : machine.observe (fun store => condition.eval store) =
    (.ok false, after)) (limits : Limits) (body : Machine → Outcome) (rounds : Nat) :
    repeatWhile limits condition body (rounds + 1) machine = .finished after := by
  rw [repeatWhile, h]

end Machine

/--
A finished loop is finished. It went through rounds up to a last machine, where its condition was
found not to hold, with some reports. Evaluated again, the condition does not hold either: that
changes no variable and makes the same reports again. So the loop, executed again under whatever
limits, ends on the machine of that evaluation, on which no further body was started. And whatever
is true of the store before the loop, and is kept by each body that finishes where the condition
holds, is true afterwards, when the condition does not hold.
-/
theorem finished_loop_is_over {limits : Limits} {rounds : Nat} {condition : Cond}
    {body : List Stmt} {span : Span} {machine after : Machine}
    (h : (Stmt.loop condition body span).exec limits rounds machine = .finished after) :
    (∃ last again reports,
      Machine.Rounds limits condition (execAll limits rounds body) machine last ∧
      last.observe (fun store => condition.eval store) = (.ok false, after) ∧
      after.env.journal.toList = last.env.journal.toList ++ reports ∧
      after.observe (fun store => condition.eval store) = (.ok false, again) ∧
      (∀ (limits' : Limits) (more : Nat),
        (Stmt.loop condition body span).exec limits' (more + 1) after = .finished again) ∧
      again.starts = after.starts ∧ again.env.store = after.env.store ∧
      again.env.journal.toList = after.env.journal.toList ++ reports) ∧
    ∀ kept : Store → Prop, kept machine.env.store →
      (∀ started finished : Machine, (condition.eval started.env.store).result = .ok true →
        kept started.env.store → execAll limits rounds body started = .finished finished →
        kept finished.env.store) →
      kept after.env.store ∧ (condition.eval after.env.store).result = .ok false := by
  rw [Stmt.exec] at h
  obtain ⟨last, hrounds, htest⟩ := Machine.rounds_of_repeatWhile h
  obtain ⟨hstore, again, reports, hreports, hagain, hstarts, hstored, hrepeated⟩ :=
    Machine.observe_again htest
  refine ⟨⟨last, again, reports, hrounds, htest, hreports, hagain, fun limits' more => ?_, hstarts,
    hstored, hrepeated⟩, fun kept hkept hbody => ⟨?_, ?_⟩⟩
  · rw [Stmt.exec]
    exact Machine.repeatWhile_of_not hagain limits' _ more
  · rw [hstore]
    exact Machine.Rounds.keeps hbody hrounds hkept
  · rw [Machine.observe_eq] at hagain
    exact (Prod.mk.inj hagain).1

/-- The condition of a loop whose bound reads `k`, which is not set. -/
def openBound : Cond :=
  .compare .less (.scalar "i" default)
    (.binary .sub (.number (.ofDecimal 2 0) default) (.scalar "k" default) default) default

/-- The body of a loop that counts, and writes nothing else. -/
def countOn : List Stmt :=
  [.assign (.scalar "i" default)
    (.binary .add (.scalar "i" default) (.number .one default) default) default]

/-- The loop starts its body twice; executed again, it reports `k` once more. It keeps `pi`. -/
theorem finished_loop_is_over_openBound :
    ∃ after again, (Stmt.loop openBound countOn default).exec {} 3 ⟨.fresh, #[]⟩ = .finished after ∧
      after.starts.size = 2 ∧
      (Stmt.loop openBound countOn default).exec {} 1 after = .finished again ∧
      again.starts = after.starts ∧ again.env.store = after.env.store ∧
      again.env.journal.toList = after.env.journal.toList ++ [DiagnosticOf.undefined "k"] ∧
      after.env.store[Address.scalar "pi"]? = some .pi := by
  have hread : ((Stmt.loop openBound countOn default).exec {} 3 ⟨.fresh, #[]⟩).machine?.map
      (fun after =>
        let again := (after.observe fun store => openBound.eval store).2
        (after.starts.size, again.env.journal.toList.drop after.env.journal.toList.length)) =
      some (2, [DiagnosticOf.undefined "k"]) := by
    decide +kernel
  obtain ⟨after, hafter, hfound⟩ := Option.map_eq_some_iff.mp hread
  obtain ⟨hsize, hmissing⟩ := Prod.mk.inj hfound
  have hrun := Outcome.machine?_eq_some.mp hafter
  obtain ⟨⟨_, again, reports, -, -, -, hagain, hends, hstarts, hstore, hrepeated⟩, hkeeps⟩ :=
    finished_loop_is_over hrun
  rw [hagain, hrepeated, List.drop_left] at hmissing
  have hpi : Environment.fresh.store[Address.scalar "pi"]? = some .pi := by decide +kernel
  have hkept := hkeeps (fun store => store[Address.scalar "pi"]? = some .pi) hpi
    fun started finished _ hbefore hfinish => by
      have hwrites : (execAll {} 3 countOn started).Leaves fun last =>
          started.env.WritesOnly (· = .scalar "i") last.env :=
        (performs_writesOnly {} (· = .scalar "i")).execAll countOn
          (List.forall_mem_singleton.mpr fun _ => rfl) started
      rw [hfinish] at hwrites
      exact (hwrites.kept (.scalar "pi") (by decide)).trans hbefore
  exact ⟨after, again, hrun, hsize, hends {} 0, hstarts, hstore, hmissing ▸ hrepeated, hkept.1⟩

end NumericScript
