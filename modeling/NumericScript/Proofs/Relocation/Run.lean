import NumericScript.Proofs.Relocation.Move
import NumericScript.Proofs.Running.Reach

/-!
# Runs of moved programs

A moved program does what the program does. Only the places of its errors are moved.
-/

namespace NumericScript

variable {f : Motion}

section Evaluation

/-- Move the error of a reading, if there is one. -/
def Reading.move {α : Type} (f : Motion) (reading : Reading α) : Reading α :=
  ⟨reading.missing, reading.result.mapError (Movable.move f)⟩

private theorem Reading.bind_move {α β : Type} (reading : Reading α) (next : α → Reading β) :
    (reading.move f >>= fun a => (next a).move f) = (reading >>= next).move f := by
  show (reading.move f).andThen _ = (reading.andThen next).move f
  obtain ⟨missing, error | a⟩ := reading <;> rfl

private theorem Reading.index_move (span : Span) (value : Single) :
    index (f.span span) value = (index span value).move f := by
  unfold index
  split <;> rfl

private theorem Reading.look_move (store : Store) (address : Address) :
    look store address = (look store address).move f := by
  unfold look
  split <;> rfl

/-- A moved expression has the same value, with its failure in the moved place. -/
theorem Expr.eval_move (store : Store) (e : Expr) :
    (Movable.move f e).eval store = (e.eval store).move f := by
  show (e.move f).eval store = _
  induction e with
  | number value => rfl
  | scalar name => exact Reading.look_move store _
  | element name index span ih =>
    rw [Expr.move, eval, eval, ih, ← Reading.bind_move]
    refine congrArg _ (funext fun value => ?_)
    rw [← Reading.bind_move, ← Reading.index_move, ← Expr.span_move]
    refine congrArg _ (funext fun position => ?_)
    exact Reading.look_move store _
  | binary op left right span ihl ihr =>
    rw [Expr.move, eval, eval, ihl, ihr, ← Reading.bind_move]
    refine congrArg _ (funext fun x => ?_)
    rw [← Reading.bind_move]
    rfl
  | negate operand span ih =>
    rw [Expr.move, eval, eval, ih, ← Reading.bind_move]
    rfl
  | call builtin argument span ih =>
    rw [Expr.move, eval, eval, ih, ← Reading.bind_move]
    rfl
  | group inner span ih => exact ih

private theorem Expr.evalIndex_move (store : Store) (index : Expr) :
    (Movable.move f index).evalIndex store = (index.evalIndex store).move f := by
  rw [evalIndex, evalIndex, eval_move, ← Reading.bind_move, Expr.span_move]
  exact congrArg _ (funext fun value => Reading.index_move _ value)

/-- A moved condition has the same value, with its failure in the moved place. -/
theorem Cond.eval_move (store : Store) (c : Cond) :
    (Movable.move f c).eval store = (c.eval store).move f := by
  show (c.move f).eval store = _
  induction c with
  | compare op left right span =>
    have hleft : (left.move f).eval store = (left.eval store).move f := left.eval_move store
    have hright : (right.move f).eval store = (right.eval store).move f := right.eval_move store
    rw [Cond.move, eval, eval, hleft, hright, ← Reading.bind_move]
    refine congrArg _ (funext fun x => ?_)
    rw [← Reading.bind_move]
    rfl
  | logical op left right span ihl ihr =>
    rw [Cond.move, eval, eval, ihl, ihr, ← Reading.bind_move]
    refine congrArg _ (funext fun x => ?_)
    rw [← Reading.bind_move]
    rfl

end Evaluation

/-- Move the error of an outcome, if there is one. -/
def Outcome.move (f : Motion) : Outcome → Outcome
  | finished machine => finished machine
  | failed error machine => failed (Movable.move f error) machine
  | unfinished => unfinished

section Execution

variable {limits : Limits} {rounds : Nat}

private theorem Outcome.andThen_move (outcome : Outcome) (next : Machine → Outcome) :
    ((outcome.move f).andThen fun machine => (next machine).move f) =
      (outcome.andThen next).move f := by
  cases outcome <;> rfl

private theorem Machine.observe_move {α : Type} (machine : Machine) (eval : Store → Reading α) :
    (machine.observe fun store => (eval store).move f) =
      ((machine.observe eval).1.mapError (Movable.move f), (machine.observe eval).2) := rfl

private theorem Machine.assign_move (machine : Machine) (target : Target) (value : Expr) :
    machine.assign (Movable.move f target) (Movable.move f value) =
      (machine.assign target value).move f := by
  unfold assign
  simp only [Expr.eval_move, observe_move]
  rcases machine.observe fun store => value.eval store with ⟨error | written, after⟩
  · rfl
  · cases target with
    | scalar name => rfl
    | element name index =>
      have hindex : (index.move f).evalIndex = fun store => (index.evalIndex store).move f :=
        funext index.evalIndex_move
      have hobserve : after.observe (index.move f).evalIndex =
          ((after.observe index.evalIndex).1.mapError (Movable.move f),
            (after.observe index.evalIndex).2) := by
        rw [hindex, observe_move]
      have hwritten : (Except.ok written).mapError (move f) =
          (.ok written : Except ScriptError Single) := rfl
      rw [hwritten]
      simp only [Movable.move, Target.move, hobserve]
      rcases after.observe fun store => index.evalIndex store with ⟨error | position, last⟩ <;> rfl

private theorem Machine.branch_move (machine : Machine) (condition : Cond)
    (yes no : Machine → Outcome) :
    (machine.branch (Movable.move f condition) (fun machine => (yes machine).move f)
      fun machine => (no machine).move f) = (machine.branch condition yes no).move f := by
  unfold branch
  simp only [Cond.eval_move, observe_move]
  rcases machine.observe fun store => condition.eval store with ⟨error | holds, after⟩
  · rfl
  · cases holds <;> rfl

private theorem Machine.enter_move (machine : Machine) (span : Span) (body : Machine → Outcome) :
    (machine.enter limits (f.span span) fun machine => (body machine).move f) =
      (machine.enter limits span body).move f := by
  unfold enter
  split <;> rfl

private theorem repeatWhile_move (condition : Cond) (body : Machine → Outcome) (rounds : Nat)
    (machine : Machine) :
    repeatWhile limits (move f condition) (fun machine => (body machine).move f) rounds machine =
      (repeatWhile limits condition body rounds machine).move f := by
  induction rounds generalizing machine with
  | zero => rfl
  | succ rounds ih =>
    rw [repeatWhile_succ, repeatWhile_succ, ← Machine.branch_move]
    refine congrArg (machine.branch _ · _) (funext fun after => ?_)
    rw [← Machine.enter_move, Cond.span_move]
    refine congrArg (after.enter limits _) (funext fun started => ?_)
    rw [← Outcome.andThen_move]
    exact congrArg _ (funext ih)

mutual

private theorem Stmt.exec_move : ∀ (s : Stmt) (machine : Machine),
    (s.move f).exec limits rounds machine = (s.exec limits rounds machine).move f
  | .assign target value _, machine => machine.assign_move target value
  | .block body _, machine => execAll_move body machine
  | .branch condition body otherwise _, machine => by
    have hbody := funext (execAll_move body)
    have hotherwise := funext (Chain.exec_move otherwise)
    rw [Stmt.move, Stmt.exec_branch, Stmt.exec_branch, ← Machine.branch_move, ← hbody, ← hotherwise]
    rfl
  | .loop condition body _, machine => by
    have hbody := funext (execAll_move body)
    rw [Stmt.move, Stmt.exec, Stmt.exec, ← repeatWhile_move, ← hbody]
    rfl

private theorem Chain.exec_move : ∀ (chain : Chain) (machine : Machine),
    (chain.move f).exec limits rounds machine = (chain.exec limits rounds machine).move f
  | .done, machine => rfl
  | .block body, machine => execAll_move body machine
  | .branch condition body otherwise, machine => by
    have hbody := funext (execAll_move body)
    have hotherwise := funext (Chain.exec_move otherwise)
    rw [Chain.move, Chain.exec_branch, Chain.exec_branch, ← Machine.branch_move, ← hbody,
      ← hotherwise]
    rfl

/-- Moved statements do what the statements do. -/
theorem execAll_move : ∀ (stmts : List Stmt) (machine : Machine),
    execAll limits rounds (moveAll f stmts) machine = (execAll limits rounds stmts machine).move f
  | [], _ => rfl
  | s :: later, machine => by
    rw [moveAll, execAll, execAll, s.exec_move machine, ← Outcome.andThen_move]
    exact congrArg _ (funext (execAll_move later))

end

end Execution

end NumericScript
