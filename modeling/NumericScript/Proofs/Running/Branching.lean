import NumericScript.Proofs.Running.Reach

/-!
# Branches in a row

An if statement decides on its conditions in order and executes the body of the first one that
holds. So every further branch is as good as an if statement in an `else` block, wherever in a
program it stands.
-/

namespace NumericScript

/-- One branch of an if statement: a condition and what is executed if it is the first to hold. -/
structure Arm where
  condition : Cond
  body : List Stmt

/-- What is done otherwise: further branches and, if none of them is taken, a last block. -/
def Chain.ofArms : List Arm → Option (List Stmt) → Chain
  | [], none => .done
  | [], some body => .block body
  | arm :: more, last => .branch arm.condition arm.body (ofArms more last)

/-- An if statement with its branches in a row and a last block, which may be missing. -/
def Stmt.conditional (first : Arm) (more : List Arm) (last : Option (List Stmt)) (span : Span) :
    Stmt :=
  .branch first.condition first.body (.ofArms more last) span

private theorem Chain.exists_arms (chain : Chain) : ∃ more last, chain = ofArms more last := by
  cases chain with
  | done => exact ⟨[], none, rfl⟩
  | block body => exact ⟨[], some body, rfl⟩
  | branch condition body otherwise =>
    obtain ⟨more, last, rfl⟩ := otherwise.exists_arms
    exact ⟨⟨condition, body⟩ :: more, last, rfl⟩

/-- Every if statement has its branches in a row. -/
theorem Stmt.exists_conditional (condition : Cond) (body : List Stmt) (otherwise : Chain)
    (span : Span) : ∃ more last,
      Stmt.branch condition body otherwise span = conditional ⟨condition, body⟩ more last span := by
  obtain ⟨more, last, rfl⟩ := otherwise.exists_arms
  exact ⟨more, last, rfl⟩

section Choice

variable {limits : Limits} {rounds : Nat}

/--
Decide on the conditions of branches in order and execute the body of the first one that holds, or
the last block if none does. What fails to be decided ends the choice.
-/
def Machine.choose (limits : Limits) (rounds : Nat) (last : Option (List Stmt)) :
    List Arm → Machine → Outcome
  | [], machine => execAll limits rounds (last.getD []) machine
  | arm :: more, machine =>
    machine.branch arm.condition (execAll limits rounds arm.body) (choose limits rounds last more)

private theorem Chain.exec_ofArms (last : Option (List Stmt)) (more : List Arm)
    (machine : Machine) :
    (ofArms more last).exec limits rounds machine = machine.choose limits rounds last more := by
  induction more generalizing machine with
  | nil => cases last <;> rfl
  | cons arm more ih =>
    rw [ofArms, Chain.exec_branch, Machine.choose]
    exact congrArg (machine.branch _ _) (funext ih)

/-- An if statement chooses among its branches. -/
theorem Stmt.exec_conditional (first : Arm) (more : List Arm) (last : Option (List Stmt))
    (span : Span) (machine : Machine) :
    (conditional first more last span).exec limits rounds machine =
      machine.choose limits rounds last (first :: more) := by
  rw [conditional, Stmt.exec_branch, Machine.choose]
  exact congrArg (machine.branch _ _) (funext (Chain.exec_ofArms last more))

private theorem execAll_singleton (s : Stmt) (machine : Machine) :
    execAll limits rounds [s] machine = s.exec limits rounds machine := by
  rw [execAll]
  cases s.exec limits rounds machine <;> rfl

/-- To choose among branches after the first one is to execute an if statement of these. -/
theorem Machine.choose_cons (first second : Arm) (more : List Arm) (last : Option (List Stmt))
    (span : Span) (machine : Machine) :
    machine.choose limits rounds last (first :: second :: more) =
      machine.choose limits rounds (some [.conditional second more last span]) [first] := by
  rw [choose, choose]
  refine congrArg (machine.branch _ _) (funext fun after => ?_)
  rw [choose, Option.getD_some, execAll_singleton, Stmt.exec_conditional]

/-- The branches after the first one are as good as an if statement in the last block. -/
theorem Stmt.exec_nest (first second : Arm) (more : List Arm) (last : Option (List Stmt))
    (span inner : Span) (machine : Machine) :
    (conditional first (second :: more) last span).exec limits rounds machine =
      (conditional first [] (some [conditional second more last inner]) span).exec limits rounds
        machine := by
  rw [exec_conditional, exec_conditional, Machine.choose_cons]

end Choice

section Nesting

mutual

/--
Put the branches after the first one of every if statement into an `else` block, as an if statement
of their own. The new if statements are given spans by what they come from.
-/
def Stmt.nested (place : Chain → Span) : Stmt → Stmt
  | .assign target value span => .assign target value span
  | .block body span => .block (nestedAll place body) span
  | .branch condition body otherwise span =>
    .branch condition (nestedAll place body) (otherwise.nested place) span
  | .loop condition body span => .loop condition (nestedAll place body) span

/-- What a branch does otherwise, with further branches in an if statement of their own. -/
def Chain.nested (place : Chain → Span) : Chain → Chain
  | .done => .done
  | .block body => .block (nestedAll place body)
  | .branch condition body otherwise =>
    .block [.branch condition (nestedAll place body) (otherwise.nested place)
      (place (.branch condition body otherwise))]

/-- Statements with the branches of every if statement in them nested. -/
def nestedAll (place : Chain → Span) : List Stmt → List Stmt
  | [] => []
  | s :: later => s.nested place :: nestedAll place later

end

mutual

/-- Whether no if statement has more than one branch, at any depth. -/
def Stmt.SingleBranched : Stmt → Prop
  | .assign .. => True
  | .block body _ => AllSingleBranched body
  | .branch _ body otherwise _ => AllSingleBranched body ∧ otherwise.SingleBranched
  | .loop _ body _ => AllSingleBranched body

/-- Whether there is at most a block, and no if statement in it has more than one branch. -/
def Chain.SingleBranched : Chain → Prop
  | .done => True
  | .block body => AllSingleBranched body
  | .branch .. => False

/-- Whether no if statement in some statements has more than one branch, at any depth. -/
def AllSingleBranched : List Stmt → Prop
  | [] => True
  | s :: later => s.SingleBranched ∧ AllSingleBranched later

end

variable (place : Chain → Span)

mutual

private theorem Stmt.singleBranched_nested : ∀ s : Stmt, (s.nested place).SingleBranched
  | .assign .. => trivial
  | .block body _ => allSingleBranched_nestedAll body
  | .branch _ body otherwise _ =>
    ⟨allSingleBranched_nestedAll body, otherwise.singleBranched_nested⟩
  | .loop _ body _ => allSingleBranched_nestedAll body

private theorem Chain.singleBranched_nested : ∀ chain : Chain, (chain.nested place).SingleBranched
  | .done => trivial
  | .block body => allSingleBranched_nestedAll body
  | .branch _ body otherwise =>
    ⟨⟨allSingleBranched_nestedAll body, otherwise.singleBranched_nested⟩, trivial⟩

/-- After nesting there is no second branch left anywhere. -/
theorem allSingleBranched_nestedAll : ∀ stmts : List Stmt,
    AllSingleBranched (nestedAll place stmts)
  | [] => trivial
  | s :: later => ⟨s.singleBranched_nested, allSingleBranched_nestedAll later⟩

end

variable {limits : Limits} {rounds : Nat}

mutual

private theorem Stmt.exec_nested : ∀ (s : Stmt) (machine : Machine),
    (s.nested place).exec limits rounds machine = s.exec limits rounds machine
  | .assign .., _ => rfl
  | .block body _, machine => execAll_nestedAll body machine
  | .branch condition body otherwise _, machine => by
    rw [Stmt.nested, Stmt.exec_branch, Stmt.exec_branch, funext (execAll_nestedAll body),
      funext (Chain.exec_nested otherwise)]
  | .loop condition body _, machine => by
    rw [Stmt.nested, Stmt.exec, Stmt.exec, funext (execAll_nestedAll body)]

private theorem Chain.exec_nested : ∀ (chain : Chain) (machine : Machine),
    (chain.nested place).exec limits rounds machine = chain.exec limits rounds machine
  | .done, _ => rfl
  | .block body, machine => execAll_nestedAll body machine
  | .branch condition body otherwise, machine => by
    rw [Chain.nested, Chain.exec, execAll_singleton, Stmt.exec_branch, Chain.exec_branch,
      funext (execAll_nestedAll body), funext (Chain.exec_nested otherwise)]

/-- Nested statements do what the statements do. -/
theorem execAll_nestedAll : ∀ (stmts : List Stmt) (machine : Machine),
    execAll limits rounds (nestedAll place stmts) machine = execAll limits rounds stmts machine
  | [], _ => rfl
  | s :: later, machine => by
    rw [nestedAll, execAll, execAll, Stmt.exec_nested s machine, funext (execAll_nestedAll later)]

end

end Nesting

/--
Branches in a row are nested if statements. Every if statement is a list of branches and a last
block, which may be missing; to execute it is to go through the list until a condition holds or
fails to be decided, and to execute the last block if none holds. Under any limits and from any
machine, an if statement with several branches comes to the same outcome, with the same machine, as
the one with only the first branch and, as its last block, the if statement of the other branches.
The same holds of a whole program in which the branches of all if statements are nested in this way,
so that none of them has a second branch any more, whatever spans the new if statements are given.
-/
theorem elif_is_nested_if (limits : Limits) (rounds : Nat) :
    (∀ (condition : Cond) (body : List Stmt) (otherwise : Chain) (span : Span),
      ∃ more last,
        Stmt.branch condition body otherwise span = .conditional ⟨condition, body⟩ more last span ∧
        ∀ machine, (Stmt.branch condition body otherwise span).exec limits rounds machine =
          machine.choose limits rounds last (⟨condition, body⟩ :: more)) ∧
      (∀ (condition : Cond) (body : List Stmt) (second : Cond) (secondBody : List Stmt)
        (otherwise : Chain) (span inner : Span) (machine : Machine),
        (Stmt.branch condition body (.branch second secondBody otherwise) span).exec limits rounds
            machine =
          (Stmt.branch condition body (.block [.branch second secondBody otherwise inner])
            span).exec limits rounds machine) ∧
      (∀ (first second : Arm) (more : List Arm) (last : Option (List Stmt)) (span inner : Span)
        (machine : Machine),
        (Stmt.conditional first (second :: more) last span).exec limits rounds machine =
          (Stmt.conditional first [] (some [.conditional second more last inner]) span).exec limits
            rounds machine) ∧
      ∀ (place : Chain → Span) (program : List Stmt),
        AllSingleBranched (nestedAll place program) ∧
          (∀ machine, execAll limits rounds (nestedAll place program) machine =
            execAll limits rounds program machine) ∧
          ∀ env, runProgram limits rounds (nestedAll place program) env =
            runProgram limits rounds program env := by
  refine ⟨fun condition body otherwise span => ?_,
    fun condition body second secondBody otherwise span inner machine => ?_,
    fun first second more last span inner machine => ?_, fun place program => ?_⟩
  · obtain ⟨more, last, heq⟩ := Stmt.exists_conditional condition body otherwise span
    exact ⟨more, last, heq, fun machine => heq ▸ Stmt.exec_conditional _ more last span machine⟩
  · obtain ⟨more, last, rfl⟩ := otherwise.exists_arms
    exact Stmt.exec_nest ⟨condition, body⟩ ⟨second, secondBody⟩ more last span inner machine
  · exact Stmt.exec_nest first second more last span inner machine
  · exact ⟨allSingleBranched_nestedAll place program, execAll_nestedAll place program,
      fun env => execAll_nestedAll place program _⟩

end NumericScript
