import NumericScript.Proofs.Glyph.Tree
import NumericScript.Grammar.Expr

/-!
# Levels of nesting

How deep the operands of a tree and its blocks are nested. Operands of a chain are counted: each
is one level deeper than the one before, and the chain's first operand is as deep as the chain.
The joins of conditions count nothing.
-/

namespace NumericScript

/-- The number of operators in the chain of `+` and `-` that an expression is. -/
def Expr.sums : Expr → Nat
  | binary .add left _ _ | binary .sub left _ _ => left.sums + 1
  | _ => 0

/-- The number of operators in the chain of `*` and `/` that an expression is. -/
def Expr.products : Expr → Nat
  | binary .mul left _ _ | binary .div left _ _ => left.products + 1
  | _ => 0

/-- How many levels deeper than its chain the right side of an operator is, given the left side. -/
def BinaryOp.depth (op : BinaryOp) (left : Expr) : Nat :=
  match op with
  | add | sub => left.sums + 1
  | mul | div => left.products + 1
  | pow => 1

/-- The levels of the operands of an expression. -/
def Expr.levels : Expr → List Nat
  | number .. | scalar .. => [1]
  | element _ index _ => index.levels.map (· + 1)
  | binary op left right _ => left.levels ++ right.levels.map (· + op.depth left)
  | negate operand _ => operand.levels.map (· + 1)
  | call _ argument _ => argument.levels.map (· + 1)
  | group inner _ => inner.levels.map (· + 1)

/-- The levels of the operands of a condition. -/
def Cond.levels : Cond → List Nat
  | compare _ left right _ => left.levels ++ right.levels
  | logical _ left right _ => left.levels ++ right.levels

/-- The levels of the operands of a target; its own brackets do not count. -/
def Target.levels : Target → List Nat
  | scalar .. => []
  | element _ index _ => index.levels

/-- The level of a block and the levels of what is in it. -/
def blockLevels (body : List Nat) : List Nat := 1 :: body.map (· + 1)

mutual

/-- The levels of the operands and blocks of a statement. -/
def Stmt.levels : Stmt → List Nat
  | .assign target value _ => target.levels ++ value.levels
  | .block body _ => blockLevels (levelsOf body)
  | .branch condition body otherwise _ =>
    condition.levels ++ (blockLevels (levelsOf body) ++ otherwise.levels)
  | .loop condition body _ => condition.levels ++ blockLevels (levelsOf body)

/-- The levels of the operands and blocks of what a branch does otherwise. -/
def Chain.levels : Chain → List Nat
  | .done => []
  | .block body => blockLevels (levelsOf body)
  | .branch condition body otherwise =>
    condition.levels ++ (blockLevels (levelsOf body) ++ otherwise.levels)

/-- The levels of the operands and blocks of statements. -/
def levelsOf : List Stmt → List Nat
  | [] => []
  | stmt :: later => stmt.levels ++ levelsOf later

end

/-- No level is beyond a bound. -/
def Within (levels : List Nat) (room : Nat) : Prop := ∀ level ∈ levels, level ≤ room

instance (levels : List Nat) (room : Nat) : Decidable (Within levels room) :=
  inferInstanceAs (Decidable (∀ level ∈ levels, level ≤ room))

@[simp] theorem within_nil (room : Nat) : Within [] room := nofun

@[simp] theorem within_append {levels later : List Nat} {room : Nat} :
    Within (levels ++ later) room ↔ Within levels room ∧ Within later room :=
  List.forall_mem_append

/-- Below a node that counts for some levels there are as many levels less. -/
theorem within_map {levels : List Nat} {depth room : Nat} (h : ∀ level ∈ levels, 1 ≤ level) :
    Within (levels.map (· + depth)) room ↔ Within levels (room - depth) := by
  simp only [Within, List.forall_mem_map]
  refine forall₂_congr fun level hm => ?_
  have := h level hm
  omega

private theorem Expr.one_le_levels (e : Expr) : ∀ level ∈ e.levels, 1 ≤ level := by
  induction e with
  | number | scalar => simp [levels]
  | element _ _ _ ih | negate _ _ ih | call _ _ _ ih | group _ _ ih => simp [levels]
  | binary op left right _ ihl ihr =>
    intro level hm
    rcases List.mem_append.mp hm with hm | hm
    · exact ihl level hm
    · obtain ⟨below, hbelow, rfl⟩ := List.mem_map.mp hm
      exact Nat.le_trans (ihr below hbelow) (Nat.le_add_right ..)

private theorem Expr.levels_ne_nil (e : Expr) : e.levels ≠ [] := by
  induction e <;> simp_all [levels]

/-- Where no level is free there is no expression. -/
theorem Expr.not_within_zero (e : Expr) : ¬Within e.levels 0 := by
  intro h
  obtain ⟨level, hm⟩ := List.exists_mem_of_ne_nil _ e.levels_ne_nil
  exact absurd (e.one_le_levels level hm) (by have := h level hm; omega)

/--
The levels of a binary tree fit if those of its left side do, and those of its right side in what
the operator leaves.
-/
theorem Expr.within_binary {op : BinaryOp} {left right : Expr} {span : Span} {room : Nat} :
    Within (binary op left right span).levels room ↔
      Within left.levels room ∧ Within right.levels (room - op.depth left) := by
  rw [levels, within_append, within_map right.one_le_levels]

/-- One level deeper there is one level less. -/
theorem Expr.within_deeper {e : Expr} {room : Nat} :
    Within (e.levels.map (· + 1)) room ↔ Within e.levels (room - 1) :=
  within_map e.one_le_levels

/-- A block takes one level, and what is in it has the levels that are left. -/
theorem within_block {body : List Nat} {room : Nat} :
    Within (blockLevels body) (room + 1) ↔ Within body room := by
  simp [Within, blockLevels]

/-- A block does not fit where no room is left. -/
theorem not_within_block_zero (body : List Nat) : ¬Within (blockLevels body) 0 := by
  intro h
  exact absurd (h 1 List.mem_cons_self) (by decide)

end NumericScript
