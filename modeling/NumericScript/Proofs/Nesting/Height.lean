import Mathlib.Tactic.Ring
import Mathlib.Tactic.Linarith
import NumericScript.Proofs.Layout.Tokens
import NumericScript.Proofs.Nesting.Node
import NumericScript.Run.Reading

/-!
# Heights of expressions

A chain of operators gives its levels back when it ends, although all of its operators stay in the
tree. So an expression may be higher than the levels it was read with. It is still bounded by them:
a chain has fewer operators than there are levels, and below each level there is one chain of
products inside one chain of sums at most.
-/

namespace NumericScript

namespace Expr

/-- The number of nodes on a longest path from an expression down to a number or a name. -/
def height : Expr → Nat
  | number .. | scalar .. => 1
  | element _ index _ => index.height + 1
  | binary _ left right _ => max left.height right.height + 1
  | negate operand _ => operand.height + 1
  | call _ argument _ => argument.height + 1
  | group inner _ => inner.height + 1

/--
How high an expression is at most if it is read with so many levels: less if it holds together more
tightly, and more for a chain of more operators, of which there are fewer than levels.
-/
structure Bounded (e : Expr) (room : Nat) : Prop where
  tight : 3 ≤ e.binding → e.height ≤ 1 ∨ e.height + room ≤ room * room
  operand : 2 ≤ e.binding → e.height + room ≤ room * room + 1
  product : 1 ≤ e.binding → e.height + room ≤ room * room + 1 + e.products
  products : e.products < room
  sum : e.height ≤ room * room + e.sums
  sums : e.sums < room

private theorem products_eq_zero {e : Expr} (h : 2 ≤ e.binding) : e.products = 0 := by
  cases e with
  | binary op => cases op <;> simp_all [binding, BinaryOp.binding, products]
  | _ => rfl

private theorem sums_eq_zero {e : Expr} (h : 1 ≤ e.binding) : e.sums = 0 := by
  cases e with
  | binary op => cases op <;> simp_all [binding, BinaryOp.binding, sums]
  | _ => rfl

private theorem square_succ (n : Nat) : (n + 1) * (n + 1) = n * n + 2 * n + 1 := by ring

namespace Bounded

variable {e left right : Expr} {room lower : Nat}

/-- Nothing is read with no levels. -/
theorem room_pos (h : e.Bounded room) : 0 < room := Nat.zero_lt_of_lt h.sums

/-- What is read with so many levels is no higher than a square of them says. -/
theorem height_le (h : e.Bounded room) : e.height + 1 ≤ room * room + room := by
  have := h.sum
  have := h.sums
  omega

/-- What holds together most tightly needs one bound only. -/
theorem of_tight (hroom : 0 < room) (hbinding : 3 ≤ e.binding)
    (h : e.height ≤ 1 ∨ e.height + room ≤ room * room) : e.Bounded room := by
  have hproducts := products_eq_zero (show 2 ≤ e.binding by omega)
  have hsums := sums_eq_zero (show 1 ≤ e.binding by omega)
  have hsquare : room ≤ room * room := Nat.le_mul_of_pos_left room hroom
  constructor <;> omega

private theorem of_operand (hroom : 0 < room) (hbinding : e.binding = 2)
    (h : e.height + room ≤ room * room + 1) : e.Bounded room := by
  have hproducts := products_eq_zero hbinding.ge
  have hsums := sums_eq_zero (show 1 ≤ e.binding by omega)
  constructor <;> omega

private theorem of_product (hbinding : e.binding = 1)
    (h : e.height + room ≤ room * room + 1 + e.products) (hlt : e.products < room) :
    e.Bounded room := by
  have hsums := sums_eq_zero hbinding.ge
  constructor <;> omega

/-- Below brackets there is one level less. -/
theorem tight_below (h : e.Bounded lower) :
    e.height + 1 + (lower + 1) ≤ (lower + 1) * (lower + 1) := by
  have := h.height_le
  rw [square_succ]
  omega

private theorem negate (h : e.Bounded lower) (hbinding : 2 ≤ e.binding) :
    e.height + 1 + (lower + 1) ≤ (lower + 1) * (lower + 1) + 1 := by
  have := h.operand hbinding
  have := h.room_pos
  rw [square_succ]
  omega

private theorem call (h : e.Bounded lower) (hbinding : 3 ≤ e.binding) :
    e.height + 1 + (lower + 1) ≤ (lower + 1) * (lower + 1) := by
  have hsquare : lower ≤ lower * lower := Nat.le_mul_of_pos_left lower h.room_pos
  have := h.tight hbinding
  have := h.room_pos
  rw [square_succ]
  omega

private theorem power (hleft : left.Bounded (lower + 1)) (hright : right.Bounded lower)
    (hlbinding : 3 ≤ left.binding) (hrbinding : 2 ≤ right.binding) :
    max left.height right.height + 1 + (lower + 1) ≤ (lower + 1) * (lower + 1) + 1 := by
  have hsquare : lower ≤ lower * lower := Nat.le_mul_of_pos_left lower hright.room_pos
  have := hleft.tight hlbinding
  have := hright.operand hrbinding
  have := hright.room_pos
  rw [square_succ] at *
  omega

/-- One more operand of a product. -/
theorem joinProduct (hleft : left.Bounded room) (hright : right.Bounded lower)
    (hroom : room = lower + (left.products + 1)) (hlbinding : 1 ≤ left.binding)
    (hrbinding : 2 ≤ right.binding) :
    max left.height right.height + 1 + room ≤ room * room + 1 + (left.products + 1) := by
  have hsquare : room * room = lower * lower + 2 * (lower * (left.products + 1)) +
      (left.products + 1) * (left.products + 1) := by
    rw [hroom]
    ring
  have hchain : left.products + 1 ≤ (left.products + 1) * (left.products + 1) :=
    Nat.le_mul_of_pos_left _ (Nat.succ_pos _)
  have := hleft.product hlbinding
  have := hright.operand hrbinding
  omega

/-- One more operand of a sum. -/
theorem joinSum (hleft : left.Bounded room) (hright : right.Bounded lower)
    (hroom : room = lower + (left.sums + 1)) (hrbinding : 1 ≤ right.binding) :
    max left.height right.height + 1 ≤ room * room + (left.sums + 1) := by
  have hsquare : lower * lower ≤ room * room := Nat.mul_le_mul (by omega) (by omega)
  have hsums := sums_eq_zero hrbinding
  have := hleft.sum
  have := hright.sum
  omega

end Bounded

/-- The right side of an operator is read with fewer levels, but not with none. -/
theorem exists_lower {e : Expr} {room depth : Nat} (h : Within e.levels (room - depth)) :
    ∃ lower, room = lower + depth ∧ Within e.levels lower := by
  refine ⟨room - depth, ?_, h⟩
  by_contra hne
  have hzero : room - depth = 0 := by omega
  exact e.not_within_zero (hzero ▸ h)

/-- The levels of an expression bound its height. -/
theorem bounded {e : Expr} (h : e.Shaped) {room : Nat} (hfits : Within e.levels room) :
    e.Bounded room := by
  induction e generalizing room with
  | number | scalar =>
    have hroom : 1 ≤ room := hfits 1 List.mem_cons_self
    exact .of_tight hroom (Nat.le_refl 3) (.inl (Nat.le_refl 1))
  | element name index span ih =>
    obtain ⟨lower, rfl, hindex⟩ := exists_lower (within_deeper.mp hfits)
    exact .of_tight (Nat.succ_pos lower) (Nat.le_refl 3) (.inr (ih h hindex).tight_below)
  | group inner span ih =>
    obtain ⟨lower, rfl, hinner⟩ := exists_lower (within_deeper.mp hfits)
    exact .of_tight (Nat.succ_pos lower) (Nat.le_refl 3) (.inr (ih h hinner).tight_below)
  | call f argument span ih =>
    obtain ⟨lower, rfl, hargument⟩ := exists_lower (within_deeper.mp hfits)
    have hcall := (ih h.1 hargument).call h.2
    exact .of_tight (Nat.succ_pos lower) (Nat.le_refl 3) (.inr hcall)
  | negate operand span ih =>
    obtain ⟨lower, rfl, hoperand⟩ := exists_lower (within_deeper.mp hfits)
    exact .of_operand (Nat.succ_pos lower) rfl ((ih h.1 hoperand).negate h.2)
  | binary op left right span ihl ihr =>
    obtain ⟨hlshaped, hrshaped, hlbinding, hrbinding⟩ := h
    obtain ⟨hlfits, hrfits⟩ := within_binary.mp hfits
    obtain ⟨lower, hroom, hlower⟩ := exists_lower hrfits
    have hleft := ihl hlshaped hlfits
    have hright := ihr hrshaped hlower
    have hpos := hright.room_pos
    cases op with
    | pow =>
      obtain rfl : room = lower + 1 := hroom
      exact .of_operand (Nat.succ_pos lower) rfl (hleft.power hright hlbinding hrbinding)
    | mul | div =>
      have hlt : left.products + 1 < room := by
        simp only [BinaryOp.depth] at hroom
        omega
      exact .of_product rfl (hleft.joinProduct hright hroom hlbinding hrbinding) hlt
    | add | sub =>
      have hlt : left.sums + 1 < room := by
        simp only [BinaryOp.depth] at hroom
        omega
      have hjoin := hleft.joinSum hright hroom hrbinding
      exact ⟨nofun, nofun, nofun, Nat.zero_lt_of_lt hlt, hjoin, hlt⟩

end Expr

section Depth

variable {store : Store}

/-- Evaluate with so many evaluations inside each other at most. -/
def Expr.evalDeep (store : Store) : Nat → Expr → Option (Reading Single)
  | 0, _ => none
  | _ + 1, number value _ => some (pure value)
  | _ + 1, scalar name _ => some (.look store (.ofKey name))
  | depth + 1, element name index _ => do
    let reading ← index.evalDeep store depth
    some do
      let value ← reading
      let position ← Reading.index index.span value
      .look store (.element name position)
  | depth + 1, binary op left right _ => do
    let first ← left.evalDeep store depth
    let second ← right.evalDeep store depth
    some do
      let x ← first
      let y ← second
      pure (op.apply x y)
  | depth + 1, negate operand _ => do
    let reading ← operand.evalDeep store depth
    some do
      let x ← reading
      pure x.neg
  | depth + 1, call builtin argument _ => do
    let reading ← argument.evalDeep store depth
    some do
      let x ← reading
      pure (builtin.apply x)
  | depth + 1, group inner _ => inner.evalDeep store depth

/-- An evaluation goes as deep as its expression is high. -/
theorem Expr.evalDeep_eq (store : Store) (e : Expr) (depth : Nat) :
    e.evalDeep store depth = if e.height ≤ depth then some (e.eval store) else none := by
  induction e generalizing depth with
  | number | scalar => cases depth <;> simp [evalDeep, height, eval]
  | element _ _ _ ih | negate _ _ ih | call _ _ _ ih =>
    cases depth with
    | zero => rfl
    | succ depth =>
      simp only [evalDeep, ih, height, eval, Nat.add_le_add_iff_right]
      split <;> rfl
  | group _ _ ih =>
    cases depth with
    | zero => rfl
    | succ depth => simp only [evalDeep, ih, height, eval, Nat.add_le_add_iff_right]
  | binary op left right span ihl ihr =>
    cases depth with
    | zero => rfl
    | succ depth =>
      simp only [evalDeep, ihl, ihr, height, eval, Nat.add_le_add_iff_right, Nat.max_le]
      by_cases hleft : left.height ≤ depth <;> by_cases hright : right.height ≤ depth <;>
        simp [hleft, hright]

end Depth

end NumericScript
