/-!
# Single precision numbers

A finite number is a sign and a count of units of `2⁻¹⁴⁹`, the least positive amount. The counts
that a number can hold form the grid: 24 significant bits, times a power of two. Beside the finite
numbers stand the two infinities and one value that is not a number. Rounding takes a quotient of
counts to the nearest count on the grid, a half going to the even neighbour.
-/

-- Powers of whole numbers are those of the core library, whatever else is in scope.
attribute [instance (high + 1), default_instance (high + 1)] instPowNat

namespace NumericScript

/-- The first count of units that is past every finite number. -/
def overflow : Nat := 2 ^ 24 * 2 ^ 253

/-- A count of units that has at most 24 significant bits and stays below `2²⁷⁷`. -/
def OnGrid (units : Nat) : Prop :=
  ∃ m e, m < 2 ^ 24 ∧ e ≤ 253 ∧ units = m * 2 ^ e

/--
A single precision number. Zero keeps its sign; every value that is not a number is one value.
-/
inductive Single
  | nan
  | infinite (negative : Bool)
  | finite (negative : Bool) (units : Nat) (onGrid : OnGrid units)
  deriving DecidableEq

/-- Amounts of no more digits than a number holds are on the grid. -/
theorem onGrid_of_lt {units : Nat} (h : units < 2 ^ 24) : OnGrid units :=
  ⟨units, 0, h, by decide, by simp⟩

/-- The whole number nearest to `n / d`; a half goes to the even neighbour. -/
def roundHalfEven (n d : Nat) : Nat :=
  let q := n / d
  let r := n % d
  if 2 * r < d then q else if d < 2 * r then q + 1 else q + q % 2

/-- The exponent of the grid's step at a count of units: 24 bits above it, or the unit itself. -/
def gridExponent (units : Nat) : Nat := units.log2 - 23

/-- The count on the unbounded grid that is nearest to `n / d` units. -/
def roundToGrid (n d : Nat) : Nat :=
  let e := gridExponent (n / d)
  roundHalfEven n (d * 2 ^ e) * 2 ^ e

/-- Rounding goes up by one at most. -/
theorem roundHalfEven_le (n d : Nat) : roundHalfEven n d ≤ n / d + 1 := by
  unfold roundHalfEven
  dsimp only
  split
  · omega
  · split
    · omega
    · have := Nat.mod_lt (n / d) (by decide : 0 < 2)
      omega

private theorem le_roundHalfEven (n d : Nat) : n / d ≤ roundHalfEven n d := by
  unfold roundHalfEven
  dsimp only
  split
  · omega
  · split <;> omega

/-- At the grid's own exponent the quotient has at most 24 bits. -/
theorem div_gridExponent_lt (n d : Nat) : n / (d * 2 ^ gridExponent (n / d)) < 2 ^ 24 := by
  rw [← Nat.div_div_eq_div_mul, Nat.div_lt_iff_lt_mul (Nat.two_pow_pos _), ← Nat.pow_add]
  refine Nat.lt_of_lt_of_le Nat.lt_log2_self (Nat.pow_le_pow_right (by decide) ?_)
  unfold gridExponent
  omega

/-- Above the first 24 bits the quotient at the grid's own exponent has all of them. -/
theorem le_div_gridExponent {n d : Nat} (h : 0 < gridExponent (n / d)) :
    2 ^ 23 ≤ n / (d * 2 ^ gridExponent (n / d)) := by
  have hlog : 23 < (n / d).log2 := by
    unfold gridExponent at h
    omega
  have hne : n / d ≠ 0 := by
    intro h0
    rw [h0] at hlog
    exact absurd hlog (by decide)
  rw [← Nat.div_div_eq_div_mul, Nat.le_div_iff_mul_le (Nat.two_pow_pos _), ← Nat.pow_add]
  refine Nat.le_trans (Nat.pow_le_pow_right (by decide) ?_) (Nat.log2_self_le hne)
  unfold gridExponent
  omega

/-- A rounded count below the bound is on the grid. -/
theorem onGrid_roundToGrid {n d : Nat} (h : roundToGrid n d < overflow) :
    OnGrid (roundToGrid n d) := by
  have hlt := div_gridExponent_lt n d
  have hle := roundHalfEven_le n (d * 2 ^ gridExponent (n / d))
  have hge := le_roundHalfEven n (d * 2 ^ gridExponent (n / d))
  unfold roundToGrid at h ⊢
  dsimp only at h ⊢
  generalize he : gridExponent (n / d) = e at *
  generalize hm : roundHalfEven n (d * 2 ^ e) = m at *
  have hexp : e ≤ 253 := by
    refine Nat.le_of_not_lt fun hlarge => Nat.not_le.mpr h ?_
    have h23 : 2 ^ 23 ≤ m := by
      have := le_div_gridExponent (n := n) (d := d) (by omega)
      rw [he] at this
      omega
    rw [show overflow = 2 ^ 23 * 2 ^ 254 by decide]
    exact Nat.mul_le_mul h23 (Nat.pow_le_pow_right (by decide) hlarge)
  rcases Nat.lt_or_ge m (2 ^ 24) with hsmall | hbig
  · exact ⟨m, e, hsmall, hexp, rfl⟩
  · have heq : m = 2 ^ 24 := by omega
    have hpow : m * 2 ^ e = 2 ^ 23 * 2 ^ (e + 1) := by
      rw [heq, ← Nat.pow_add, ← Nat.pow_add]
      congr 1
      omega
    refine ⟨2 ^ 23, e + 1, by decide, ?_, hpow⟩
    refine Nat.le_of_not_lt fun hlarge => Nat.not_le.mpr h ?_
    exact Nat.mul_le_mul hbig (Nat.pow_le_pow_right (by decide) (by omega))

namespace Single

/-- The number nearest to `n / d` units; what rounds past the largest finite number is infinite. -/
def ofRatio (negative : Bool) (n d : Nat) : Single :=
  if h : roundToGrid n d < overflow then
    .finite negative (roundToGrid n d) (onGrid_roundToGrid h)
  else
    .infinite negative

/-- The units in one. -/
def unitsPerOne : Nat := 2 ^ 149

/-- Zero with a sign. -/
def signedZero (negative : Bool) : Single := .finite negative 0 (onGrid_of_lt (by decide))

/-- The positive zero. -/
def zero : Single := signedZero false

/-- The number one. -/
def one : Single := ofRatio false unitsPerOne 1

instance : Zero Single := ⟨zero⟩

instance : Inhabited Single := ⟨zero⟩

/-- Below zero, or a zero with the negative sign. -/
def isNegative : Single → Bool
  | nan => false
  | infinite negative => negative
  | finite negative _ _ => negative

/-- A count of units with its sign. -/
def signed (negative : Bool) (units : Nat) : Int :=
  if negative then -units else units

/--
 Position on the number line in units. The infinities stand one step beyond the largest finite
number, both zeros at the origin, and what is not a number has no position.
-/
def position? : Single → Option Int
  | nan => none
  | infinite negative => some (signed negative overflow)
  | finite negative units _ => some (signed negative units)

/-- Strictly to the left on the number line. -/
def lt (a b : Single) : Bool :=
  match a.position?, b.position? with
  | some x, some y => x < y
  | _, _ => false

/-- At the same place of the number line. -/
def same (a b : Single) : Bool :=
  match a.position?, b.position? with
  | some x, some y => x = y
  | _, _ => false

/-- Neither infinite nor not a number. -/
def isFinite : Single → Bool
  | finite .. => true
  | _ => false

end Single

end NumericScript
