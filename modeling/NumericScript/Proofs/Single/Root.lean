import Mathlib.Data.Nat.Factorization.Basic
import Mathlib.Tactic.Ring
import NumericScript.Proofs.Single.ReadBack
import NumericScript.Single.Arith

/-!
# Square roots

The root of a positive number is the number nearest to the true root. A root that is not whole, in
units, lies strictly between two whole counts, and so much of it is cut off by rounding that the
midpoint of the two rounds as it does. A root that is whole is on the grid.
-/

namespace NumericScript

section Rounding

/-- What a quotient is rounded to is away from it by a half at most. -/
theorem roundHalfEven_near {d : Nat} (hpos : 0 < d) (n : Nat) :
    2 * n ≤ (2 * roundHalfEven n d + 1) * d ∧ 2 * roundHalfEven n d * d ≤ 2 * n + d := by
  have hsplit : n / d * d + n % d = n := Nat.div_add_mod' n d
  have hlt := Nat.mod_lt n hpos
  unfold roundHalfEven
  generalize n / d = q at hsplit ⊢
  generalize n % d = r at hsplit hlt ⊢
  dsimp only
  rcases Nat.mod_two_eq_zero_or_one q with heven | hodd
  · simp only [heven, Nat.add_zero]
    split
    · simp only [Nat.add_mul, Nat.mul_assoc]
      omega
    · split <;> simp only [Nat.mul_add, Nat.add_mul, Nat.mul_assoc] <;> omega
  · simp only [hodd, ite_self]
    split <;> simp only [Nat.mul_add, Nat.add_mul, Nat.mul_assoc] <;> omega

/-- What a quotient is rounded to on the grid is away from it by half a step at most. -/
theorem roundToGrid_near {d : Nat} (hpos : 0 < d) (n : Nat) :
    2 * n ≤ (2 * roundToGrid n d + 2 ^ gridExponent (n / d)) * d ∧
      2 * roundToGrid n d * d ≤ 2 * n + 2 ^ gridExponent (n / d) * d := by
  have hnear := roundHalfEven_near (Nat.mul_pos hpos (Nat.two_pow_pos (gridExponent (n / d)))) n
  unfold roundToGrid
  dsimp only
  generalize gridExponent (n / d) = e at hnear ⊢
  generalize roundHalfEven n (d * 2 ^ e) = m at hnear ⊢
  have hup : (2 * m + 1) * (d * 2 ^ e) = (2 * (m * 2 ^ e) + 2 ^ e) * d := by ring
  have hdown : 2 * m * (d * 2 ^ e) = 2 * (m * 2 ^ e) * d := by ring
  rwa [hup, hdown, Nat.mul_comm d] at hnear

end Rounding

section Whole

/-- A whole root of a count on the grid, in its units, is on the grid. -/
theorem onGrid_of_mul_self {units root : Nat} (hgrid : OnGrid units) (hpos : 0 < units)
    (h : root * root = units * Single.unitsPerOne) : OnGrid root := by
  obtain ⟨m, e, hm, he, rfl⟩ := hgrid
  have hmpos : 0 < m := Nat.pos_of_mul_pos_right hpos
  have hne : root ≠ 0 := by
    rintro rfl
    exact absurd h (Nat.mul_pos hpos (Nat.two_pow_pos 149)).ne
  obtain ⟨a, q, hodd, rfl⟩ := Nat.exists_eq_two_pow_mul_odd hne
  have hsquare : 2 ^ (2 * a) * (q * q) = 2 ^ (e + 149) * m := by
    calc 2 ^ (2 * a) * (q * q) = 2 ^ a * q * (2 ^ a * q) := by ring
      _ = m * 2 ^ e * Single.unitsPerOne := h
      _ = 2 ^ (e + 149) * m := by
        rw [Single.unitsPerOne, Nat.mul_assoc, ← Nat.pow_add, Nat.mul_comm]
  -- The odd part of the square divides the significant bits.
  have hcoprime : Nat.Coprime (q * q) (2 ^ (e + 149)) :=
    (hodd.mul hodd).coprime_two_right.pow_right _
  have hdvd : q * q ∣ m := hcoprime.dvd_of_dvd_mul_left (Dvd.intro_left _ hsquare)
  have hq : q < 2 ^ 24 :=
    ((Nat.le_mul_self q).trans (Nat.le_of_dvd hmpos hdvd)).trans_lt hm
  have hexponent : 2 ^ (2 * a) < 2 ^ (e + 149 + 24) := by
    calc 2 ^ (2 * a) ≤ 2 ^ (2 * a) * (q * q) :=
          Nat.le_mul_of_pos_right _ (Nat.mul_pos hodd.pos hodd.pos)
      _ = 2 ^ (e + 149) * m := hsquare
      _ < 2 ^ (e + 149) * 2 ^ 24 := Nat.mul_lt_mul_of_pos_left hm (Nat.two_pow_pos _)
      _ = 2 ^ (e + 149 + 24) := (Nat.pow_add 2 _ _).symm
  have ha : 2 * a < e + 149 + 24 := (Nat.pow_lt_pow_iff_right (by decide)).mp hexponent
  exact ⟨q, a, hq, by omega, Nat.mul_comm _ _⟩

end Whole

namespace Single

section Root

variable {n : Nat}

/-- A square of that many units has a root with more bits than there are on the grid. -/
theorem le_gridExponent_floorSqrt (h : 2 ^ 149 ≤ n) : 1 ≤ gridExponent (floorSqrt n) := by
  obtain ⟨-, hhigh⟩ := floorSqrt_bounds n
  have hroot : 2 ^ 74 ≤ floorSqrt n := by
    by_contra hsmall
    have hle : floorSqrt n + 1 ≤ 2 ^ 74 := Nat.lt_of_not_le hsmall
    have hsquare := Nat.mul_le_mul hle hle
    omega
  have hlog : 74 ≤ (floorSqrt n).log2 := (Nat.le_log2 (by omega)).mpr hroot
  unfold gridExponent
  omega

/-- The midpoint above the root's whole part is rounded to what is nearest to the root. -/
theorem roundToGrid_midpoint_near (h : 2 ^ 149 ≤ n) (hwhole : floorSqrt n * floorSqrt n ≠ n) :
    let root := roundToGrid (2 * floorSqrt n + 1) 2
    let step := 2 ^ gridExponent (floorSqrt n)
    (2 * root - step) * (2 * root - step) < 4 * n ∧
      4 * n < (2 * root + step) * (2 * root + step) := by
  intro root step
  obtain ⟨hlow, hhigh⟩ := floorSqrt_bounds n
  obtain ⟨k, hk⟩ := Nat.exists_eq_add_of_le (le_gridExponent_floorSqrt h)
  have heven : step = 2 * 2 ^ k := by
    show 2 ^ gridExponent (floorSqrt n) = _
    rw [hk, Nat.pow_add]
  have hnear := roundToGrid_near (Nat.zero_lt_two) (2 * floorSqrt n + 1)
  have hdiv : (2 * floorSqrt n + 1) / 2 = floorSqrt n := by omega
  rw [hdiv] at hnear
  change 2 * (2 * floorSqrt n + 1) ≤ (2 * root + step) * 2 ∧
    2 * root * 2 ≤ 2 * (2 * floorSqrt n + 1) + step * 2 at hnear
  -- A step has an even number of units, so that half a step beyond the result is whole.
  have hbelow : 2 * root - step ≤ 2 * floorSqrt n := by omega
  have habove : 2 * (floorSqrt n + 1) ≤ 2 * root + step := by omega
  have hsquareBelow := Nat.mul_le_mul hbelow hbelow
  have hsquareAbove := Nat.mul_le_mul habove habove
  rw [Nat.mul_mul_mul_comm] at hsquareBelow hsquareAbove
  constructor <;> omega

/-- A step is a divisor of what is rounded to the grid. -/
theorem dvd_roundToGrid (r : Nat) :
    2 ^ gridExponent r ∣ roundToGrid (2 * r + 1) 2 := by
  have hdiv : (2 * r + 1) / 2 = r := by omega
  refine ⟨roundHalfEven (2 * r + 1) (2 * 2 ^ gridExponent r), ?_⟩
  rw [roundToGrid, hdiv, Nat.mul_comm]

/-- A root is far below the numbers that are rounded to an infinity. -/
theorem roundToGrid_midpoint_lt {units : Nat} (h : OnGrid units) :
    roundToGrid (2 * floorSqrt (units * unitsPerOne) + 1) 2 < overflow := by
  obtain ⟨hlow, -⟩ := floorSqrt_bounds (units * unitsPerOne)
  have hunits := h.lt_overflow
  generalize floorSqrt (units * unitsPerOne) = r at hlow ⊢
  have hr : r < 2 ^ 213 := by
    by_contra hlarge
    have hsquare := Nat.mul_le_mul (Nat.le_of_not_lt hlarge) (Nat.le_of_not_lt hlarge)
    unfold overflow at hunits
    unfold unitsPerOne at hlow
    omega
  have hexponent : gridExponent r < 253 := by
    unfold gridExponent
    rcases Nat.eq_zero_or_pos r with rfl | hpos
    · decide
    · have hlog := (Nat.log2_lt hpos.ne').mpr hr
      omega
  have hdiv : (2 * r + 1) / 2 = r := by omega
  have hbits := div_gridExponent_lt (2 * r + 1) 2
  have hround := roundHalfEven_le (2 * r + 1) (2 * 2 ^ gridExponent r)
  rw [hdiv] at hbits
  calc roundToGrid (2 * r + 1) 2
      = roundHalfEven (2 * r + 1) (2 * 2 ^ gridExponent r) * 2 ^ gridExponent r := by
        rw [roundToGrid, hdiv]
    _ ≤ 2 ^ 24 * 2 ^ gridExponent r := Nat.mul_le_mul_right _ (by omega)
    _ < overflow :=
        Nat.mul_lt_mul_of_pos_left (Nat.pow_lt_pow_right (by decide) hexponent) (by decide)

/-- A root that is whole lies within half a step of itself. -/
theorem square_between {root step : Nat} (hroot : 0 < root) (hstep : 0 < step)
    (hwhole : root * root = n) :
    (2 * root - step) * (2 * root - step) < 4 * n ∧
      4 * n < (2 * root + step) * (2 * root + step) := by
  have hdouble : 4 * n = 2 * root * (2 * root) := by rw [← hwhole, Nat.mul_mul_mul_comm]
  rw [hdouble]
  exact ⟨Nat.mul_self_lt_mul_self (by omega), Nat.mul_self_lt_mul_self (by omega)⟩

end Root

/--
The root of a positive number is the number nearest to the true root. With `n` for the square of
the true root in units, the result is a number of units whose distance from the true root is less
than half of the grid's step there.
-/
theorem sqrt_nearest {units : Nat} (hgrid : OnGrid units) (hpos : 0 < units) :
    ∃ (root : Nat) (hroot : OnGrid root),
      (finite false units hgrid).sqrt = finite false root hroot ∧
        let n := units * unitsPerOne
        let step := 2 ^ gridExponent (floorSqrt n)
        step ∣ root ∧ (2 * root - step) * (2 * root - step) < 4 * n ∧
          4 * n < (2 * root + step) * (2 * root + step) := by
  have hbig : 2 ^ 149 ≤ units * unitsPerOne := Nat.le_mul_of_pos_left _ hpos
  have hne : units ≠ 0 := hpos.ne'
  simp only [sqrt, if_neg hne, Bool.false_eq_true, if_false]
  by_cases hwhole : floorSqrt (units * unitsPerOne) * floorSqrt (units * unitsPerOne) =
      units * unitsPerOne
  · have hroot := onGrid_of_mul_self hgrid hpos hwhole
    have hroot0 : 0 < floorSqrt (units * unitsPerOne) := by
      refine Nat.pos_of_ne_zero fun hzero => ?_
      rw [hzero] at hwhole
      omega
    refine ⟨_, hroot, ?_, hroot.dvd, square_between hroot0 (Nat.two_pow_pos _) hwhole⟩
    rw [if_pos hwhole, ofRatio_of_onGrid hroot hroot.roundToGrid_one]
  · have hlt := roundToGrid_midpoint_lt hgrid
    refine ⟨_, onGrid_roundToGrid hlt, ?_, dvd_roundToGrid _, roundToGrid_midpoint_near hbig hwhole⟩
    rw [if_neg hwhole, ofRatio, dif_pos hlt]

end Single

end NumericScript
