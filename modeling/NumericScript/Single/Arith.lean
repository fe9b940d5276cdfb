import NumericScript.Single.Basic

/-!
# Arithmetic

Sums, products, quotients and square roots are computed exactly on counts of units and rounded once.
What has no value (a difference of infinities, zero times infinity, zero by zero, the root of a
negative number) is not a number.
-/

namespace NumericScript

/-- One digit of a square root in base two for each step, the most significant first. -/
def floorSqrtFrom : Nat → Nat → Nat
  | 0, _ => 0
  | steps + 1, n =>
    let r := 2 * floorSqrtFrom steps (n / 4)
    if (r + 1) * (r + 1) ≤ n then r + 1 else r

/-- The largest number whose square is at most `n`. -/
def floorSqrt (n : Nat) : Nat := floorSqrtFrom (n.log2 / 2 + 1) n

private theorem floorSqrtFrom_bounds (steps n : Nat) (h : n < 4 ^ steps) :
    floorSqrtFrom steps n * floorSqrtFrom steps n ≤ n ∧
      n < (floorSqrtFrom steps n + 1) * (floorSqrtFrom steps n + 1) := by
  induction steps generalizing n with
  | zero =>
    have h0 : n = 0 := by simpa using h
    subst h0
    simp [floorSqrtFrom]
  | succ steps ih =>
    have hq : n / 4 < 4 ^ steps := by
      rw [Nat.div_lt_iff_lt_mul (by decide)]
      simpa [Nat.pow_succ] using h
    obtain ⟨hlo, hhi⟩ := ih (n / 4) hq
    rw [floorSqrtFrom]
    generalize floorSqrtFrom steps (n / 4) = s at *
    split
    · rename_i hle
      refine ⟨hle, ?_⟩
      rw [show 2 * s + 1 + 1 = 2 * (s + 1) by omega, Nat.mul_mul_mul_comm]
      omega
    · rename_i hnot
      refine ⟨?_, by omega⟩
      rw [Nat.mul_mul_mul_comm]
      omega

/-- The floor of the square root lies below the root and its successor lies above. -/
theorem floorSqrt_bounds (n : Nat) :
    floorSqrt n * floorSqrt n ≤ n ∧ n < (floorSqrt n + 1) * (floorSqrt n + 1) := by
  refine floorSqrtFrom_bounds _ n (Nat.lt_of_lt_of_le Nat.lt_log2_self ?_)
  rw [show (4 : Nat) = 2 ^ 2 from rfl, ← Nat.pow_mul]
  exact Nat.pow_le_pow_right (by decide) (by omega)

namespace Single

/-- The same magnitude with the other sign. -/
def neg : Single → Single
  | nan => nan
  | infinite negative => infinite !negative
  | finite negative units h => finite (!negative) units h

/-- The number nearest to a signed count of units; an exact zero takes the sign given. -/
def ofSum (total : Int) (zeroSign : Bool) : Single :=
  if total = 0 then signedZero zeroSign else ofRatio (decide (total < 0)) total.natAbs 1

/-- A sum that cancels is a positive zero, unless both summands carry the negative sign. -/
def add : Single → Single → Single
  | nan, _ => nan
  | _, nan => nan
  | infinite s, infinite t => if s = t then infinite s else nan
  | infinite s, finite .. => infinite s
  | finite .., infinite t => infinite t
  | finite s u _, finite t v _ => ofSum (signed s u + signed t v) (s && t)

/-- A difference is the sum with the other sign. -/
def sub (a b : Single) : Single := add a b.neg

/-- Signs multiply; zero times infinity has no value. -/
def mul : Single → Single → Single
  | nan, _ => nan
  | _, nan => nan
  | infinite s, infinite t => infinite (s != t)
  | infinite s, finite t v _ => if v = 0 then nan else infinite (s != t)
  | finite s u _, infinite t => if u = 0 then nan else infinite (s != t)
  | finite s u _, finite t v _ => ofRatio (s != t) (u * v) unitsPerOne

/-- Signs divide as they multiply; dividing by zero is infinite, except for zero itself. -/
def div : Single → Single → Single
  | nan, _ => nan
  | _, nan => nan
  | infinite _, infinite _ => nan
  | infinite s, finite t _ _ => infinite (s != t)
  | finite s _ _, infinite t => signedZero (s != t)
  | finite s u _, finite t v _ =>
    if v = 0 then
      if u = 0 then nan else infinite (s != t)
    else
      ofRatio (s != t) (u * unitsPerOne) v

/--
The root of a count of units has at least 75 bits before rounding, so that when it is not whole any
point strictly between its two whole neighbours rounds as it does; their midpoint serves.
-/
def sqrt : Single → Single
  | nan => nan
  | infinite negative => if negative then nan else infinite false
  | finite negative u h =>
    if u = 0 then finite negative u h
    else if negative then nan
    else
      let n := u * unitsPerOne
      let r := floorSqrt n
      if r * r = n then ofRatio false r 1 else ofRatio false (2 * r + 1) 2

/-- One with the sign of a number on either side of zero, a positive zero for both zeros. -/
def sign (x : Single) : Single :=
  match x.position? with
  | none => nan
  | some p => if 0 < p then one else if p < 0 then one.neg else zero

end Single

end NumericScript
