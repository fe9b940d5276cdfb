import NumericScript.Single.Basic

/-!
# Bit patterns

The interchange form of a number: a sign bit, eight exponent bits and 23 fraction bits. Counts of
units on the grid, taken in order, are the magnitudes in order, so a pattern less its sign bit is
the rank of the magnitude among all of them.
-/

namespace NumericScript

namespace Single

/-- The rank of a count of units among the counts on the grid. -/
def rank (units : Nat) : Nat :=
  gridExponent units * 2 ^ 23 + units / 2 ^ gridExponent units

/-- The rank of the infinities, one past the largest finite magnitude. -/
def infiniteRank : Nat := 255 * 2 ^ 23

/-- The count of units at a rank below that of the infinities. -/
def unitsOfRank (r : Nat) : Nat :=
  let e := r / 2 ^ 23
  if e = 0 then r else (2 ^ 23 + r % 2 ^ 23) * 2 ^ (e - 1)

private theorem onGrid_unitsOfRank {r : Nat} (h : r < infiniteRank) : OnGrid (unitsOfRank r) := by
  have he : r / 2 ^ 23 < 255 := by
    rw [Nat.div_lt_iff_lt_mul (by decide)]
    exact h
  unfold unitsOfRank
  dsimp only
  split
  · rename_i h0
    refine onGrid_of_lt ?_
    have := Nat.div_add_mod r (2 ^ 23)
    have := Nat.mod_lt r (by decide : 0 < 2 ^ 23)
    rw [h0] at *
    omega
  · refine ⟨_, _, ?_, ?_, rfl⟩
    · have := Nat.mod_lt r (by decide : 0 < 2 ^ 23)
      omega
    · omega

/-- The 32 bit pattern; what is not a number has the quiet pattern without a sign. -/
def toBits : Single → UInt32
  | nan => 0x7fc00000
  | infinite negative => UInt32.ofNat (negative.toNat * 2 ^ 31 + infiniteRank)
  | finite negative units _ => UInt32.ofNat (negative.toNat * 2 ^ 31 + rank units)

/-- The number with a pattern. Every pattern above those of the infinities is not a number. -/
def ofBits (bits : UInt32) : Single :=
  let negative := decide (2 ^ 31 ≤ bits.toNat)
  let r := bits.toNat % 2 ^ 31
  if h : r < infiniteRank then .finite negative (unitsOfRank r) (onGrid_unitsOfRank h)
  else if r = infiniteRank then .infinite negative
  else .nan

end Single

end NumericScript
