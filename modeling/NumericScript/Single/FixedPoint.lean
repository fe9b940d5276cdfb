import NumericScript.Single.Arith

/-!
# Series in fixed point

A fixed point number with `p` places is a whole number of parts of `2⁻ᵖ`. The series here have terms
that shrink fast enough for the first `p` of them to reach below one part. Each term is cut to whole
parts, which costs a few parts for each of them.
-/

namespace NumericScript.FixedPoint

/-- One, with `p` places. -/
def unit (p : Nat) : Int := 2 ^ p

/-- The sum of a term and those after it, where `next k` leads from term `k` to the one after. -/
def series (next : Nat → Int → Int) : Nat → Nat → Int → Int
  | 0, _, _ => 0
  | terms + 1, k, t => if t = 0 then 0 else t + series next terms (k + 1) (next k t)

/-- The square of a fixed point number. -/
def square (p : Nat) (x : Int) : Int := (x * x).tdiv (unit p)

/-- The angle whose cotangent is the whole number `q`. -/
def arccot (p q : Nat) : Int :=
  series (fun k t => (-t * (2 * k + 1)).tdiv ((2 * k + 3) * (q * q))) p 0 ((unit p).tdiv q)

/-- The area tangent of a number of magnitude at most a half. -/
def artanh (p : Nat) (z : Int) : Int :=
  let w := square p z
  series (fun k t => (t * w * (2 * k + 1)).tdiv ((2 * k + 3) * unit p)) p 0 z

/-- The places of the stored constants. -/
def storedPlaces : Nat := 1280

/-- Half of `π`, by Machin's sum of two arcs. -/
def storedHalfPi : Int := 2 * (4 * arccot storedPlaces 5 - arccot storedPlaces 239)

/-- The natural logarithm of two, as twice the area tangent of a third. -/
def storedLogTwo : Int := 2 * artanh storedPlaces ((unit storedPlaces).tdiv 3)

/-- Half of `π`, for at most the stored number of places. -/
def halfPi (p : Nat) : Int := storedHalfPi >>> (storedPlaces - p)

/-- The natural logarithm of two, for at most the stored number of places. -/
def logTwo (p : Nat) : Int := storedLogTwo >>> (storedPlaces - p)

/-- The sine of an angle of at most a quarter of `π` on either side. -/
def sin (p : Nat) (r : Int) : Int :=
  let w := square p r
  series (fun k t => (-t * w).tdiv ((2 * k + 2) * (2 * k + 3) * unit p)) p 0 r

/-- The cosine of an angle of at most a quarter of `π` on either side. -/
def cos (p : Nat) (r : Int) : Int :=
  let w := square p r
  series (fun k t => (-t * w).tdiv ((2 * k + 1) * (2 * k + 2) * unit p)) p 0 (unit p)

/-- The arc of a sine of magnitude at most a half. -/
def arcsin (p : Nat) (x : Int) : Int :=
  let w := square p x
  series
    (fun k t => (t * w * ((2 * k + 1) * (2 * k + 1))).tdiv ((2 * k + 2) * (2 * k + 3) * unit p))
    p 0 x

/-- The logarithm of a number from one up to two: twice the area tangent of `(m - 1) / (m + 1)`. -/
def logMantissa (p : Nat) (m : Int) : Int :=
  2 * artanh p (((m - unit p) * unit p).tdiv (m + unit p))

/-- The exponential of a number from zero up to one. -/
def expFraction (p : Nat) (r : Int) : Int :=
  series (fun k t => (t * r).tdiv ((k + 1) * unit p)) p 0 (unit p)

end NumericScript.FixedPoint
