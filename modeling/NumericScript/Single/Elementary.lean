import NumericScript.Single.FixedPoint

/-!
# Elementary functions

Sine, arc sine, natural logarithm and power, each the number nearest to the true value. A function
is estimated in fixed point with an error bound; if both ends of the error interval round to the
same number that number is the answer, and otherwise the estimate is repeated with more places.
Values that can lie on a midpoint of the grid, the powers that are fractions of whole numbers, are
computed exactly.
-/

namespace NumericScript

namespace Single

/-- The number nearest to `n / d * 2 ^ shift`. -/
def ofScaled (negative : Bool) (n d : Nat) (shift : Int) : Single :=
  match shift + 149 with
  | .ofNat k => ofRatio negative (n * 2 ^ k) d
  | .negSucc k => ofRatio negative n (d * 2 ^ (k + 1))

/-- An estimate `parts * 2 ^ shift` of a true value. -/
structure Estimate where
  parts : Int
  shift : Int

/-- How many parts an estimate may be away from the true value. -/
def Estimate.slack : Nat := 2 ^ 32

/-- The number that both ends of the error interval round to. -/
def Estimate.settled? (negative : Bool) (e : Estimate) : Option Single :=
  let negative := negative != decide (e.parts < 0)
  let n := e.parts.natAbs
  let low := ofScaled negative (n - slack) 1 e.shift
  if low = ofScaled negative (n + slack) 1 e.shift then some low else none

/--
 The number nearest to the value that `estimate` approaches with more and more places. The
estimate with the most places is taken as it is.
-/
def nearest (negative : Bool) (estimate : Nat → Estimate) : Single :=
  match (estimate 256).settled? negative with
  | some x => x
  | none =>
    match (estimate 512).settled? negative with
    | some x => x
    | none =>
      let e := estimate 1024
      ofScaled (negative != decide (e.parts < 0)) e.parts.natAbs 1 e.shift

/--
Places beyond the result's that a whole multiple of a quarter turn needs when it is taken away.
-/
def turnPlaces : Nat := 140

/-- The sine of `units`: the nearest multiple of a quarter turn is taken away first. -/
def sinEstimate (units : Nat) (p : Nat) : Estimate :=
  let places := p + turnPlaces
  let quarter := FixedPoint.halfPi places
  let x : Int := (units : Int) * 2 ^ (places - 149)
  let turns := (2 * x + quarter) / (2 * quarter)
  let r := (x - turns * quarter) >>> turnPlaces
  let parts :=
    match turns % 4 with
    | 0 => FixedPoint.sin p r
    | 1 => FixedPoint.cos p r
    | 2 => -FixedPoint.sin p r
    | _ => -FixedPoint.cos p r
  ⟨parts, -p⟩

/-- The sine of an angle in radians. -/
def sin : Single → Single
  | nan => nan
  | infinite _ => nan
  | finite negative units h =>
    if units = 0 then finite negative units h else nearest negative (sinEstimate units)

/--
The arc of a sine up to one; above a half by the half angle, `asin x = π/2 - 2 asin √((1 - x)/2)`.
-/
def asinEstimate (units : Nat) (p : Nat) : Estimate :=
  if 2 * units ≤ unitsPerOne then
    ⟨FixedPoint.arcsin p ((units : Int) * 2 ^ (p - 149)), -p⟩
  else
    let half := floorSqrt ((unitsPerOne - units) * 2 ^ (p - 150) * 2 ^ p)
    ⟨FixedPoint.halfPi p - 2 * FixedPoint.arcsin p half, -p⟩

/-- The angle in radians with the given sine, where there is one. -/
def asin : Single → Single
  | nan => nan
  | infinite _ => nan
  | finite negative units h =>
    if units = 0 then finite negative units h
    else if unitsPerOne < units then nan
    else nearest negative (asinEstimate units)

/-- The logarithm of a positive count of units in fixed point. -/
def logParts (units : Nat) (p : Nat) : Int :=
  let k := units.log2
  let m : Int := (units * 2 ^ p / 2 ^ k : Nat)
  FixedPoint.logMantissa p m + ((k : Int) - 149) * FixedPoint.logTwo p

/-- The natural logarithm. -/
def log : Single → Single
  | nan => nan
  | infinite negative => if negative then nan else infinite false
  | finite negative units _ =>
    if units = 0 then infinite true
    else if negative then nan
    else nearest false fun p => ⟨logParts units p, -p⟩

/-! ### Powers -/

/-- A positive number as an odd factor and a power of two. -/
structure OddForm where
  odd : Nat
  exponent : Int

/-- Take out factors of two, at most `steps` of them. -/
def oddFormFrom : Nat → Nat → Int → OddForm
  | 0, n, e => ⟨n, e⟩
  | steps + 1, n, e => if n % 2 = 0 then oddFormFrom steps (n / 2) (e + 1) else ⟨n, e⟩

/--
 While the exponent `y`, in units, is not whole and the base has an exact square root, take the
root and double the exponent. Ten steps are enough for every base but one.
-/
def rootsFrom : Nat → OddForm → Nat → OddForm × Nat
  | 0, x, y => (x, y)
  | steps + 1, x, y =>
    let r := floorSqrt x.odd
    if y % unitsPerOne ≠ 0 ∧ r * r = x.odd ∧ x.exponent % 2 = 0 then
      rootsFrom steps ⟨r, x.exponent / 2⟩ (2 * y)
    else
      (x, y)

/-- A power of two too far from one is infinite or zero. -/
def powerOfTwo (negative : Bool) (exponent : Int) : Single :=
  if 400 < exponent then infinite negative
  else if exponent < -400 then signedZero negative
  else ofScaled negative 1 1 exponent

/--
The power, when it is a quotient of moderate whole numbers; only such a power can be a midpoint.
-/
def exactPower? (negative : Bool) (x y : Nat) (inverse : Bool) : Option Single :=
  let (base, y) := rootsFrom 10 (oddFormFrom 300 x (-149)) y
  let n := y / unitsPerOne
  if y % unitsPerOne ≠ 0 then none
  else
    let exponent : Int := if inverse then -(base.exponent * n) else base.exponent * n
    if base.odd = 1 then some (powerOfTwo negative exponent)
    else if 64 < n then none
    else if inverse then some (ofScaled negative 1 (base.odd ^ n) exponent)
    else some (ofScaled negative (base.odd ^ n) 1 exponent)

/-- Places beyond the result's that the logarithm needs when it is multiplied by the exponent. -/
def powerPlaces : Nat := 64

/-- The logarithm of a power: the exponent times the logarithm of the base. -/
def powerLog (x y : Nat) (inverse : Bool) (p : Nat) : Int :=
  let t := (y * logParts x (p + powerPlaces)) >>> (149 + powerPlaces)
  if inverse then -t else t

/-- A power as the exponential of its logarithm, whole multiples of `log 2` becoming a shift. -/
def powerEstimate (x y : Nat) (inverse : Bool) (p : Nat) : Estimate :=
  let t := powerLog x y inverse p
  let k := t / FixedPoint.logTwo p
  ⟨FixedPoint.expFraction p (t - k * FixedPoint.logTwo p), k - p⟩

/-- The power of two positive counts of units, the exponent's sign apart. -/
def powUnits (negative : Bool) (x y : Nat) (inverse : Bool) : Single :=
  match exactPower? negative x y inverse with
  | some power => power
  | none =>
    let t := powerLog x y inverse 256
    if 256 * FixedPoint.unit 256 < t then infinite negative
    else if t < -256 * FixedPoint.unit 256 then signedZero negative
    else nearest negative (powerEstimate x y inverse)

/-- Whether a number is whole. -/
def isWhole : Single → Bool
  | finite _ units _ => units % unitsPerOne = 0
  | _ => false

/-- Whether a number is whole and odd. -/
def isOdd : Single → Bool
  | finite _ units _ => units % unitsPerOne = 0 ∧ units / unitsPerOne % 2 = 1
  | _ => false

/-- A zero or an infinity as the limit of a growing or a shrinking power. -/
def limit (negative grows : Bool) : Single :=
  if grows then infinite negative else signedZero negative

/--
The power. Anything to the zero and one to anything are one, even what is not a number. A negative
base has a power only for whole exponents, and the power is negative for odd ones.
-/
def pow (x y : Single) : Single :=
  if y.same zero ∨ x.same one then one
  else
    let negative := x.isNegative && y.isOdd
    match x, y with
    | nan, _ => nan
    | _, nan => nan
    | infinite _, y => limit negative !y.isNegative
    | finite _ u _, infinite inverse =>
      if u = unitsPerOne then one else limit false (decide (unitsPerOne < u) != inverse)
    | finite s u _, finite inverse v h =>
      if u = 0 then limit negative inverse
      else if s ∧ ¬isWhole (finite inverse v h) then nan
      else powUnits negative u v inverse

end Single

end NumericScript
