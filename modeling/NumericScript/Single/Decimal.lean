import NumericScript.Single.Basic

/-!
# Decimal text

A numeral is read as the number nearest to its exact value. A number is written with the fewest
significant digits that read back as the same number, always positionally: no exponent, and no
point when the fraction is empty. Of two such texts with equally many digits the nearer one is
written, and the larger one when both are equally near.
-/

namespace NumericScript

/-- The value of a run of decimal digits. -/
def digitsValue (digits : List Char) : Nat := Nat.ofDigitChars 10 digits 0

namespace Single

/-- The number nearest to `digits / 10 ^ places`. -/
def ofDecimal (digits places : Nat) : Single :=
  ofRatio false (digits * unitsPerOne) (10 ^ places)

/--
 Read a numeral: digits and at most one point. At least one digit has to be there, and nothing
else may be.
-/
def ofNumeral? (text : List Char) : Option Single :=
  let whole := text.takeWhile Char.isDigit
  let fraction :=
    match text.dropWhile Char.isDigit with
    | [] => some []
    | c :: rest => if c = '.' ∧ rest.all Char.isDigit then some rest else none
  match fraction with
  | none => none
  | some fraction =>
    if whole.isEmpty ∧ fraction.isEmpty then none
    else some (ofDecimal (digitsValue (whole ++ fraction)) fraction.length)

/-- Every finite number is a whole multiple of `10⁻¹⁴⁹`. -/
def decimalPlaces : Nat := 149

/-- The multiple of `10⁻¹⁴⁹` that a count of units is worth. -/
def exactDecimal (units : Nat) : Nat := units * 5 ^ decimalPlaces

/-- Whether a multiple of `10⁻¹⁴⁹` reads as the given count of units. -/
def readsAs (units decimal : Nat) : Bool := roundToGrid decimal (5 ^ decimalPlaces) = units

/--
 The neighbour of `exact` among the multiples of `step` that reads as `units`, if one does: the
nearer of both, and the upper one of two equally near.
-/
def neighbour? (units exact step : Nat) : Option Nat :=
  let below := exact / step * step
  let above := below + step
  match readsAs units below, readsAs units above with
  | false, false => none
  | true, false => some below
  | false, true => some above
  | true, true => if exact - below < above - exact then some below else some above

/--
Search from steps of `10 ^ zeros` down to single steps for one whose multiples hold a neighbour.
-/
def shortestFrom (units exact : Nat) : Nat → Nat
  | 0 => exact
  | zeros + 1 =>
    match neighbour? units exact (10 ^ (zeros + 1)) with
    | some decimal => decimal
    | none => shortestFrom units exact zeros

/-- The multiple of `10⁻¹⁴⁹` with the fewest significant digits that reads as `units`. -/
def shortestDecimal (units : Nat) : Nat :=
  let exact := exactDecimal units
  shortestFrom units exact ((Nat.toDigits 10 exact).length - 1)

/-- The digits after the point, without the zeros at their end. -/
def fractionDigits (decimal : Nat) : List Char :=
  let digits := Nat.toDigits 10 (decimal % 10 ^ decimalPlaces)
  let padded := List.replicate (decimalPlaces - digits.length) '0' ++ digits
  (padded.reverse.dropWhile (· = '0')).reverse

/-- A multiple of `10⁻¹⁴⁹` written positionally. -/
def decimalText (decimal : Nat) : List Char :=
  let whole := Nat.toDigits 10 (decimal / 10 ^ decimalPlaces)
  match fractionDigits decimal with
  | [] => whole
  | fraction => whole ++ '.' :: fraction

/-- The text of a number. -/
def text : Single → List Char
  | nan => ['N', 'a', 'N']
  | infinite negative => (if negative then ['-'] else []) ++ ['i', 'n', 'f']
  | finite negative units _ =>
    (if negative then ['-'] else []) ++ decimalText (shortestDecimal units)

instance : ToString Single := ⟨fun x => String.ofList x.text⟩

end Single

end NumericScript
