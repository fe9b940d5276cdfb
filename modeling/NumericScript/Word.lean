/-!
# Whole numbers of 64 bits

Indices and limits are written in decimal, with or without a plus sign.
-/

namespace NumericScript

/-- A number's digits, less a plus sign before them. -/
def unsigned : List Char → List Char
  | [] => []
  | c :: rest => if c = '+' then rest else c :: rest

/-- Read at least one digit, worth less than `2⁶⁴`; a plus sign may stand before the digits. -/
def readWord? (text : List Char) : Option UInt64 :=
  let digits := unsigned text
  let value := Nat.ofDigitChars 10 digits 0
  if !digits.isEmpty && digits.all Char.isDigit && decide (value < 2 ^ 64) then
    some (UInt64.ofNat value)
  else
    none

end NumericScript
