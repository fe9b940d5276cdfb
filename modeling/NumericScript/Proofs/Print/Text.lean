import Mathlib.Data.List.TakeWhile
import NumericScript.Proofs.Glyph.Tree
import NumericScript.Proofs.Scanning.Lines

/-!
# Printed text

Glyphs are printed one after the other with nothing between them. How a number is written is left
open: any way is good that is a numeral and reads as the number.
-/

namespace NumericScript

/-- Decimal digits, or decimal digits around a point with at least one of them after it. -/
def IsNumeral (text : List Char) : Prop :=
  ∃ whole fraction, (∀ c ∈ whole, c.isDigit) ∧ (∀ c ∈ fraction, c.isDigit) ∧
    (whole ≠ [] ∧ text = whole ∨ fraction ≠ [] ∧ text = whole ++ '.' :: fraction)

/-- A numeral of digits alone is a whole number. -/
theorem ofNumeral?_whole {whole : List Char} (hwhole : ∀ c ∈ whole, c.isDigit) (hne : whole ≠ []) :
    Single.ofNumeral? whole = some (.ofDecimal (digitsValue whole) 0) := by
  have htake : whole.takeWhile Char.isDigit = whole := List.takeWhile_eq_self_iff.mpr hwhole
  have hdrop : whole.dropWhile Char.isDigit = [] := List.dropWhile_eq_nil_iff.mpr hwhole
  simp [Single.ofNumeral?, htake, hdrop, hne]

/-- A numeral with a point is a number of parts of a power of ten. -/
theorem ofNumeral?_point {whole fraction : List Char} (hwhole : ∀ c ∈ whole, c.isDigit)
    (hfraction : ∀ c ∈ fraction, c.isDigit) (hne : fraction ≠ []) :
    Single.ofNumeral? (whole ++ '.' :: fraction) =
      some (.ofDecimal (digitsValue (whole ++ fraction)) fraction.length) := by
  have htake : (whole ++ '.' :: fraction).takeWhile Char.isDigit = whole := by
    rw [List.takeWhile_append_of_pos hwhole, List.takeWhile_cons_of_neg (by decide),
      List.append_nil]
  have hdrop : (whole ++ '.' :: fraction).dropWhile Char.isDigit = '.' :: fraction := by
    rw [List.dropWhile_append_of_pos hwhole, List.dropWhile_cons_of_neg (by decide)]
  have hall : fraction.all Char.isDigit = true := List.all_eq_true.mpr hfraction
  simp [Single.ofNumeral?, htake, hdrop, hne, hall]

namespace Glyph

variable (numeral : Single → List Char)

/-- The characters of a glyph, given how numbers are written. -/
def text : Glyph → List Char
  | mark kind => kind.spelling
  | name text => text.toList
  | number value => numeral value
  | target word => word.toList

/--
What can be printed: a name that is one token, a number that a numeral reads as, and a target's name
that is a word and no keyword.
-/
def Printable : Glyph → Prop
  | mark _ => True
  | name text => cut text.toList = .ok [⟨.identifier, text.toList⟩]
  | number value =>
    IsNumeral (numeral value) ∧ Single.ofNumeral? (numeral value) = some value
  | target word =>
    word ≠ "" ∧ (∀ c ∈ word.toList, isWordChar c) ∧ Keyword.ofWord? word.toList = none

end Glyph

/-- The text of some glyphs. -/
def textOf (numeral : Single → List Char) (glyphs : List Glyph) : List Char :=
  glyphs.flatMap (Glyph.text numeral)

/-- The text of some lines, each of them ended by a line feed. -/
def linesText (numeral : Single → List Char) (lines : List (List Glyph)) : List Char :=
  lines.flatMap fun line => textOf numeral line ++ ['\n']

/-- What a lexeme says. -/
def Lexeme.glyph (lexeme : Lexeme) : Glyph := glyphOf lexeme.kind (String.ofList lexeme.text)

/-- A token and its lexeme have the same glyph. -/
theorem Token.glyph_eq_bare (t : Token) : t.glyph = t.bare.glyph := by
  rw [Token.glyph, Lexeme.glyph, Token.bare, String.ofList_toList]

/-- The glyph of a lexeme whose kind has a spelling is its kind. -/
theorem Lexeme.glyph_mark {kind : TokenKind} (h : kind.spelling ≠ []) (text : List Char) :
    Lexeme.glyph ⟨kind, text⟩ = .mark kind :=
  glyphOf_of_ne _ (by rintro rfl; exact h rfl) (by rintro rfl; exact h rfl)

section

variable (numeral : Single → List Char)

@[simp] theorem textOf_nil : textOf numeral [] = [] := rfl

@[simp] theorem textOf_cons (glyph : Glyph) (glyphs : List Glyph) :
    textOf numeral (glyph :: glyphs) = glyph.text numeral ++ textOf numeral glyphs := rfl

@[simp] theorem textOf_append (glyphs later : List Glyph) :
    textOf numeral (glyphs ++ later) = textOf numeral glyphs ++ textOf numeral later :=
  List.flatMap_append

end

end NumericScript
