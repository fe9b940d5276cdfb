import NumericScript.Source.Line

/-!
# Splitting step by step

How a text falls into its pieces, character by character: a blank is left out, as is the line feed
that ends a break of two characters, a break ends a piece, a brace ends a piece and is one itself,
and every other character belongs to the piece at the beginning.
-/

namespace NumericScript

/-- The piece that a text begins with and the pieces after it, one case for each character. -/
inductive Splits : Bool → Nat → List Char → Piece → List Piece → Prop
  | nil (afterReturn : Bool) (pos : Nat) : Splits afterReturn pos [] ⟨[], pos⟩ []
  | blank {afterReturn : Bool} {pos : Nat} {c : Char} {rest : List Char} {piece : Piece}
    {later : List Piece} (hblank : isBlank c) (h : Splits false (pos + 1) rest piece later) :
    Splits afterReturn pos (c :: rest) piece later
  | feed {pos : Nat} {rest : List Char} {piece : Piece} {later : List Piece}
    (h : Splits false (pos + 1) rest piece later) : Splits true pos ('\n' :: rest) piece later
  | ends {afterReturn : Bool} {pos : Nat} {c : Char} {rest : List Char} {piece : Piece}
    {later : List Piece} (hblank : isBlank c = false) (hfeed : (afterReturn && c = '\n') = false)
    (hbreak : isBreak c) (h : Splits (c = '\r') (pos + 1) rest piece later) :
    Splits afterReturn pos (c :: rest) ⟨[], pos⟩ (piece :: later)
  | brace {afterReturn : Bool} {pos : Nat} {c : Char} {rest : List Char} {piece : Piece}
    {later : List Piece} (hblank : isBlank c = false) (hbreak : isBreak c = false)
    (hbrace : isBrace c) (h : Splits false (pos + 1) rest piece later) :
    Splits afterReturn pos (c :: rest) ⟨[], pos⟩ (⟨[⟨c, pos⟩], pos + 1⟩ :: piece :: later)
  | keep {afterReturn : Bool} {pos : Nat} {c : Char} {rest : List Char} {piece : Piece}
    {later : List Piece} (hblank : isBlank c = false) (hbreak : isBreak c = false)
    (hbrace : isBrace c = false) (h : Splits false (pos + 1) rest piece later) :
    Splits afterReturn pos (c :: rest) ⟨⟨c, pos⟩ :: piece.chars, piece.breakOffset⟩ later

/-- A blank is no carriage return. -/
theorem ne_return_of_isBlank {c : Char} (h : isBlank c) : decide (c = '\r') = false := by
  refine decide_eq_false ?_
  rintro rfl
  cases h

/-- What breaks no line is no carriage return. -/
theorem ne_return_of_not_isBreak {c : Char} (h : isBreak c = false) :
    decide (c = '\r') = false := by
  refine decide_eq_false ?_
  rintro rfl
  cases h

/-- Cutting a text splits off its first piece. -/
theorem splits (afterReturn : Bool) (pos : Nat) (text : List Char) :
    Splits afterReturn pos text (splitFrom afterReturn pos text).1
      (splitFrom afterReturn pos text).2 := by
  induction text generalizing afterReturn pos with
  | nil => exact .nil afterReturn pos
  | cons c rest ih =>
    have hrest := ih (c = '\r') (pos + 1)
    simp only [splitFrom]
    split
    · rename_i hskip
      rcases Bool.or_eq_true_iff.mp hskip with hblank | hfeed
      · rw [ne_return_of_isBlank hblank] at hrest ⊢
        exact .blank hblank hrest
      · obtain ⟨rfl, hc⟩ := Bool.and_eq_true_iff.mp hfeed
        obtain rfl := of_decide_eq_true hc
        exact .feed hrest
    · rename_i hkeep
      obtain ⟨hblank, hfeed⟩ := Bool.or_eq_false_iff.mp (Bool.eq_false_iff.mpr hkeep)
      split
      · rename_i hbreak
        exact .ends hblank hfeed hbreak hrest
      · rename_i hbreak
        rw [Bool.not_eq_true] at hbreak
        rw [ne_return_of_not_isBreak hbreak] at hrest ⊢
        split
        · rename_i hbrace
          exact .brace hblank hbreak hbrace hrest
        · rename_i hbrace
          rw [Bool.not_eq_true] at hbrace
          exact .keep hblank hbreak hbrace hrest

end NumericScript
