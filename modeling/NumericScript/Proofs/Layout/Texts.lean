import Mathlib.Data.List.DropRight
import NumericScript.Proofs.Print.Layout
import NumericScript.Proofs.Scanning.Split

/-!
# Texts of lines

What the lines of a text say, without the lines that are empty. Blanks make no difference to it, nor
does it matter which breaks separate the lines and how many of them there are.
-/

namespace NumericScript

/-- The texts of the logical lines that are not empty. -/
def lineTexts (source : String) : List (List Char) :=
  ((logicalLines source).map Line.text).filter (!·.isEmpty)

/-- Drop white space at both ends. -/
def trimText (text : List Char) : List Char :=
  (text.dropWhile isWhitespace).rdropWhile isWhitespace

/-- Of some pieces the texts that are not empty when they are trimmed. -/
def keptTexts (pieces : List (List Char)) : List (List Char) :=
  (pieces.map trimText).filter (!·.isEmpty)

/-- The texts of the lines of a text, as if a carriage return and a line feed were two breaks. -/
def textsOf (text : List Char) : List (List Char) :=
  keptTexts (allPieces (text.filter (!isBlank ·)))

section Lines

/--
A white character at the end is trimmed, and any other one is kept with all that is before it.
-/
theorem trimEnd_concat (chars : List Placed) (p : Placed) :
    trimEnd (chars ++ [p]) = if isWhitespace p.char then trimEnd chars else chars ++ [p] := by
  induction chars with
  | nil => rfl
  | cons q chars ih =>
    rw [List.cons_append, trimEnd, ih]
    by_cases hp : isWhitespace p.char
    · rw [if_pos hp, if_pos hp, trimEnd]
    · rw [if_neg hp, if_neg hp]
      cases chars <;> rfl

private theorem trimEnd_char (chars : List Placed) :
    (trimEnd chars).map (·.char) = (chars.map (·.char)).rdropWhile isWhitespace := by
  induction chars using List.reverseRecOn with
  | nil => rfl
  | append_singleton chars p ih =>
    rw [trimEnd_concat, List.map_append, List.map_singleton, List.rdropWhile_concat, ← ih]
    split <;> simp

private theorem trim_char (chars : List Placed) :
    (trim chars).map (·.char) = trimText (chars.map (·.char)) := by
  rw [trim, trimEnd_char, trimText, List.dropWhile_map]
  rfl

/-- The text of a piece's line is the piece's text, trimmed. -/
theorem Line.text_ofPiece_eq (index : Nat) (piece : Piece) :
    (ofPiece index piece).text = trimText piece.text := trim_char piece.chars

/-- Pieces one after the other keep their texts one after the other. -/
@[simp] theorem keptTexts_append (pieces more : List (List Char)) :
    keptTexts (pieces ++ more) = keptTexts pieces ++ keptTexts more := by
  simp [keptTexts]

theorem keptTexts_cons (piece : List Char) (more : List (List Char)) :
    keptTexts (piece :: more) = keptTexts [piece] ++ keptTexts more :=
  keptTexts_append [piece] more

private theorem textsOf_blank {c : Char} (h : isBlank c) (rest : List Char) :
    textsOf (c :: rest) = textsOf rest := by
  simp [textsOf, h]

private theorem filter_ink {c : Char} (h : isBlank c = false) (rest : List Char) :
    (c :: rest).filter (!isBlank ·) = c :: rest.filter (!isBlank ·) :=
  List.filter_cons_of_pos (by simp [h])

/--
A text falls into its pieces, but for empty ones. If the text is not in the middle of a break, the
first piece is the same as well.
-/
theorem Splits.texts {afterReturn : Bool} {pos : Nat} {text : List Char} {piece : Piece}
    {later : List Piece} (h : Splits afterReturn pos text piece later) :
    (afterReturn = false →
      piece.text = (pieces (text.filter (!isBlank ·))).1 ∧
        keptTexts (later.map Piece.text) = keptTexts (pieces (text.filter (!isBlank ·))).2) ∧
    keptTexts ((piece :: later).map Piece.text) = textsOf text := by
  induction h with
  | nil => exact ⟨fun _ => ⟨rfl, rfl⟩, rfl⟩
  | @blank _ _ c rest _ _ hblank h ih =>
    obtain ⟨hfirst, hall⟩ := ih
    rw [textsOf_blank hblank, List.filter_cons_of_neg (by simp [hblank])]
    exact ⟨fun _ => hfirst rfl, hall⟩
  | feed h ih =>
    refine ⟨fun hafter => ?_, ih.2⟩
    cases hafter
  | ends hblank _ hbreak h ih =>
    rw [textsOf, filter_ink hblank]
    simp only [allPieces, pieces, hbreak, if_true]
    exact ⟨fun _ => ⟨rfl, ih.2⟩, ih.2⟩
  | @brace _ _ c rest piece later hblank hbreak hbrace h ih =>
    have hafter := congrArg (keptTexts [[c]] ++ ·) ih.2
    rw [textsOf, ← keptTexts_append, ← keptTexts_append] at hafter
    rw [textsOf, filter_ink hblank]
    simp only [allPieces, pieces, hbreak, hbrace, if_true, if_false, Bool.false_eq_true]
    exact ⟨fun _ => ⟨rfl, hafter⟩, hafter⟩
  | @keep _ pos c rest piece later hblank hbreak hbrace h ih =>
    obtain ⟨hpiece, hlater⟩ := ih.1 rfl
    have htext : Piece.text ⟨⟨c, pos⟩ :: piece.chars, piece.breakOffset⟩ =
        c :: (pieces (rest.filter (!isBlank ·))).1 := congrArg (c :: ·) hpiece
    rw [textsOf, filter_ink hblank]
    simp only [allPieces, pieces, hbreak, hbrace, if_false, Bool.false_eq_true, List.map_cons,
      htext]
    refine ⟨fun _ => ⟨trivial, hlater⟩, ?_⟩
    rw [keptTexts_cons, hlater, ← keptTexts_cons]

/-- The texts of the lines of a script. -/
theorem lineTexts_eq (source : String) : lineTexts source = textsOf source.toList := by
  rw [← (splits false 0 source.toList).texts.2, lineTexts, keptTexts, List.map_map]
  refine congrArg (List.filter _) ?_
  exact List.ext_getElem (by simp [logicalLines]) fun i _ _ => by
    simp only [logicalLines, List.getElem_map, List.getElem_mapIdx]
    exact Line.text_ofPiece_eq ..

end Lines

end NumericScript
