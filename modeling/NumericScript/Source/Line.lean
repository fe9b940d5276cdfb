import NumericScript.Source.Span
import NumericScript.Source.Whitespace

/-!
# Logical lines

A text falls into logical lines at line breaks and semicolons, and every brace is a line of its own.
Each kept character remembers its offset in the text, so that what is said about a line can point at
what was written. Empty lines are kept: the index of a line counts them.
-/

namespace NumericScript

/-- A character and its offset in the text. -/
structure Placed where
  char : Char
  offset : Nat
  deriving DecidableEq

/-- What stands between two breaks, and where the break that ends it is. -/
structure Piece where
  chars : List Placed
  breakOffset : Nat

/--
A logical line: its characters, trimmed at both ends, and the offset just past the last of them.
-/
structure Line where
  index : Nat
  chars : List Placed
  stop : Nat

/-- An opening or a closing brace. -/
def isBrace (c : Char) : Bool := c = '\x7b' || c = '\x7d'

/-- A line feed, a carriage return or a semicolon. -/
def isBreak (c : Char) : Bool := c = '\n' || c = '\r' || c = ';'

/--
The piece that a text begins with and the pieces after it, the text starting at offset `pos`. A line
feed right after a carriage return belongs to the same break.
-/
def splitFrom : Bool → Nat → List Char → Piece × List Piece
  | _, pos, [] => (⟨[], pos⟩, [])
  | afterReturn, pos, c :: rest =>
    let (piece, later) := splitFrom (c = '\r') (pos + 1) rest
    if isBlank c || (afterReturn && c = '\n') then
      (piece, later)
    else if isBreak c then
      (⟨[], pos⟩, piece :: later)
    else if isBrace c then
      (⟨[], pos⟩, ⟨[⟨c, pos⟩], pos + 1⟩ :: piece :: later)
    else
      (⟨⟨c, pos⟩ :: piece.chars, piece.breakOffset⟩, later)

/-- Drop white space at the end. -/
def trimEnd : List Placed → List Placed
  | [] => []
  | p :: rest =>
    match trimEnd rest with
    | [] => if isWhitespace p.char then [] else [p]
    | kept => p :: kept

/-- Drop white space at both ends. -/
def trim (chars : List Placed) : List Placed :=
  trimEnd (chars.dropWhile fun p => isWhitespace p.char)

namespace Line

/-- The line of a piece; an empty line ends where its break is. -/
def ofPiece (index : Nat) (piece : Piece) : Line :=
  let chars := trim piece.chars
  ⟨index, chars, (chars.getLast?.map (·.offset + 1)).getD piece.breakOffset⟩

/-- The characters without their offsets. -/
def text (line : Line) : List Char := line.chars.map (·.char)

/-- Whether nothing is left of the line. -/
def isEmpty (line : Line) : Bool := line.chars.isEmpty

/-- The offset of a character of the line; positions past the last one are at the line's end. -/
def offset (line : Line) (position : Nat) : Nat :=
  (line.chars[position]?.map (·.offset)).getD line.stop

/-- The span of the line's end. -/
def stopSpan (line : Line) : Span := .point line.stop line.index

end Line

/-- The logical lines of a text, in order. -/
def logicalLines (source : String) : List Line :=
  let (piece, later) := splitFrom false 0 source.toList
  (piece :: later).mapIdx Line.ofPiece

end NumericScript
