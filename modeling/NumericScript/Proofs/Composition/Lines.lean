import NumericScript.Proofs.Relocation.Move
import NumericScript.Proofs.Scanning.Stream

/-!
# Lines of composed texts

Where a semicolon or a brace separates two texts, the lines of both stand side by side. Those of the
second text are further on, and nothing else about them changes.
-/

namespace NumericScript

/-- The same character further on in a text. -/
def Placed.shift (chars : Nat) (p : Placed) : Placed := ⟨p.char, p.offset + chars⟩

/-- The same piece further on in a text. -/
def Piece.shift (chars : Nat) (piece : Piece) : Piece :=
  ⟨piece.chars.map (.shift chars), piece.breakOffset + chars⟩

/-- The same line further on in a text, after a number of other lines. -/
def Line.shift (chars lines : Nat) (line : Line) : Line :=
  ⟨line.index + lines, line.chars.map (.shift chars), line.stop + chars⟩

section Pieces

/-- The pieces of a text that begins at an offset. -/
def piecesFrom (pos : Nat) (text : List Char) : List Piece :=
  (splitFrom false pos text).1 :: (splitFrom false pos text).2

private theorem splitFrom_shift (chars : Nat) (afterReturn : Bool) (pos : Nat) (text : List Char) :
    splitFrom afterReturn (pos + chars) text =
      ((splitFrom afterReturn pos text).1.shift chars,
        (splitFrom afterReturn pos text).2.map (.shift chars)) := by
  induction text generalizing afterReturn pos with
  | nil => rfl
  | cons c rest ih =>
    have hpos : pos + chars + 1 = pos + 1 + chars := by omega
    simp only [splitFrom, hpos, ih]
    split
    · rfl
    · split
      · rfl
      · split
        · simp only [Piece.shift, Placed.shift, List.map_cons, List.map_nil]
        · rfl

/-- Cutting a text that starts further on gives the same pieces, shifted. -/
theorem piecesFrom_shift (chars pos : Nat) (text : List Char) :
    piecesFrom (pos + chars) text = (piecesFrom pos text).map (.shift chars) := by
  simp only [piecesFrom, splitFrom_shift, List.map_cons]

/-- The piece that a separating character is itself. -/
def ownPieces (c : Char) (pos : Nat) : List Piece :=
  if isBrace c then [⟨[⟨c, pos⟩], pos + 1⟩] else []

/-- A semicolon or a brace separates the pieces of two texts, whatever the first one ends with. -/
theorem splitFrom_append {c : Char} (h : c = ';' ∨ isBrace c) (afterReturn : Bool) (pos : Nat)
    (text rest : List Char) :
    splitFrom afterReturn pos (text ++ c :: rest) =
      ((splitFrom afterReturn pos text).1, (splitFrom afterReturn pos text).2 ++
        (ownPieces c (pos + text.length) ++ piecesFrom (pos + text.length + 1) rest)) := by
  induction text generalizing afterReturn pos with
  | nil =>
    have hc : c = ';' ∨ c = '\x7b' ∨ c = '\x7d' := by simpa [isBrace] using h
    rcases hc with rfl | rfl | rfl <;> simp [splitFrom, ownPieces, piecesFrom, isBlank, isBreak,
      isBrace]
  | cons d text ih =>
    have hlength : pos + (d :: text).length = pos + 1 + text.length := by
      simp only [List.length_cons]
      omega
    simp only [List.cons_append, splitFrom, ih, hlength]
    split
    · rfl
    · split
      · rfl
      · split <;> rfl

private theorem piecesFrom_append {c : Char} (h : c = ';' ∨ isBrace c) (pos : Nat)
    (text rest : List Char) :
    piecesFrom pos (text ++ c :: rest) = piecesFrom pos text ++
      (ownPieces c (pos + text.length) ++ piecesFrom (pos + text.length + 1) rest) := by
  simp only [piecesFrom, splitFrom_append h, List.cons_append]

end Pieces

section Lines

variable {chars lines : Nat}

private theorem trimEnd_shift (kept : List Placed) :
    trimEnd (kept.map (.shift chars)) = (trimEnd kept).map (.shift chars) := by
  induction kept with
  | nil => rfl
  | cons p rest ih =>
    simp only [List.map_cons, trimEnd, ih]
    cases trimEnd rest with
    | nil => by_cases hspace : isWhitespace p.char <;> simp [Placed.shift, hspace]
    | cons q kept => rfl

private theorem trim_shift (kept : List Placed) :
    trim (kept.map (.shift chars)) = (trim kept).map (.shift chars) := by
  rw [trim, List.dropWhile_map, trimEnd_shift]
  rfl

private theorem Line.ofPiece_shift (index : Nat) (piece : Piece) :
    ofPiece (index + lines) (piece.shift chars) = (ofPiece index piece).shift chars lines := by
  simp only [ofPiece, Piece.shift, shift, trim_shift, List.getLast?_map]
  cases (trim piece.chars).getLast? with
  | none => rfl
  | some p => simp only [Option.map_some, Option.getD_some, Placed.shift, Nat.add_right_comm]

/-- The lines of a text are its pieces, numbered. -/
theorem logicalLines_eq (source : String) :
    logicalLines source = (piecesFrom 0 source.toList).mapIdx Line.ofPiece := rfl

/-- Numbering shifted pieces from a later number gives the shifted lines. -/
theorem mapIdx_shift (pieces : List Piece) :
    (pieces.map (.shift chars)).mapIdx (fun index => Line.ofPiece (index + lines)) =
      (pieces.mapIdx Line.ofPiece).map (.shift chars lines) := by
  refine List.ext_getElem (by simp) fun index _ _ => ?_
  simp only [List.getElem_mapIdx, List.getElem_map, Line.ofPiece_shift]

/-- A semicolon puts the lines of two texts side by side. -/
theorem logicalLines_semicolon (source later : String) :
    logicalLines (source ++ ";" ++ later) = logicalLines source ++
      (logicalLines later).map (.shift (source.length + 1) (logicalLines source).length) := by
  have htext : (source ++ ";" ++ later).toList = source.toList ++ ';' :: later.toList := by
    simp
  have hpieces : piecesFrom (0 + source.toList.length + 1) later.toList =
      (piecesFrom 0 later.toList).map (.shift (source.length + 1)) := by
    rw [Nat.add_assoc, piecesFrom_shift, String.length_toList]
  have hown : ownPieces ';' (0 + source.toList.length) = [] := rfl
  rw [logicalLines_eq, htext, piecesFrom_append (.inl rfl), hown, List.nil_append, hpieces,
    List.mapIdx_append, logicalLines_eq, logicalLines_eq, List.length_mapIdx, mapIdx_shift]

/-- The pieces before what is between braces. -/
def openingPieces : List Piece := [⟨[], 0⟩, ⟨[⟨'\x7b', 0⟩], 1⟩]

/-- The pieces after what is between braces. -/
def closingPieces (chars : Nat) : List Piece :=
  [⟨[⟨'\x7d', chars + 1⟩], chars + 2⟩, ⟨[], chars + 2⟩]

private theorem piecesFrom_braces (source : String) :
    piecesFrom 0 ("\x7b" ++ source ++ "\x7d").toList = openingPieces ++
      ((piecesFrom 0 source.toList).map (.shift 1) ++ closingPieces source.length) := by
  have htext : ("\x7b" ++ source ++ "\x7d").toList =
      [] ++ '\x7b' :: (source.toList ++ '\x7d' :: []) := by
    simp
  have hlength : 0 + 1 + source.toList.length = source.length + 1 := by
    rw [String.length_toList, Nat.zero_add, Nat.add_comm]
  have hinside : piecesFrom (0 + 1) source.toList = (piecesFrom 0 source.toList).map (.shift 1) :=
    piecesFrom_shift 1 0 source.toList
  rw [htext, piecesFrom_append (.inr rfl), piecesFrom_append (.inr rfl), List.length_nil,
    Nat.add_zero, hlength, hinside]
  rfl

/-- The lines before what is between braces. -/
def openingLines : List Line := [⟨0, [], 0⟩, ⟨1, [⟨'\x7b', 0⟩], 1⟩]

/-- The lines after what is between braces, so many characters and lines. -/
def closingLines (chars lines : Nat) : List Line :=
  [⟨lines + 2, [⟨'\x7d', chars + 1⟩], chars + 2⟩, ⟨lines + 3, [], chars + 2⟩]

/-- Braces put two lines before those of a text and two lines after them. -/
theorem logicalLines_braces (source : String) :
    logicalLines ("\x7b" ++ source ++ "\x7d") = openingLines ++
      ((logicalLines source).map (.shift 1 2) ++
        closingLines source.length (logicalLines source).length) := by
  have hclosing : (closingPieces source.length).mapIdx
      (fun index => Line.ofPiece (index + (logicalLines source).length + 2)) =
        closingLines source.length (logicalLines source).length := by
    have hzero : 0 + (logicalLines source).length + 2 = (logicalLines source).length + 2 := by omega
    have hone : 0 + 1 + (logicalLines source).length + 2 = (logicalLines source).length + 3 := by
      omega
    rw [closingPieces, List.mapIdx_cons, List.mapIdx_cons, List.mapIdx_nil, hzero, hone]
    rfl
  rw [logicalLines_eq, piecesFrom_braces, List.mapIdx_append, List.mapIdx_append, List.length_map]
  have hlines : (piecesFrom 0 source.toList).length = (logicalLines source).length :=
    List.length_mapIdx.symm
  rw [hlines]
  exact congrArg₂ (· ++ ·) rfl (congrArg₂ (· ++ ·) (mapIdx_shift _) hclosing)

end Lines

section Tokens

variable {chars lines : Nat}

private theorem spanOf_shift (index : Nat) {group : List Placed} (h : group ≠ []) :
    spanOf (index + lines) (group.map (.shift chars)) =
      (Motion.shift chars lines).span (spanOf index group) := by
  have hfirst := List.head?_eq_some_head h
  have hlast := List.getLast?_eq_some_getLast h
  simp only [spanOf, List.head?_map, List.getLast?_map, hfirst, hlast, Motion.shift,
    Option.map_some, Option.getD_some, Placed.shift, Nat.add_right_comm]

/-- Tokens that are further on are the same tokens in their new places. -/
theorem place_shift (index : Nat) {kept : List Placed} {lexemes : List Lexeme}
    (htext : lexemes.flatMap Lexeme.text = kept.map (·.char))
    (hne : ∀ lexeme ∈ lexemes, lexeme.text ≠ []) :
    place (index + lines) (kept.map (.shift chars)) lexemes =
      move (.shift chars lines) (place index kept lexemes) := by
  induction lexemes generalizing kept with
  | nil => rfl
  | cons lexeme later ih =>
    obtain ⟨htake, hdrop⟩ := text_take_drop htext
    have hgroup : kept.take lexeme.text.length ≠ [] := by
      intro hnil
      rw [hnil] at htake
      exact hne lexeme List.mem_cons_self htake.symm
    have hlater := ih hdrop fun l hl => hne l (List.mem_cons_of_mem _ hl)
    rw [place, place, move_cons, ← List.map_take, ← List.map_drop, spanOf_shift index hgroup,
      hlater]
    rfl

/-- Shifting a line leaves its text as it is. -/
theorem Line.text_shift (line : Line) : (line.shift chars lines).text = line.text := by
  simp only [text, shift, List.map_map]
  rfl

private theorem Line.tokenLine_shift {line : Line} {scanned : TokenLine}
    (h : line.tokenLine = .ok scanned) :
    (line.shift chars lines).tokenLine = .ok (move (.shift chars lines) scanned) := by
  obtain ⟨lexemes, htiles, rfl⟩ := exists_tiles h
  have hcut := cut_of_tokenLine h
  rw [place_bare] at hcut
  have hplace : place (line.index + lines) (line.chars.map (.shift chars)) lexemes =
      move (.shift chars lines) (place line.index line.chars lexemes) :=
    place_shift line.index htiles.text_eq htiles.ne_nil
  have hstop : (line.shift chars lines).stopSpan =
      (Motion.shift chars lines).span line.stopSpan := by
    simp only [stopSpan, shift, Span.point, Motion.shift, Nat.add_right_comm]
  rw [tokenLine, tokens, text_shift, hcut]
  exact congrArg Except.ok (congrArg₂ TokenLine.mk hplace hstop)

/-- The lines of an accepted text are accepted when they are shifted, with shifted tokens. -/
theorem scan_shift {source : String} {scanned : List TokenLine} (h : scan source = .ok scanned) :
    List.Forall₂ (fun line scanned => Line.tokenLine line = .ok scanned)
      ((logicalLines source).map (.shift chars lines)) (move (.shift chars lines) scanned) := by
  rw [scan, mapM_eq_ok] at h
  refine List.forall₂_map_left_iff.mpr (List.forall₂_map_right_iff.mpr (h.imp ?_))
  exact fun line scanned => Line.tokenLine_shift

/-- Past a text and a semicolon. -/
def Motion.past (source : String) : Motion :=
  .shift (source.length + 1) (logicalLines source).length

/-- Scanned texts with a semicolon in between are scanned. -/
theorem scan_semicolon {source later : String} {scanned scannedLater : List TokenLine}
    (h : scan source = .ok scanned) (hlater : scan later = .ok scannedLater) :
    scan (source ++ ";" ++ later) = .ok (scanned ++ move (.past source) scannedLater) := by
  rw [scan, logicalLines_semicolon, mapM_eq_ok]
  exact List.rel_append (mapM_eq_ok.mp h) (scan_shift hlater)

/-- The brace at the beginning of a text. -/
def openingBrace : Token := ⟨.leftBrace, "\x7b", ⟨0, 1, 1⟩⟩

/-- The brace that closes what is between, so many characters and lines. -/
def closingBrace (chars lines : Nat) : Token :=
  ⟨.rightBrace, "\x7d", ⟨chars + 1, chars + 2, lines + 2⟩⟩

/-- The line of the opening brace and the one before it. -/
def openingTokens : List TokenLine := [⟨[], .point 0 0⟩, ⟨[openingBrace], .point 1 1⟩]

/-- The line of the closing brace and the one after it. -/
def closingTokens (chars lines : Nat) : List TokenLine :=
  [⟨[closingBrace chars lines], .point (chars + 2) (lines + 2)⟩,
    ⟨[], .point (chars + 2) (lines + 3)⟩]

/-- A scanned text between braces is scanned. -/
theorem scan_braces {source : String} {scanned : List TokenLine} (h : scan source = .ok scanned) :
    scan ("\x7b" ++ source ++ "\x7d") = .ok (openingTokens ++ (move (.shift 1 2) scanned ++
      closingTokens source.length (logicalLines source).length)) := by
  rw [scan, logicalLines_braces, mapM_eq_ok]
  refine List.rel_append ?_ (List.rel_append (scan_shift h) ?_)
  · exact .cons rfl (.cons rfl .nil)
  · exact .cons rfl (.cons rfl .nil)

end Tokens

end NumericScript
