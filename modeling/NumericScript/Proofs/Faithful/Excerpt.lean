import NumericScript.Proofs.Faithful.Outline
import NumericScript.Proofs.Faithful.Slice
import NumericScript.Proofs.Layout.Texts
import NumericScript.Proofs.Scanning.Tiles

/-!
# Excerpts of a scanned text

A slice of a text from the beginning of one token to the end of another is scanned as the tokens in
between, only that they are less far on in the text. There may be empty lines around them.
-/

namespace NumericScript

/--
A text is scanned as some lines, with empty lines around them, if its own lines are taken to be so
many characters further on and after a number of other lines.
-/
def ScansAs (text : List Char) (chars : Nat) (lines : List TokenLine) : Prop :=
  ∃ scanned count gap gap', scan (String.ofList text) = .ok scanned ∧
    move (.shift chars count) scanned = gap ++ (lines ++ gap') ∧ Gap gap ∧ Gap gap'

section Trimming

variable {front chars back : List Placed}

private theorem trimEnd_append_white (hback : ∀ p ∈ back, isWhitespace p.char)
    (chars : List Placed) : trimEnd (chars ++ back) = trimEnd chars := by
  induction back using List.reverseRecOn with
  | nil => rw [List.append_nil]
  | append_singleton back p ih =>
    obtain ⟨hback, hp⟩ := List.forall_mem_append.mp hback
    rw [← List.append_assoc, trimEnd_concat, if_pos (hp p List.mem_cons_self), ih hback]

/-- White space is trimmed off at both ends, and nothing else is. -/
theorem trim_surrounded (hfront : ∀ p ∈ front, isWhitespace p.char)
    (hchars : ∀ p ∈ chars, isWhitespace p.char = false)
    (hback : ∀ p ∈ back, isWhitespace p.char) : trim (front ++ (chars ++ back)) = chars := by
  rw [trim, List.dropWhile_append_of_pos hfront]
  cases chars with
  | nil =>
    rw [List.nil_append, List.dropWhile_eq_nil_iff.mpr hback]
    rfl
  | cons p rest =>
    rw [List.cons_append, List.dropWhile_cons_of_neg (by simp [hchars p List.mem_cons_self]),
      ← List.cons_append, trimEnd_append_white hback, trimEnd_of_ink hchars]

/-- What is trimmed off is white space at both ends. -/
theorem exists_white (chars : List Placed) :
    ∃ front back, chars = front ++ (trim chars ++ back) ∧ (∀ p ∈ front, isWhitespace p.char) ∧
      ∀ p ∈ back, isWhitespace p.char := by
  obtain ⟨back, hback, hwhite⟩ := exists_trimEnd (chars.dropWhile fun p => isWhitespace p.char)
  refine ⟨chars.takeWhile fun p => isWhitespace p.char, back, ?_, fun p hp => ?_, hwhite⟩
  · rw [trim, ← hback, List.takeWhile_append_dropWhile]
  · exact List.mem_takeWhile_imp (p := fun p : Placed => isWhitespace p.char) hp

end Trimming

section Lines

/-- The lines of pieces that come after a number of other pieces. -/
def linesFrom (index : Nat) (pieces : List Piece) : List Line :=
  pieces.mapIdx fun i => Line.ofPiece (i + index)

@[simp] private theorem linesFrom_nil (index : Nat) : linesFrom index [] = [] := rfl

@[simp] private theorem linesFrom_cons (index : Nat) (piece : Piece) (pieces : List Piece) :
    linesFrom index (piece :: pieces) =
      Line.ofPiece index piece :: linesFrom (index + 1) pieces := by
  rw [linesFrom, List.mapIdx_cons, Nat.zero_add]
  refine congrArg (_ :: ·) (List.ext_getElem (by simp [linesFrom]) fun i _ _ => ?_)
  simp only [linesFrom, List.getElem_mapIdx, Nat.add_assoc, Nat.add_comm 1 index]

private theorem linesFrom_append (index : Nat) (pieces more : List Piece) :
    linesFrom index (pieces ++ more) =
      linesFrom index pieces ++ linesFrom (index + pieces.length) more := by
  induction pieces generalizing index with
  | nil => rfl
  | cons piece pieces ih =>
    have hlength : index + 1 + pieces.length = index + (piece :: pieces).length := by
      simp only [List.length_cons]
      omega
    rw [List.cons_append, linesFrom_cons, ih, hlength, linesFrom_cons, List.cons_append]

/-- Lines without characters. -/
def Vacant (lines : List Line) : Prop := ∀ line ∈ lines, line.chars = []

private theorem Hollow.vacant {pieces : List Piece} (h : Hollow pieces) (index : Nat) :
    Vacant (linesFrom index pieces) := by
  intro line hm
  obtain ⟨i, hi, rfl⟩ := List.mem_mapIdx.mp hm
  simp only [Line.ofPiece, h _ (List.getElem_mem hi)]
  rfl

private theorem logicalLines_eq_linesFrom (source : String) :
    logicalLines source = linesFrom 0 (piecesFrom 0 source.toList) := logicalLines_eq source

/-- The lines of a text that is taken to be further on. -/
theorem logicalLines_further (text : List Char) (chars count : Nat) :
    (logicalLines (String.ofList text)).map (.shift chars count) =
      linesFrom count (piecesFrom chars text) := by
  rw [logicalLines_eq, String.toList_ofList, ← mapIdx_shift, ← piecesFrom_shift, Nat.zero_add]
  rfl

/-- What a line is depends on what is left when its piece is trimmed, if anything is. -/
theorem Line.ofPiece_congr {piece piece' : Piece} (h : trim piece.chars = trim piece'.chars)
    (hne : trim piece.chars ≠ []) (index : Nat) : ofPiece index piece' = ofPiece index piece := by
  have hlast := List.getLast?_eq_some_getLast hne
  simp only [ofPiece, ← h, hlast]
  rfl

end Lines

section Pieces

variable {source : String} {P Q : Piece} {before after middle later : List Piece}
  {x y u v : List Placed} {p q : Placed}

/-- The slice from one character up to another falls into what is between them, with empty pieces
around it. -/
theorem exists_pieces_slice (hpieces : piecesFrom 0 source.toList = before ++ P :: after)
    (hfirst : P.chars = x ++ p :: y)
    (hrest : ⟨p :: y, P.breakOffset⟩ :: after = middle ++ Q :: later)
    (hlast : Q.chars = u ++ q :: v) (line : Nat) :
    ∃ front stop back, Hollow front ∧ Hollow back ∧ front.length ≤ before.length ∧
      piecesFrom p.offset (Span.slice ⟨p.offset, q.offset + 1, line⟩ source) =
        front ++ (middle ++ ⟨u ++ [q], stop⟩ :: back) := by
  obtain ⟨leading, text, front, htext, hoffset, hfrom, hfront, hle⟩ :=
    (splits false 0 source.toList).leftFrom hpieces hfirst
  rw [hrest, ← List.append_assoc] at hfrom
  obtain ⟨slice, trailing, piece, later', stop, back, rfl, hstop, hsplits, hslice, hback⟩ :=
    (splits false p.offset text).upTo hfrom hlast
  refine ⟨front, stop, back, hfront, hback, hle, ?_⟩
  have hdrop : source.toList.drop p.offset = slice ++ trailing := by
    rw [htext, hoffset, Nat.zero_add, List.drop_left]
  have htake : q.offset + 1 - p.offset = slice.length := by omega
  rw [Span.slice, hdrop, htake, List.take_left, hsplits.piecesFrom_eq, hslice, List.append_assoc]

end Pieces

section Slices

variable {source : String} {P Q : Piece} {before after middle : List Piece} {p q : Placed}
  {chars : List Placed}

/-- The slice of a text that some characters of one line take up has a line with these characters,
among empty lines. -/
theorem logicalLines_slice_part {a b : List Placed}
    (hpieces : piecesFrom 0 source.toList = before ++ P :: after)
    (hchars : (Line.ofPiece before.length P).chars = a ++ (chars ++ b))
    (hink : ∀ p ∈ chars, isWhitespace p.char = false) (hfirst : chars.head? = some p)
    (hlast : chars.getLast? = some q) (line : Nat) :
    ∃ count front back, Vacant front ∧ Vacant back ∧
      (logicalLines (String.ofList (Span.slice ⟨p.offset, q.offset + 1, line⟩ source))).map
        (.shift p.offset count) = front ++ ([⟨before.length, chars, q.offset + 1⟩] ++ back) := by
  obtain ⟨rest, rfl⟩ := List.head?_eq_some_iff.mp hfirst
  obtain ⟨init, hinit⟩ := List.getLast?_eq_some_iff.mp hlast
  obtain ⟨w, z, hP, -, -⟩ := exists_white P.chars
  have htrim : trim P.chars = a ++ (p :: rest ++ b) := hchars
  have hfrom : P.chars = (w ++ a) ++ p :: (rest ++ b ++ z) := by
    rw [hP, htrim]
    simp
  have hupTo : p :: (rest ++ b ++ z) = init ++ q :: (b ++ z) := by
    rw [← List.singleton_append (l := b ++ z), ← List.append_assoc, ← hinit]
    simp
  obtain ⟨front, stop, back, hfront, hback, hle, hslice⟩ :=
    exists_pieces_slice hpieces hfrom (List.nil_append _).symm hupTo line
  refine ⟨before.length - front.length, _, _, hfront.vacant (before.length - front.length),
    hback.vacant (before.length + 1), ?_⟩
  have hline : Line.ofPiece before.length ⟨init ++ [q], stop⟩ =
      ⟨before.length, p :: rest, q.offset + 1⟩ := by
    rw [← hinit]
    simp only [Line.ofPiece, trim_of_ink hink, hlast]
    rfl
  rw [logicalLines_further, hslice, linesFrom_append, List.nil_append, linesFrom_cons,
    Nat.sub_add_cancel hle, hline]
  rfl

/-- The slice of a text that some lines take up has these lines, among empty lines. -/
theorem logicalLines_slice_lines
    (hpieces : piecesFrom 0 source.toList = before ++ P :: (middle ++ Q :: after))
    (hink : ∀ p ∈ trim P.chars, isWhitespace p.char = false)
    (hink' : ∀ p ∈ trim Q.chars, isWhitespace p.char = false)
    (hfirst : (trim P.chars).head? = some p) (hlast : (trim Q.chars).getLast? = some q)
    (line : Nat) :
    ∃ count front back, Vacant front ∧ Vacant back ∧
      (logicalLines (String.ofList (Span.slice ⟨p.offset, q.offset + 1, line⟩ source))).map
        (.shift p.offset count) =
          front ++ (linesFrom before.length (P :: (middle ++ [Q])) ++ back) := by
  obtain ⟨rest, hrest⟩ := List.head?_eq_some_iff.mp hfirst
  obtain ⟨init, hinit⟩ := List.getLast?_eq_some_iff.mp hlast
  obtain ⟨w, z, hP, -, hz⟩ := exists_white P.chars
  obtain ⟨w', z', hQ, hw', -⟩ := exists_white Q.chars
  have hfrom : P.chars = w ++ p :: (rest ++ z) := by
    rw [hP, hrest, List.cons_append]
  have hupTo : Q.chars = (w' ++ init) ++ q :: z' := by
    rw [hQ, hinit]
    simp
  obtain ⟨front, stop, back, hfront, hback, hle, hslice⟩ :=
    exists_pieces_slice hpieces hfrom (List.cons_append ..).symm hupTo line
  refine ⟨before.length - front.length, _, _, hfront.vacant (before.length - front.length),
    hback.vacant (before.length + 1 + middle.length + 1), ?_⟩
  -- The first line has lost what is before it, the last line what is after it.
  have hopen : ∀ index, Line.ofPiece index ⟨p :: (rest ++ z), P.breakOffset⟩ =
      Line.ofPiece index P := by
    refine Line.ofPiece_congr ?_ (by simp [hrest])
    rw [← List.cons_append, ← hrest]
    exact (trim_surrounded (List.forall_mem_nil _) hink hz).symm
  have hclose : ∀ index, Line.ofPiece index ⟨w' ++ (init ++ [q]), stop⟩ =
      Line.ofPiece index Q := by
    have htrim := trim_surrounded hw' hink' (List.forall_mem_nil _)
    rw [List.append_nil] at htrim
    refine Line.ofPiece_congr ?_ (by simp [hinit])
    rw [← hinit, htrim]
  rw [logicalLines_further, hslice, linesFrom_append, Nat.sub_add_cancel hle]
  simp only [List.cons_append, linesFrom_cons, linesFrom_append, linesFrom_nil, List.append_assoc,
    List.nil_append]
  rw [hopen, hclose]

end Slices

section Tokens

/-- There is no white space in a lexeme. -/
theorem TokenKind.Fits.ink {kind : TokenKind} {text : List Char} (h : kind.Fits text) :
    ∀ c ∈ text, isWhitespace c = false := by
  have hink : ∀ {c : Char}, isInk c → isWhitespace c = false := by
    intro c hc
    simp only [isInk, Bool.and_eq_true, Bool.not_eq_true'] at hc
    exact hc.1.1
  cases kind with
  | identifier => exact fun c hc => hink (isInk_of_isWordChar (h.word c hc))
  | number =>
    intro c hc
    rcases h.char c hc with hdigit | rfl
    · exact hink (isInk_of_isWordChar (isWordChar_of_isDigit hdigit))
    · decide
  | leftBrace | rightBrace =>
    obtain rfl := h
    simp only [spelling, List.forall_mem_singleton]
    decide
  | _ =>
    obtain rfl := h
    exact fun c hc => hink (TokenKind.ink_spelling rfl c hc)

/-- The tokens of characters that are cut into lexemes are those of the parts of the characters. -/
theorem place_append (index : Nat) {chars more : List Placed} {lexemes later : List Lexeme}
    (htext : lexemes.flatMap Lexeme.text = chars.map (·.char)) :
    place index (chars ++ more) (lexemes ++ later) =
      place index chars lexemes ++ place index more later := by
  induction lexemes generalizing chars with
  | nil =>
    obtain rfl := List.map_eq_nil_iff.mp htext.symm
    rfl
  | cons lexeme lexemes ih =>
    obtain ⟨htake, hdrop⟩ := text_take_drop htext
    have hle : lexeme.text.length ≤ chars.length := by
      have hlength := congrArg List.length htake
      simp only [List.length_map, List.length_take] at hlength
      omega
    rw [List.cons_append, place, place, List.take_append_of_le_length hle,
      List.drop_append_of_le_length hle, ih hdrop]
    rfl

private theorem length_place (index : Nat) (chars : List Placed) (lexemes : List Lexeme) :
    (place index chars lexemes).length = lexemes.length := by
  have hlength := congrArg List.length (place_bare index chars lexemes)
  rwa [List.length_map] at hlength

namespace Line

variable {line : Line} {tokens before after : List Token} {t : Token} {stop : Span}

/-- A scanned line is trimmed, and there is no white space in it but blanks. -/
theorem ink_of_tokenLine {scanned : TokenLine} (h : line.tokenLine = .ok scanned) :
    ∀ p ∈ line.chars, isWhitespace p.char = false := by
  intro p hp
  have htiles := tiles_of_cut (cut_of_tokenLine h)
  have hm : p.char ∈ line.text := List.mem_map_of_mem hp
  rw [← htiles.text_eq] at hm
  obtain ⟨lexeme, hlexeme, hc⟩ := List.mem_flatMap.mp hm
  exact (htiles.fits lexeme hlexeme).ink _ hc

private theorem tokenLine_eq_of_cut {lexemes : List Lexeme} (h : cut line.text = .ok lexemes) :
    line.tokenLine = .ok ⟨place line.index line.chars lexemes, line.stopSpan⟩ := by
  rw [tokenLine, Line.tokens, h]

/-- A line begins where its first token begins. -/
theorem head_of_tokenLine (h : line.tokenLine = .ok ⟨tokens, stop⟩)
    (hfirst : tokens.head? = some t) :
    ∃ p, line.chars.head? = some p ∧ t.span.start = p.offset := by
  obtain ⟨groups, hflatten, hgroups⟩ := exists_groups h
  obtain ⟨more, rfl⟩ := List.head?_eq_some_iff.mp hfirst
  cases hgroups with
  | cons hmade _ =>
    obtain ⟨p, _, hp, _, hspan⟩ := hmade.exists_ends
    refine ⟨p, ?_, by rw [hspan]⟩
    rw [← hflatten, List.flatten_cons, List.head?_append, hp]
    rfl

/-- A line ends where its last token ends. -/
theorem last_of_tokenLine (h : line.tokenLine = .ok ⟨tokens, stop⟩)
    (hlast : tokens.getLast? = some t) :
    ∃ q, line.chars.getLast? = some q ∧ t.span.stop = q.offset + 1 := by
  obtain ⟨groups, hflatten, hgroups⟩ := exists_groups h
  obtain ⟨init, rfl⟩ := List.getLast?_eq_some_iff.mp hlast
  have hone := List.forall₂_drop_append _ _ _ hgroups.flip
  obtain ⟨group, _, hmade, hnil, hdrop⟩ := List.forall₂_cons_right_iff.mp hone
  obtain rfl := List.forall₂_nil_right_iff.mp hnil
  obtain ⟨_, q, _, hq, hspan⟩ := hmade.exists_ends
  refine ⟨q, ?_, by rw [hspan]⟩
  rw [← hflatten, ← List.take_append_drop init.length groups, hdrop, List.flatten_append,
    List.flatten_singleton, List.getLast?_append, hq]
  rfl

/-- Neighbouring tokens of a line are the tokens of the characters that they are made of. -/
theorem exists_part (h : line.tokenLine = .ok ⟨before ++ (tokens ++ after), stop⟩) :
    ∃ a chars b, line.chars = a ++ (chars ++ b) ∧ ∀ stop,
      (⟨line.index, chars, stop⟩ : Line).tokenLine = .ok ⟨tokens, .point stop line.index⟩ := by
  have hcut := cut_of_tokenLine h
  rw [List.map_append, List.map_append] at hcut
  have htext := (tiles_of_cut hcut).text_eq
  rw [List.flatMap_append, List.flatMap_append] at htext
  obtain ⟨a, rest, hchars, ha, hrest⟩ := List.map_eq_append_iff.mp htext.symm
  obtain ⟨chars, b, rfl, hmiddle, -⟩ := List.map_eq_append_iff.mp hrest
  have hpart := (cut_split (cut_split hcut).2).1
  rw [← hmiddle] at hpart
  refine ⟨a, chars, b, hchars, fun stop => ?_⟩
  obtain ⟨lexemes, htiles, hplace⟩ := exists_tiles h
  obtain ⟨htokens, -⟩ := TokenLine.mk.inj hplace
  have hlexemes := (tiles_of_cut hcut).eq htiles
  rw [← hlexemes, hchars, place_append line.index ha.symm, place_append line.index hmiddle.symm]
    at htokens
  obtain ⟨-, hrest⟩ := List.append_inj htokens (by rw [length_place, List.length_map])
  obtain ⟨hown, -⟩ := List.append_inj hrest (by rw [length_place, List.length_map])
  have hscanned : (⟨line.index, chars, stop⟩ : Line).tokenLine = _ := tokenLine_eq_of_cut hpart
  rwa [← hown] at hscanned

end Line

end Tokens

section Scanning

/-- Lines that are scanned one by one. -/
abbrev Scanned (lines : List Line) (scanned : List TokenLine) : Prop :=
  List.Forall₂ (fun line scanned => Line.tokenLine line = .ok scanned) lines scanned

variable {source : String} {text : List Char} {chars count : Nat}

/-- What is scanned from lines that are further on is what is scanned from the lines, further on. -/
theorem exists_scan_of_shift {moved : List TokenLine}
    (h : Scanned ((logicalLines source).map (.shift chars count)) moved) :
    ∃ scanned, scan source = .ok scanned ∧ move (.shift chars count) scanned = moved := by
  have hscan : ∀ line ∈ logicalLines source, ∃ scanned, line.tokenLine = .ok scanned := by
    intro line hm
    obtain ⟨i, hi, rfl⟩ := List.getElem_of_mem hm
    have hlines := List.forall₂_map_left_iff.mp h
    have hcut := Line.cut_of_tokenLine (hlines.get hi (hlines.length_eq ▸ hi))
    exact Line.tokenLine_of_cut (Line.text_shift _ ▸ hcut)
  obtain ⟨scanned, hscanned⟩ := exists_mapM_eq_ok hscan
  have hshift : Scanned ((logicalLines source).map (.shift chars count))
      (move (.shift chars count) scanned) := scan_shift hscanned
  have heq := (mapM_eq_ok.mpr hshift).symm.trans (mapM_eq_ok.mpr h)
  exact ⟨scanned, hscanned, Except.ok.inj heq⟩

/-- Empty lines are scanned as empty lines. -/
theorem exists_gap {lines : List Line} (h : Vacant lines) :
    ∃ gap, Scanned lines gap ∧ Gap gap := by
  induction lines with
  | nil => exact ⟨[], .nil, List.forall_mem_nil _⟩
  | cons line lines ih =>
    obtain ⟨hline, hlines⟩ := List.forall_mem_cons.mp h
    obtain ⟨gap, hscanned, hgap⟩ := ih hlines
    have hempty : line.text = [] := congrArg (List.map _) hline
    have hcut : cut line.text = .ok [] := hempty ▸ cut_nil
    refine ⟨_ :: gap, .cons (Line.tokenLine_eq_of_cut hcut) hscanned, ?_⟩
    exact List.forall_mem_cons.mpr ⟨rfl, hgap⟩

/-- A text whose lines, taken to be further on, are some lines among empty ones. -/
theorem scansAs_of_lines {front lines back : List Line} {own : List TokenLine}
    (hlines : (logicalLines (String.ofList text)).map (.shift chars count) =
      front ++ (lines ++ back))
    (hfront : Vacant front) (hback : Vacant back) (hown : Scanned lines own) :
    ScansAs text chars own := by
  obtain ⟨gap, hgap, hempty⟩ := exists_gap hfront
  obtain ⟨gap', hgap', hempty'⟩ := exists_gap hback
  have hall : Scanned (front ++ (lines ++ back)) (gap ++ (own ++ gap')) :=
    List.rel_append hgap (List.rel_append hown hgap')
  obtain ⟨scanned, hscanned, hmoved⟩ := exists_scan_of_shift (hlines ▸ hall)
  exact ⟨scanned, count, gap, gap', hscanned, hmoved, hempty, hempty'⟩

/-- Some of the scanned lines of a text are scanned from some of its pieces. -/
theorem exists_pieces_of_scan {before own after : List TokenLine}
    (h : scan source = .ok (before ++ (own ++ after))) :
    ∃ front pieces back, piecesFrom 0 source.toList = front ++ (pieces ++ back) ∧
      Scanned (linesFrom front.length pieces) own := by
  rw [scan, mapM_eq_ok, logicalLines_eq_linesFrom] at h
  generalize piecesFrom 0 source.toList = pieces at h ⊢
  have hlength := h.length_eq
  simp only [linesFrom, List.length_mapIdx, List.length_append] at hlength
  have hsplit : pieces = pieces.take before.length ++
      ((pieces.drop before.length).take own.length ++
        (pieces.drop before.length).drop own.length) := by
    rw [List.take_append_drop, List.take_append_drop]
  refine ⟨_, _, _, hsplit, ?_⟩
  rw [hsplit, linesFrom_append, Nat.zero_add, linesFrom_append] at h
  have hdrop := List.forall₂_drop_append _ _ _ h
  rw [List.drop_left' (by simp [linesFrom]; omega)] at hdrop
  have htake := List.forall₂_take_append _ _ _ hdrop
  rwa [List.take_left' (by simp [linesFrom]; omega)] at htake

private theorem exists_first_piece {index : Nat} {pieces : List Piece} {first : TokenLine}
    {later : List TokenLine} (h : Scanned (linesFrom index pieces) (first :: later)) :
    ∃ P rest, pieces = P :: rest ∧ (Line.ofPiece index P).tokenLine = .ok first ∧
      Scanned (linesFrom (index + 1) rest) later := by
  cases pieces with
  | nil => cases h
  | cons P rest =>
    rw [linesFrom_cons] at h
    cases h with
    | cons hfirst hlater => exact ⟨P, rest, rfl, hfirst, hlater⟩

private theorem exists_last_piece {index : Nat} {pieces : List Piece} {last : TokenLine}
    {lines : List TokenLine} (h : Scanned (linesFrom index pieces) (lines ++ [last])) :
    ∃ init Q, pieces = init ++ [Q] ∧
      (Line.ofPiece (index + init.length) Q).tokenLine = .ok last := by
  rcases List.eq_nil_or_concat pieces with rfl | ⟨init, Q, rfl⟩
  · simpa using h.length_eq
  · rw [List.concat_eq_append] at h ⊢
    have hlength := h.length_eq
    rw [linesFrom_append] at h
    have hone := List.forall₂_drop_append _ _ _ h
    rw [List.drop_left' (by simpa [linesFrom] using hlength)] at hone
    obtain ⟨_, _, hone', hscanned, _⟩ := exists_first_piece hone
    exact ⟨init, Q, rfl, (List.cons.inj hone').1 ▸ hscanned⟩

/-- The slice from the beginning of a token to the end of another one in the same line is scanned as
the tokens in between. -/
theorem scansAs_tokens {before after : List TokenLine} {front tokens back : List Token}
    {stop : Span} {t t' : Token}
    (h : scan source = .ok (before ++ ([⟨front ++ (tokens ++ back), stop⟩] ++ after)))
    (hfirst : tokens.head? = some t) (hlast : tokens.getLast? = some t') (line : Nat) :
    ∃ stop, ScansAs (Span.slice ⟨t.span.start, t'.span.stop, line⟩ source) t.span.start
      [⟨tokens, stop⟩] := by
  obtain ⟨leading, pieces, trailing, hpieces, hown⟩ := exists_pieces_of_scan h
  obtain ⟨P, rest, rfl, hscanned, _⟩ := exists_first_piece hown
  obtain ⟨a, chars, b, hchars, hpart⟩ := Line.exists_part hscanned
  obtain ⟨p, hp, hstart⟩ := Line.head_of_tokenLine (hpart 0) hfirst
  obtain ⟨q, hq, hstop⟩ := Line.last_of_tokenLine (hpart 0) hlast
  obtain ⟨count, lines, lines', hlines, hlines', hslice⟩ := logicalLines_slice_part hpieces hchars
    (Line.ink_of_tokenLine (hpart 0)) hp hq line
  rw [hstart, hstop]
  exact ⟨_, scansAs_of_lines hslice hlines hlines' (.cons (hpart _) .nil)⟩

/-- The slice from the first token of some lines to their last token is scanned as these lines. -/
theorem scansAs_lines {before own after : List TokenLine} {first last : TokenLine} {t t' : Token}
    (h : scan source = .ok (before ++ (own ++ after))) (hfirst : own.head? = some first)
    (ht : first.tokens.head? = some t) (hlast : own.getLast? = some last)
    (ht' : last.tokens.getLast? = some t') (line : Nat) :
    ScansAs (Span.slice ⟨t.span.start, t'.span.stop, line⟩ source) t.span.start own := by
  obtain ⟨leading, pieces, trailing, hpieces, hown⟩ := exists_pieces_of_scan h
  obtain ⟨later, rfl⟩ := List.head?_eq_some_iff.mp hfirst
  obtain ⟨P, rest, rfl, hP, hlater⟩ := exists_first_piece hown
  obtain ⟨p, hp, hstart⟩ := Line.head_of_tokenLine hP ht
  rcases List.eq_nil_or_concat later with rfl | ⟨middle, last', rfl⟩
  · obtain rfl := Option.some.inj hlast
    obtain ⟨q, hq, hstop⟩ := Line.last_of_tokenLine hP ht'
    obtain ⟨count, lines, lines', hlines, hlines', hslice⟩ := logicalLines_slice_part
      (a := []) (b := []) hpieces (List.append_nil _).symm (Line.ink_of_tokenLine hP) hp hq line
    have hline : (⟨leading.length, (Line.ofPiece leading.length P).chars, q.offset + 1⟩ : Line) =
        Line.ofPiece leading.length P := by
      simp only [Line.ofPiece] at hq ⊢
      rw [hq]
      rfl
    rw [hline] at hslice
    rw [hstart, hstop]
    exact scansAs_of_lines hslice hlines hlines' (.cons hP .nil)
  · rw [List.concat_eq_append] at hlast hlater hown ⊢
    obtain rfl : last' = last := by
      rw [← List.cons_append, List.getLast?_concat] at hlast
      exact Option.some.inj hlast
    obtain ⟨pieces, Q, rfl, hQ⟩ := exists_last_piece hlater
    obtain ⟨q, hq, hstop⟩ := Line.last_of_tokenLine hQ ht'
    rw [List.cons_append, List.append_assoc] at hpieces
    obtain ⟨count, lines, lines', hlines, hlines', hslice⟩ := logicalLines_slice_lines hpieces
      (Line.ink_of_tokenLine hP) (Line.ink_of_tokenLine hQ) hp hq line
    rw [hstart, hstop]
    exact scansAs_of_lines hslice hlines hlines' hown

end Scanning

end NumericScript
