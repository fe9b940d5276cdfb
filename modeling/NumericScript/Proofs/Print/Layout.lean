import NumericScript.Source.Line

/-!
# Layout

Without carriage returns a text falls into the pieces between its line feeds and semicolons, with
every brace a piece of its own, and blanks make no difference. Lines of characters that mean
something fall into themselves.
-/

namespace NumericScript

/-- The piece that a text without blanks begins with, and the pieces after it. -/
def pieces : List Char → List Char × List (List Char)
  | [] => ([], [])
  | c :: rest =>
    let (piece, later) := pieces rest
    if isBreak c then ([], piece :: later)
    else if isBrace c then ([], [c] :: piece :: later)
    else (c :: piece, later)

/-- All pieces of a text without blanks. -/
def allPieces (text : List Char) : List (List Char) := (pieces text).1 :: (pieces text).2

/-- The characters of a piece, without their offsets. -/
def Piece.text (piece : Piece) : List Char := piece.chars.map (·.char)

/-- Blanks make no difference, nor does it matter where a text starts. -/
theorem splitFrom_pieces {text : List Char} (h : '\r' ∉ text) (pos : Nat) :
    (splitFrom false pos text).1.text = (pieces (text.filter (!isBlank ·))).1 ∧
      (splitFrom false pos text).2.map Piece.text = (pieces (text.filter (!isBlank ·))).2 := by
  induction text generalizing pos with
  | nil => exact ⟨rfl, rfl⟩
  | cons c rest ih =>
    have hc : decide (c = '\r') = false := decide_eq_false fun heq => h (heq ▸ List.mem_cons_self)
    obtain ⟨hfirst, hlater⟩ := ih (fun hm => h (List.mem_cons_of_mem _ hm)) (pos + 1)
    simp only [splitFrom, hc, Bool.false_and, Bool.or_false]
    by_cases hblank : isBlank c
    · rw [if_pos hblank, List.filter_cons_of_neg (by simp [hblank])]
      exact ⟨hfirst, hlater⟩
    · rw [if_neg hblank, List.filter_cons_of_pos (by simp [hblank])]
      simp only [pieces]
      by_cases hbreak : isBreak c
      · simp only [hbreak, if_true]
        exact ⟨rfl, congr (congrArg _ hfirst) hlater⟩
      · by_cases hbrace : isBrace c
        · simp only [hbreak, hbrace, if_true, if_false, Bool.false_eq_true]
          exact ⟨rfl, congrArg _ (congr (congrArg _ hfirst) hlater)⟩
        · simp only [hbreak, hbrace, if_false, Bool.false_eq_true]
          exact ⟨congrArg _ hfirst, hlater⟩

/-- Pieces hold characters of the text, but no breaks. -/
theorem mem_of_mem_pieces {text piece : List Char} (h : piece ∈ allPieces text) {c : Char}
    (hc : c ∈ piece) : c ∈ text ∧ isBreak c = false := by
  induction text generalizing piece with
  | nil =>
    obtain rfl := List.mem_singleton.mp h
    cases hc
  | cons d rest ih =>
    have hrest : ∀ piece ∈ allPieces rest, c ∈ piece → c ∈ d :: rest ∧ isBreak c = false :=
      fun piece hm hc => ⟨List.mem_cons_of_mem _ (ih hm hc).1, (ih hm hc).2⟩
    simp only [allPieces, pieces] at h
    split at h
    · rcases List.mem_cons.mp h with rfl | h
      · cases hc
      · exact hrest piece h hc
    · rename_i hbreak
      have hd : d ∈ d :: rest ∧ isBreak d = false := ⟨List.mem_cons_self, by simpa using hbreak⟩
      split at h
      · rcases List.mem_cons.mp h with rfl | h
        · cases hc
        · rcases List.mem_cons.mp h with rfl | h
          · obtain rfl := List.mem_singleton.mp hc
            exact hd
          · exact hrest piece h hc
      · rcases List.mem_cons.mp h with rfl | h
        · rcases List.mem_cons.mp hc with rfl | hc
          · exact hd
          · exact hrest _ List.mem_cons_self hc
        · exact hrest piece (List.mem_cons_of_mem _ h) hc

/-- Characters that are not white are not trimmed. -/
theorem trimEnd_of_ink {chars : List Placed} (h : ∀ p ∈ chars, isWhitespace p.char = false) :
    trimEnd chars = chars := by
  induction chars with
  | nil => rfl
  | cons p rest ih =>
    rw [trimEnd, ih fun q hq => h q (List.mem_cons_of_mem _ hq)]
    cases rest with
    | nil => simp [h p List.mem_cons_self]
    | cons q rest => rfl

/-- Nothing is trimmed off where there is no white space. -/
theorem trim_of_ink {chars : List Placed} (h : ∀ p ∈ chars, isWhitespace p.char = false) :
    trim chars = chars := by
  have hdrop : chars.dropWhile (fun p => isWhitespace p.char) = chars := by
    cases chars with
    | nil => rfl
    | cons p rest => simp [h p List.mem_cons_self]
  rw [trim, hdrop, trimEnd_of_ink h]

private theorem Line.text_ofPiece {piece : Piece} (h : ∀ c ∈ piece.text, isWhitespace c = false)
    (index : Nat) : (ofPiece index piece).text = piece.text := by
  have htrim : trim piece.chars = piece.chars :=
    trim_of_ink fun p hp => h p.char (List.mem_map_of_mem hp)
  simp only [ofPiece, Line.text, Piece.text, htrim]

/-- The texts of the logical lines of a text whose white space is blanks and line feeds. -/
theorem text_logicalLines {source : String}
    (h : ∀ c ∈ source.toList.filter (!isBlank ·), isWhitespace c → c = '\n') :
    (logicalLines source).map Line.text = allPieces (source.toList.filter (!isBlank ·)) := by
  have hreturn : '\r' ∉ source.toList := by
    intro hm
    cases h '\r' (List.mem_filter.mpr ⟨hm, by decide⟩) (by decide)
  obtain ⟨hfirst, hlater⟩ := splitFrom_pieces hreturn 0
  obtain ⟨all, hall⟩ : ∃ all, all =
      (splitFrom false 0 source.toList).1 :: (splitFrom false 0 source.toList).2 := ⟨_, rfl⟩
  have hpieces : all.map Piece.text = allPieces (source.toList.filter (!isBlank ·)) := by
    rw [hall, List.map_cons, hfirst, hlater, allPieces]
  have hlines : logicalLines source = all.mapIdx Line.ofPiece := by
    rw [hall]
    rfl
  rw [hlines, ← hpieces]
  refine List.ext_getElem (by simp) fun i hi hi' => ?_
  have hbound : i < all.length := by simpa using hi'
  have hmem : all[i].text ∈ all.map Piece.text := List.mem_map_of_mem (List.getElem_mem hbound)
  rw [hpieces] at hmem
  simp only [List.getElem_map, List.getElem_mapIdx]
  refine Line.text_ofPiece (fun c hc => ?_) i
  obtain ⟨htext, hbreak⟩ := mem_of_mem_pieces hmem hc
  by_cases hspace : isWhitespace c
  · rw [h c htext hspace] at hbreak
    cases hbreak
  · simpa using hspace

/-- A character that is neither white space nor a break nor a brace. -/
def isInk (c : Char) : Bool := !isWhitespace c && !isBreak c && !isBrace c

/-- A text that is a line of its own in any layout: a brace, or characters that are no brace. -/
def IsLineText (text : List Char) : Prop :=
  text ≠ [] ∧ ((∀ c ∈ text, isInk c) ∨ ∃ c, isBrace c ∧ text = [c])

/-- In lines of a text there is no white space but the line feeds that end them. -/
theorem isWhitespace_linesText {texts : List (List Char)} (h : ∀ text ∈ texts, IsLineText text) :
    ∀ c ∈ texts.flatMap (· ++ ['\n']), isWhitespace c → c = '\n' := by
  intro c hc hspace
  obtain ⟨text, hm, hc⟩ := List.mem_flatMap.mp hc
  rcases List.mem_append.mp hc with hc | hc
  · rcases (h text hm).2 with hink | ⟨d, hd, rfl⟩
    · simpa [isInk, hspace] using hink c hc
    · obtain rfl := List.mem_singleton.mp hc
      simp only [isBrace, Bool.or_eq_true, decide_eq_true_eq] at hd
      rcases hd with rfl | rfl <;> cases hspace
  · exact List.mem_singleton.mp hc

private theorem pieces_ink {text : List Char} (h : ∀ c ∈ text, isInk c) (rest : List Char) :
    pieces (text ++ '\n' :: rest) = (text, allPieces rest) := by
  induction text with
  | nil => rfl
  | cons c text ih =>
    obtain ⟨hc, htext⟩ := List.forall_mem_cons.mp h
    simp only [isInk, Bool.and_eq_true, Bool.not_eq_true'] at hc
    rw [List.cons_append, pieces, ih htext]
    simp only [hc.1.2, hc.2]
    rfl

private theorem pieces_brace {c : Char} (h : isBrace c) (rest : List Char) :
    pieces ([c] ++ '\n' :: rest) = ([], [c] :: [] :: allPieces rest) := by
  have hbreak : isBreak c = false := by
    simp only [isBrace, Bool.or_eq_true, decide_eq_true_eq] at h
    rcases h with rfl | rfl <;> rfl
  simp only [List.singleton_append, pieces, hbreak, h]
  rfl

/-- A text without breaks and braces is one piece. -/
theorem allPieces_ink {text : List Char} (h : ∀ c ∈ text, isInk c) : allPieces text = [text] := by
  induction text with
  | nil => rfl
  | cons c text ih =>
    obtain ⟨hc, htext⟩ := List.forall_mem_cons.mp h
    obtain ⟨hfirst, hlater⟩ := List.cons.inj (ih htext)
    simp only [isInk, Bool.and_eq_true, Bool.not_eq_true'] at hc
    simp only [allPieces, pieces, hfirst, hlater, hc.1.2, hc.2]
    rfl

/-- Texts of lines that are each ended by a line feed fall into themselves, and empty pieces. -/
theorem filter_allPieces {texts : List (List Char)} (h : ∀ text ∈ texts, IsLineText text) :
    (allPieces (texts.flatMap (· ++ ['\n']))).filter (!·.isEmpty) = texts := by
  induction texts with
  | nil => rfl
  | cons text texts ih =>
    obtain ⟨⟨hne, hline⟩, htexts⟩ := List.forall_mem_cons.mp h
    rw [List.flatMap_cons, List.append_assoc, List.singleton_append]
    rcases hline with hink | ⟨c, hc, rfl⟩
    · rw [allPieces, pieces_ink hink]
      dsimp only
      rw [List.filter_cons_of_pos (by simpa using hne), ih htexts]
    · rw [allPieces, pieces_brace hc]
      simpa using ih htexts

end NumericScript
