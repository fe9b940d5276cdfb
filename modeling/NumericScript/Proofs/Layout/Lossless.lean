import NumericScript.Proofs.Layout.Texts
import NumericScript.Proofs.Scanning.Stray
import NumericScript.Proofs.Scanning.Stream

/-!
# Nothing is lost between a text and its lines

The characters of the pieces of a text, one piece after the other, are those of the text that are
neither blanks nor breaks. So every character that is written has its one place in the lines, and
how many lines there are can be counted off the text.
-/

namespace NumericScript

/-- How many line feeds of a text stand right after a carriage return. -/
def pairedFeeds (text : List Char) : Nat := (text.zip text.tail).count ('\r', '\n')

/-- The offsets of the characters of a line. -/
def Line.offsets (line : Line) : List Nat := line.chars.map (·.offset)

/-- What holds of one logical line of a text. -/
structure Line.Normal (source : String) (line : Line) : Prop where
  kept : ∀ c ∈ line.text, isBlank c = false ∧ isBreak c = false
  first : ∀ c, line.text.head? = some c → isWhitespace c = false
  last : ∀ c, line.text.getLast? = some c → isWhitespace c = false
  brace : ∀ c ∈ line.text, isBrace c → line.text = [c]
  length_offsets : line.offsets.length = line.text.length
  offset_eq : ∀ p, line.offset p = line.offsets.getD p line.stop
  written : ∀ p < line.text.length, source.toList[line.offset p]? = line.text[p]?
  ascending : ∀ p q, p < q → q < line.text.length → line.offset p < line.offset q
  past : ∀ p, line.text.length ≤ p → line.offset p = line.stop
  stop_eq : ∀ p, p + 1 = line.text.length → line.stop = line.offset p + 1
  stop_le : line.stop ≤ source.length

/-- How a logical line lies to those after it. -/
structure Line.Before (a b : Line) : Prop where
  offset_lt : ∀ p < a.text.length, ∀ q < b.text.length, a.offset p < b.offset q
  stop_le_first : a.stop ≤ b.offset 0
  stop_le_stop : a.stop ≤ b.stop

section Pieces

variable {afterReturn : Bool} {pos : Nat} {text : List Char} {piece : Piece} {later : List Piece}

/-- The pieces of a text keep all its characters but for blanks and breaks, in order. -/
theorem Splits.chars (h : Splits afterReturn pos text piece later) :
    (piece :: later).flatMap (·.chars) = (keptFrom pos text).filter (!isBreak ·.char) := by
  induction h with
  | nil => rfl
  | blank hblank h ih => rw [ih, keptFrom, if_pos hblank]
  | feed h ih =>
    rw [ih, keptFrom, if_neg (by decide)]
    rfl
  | ends hblank _ hbreak h ih =>
    rw [List.flatMap_cons, ih, keptFrom, if_neg (by simp [hblank]),
      List.filter_cons_of_neg (by simp [hbreak])]
    rfl
  | brace hblank hbreak _ h ih =>
    rw [List.flatMap_cons, List.flatMap_cons, ih, keptFrom, if_neg (by simp [hblank]),
      List.filter_cons_of_pos (by simp [hbreak])]
    rfl
  | keep hblank hbreak _ h ih =>
    rw [List.flatMap_cons] at ih ⊢
    rw [keptFrom, if_neg (by simp [hblank]), List.filter_cons_of_pos (by simp [hbreak]), ← ih]
    rfl

/-- The paired line feeds of a text that comes after a carriage return or does not. -/
def pairedFeedsFrom (afterReturn : Bool) (text : List Char) : Nat :=
  pairedFeeds (if afterReturn then '\r' :: text else text)

private theorem pairedFeedsFrom_cons (afterReturn : Bool) (c : Char) (rest : List Char) :
    pairedFeedsFrom afterReturn (c :: rest) =
      (if afterReturn && c = '\n' then 1 else 0) + pairedFeedsFrom (c = '\r') rest := by
  have hnext : pairedFeeds (c :: rest) = pairedFeedsFrom (c = '\r') rest := by
    by_cases hc : c = '\r'
    · simp [pairedFeedsFrom, hc]
    · cases rest <;> simp [pairedFeedsFrom, pairedFeeds, hc]
  cases afterReturn with
  | false => simpa [pairedFeedsFrom] using hnext
  | true =>
    rw [← hnext]
    simp [pairedFeedsFrom, pairedFeeds, List.count_cons, Nat.add_comm]

private theorem not_isBrace_of_isBreak {c : Char} (h : isBreak c) : isBrace c = false := by
  have hc : (c = '\n' ∨ c = '\r') ∨ c = ';' := by simpa [isBreak] using h
  rcases hc with (rfl | rfl) | rfl <;> rfl

/-- A character that is no break is not the line feed of a pair. -/
theorem not_feed_of_not_isBreak {c : Char} (h : isBreak c = false) (afterReturn : Bool) :
    (afterReturn && c = '\n') = false := by
  have hc : c ≠ '\n' := by
    rintro rfl
    cases h
  simp [hc]

/-- There is one piece more than there are breaks, and a brace makes for two. -/
theorem Splits.length (h : Splits afterReturn pos text piece later) :
    (piece :: later).length + pairedFeedsFrom afterReturn text =
      1 + text.countP isBreak + 2 * text.countP isBrace := by
  induction h with
  | nil afterReturn => cases afterReturn <;> rfl
  | @blank afterReturn _ c _ _ _ hblank h ih =>
    have hc : c = ' ' ∨ c = '\t' := by simpa [isBlank] using hblank
    rcases hc with rfl | rfl <;> simpa [pairedFeedsFrom_cons, isBreak, isBrace] using ih
  | @feed _ rest _ _ h ih =>
    have hfeed : pairedFeedsFrom true ('\n' :: rest) = 1 + pairedFeedsFrom false rest :=
      pairedFeedsFrom_cons true '\n' rest
    rw [hfeed, List.countP_cons_of_pos rfl, List.countP_cons_of_neg (by decide)]
    omega
  | ends hblank hfeed hbreak h ih =>
    have hbrace := not_isBrace_of_isBreak hbreak
    rw [pairedFeedsFrom_cons, hfeed, List.countP_cons_of_pos hbreak,
      List.countP_cons_of_neg (by simp [hbrace]), List.length_cons]
    simp only [Bool.false_eq_true, if_false]
    omega
  | @brace afterReturn _ c _ _ _ hblank hbreak hbrace h ih =>
    rw [pairedFeedsFrom_cons, not_feed_of_not_isBreak hbreak, ne_return_of_not_isBreak hbreak,
      List.countP_cons_of_neg (by simp [hbreak]), List.countP_cons_of_pos hbrace, List.length_cons,
      List.length_cons]
    simp only [Bool.false_eq_true, if_false]
    omega
  | keep hblank hbreak hbrace h ih =>
    rw [pairedFeedsFrom_cons, not_feed_of_not_isBreak hbreak, ne_return_of_not_isBreak hbreak,
      List.countP_cons_of_neg (by simp [hbreak]), List.countP_cons_of_neg (by simp [hbrace])]
    simp only [Bool.false_eq_true, if_false, List.length_cons] at ih ⊢
    omega

/-- A character that is not blank is kept in its place. -/
theorem mem_keptFrom_of_getElem? {k : Nat} {c : Char} (h : text[k]? = some c)
    (hblank : isBlank c = false) : ⟨c, pos + k⟩ ∈ keptFrom pos text := by
  induction text generalizing pos k with
  | nil => cases h
  | cons d rest ih =>
    cases k with
    | zero =>
      obtain rfl := Option.some.inj h
      rw [keptFrom, if_neg (by simp [hblank])]
      exact List.mem_cons_self
    | succ k =>
      have hrest : ⟨c, pos + (k + 1)⟩ ∈ keptFrom (pos + 1) rest := by
        rw [← Nat.add_assoc, Nat.add_right_comm]
        exact ih h
      rw [keptFrom]
      split
      · exact hrest
      · exact List.mem_cons_of_mem _ hrest

/-- Trimming takes away nothing but white space. -/
theorem mem_trim {chars : List Placed} {p : Placed} (h : p ∈ chars)
    (hink : isWhitespace p.char = false) : p ∈ trim chars := by
  have hdrop : p ∈ chars.dropWhile fun p => isWhitespace p.char := by
    rw [← List.takeWhile_append_dropWhile (p := fun p => isWhitespace p.char) (l := chars)] at h
    refine (List.mem_append.mp h).resolve_left fun hwhite => ?_
    rw [List.mem_takeWhile_imp hwhite] at hink
    cases hink
  obtain ⟨back, hchars, hback⟩ := exists_trimEnd (chars.dropWhile fun p => isWhitespace p.char)
  rw [hchars] at hdrop
  refine (List.mem_append.mp hdrop).resolve_right fun hwhite => ?_
  rw [hback p hwhite] at hink
  cases hink

/-- A trimmed text neither begins nor ends with white space. -/
theorem trimText_ends (text : List Char) :
    (∀ c, (trimText text).head? = some c → isWhitespace c = false) ∧
      ∀ c, (trimText text).getLast? = some c → isWhitespace c = false := by
  constructor
  · intro c hc
    obtain ⟨back, hback⟩ : trimText text <+: text.dropWhile isWhitespace :=
      List.rdropWhile_prefix isWhitespace _
    have hhead : (text.dropWhile isWhitespace).head? = some c := by
      rw [← hback, List.head?_append, hc]
      rfl
    have hnot := List.head?_dropWhile_not isWhitespace text
    rwa [hhead] at hnot
  · intro c hc
    have hne : trimText text ≠ [] := by
      intro hnil
      rw [hnil] at hc
      cases hc
    have hnot := List.rdropWhile_last_not isWhitespace (text.dropWhile isWhitespace) hne
    rw [List.getLast?_eq_some_getLast hne] at hc
    obtain rfl := Option.some.inj hc
    exact Bool.eq_false_iff.mpr hnot

end Pieces

section Lines

variable {source : String} {line : Line} {p : Nat}

/-- The pieces of a script together keep its characters but for blanks and breaks. -/
theorem exists_pieces_chars (source : String) :
    ∃ pieces, Falls 0 source.toList pieces ∧ logicalLines source = pieces.mapIdx Line.ofPiece ∧
      pieces.flatMap (·.chars) = (keptFrom 0 source.toList).filter (!isBreak ·.char) := by
  have hsplits := splits false 0 source.toList
  exact ⟨_, hsplits.falls_or.resolve_right (by simp), rfl, hsplits.chars⟩

/-- There is one line more than there are breaks, and a brace makes for two. -/
theorem length_logicalLines (source : String) :
    (logicalLines source).length + pairedFeeds source.toList =
      1 + source.toList.countP isBreak + 2 * source.toList.countP isBrace := by
  have hlength := (splits false 0 source.toList).length
  rw [logicalLines, List.length_mapIdx]
  exact hlength

/-- No character of a line is a blank or a break. -/
theorem ink_of_mem_line (h : line ∈ logicalLines source) {x : Placed} (hx : x ∈ line.chars) :
    isBlank x.char = false ∧ isBreak x.char = false := by
  obtain ⟨pieces, _, hlines, hchars⟩ := exists_pieces_chars source
  rw [hlines] at h
  obtain ⟨i, hi, rfl⟩ := List.mem_mapIdx.mp h
  have hmem : x ∈ pieces.flatMap (·.chars) :=
    List.mem_flatMap.mpr ⟨_, List.getElem_mem hi, (trim_within _).subset hx⟩
  rw [hchars] at hmem
  obtain ⟨hkept, hbreak⟩ := List.mem_filter.mp hmem
  have hblank : x.char ∈ source.toList.filter (!isBlank ·) := by
    rw [← keptFrom_char 0]
    exact List.mem_map_of_mem hkept
  exact ⟨by simpa using (List.mem_filter.mp hblank).2, by simpa using hbreak⟩

/-- Every character that is neither white space nor a semicolon is kept by a line. -/
theorem exists_line_of_getElem? {pos : Nat} {c : Char} (h : source.toList[pos]? = some c)
    (hink : isWhitespace c = false) (hsemicolon : c ≠ ';') :
    ∃ line ∈ logicalLines source, ⟨c, pos⟩ ∈ line.chars := by
  obtain ⟨pieces, _, hlines, hchars⟩ := exists_pieces_chars source
  have hblank : isBlank c = false := by
    by_contra hblank
    rw [isWhitespace_of_isBlank (Bool.not_eq_false _ ▸ hblank)] at hink
    cases hink
  have hbreak : isBreak c = false := by
    have hfeed : c ≠ '\n' := by
      rintro rfl
      cases hink
    have hreturn : c ≠ '\r' := by
      rintro rfl
      cases hink
    simp [isBreak, hfeed, hreturn, hsemicolon]
  have hkept : ⟨c, 0 + pos⟩ ∈ keptFrom 0 source.toList := mem_keptFrom_of_getElem? h hblank
  rw [Nat.zero_add] at hkept
  have hmem : ⟨c, pos⟩ ∈ pieces.flatMap (·.chars) := by
    rw [hchars]
    exact List.mem_filter.mpr ⟨hkept, by simp [hbreak]⟩
  obtain ⟨piece, hpiece, hm⟩ := List.mem_flatMap.mp hmem
  obtain ⟨i, hi, rfl⟩ := List.getElem_of_mem hpiece
  refine ⟨Line.ofPiece i pieces[i], ?_, mem_trim hm hink⟩
  rw [hlines]
  exact List.mem_mapIdx.mpr ⟨i, hi, rfl⟩

/-- The offset of a character of a line is where the character is written. -/
theorem Line.offset_of_lt (hp : p < line.text.length) : ∃ hlt : p < line.chars.length,
    line.offset p = line.chars[p].offset ∧ line.text[p]? = some line.chars[p].char := by
  have hlt : p < line.chars.length := by simpa [Line.text] using hp
  refine ⟨hlt, ?_, ?_⟩
  · rw [Line.offset, List.getElem?_eq_getElem hlt]
    rfl
  · rw [Line.text, List.getElem?_map, List.getElem?_eq_getElem hlt]
    rfl

/-- Past its characters a line only has its end. -/
theorem Line.offset_of_le (hp : line.text.length ≤ p) : line.offset p = line.stop := by
  have hle : line.chars.length ≤ p := by simpa [Line.text] using hp
  rw [Line.offset, List.getElem?_eq_none hle]
  rfl

/-- A line that is not empty ends right after its last character. -/
theorem stop_eq_of_last (h : line ∈ logicalLines source) (hp : p + 1 = line.text.length) :
    line.stop = line.offset p + 1 := by
  obtain ⟨hlt, hoffset, _⟩ := Line.offset_of_lt (show p < line.text.length by omega)
  have hlength : line.chars.length = p + 1 := by simpa [Line.text] using hp.symm
  obtain ⟨pieces, _, hlines⟩ := exists_pieces source
  rw [hlines] at h
  obtain ⟨i, hi, rfl⟩ := List.mem_mapIdx.mp h
  rcases Line.stop_cases i pieces[i] with ⟨hnil, _⟩ | ⟨init, q, hchars, _, hstop⟩
  · rw [hnil] at hlt
    cases hlt
  · rw [hchars, List.length_append, List.length_singleton, Nat.add_right_cancel_iff] at hlength
    rw [hstop, hoffset]
    simp only [hchars, ← hlength, List.getElem_concat_length]

/-- No line ends after the text. -/
theorem stop_le_length (h : line ∈ logicalLines source) : line.stop ≤ source.length := by
  obtain ⟨pieces, hfalls, hlines⟩ := exists_pieces source
  rw [hlines] at h
  obtain ⟨i, hi, rfl⟩ := List.mem_mapIdx.mp h
  have hstop := hfalls.stop_le (List.getElem_mem hi) i
  obtain ⟨before, slice, after, htext, _, hbreak⟩ := hfalls.exists_slice (List.getElem_mem hi)
  rw [← String.length_toList, htext]
  simp only [List.length_append]
  omega

/-- The index of a line is its place among the lines. -/
theorem index_of_getElem? {i : Nat} (h : (logicalLines source)[i]? = some line) :
    line.index = i := by
  obtain ⟨hi, rfl⟩ := List.getElem?_eq_some_iff.mp h
  have hindex := List.getElem_of_eq (index_logicalLines source) (i := i) (by simpa using hi)
  simpa using hindex

/-- The lines of a text are as they should be. -/
theorem normal_of_mem (h : line ∈ logicalLines source) : line.Normal source := by
  have hends : (∀ c, line.text.head? = some c → isWhitespace c = false) ∧
      ∀ c, line.text.getLast? = some c → isWhitespace c = false := by
    obtain ⟨pieces, _, hlines⟩ := exists_pieces source
    rw [hlines] at h
    obtain ⟨i, hi, rfl⟩ := List.mem_mapIdx.mp h
    rw [Line.text_ofPiece_eq]
    exact trimText_ends _
  constructor
  · intro c hc
    obtain ⟨x, hx, rfl⟩ := List.mem_map.mp hc
    exact ink_of_mem_line h hx
  · exact hends.1
  · exact hends.2
  · intro c hc hbrace
    obtain ⟨x, hx, rfl⟩ := List.mem_map.mp hc
    rw [Line.text, logicalLines_braceAlone h x hx hbrace]
    rfl
  · simp [Line.offsets, Line.text]
  · intro p
    simp [Line.offset, Line.offsets, List.getD_eq_getElem?_getD]
  · intro p hp
    obtain ⟨hlt, hoffset, hchar⟩ := Line.offset_of_lt hp
    have hkept := getElem?_of_mem_keptFrom ((within_keptFrom h).subset (List.getElem_mem hlt))
    rw [hoffset, hchar, ← hkept, Nat.sub_zero]
  · intro p q hpq hq
    obtain ⟨hlt, hoffset, _⟩ := Line.offset_of_lt (Nat.lt_trans hpq hq)
    obtain ⟨hlt', hoffset', _⟩ := Line.offset_of_lt hq
    rw [hoffset, hoffset']
    exact List.pairwise_iff_getElem.mp (ascending_chars h) p q hlt hlt' hpq
  · exact fun p hp => Line.offset_of_le hp
  · exact fun p hp => stop_eq_of_last h hp
  · exact stop_le_length h

/-- The lines of a text come one after the other. -/
theorem pairwise_before (source : String) : (logicalLines source).Pairwise Line.Before := by
  refine (ordered_logicalLines source).imp_of_mem ?_
  rintro a b ha hb ⟨hstop, hchars⟩
  have hle : ∀ q, a.stop ≤ b.offset q := by
    intro q
    rcases Nat.lt_or_ge q b.text.length with hq | hq
    · obtain ⟨hlt, hoffset, _⟩ := Line.offset_of_lt hq
      rw [hoffset]
      exact hchars _ (List.getElem_mem hlt)
    · rw [Line.offset_of_le hq]
      exact hstop
  refine ⟨fun p hp q _ => ?_, hle 0, hstop⟩
  obtain ⟨hlt, hoffset, _⟩ := Line.offset_of_lt hp
  rw [hoffset]
  exact Nat.lt_of_lt_of_le (offset_lt_stop ha (List.getElem_mem hlt)) (hle q)

/-- No two characters of the lines are at one offset. -/
theorem place_unique {i j p q : Nat} {a b : Line} (ha : (logicalLines source)[i]? = some a)
    (hb : (logicalLines source)[j]? = some b) (hp : p < a.text.length) (hq : q < b.text.length)
    (hoffset : a.offset p = b.offset q) : i = j ∧ p = q := by
  obtain ⟨hi, rfl⟩ := List.getElem?_eq_some_iff.mp ha
  obtain ⟨hj, rfl⟩ := List.getElem?_eq_some_iff.mp hb
  have hbefore := List.pairwise_iff_getElem.mp (pairwise_before source)
  rcases Nat.lt_trichotomy i j with hlt | rfl | hlt
  · have hapart := (hbefore i j hi hj hlt).offset_lt p hp q hq
    omega
  · have hascending := (normal_of_mem (List.getElem_mem hi)).ascending
    rcases Nat.lt_trichotomy p q with hlt | rfl | hlt
    · have hapart := hascending p q hlt hq
      omega
    · exact ⟨rfl, rfl⟩
    · have hapart := hascending q p hlt hp
      omega
  · have hapart := (hbefore j i hj hi hlt).offset_lt q hq p hp
    omega

/--
The lines of a text are counted from zero, there is one more of them than there are breaks, and two
more for each brace. Each is normal, they come one after the other, and every character that is
neither white space nor a semicolon has exactly one place in them.
-/
theorem logicalLines_lossless (source : String) :
    (∀ (i : Nat) (line : Line), (logicalLines source)[i]? = some line → line.index = i) ∧
      (logicalLines source).length + pairedFeeds source.toList =
        1 + source.toList.countP isBreak + 2 * source.toList.countP isBrace ∧
      (∀ line ∈ logicalLines source, line.Normal source) ∧
      (logicalLines source).Pairwise Line.Before ∧
      ∀ (pos : Nat) (c : Char), source.toList[pos]? = some c → isWhitespace c = false → c ≠ ';' →
        ∃! place : Nat × Nat, ∃ line, (logicalLines source)[place.1]? = some line ∧
          line.text[place.2]? = some c ∧ line.offset place.2 = pos := by
  refine ⟨fun i line => index_of_getElem?, length_logicalLines source,
    fun line hm => normal_of_mem hm, pairwise_before source, ?_⟩
  intro pos c hc hink hsemicolon
  obtain ⟨line, hline, hm⟩ := exists_line_of_getElem? hc hink hsemicolon
  obtain ⟨i, hi, rfl⟩ := List.getElem_of_mem hline
  obtain ⟨p, hp, hplaced⟩ := List.getElem_of_mem hm
  have hp' : p < (logicalLines source)[i].text.length := by simpa [Line.text] using hp
  obtain ⟨_, hoffset, hchar⟩ := Line.offset_of_lt hp'
  rw [hplaced] at hoffset hchar
  refine ⟨(i, p), ⟨_, List.getElem?_eq_getElem hi, hchar, hoffset⟩, ?_⟩
  rintro ⟨j, q⟩ ⟨other, hother, hchar', hoffset'⟩
  have hq := (List.getElem?_eq_some_iff.mp hchar').1
  obtain ⟨rfl, rfl⟩ := place_unique hother (List.getElem?_eq_getElem hi) hq hp'
    (hoffset'.trans hoffset.symm)
  rfl

/-- A script with a break of two characters, a space that does not break, and braces. -/
def mixedSource : String := " x\r\n\u00a0y\u00a0=1 \x7b;\x7d"

/-- A text with all kinds of breaks, its lines, and the one place of a character of it. -/
theorem logicalLines_lossless_mixed :
    ((logicalLines mixedSource).map fun line => (String.ofList line.text, line.stop)) =
        [("x", 2), ("y\u00a0=1", 9), ("\x7b", 11), ("", 11), ("", 12), ("\x7d", 13), ("", 13)] ∧
      7 + pairedFeeds mixedSource.toList =
        1 + mixedSource.toList.countP isBreak + 2 * mixedSource.toList.countP isBrace ∧
      ∃! place : Nat × Nat, ∃ line, (logicalLines mixedSource)[place.1]? = some line ∧
        line.text[place.2]? = some '=' ∧ line.offset place.2 = 7 := by
  have hlines : ((logicalLines mixedSource).map fun line => (String.ofList line.text, line.stop)) =
      [("x", 2), ("y\u00a0=1", 9), ("\x7b", 11), ("", 11), ("", 12), ("\x7d", 13), ("", 13)] := by
    decide +kernel
  obtain ⟨_, hlength, _, _, hplace⟩ := logicalLines_lossless mixedSource
  have hseven := congrArg List.length hlines
  rw [List.length_map] at hseven
  rw [hseven] at hlength
  exact ⟨hlines, hlength, hplace 7 '=' (by decide) (by decide) (by decide)⟩

end Lines

end NumericScript
