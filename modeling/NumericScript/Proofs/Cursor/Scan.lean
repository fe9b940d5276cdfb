import NumericScript.Proofs.Cursor.Scanner
import NumericScript.Proofs.Scanning.Stray

/-!
# The scanner at work

The scanner takes the lexeme that is munched at its cursor, and it fails where nothing is. Over a
whole text it comes to the stream of the scanned lines.
-/

namespace NumericScript

namespace Crawl

open Course

variable {line : Line} {start current : Nat} {c : Char} {rest : List Char}

section Steps

private theorem endsAt_isAtEnd : (isAtEnd line).endsAt ⟨start, current⟩ =
    some (.ok (line.text.length ≤ current), ⟨start, current⟩) :=
  endsAt_of_run fun _ => rfl

private theorem endsAt_peek (h : line.text.drop current = rest) :
    (peek line).endsAt ⟨start, current⟩ =
    some (.ok (rest.head?.getD '\x00'), ⟨start, current⟩) := by
  rw [← h, List.head?_drop]
  exact endsAt_of_run fun _ => rfl

private theorem endsAt_peekNext (h : line.text.drop current = rest) :
    (peekNext line).endsAt ⟨start, current⟩ =
      some (.ok (rest.tail.head?.getD '\x00'), ⟨start, current⟩) := by
  rw [← h, List.tail_drop, List.head?_drop]
  exact endsAt_of_run fun _ => rfl

private theorem endsAt_advance (h : line.text.drop current = c :: rest) :
    (advance line).endsAt ⟨start, current⟩ = some (.ok c, ⟨start, current + 1⟩) := by
  rw [advance, endsAt_bind_ok (endsAt_peek h)]
  exact endsAt_of_run fun _ => rfl

private theorem drop_succ (h : line.text.drop current = c :: rest) :
    line.text.drop (current + 1) = rest := by
  rw [← List.tail_drop, h, List.tail_cons]

private theorem lt_length (h : line.text.drop current = c :: rest) :
    current < line.text.length := by
  rw [← not_le, ← List.drop_eq_nil_iff, h]
  exact List.cons_ne_nil c rest

/-- A given character is taken if it is the next one. -/
theorem endsAt_accept (expected : Char) (h : line.text.drop current = rest) :
    (accept line expected).endsAt ⟨start, current⟩ =
      if rest.head? = some expected then some (.ok true, ⟨start, current + 1⟩)
      else some (.ok false, ⟨start, current⟩) := by
  rw [accept, endsAt_bind_ok endsAt_isAtEnd, endsAt_bind_ok (endsAt_peek h)]
  cases rest with
  | nil =>
    have hend : line.text.length ≤ current := List.drop_eq_nil_iff.mp h
    simp only [hend, decide_true, Bool.true_or, if_true, List.head?_nil, reduceCtorEq, if_false]
    exact endsAt_of_run fun _ => rfl
  | cons d more =>
    have hend : decide (line.text.length ≤ current) = false :=
      decide_eq_false (Nat.not_le.mpr (lt_length h))
    simp only [hend, Bool.false_or, List.head?_cons, Option.getD_some, Option.some.injEq]
    by_cases heq : d = expected
    · simp only [heq, ne_eq, not_true_eq_false, decide_false, Bool.false_eq_true, if_false, if_true]
      exact endsAt_of_run fun _ => rfl
    · simp only [heq, ne_eq, not_false_eq_true, decide_true, if_true, if_false]
      exact endsAt_of_run fun _ => rfl

/-- The cursor comes behind the characters of a class that stand at it. -/
theorem endsAt_run (isPart : Char → Bool) (start : Nat) (hzero : isPart '\x00' = false)
    (h : line.text.drop current = rest) :
    (run line isPart).endsAt ⟨start, current⟩ =
      some (.ok (), ⟨start, current + (rest.takeWhile isPart).length⟩) := by
  induction rest generalizing current with
  | nil =>
    rw [run, endsAt_bind_ok (endsAt_peek h), List.head?_nil, Option.getD_none, hzero]
    exact endsAt_of_run fun _ => rfl
  | cons d more ih =>
    rw [run, endsAt_bind_ok (endsAt_peek h), List.head?_cons, Option.getD_some]
    by_cases hd : isPart d = true
    · rw [if_pos hd, endsAt_bind_ok (endsAt_advance h), endsAt_enter]
      change (run line isPart).endsAt _ = _
      rw [ih (drop_succ h), List.takeWhile_cons_of_pos hd, List.length_cons, Nat.add_right_comm,
        Nat.add_assoc]
    · rw [if_neg hd, List.takeWhile_cons_of_neg hd]
      exact endsAt_of_run fun _ => rfl

end Steps

section Tokens

variable {length : Nat}

private theorem endsAt_slice (hlength : start + length ≤ line.text.length) :
    (slice line).endsAt ⟨start, start + length⟩ =
      some (.ok ((line.text.drop start).take length), ⟨start, start + length⟩) := by
  rw [slice, endsAt_bind_ok endsAt_get, if_pos ⟨Nat.le_add_right start length, hlength⟩,
    Nat.add_sub_cancel_left]
  exact endsAt_of_run fun _ => rfl

/-- The characters of a line have offsets. -/
theorem offset_eq {position : Nat} (h : position < line.chars.length) :
    line.offset position = line.chars[position].offset := by
  rw [Line.offset, List.getElem?_eq_getElem h]
  rfl

private theorem endsAt_span (hpos : 0 < length) (hlength : start + length ≤ line.text.length) :
    (span line).endsAt ⟨start, start + length⟩ =
      some (.ok (spanOf line.index ((line.chars.drop start).take length)),
        ⟨start, start + length⟩) := by
  rw [Line.text, List.length_map] at hlength
  have hfirst : start < line.chars.length := by omega
  have hlast : start + length - 1 < line.chars.length := by omega
  have hindex : start + (length - 1) = start + length - 1 := by omega
  rw [span, endsAt_bind_ok endsAt_get, if_neg (by simp only; omega), offset_eq hfirst,
    offset_eq hlast, spanOf, List.head?_take, if_neg hpos.ne', List.head?_drop,
    List.getElem?_eq_getElem hfirst, List.getLast?_take, if_neg hpos.ne', List.getElem?_drop,
    hindex, List.getElem?_eq_getElem hlast]
  exact endsAt_of_run fun _ => rfl

/-- A token of some characters of a line. -/
def tokenAt (line : Line) (start length : Nat) (kind : TokenKind) : Token :=
  ⟨kind, String.ofList ((line.text.drop start).take length),
    spanOf line.index ((line.chars.drop start).take length)⟩

private theorem endsAt_token (kind : TokenKind) (hpos : 0 < length)
    (hlength : start + length ≤ line.text.length) :
    (token line kind).endsAt ⟨start, start + length⟩ =
      some (.ok (tokenAt line start length kind), ⟨start, start + length⟩) := by
  rw [token, endsAt_bind_ok (endsAt_slice hlength), endsAt_bind_ok (endsAt_span hpos hlength)]
  exact endsAt_of_run fun _ => rfl

end Tokens

section Word

variable {word after : List Char}

/-- What stands at a place within a line goes up to the end of the line. -/
theorem length_of_drop {part : List Char} (h : line.text.drop start = part) (hne : part ≠ []) :
    start + part.length = line.text.length := by
  have hlt : start < line.text.length := by
    rw [← not_le, ← List.drop_eq_nil_iff, h]
    exact hne
  rw [← h, List.length_drop]
  omega

/-- A word with a letter in it, or the name of a function that it begins with. -/
theorem endsAt_lettered (hrest : line.text.drop start = word ++ after) (hne : word ≠ [])
    (halpha : word.any Char.isAlpha = true) :
    (lettered line word).endsAt ⟨start, start + word.length⟩ =
      some (.ok (tokenAt line start (classifyWord word after).2 (classifyWord word after).1),
        ⟨start, start + (classifyWord word after).2⟩) := by
  have hpos : 0 < word.length := List.length_pos_iff.mpr hne
  have hlength := length_of_drop hrest (List.append_ne_nil_of_left_ne_nil hne after)
  rw [List.length_append] at hlength
  rw [lettered, classifyWord, if_pos halpha]
  cases Keyword.ofWord? word with
  | some k => exact endsAt_token (.keyword k) hpos (by omega)
  | none =>
    cases hstart : Builtin.ofWordStart? word with
    | none => exact endsAt_token .identifier hpos (by omega)
    | some f =>
      have hname : f.name.length ≤ word.length := by
        rw [← String.length_toList]
        exact (Builtin.prefix_of_wordStart hstart).length_le
      have hnonempty : 0 < f.name.length := by
        rw [← String.length_toList]
        exact List.length_pos_iff.mpr f.name_ne_nil
      exact endsAt_token (.function f) hnonempty (show start + f.name.length ≤ _ by omega)

/-- A point is taken with the digits after it. -/
theorem endsAt_fraction (hafter : line.text.drop current = after) :
    (fraction line).endsAt ⟨start, current⟩ =
      some (.ok (), ⟨start, current + fractionLength after⟩) := by
  rw [fraction, endsAt_bind_ok (endsAt_peek hafter), endsAt_bind_ok (endsAt_peekNext hafter)]
  cases after with
  | nil => exact endsAt_of_run fun _ => rfl
  | cons d more =>
    simp only [List.head?_cons, Option.getD_some, List.tail_cons, fractionLength]
    by_cases hd : d = '.'
    · rw [if_pos hd]
      cases more with
      | nil => simp [hd, Char.isDigit]; exact endsAt_of_run fun _ => rfl
      | cons e more =>
        by_cases he : e.isDigit = true
        · have hrun := endsAt_run Char.isDigit start (by decide) (drop_succ hafter)
          rw [List.takeWhile_cons_of_pos he, List.length_cons] at hrun ⊢
          simp only [hd, decide_true, List.head?_cons, Option.getD_some, he, Bool.and_self, if_true]
          rw [endsAt_bind_ok (endsAt_advance hafter), hrun]
          congr 3
          omega
        · rw [List.takeWhile_cons_of_neg he]
          simp [he]
          exact endsAt_of_run fun _ => rfl
    · simp [hd]
      exact endsAt_of_run fun _ => rfl

/-- A fraction is a part of what stands before it. -/
theorem fractionLength_le (text : List Char) : fractionLength text ≤ text.length := by
  rcases take_fractionLength text with hzero | ⟨fraction, _, _, hlength, hstarts⟩
  · rw [hzero]
    exact Nat.zero_le _
  · rw [hlength, ← List.length_cons]
    exact hstarts.length_le

/-- A word is a name or a numeral, or a function's name if it begins with one. -/
theorem endsAt_word (hrest : line.text.drop start = c :: rest) {kind : TokenKind} {length : Nat}
    (h : classifyWord (c :: rest.takeWhile isWordChar) (rest.dropWhile isWordChar) =
      (kind, length)) :
    (Crawl.word line).endsAt ⟨start, start + 1⟩ =
      some (.ok (tokenAt line start length kind), ⟨start, start + length⟩) := by
  have hsplit : line.text.drop start =
      (c :: rest.takeWhile isWordChar) ++ rest.dropWhile isWordChar := by
    rw [hrest, List.cons_append, List.takeWhile_append_dropWhile]
  have hrun := endsAt_run isWordChar start (by decide) (drop_succ hrest)
  have hplace : start + 1 + (rest.takeWhile isWordChar).length =
      start + (c :: rest.takeWhile isWordChar).length := by
    rw [List.length_cons]
    omega
  have hne : c :: rest.takeWhile isWordChar ≠ [] := List.cons_ne_nil _ _
  rw [hplace] at hrun
  generalize c :: rest.takeWhile isWordChar = word, rest.dropWhile isWordChar = after at *
  have hpos : 0 < word.length := List.length_pos_iff.mpr hne
  have hlength := length_of_drop hsplit (List.append_ne_nil_of_left_ne_nil hne after)
  rw [List.length_append] at hlength
  have hslice : (slice line).endsAt ⟨start, start + word.length⟩ =
      some (.ok word, ⟨start, start + word.length⟩) := by
    rw [endsAt_slice (by omega), hsplit, List.take_left]
  rw [Crawl.word, endsAt_bind_ok hrun, endsAt_bind_ok hslice]
  by_cases halpha : word.any Char.isAlpha = true
  · rw [if_pos halpha, endsAt_lettered hsplit hne halpha, h]
  · rw [classifyWord, if_neg halpha] at h
    rw [if_neg halpha]
    by_cases hscore : word.any (· = '_') = true
    · rw [if_pos hscore] at h ⊢
      obtain ⟨rfl, rfl⟩ := Prod.mk.inj h
      exact endsAt_token .identifier hpos (by omega)
    · rw [if_neg hscore] at h ⊢
      obtain ⟨rfl, rfl⟩ := Prod.mk.inj h
      have hdrop : line.text.drop (start + word.length) = after := by
        rw [← List.drop_drop, hsplit, List.drop_left]
      have hle := fractionLength_le after
      rw [endsAt_bind_ok (endsAt_fraction hdrop), Nat.add_assoc]
      exact endsAt_token .number (Nat.add_pos_left hpos _) (by omega)

end Word

section Token

variable (hrest : line.text.drop start = c :: rest)

include hrest

/-- Of a sign with two characters the second one is taken if it follows. -/
theorem endsAt_pair (expected : Char) (kind : TokenKind) (other : Crawl Token) :
    (do if ← accept line expected then token line kind else other : Crawl Token).endsAt
        ⟨start, start + 1⟩ =
      if rest.head? = some expected then some (.ok (tokenAt line start 2 kind), ⟨start, start + 2⟩)
      else other.endsAt ⟨start, start + 1⟩ := by
  have haccept : (accept line expected).endsAt ⟨start, start + 1⟩ = _ :=
    endsAt_accept expected (drop_succ hrest)
  by_cases hhead : rest.head? = some expected
  · rw [if_pos hhead] at haccept ⊢
    obtain ⟨more, rfl⟩ := List.head?_eq_some_iff.mp hhead
    have hlength := length_of_drop hrest (List.cons_ne_nil _ _)
    rw [List.length_cons, List.length_cons] at hlength
    rw [endsAt_bind_ok haccept]
    exact endsAt_token kind Nat.two_pos (by omega)
  · rw [if_neg hhead] at haccept ⊢
    rw [endsAt_bind_ok haccept]
    rfl

/-- A numeral that begins with a point has a digit after it. -/
theorem endsAt_point (other : Crawl Token) :
    (do
      if (← peek line).isDigit then
        run line Char.isDigit
        token line .number
      else other : Crawl Token).endsAt ⟨start, start + 1⟩ =
      if fractionLength ('.' :: rest) = 0 then other.endsAt ⟨start, start + 1⟩
      else some (.ok (tokenAt line start (fractionLength ('.' :: rest)) .number),
        ⟨start, start + fractionLength ('.' :: rest)⟩) := by
  have hdrop := drop_succ hrest
  have hlength := length_of_drop hrest (List.cons_ne_nil _ _)
  have hle := fractionLength_le ('.' :: rest)
  rw [endsAt_bind_ok (endsAt_peek hdrop)]
  cases rest with
  | nil => rfl
  | cons d more =>
    rw [List.head?_cons, Option.getD_some]
    by_cases hd : d.isDigit = true
    · have hrun := endsAt_run Char.isDigit start (by decide) hdrop
      rw [List.takeWhile_cons_of_pos hd, List.length_cons] at hrun
      simp only [fractionLength, if_true, List.takeWhile_cons_of_pos hd, List.length_cons]
        at hle hlength ⊢
      rw [if_pos hd, endsAt_bind_ok hrun, if_neg (Nat.succ_ne_zero _)]
      have hplace : start + 1 + ((more.takeWhile Char.isDigit).length + 1) =
          start + ((more.takeWhile Char.isDigit).length + 2) := by
        omega
      rw [hplace]
      exact endsAt_token .number (Nat.succ_pos _) (by omega)
    · have hzero : fractionLength ('.' :: d :: more) = 0 := by
        simp only [fractionLength, if_true, List.takeWhile_cons_of_neg hd, List.length_nil]
      rw [if_neg hd, if_pos hzero]

omit hrest in
/-- The character before the cursor is blamed at its place. -/
theorem endsAt_unexpected {α : Type} (c : Char) :
    (unexpected line c : Crawl α).endsAt ⟨start, start + 1⟩ =
      some (.error (.error ⟨.point (line.offset start) line.index, .unexpectedCharacter c⟩),
        ⟨start, start + 1⟩) :=
  endsAt_of_run fun _ => rfl

/-- How the scanner ends at a character where some kind and length is munched, or nothing. -/
def outcome (line : Line) (start : Nat) (c : Char) :
    Option (TokenKind × Nat) → Option (Except Halt Token × Spot)
  | some (kind, length) => some (.ok (tokenAt line start length kind), ⟨start, start + length⟩)
  | none =>
    some (.error (.error ⟨.point (line.offset start) line.index, .unexpectedCharacter c⟩),
      ⟨start, start + 1⟩)

omit hrest in
/-- A numeral is munched at a point if a digit is after it. -/
theorem munch_point : munch? '.' rest =
    if fractionLength ('.' :: rest) = 0 then none
    else some (.number, fractionLength ('.' :: rest)) := by
  have hword : isWordChar '.' = false := by decide
  cases hlength : fractionLength ('.' :: rest) <;> simp [munch?, hword, hlength]

/-- The lexeme that is munched at the cursor is taken; if there is none, the character is blamed. -/
theorem endsAt_scanToken :
    (scanToken line).endsAt ⟨start, start⟩ = outcome line start c (munch? c rest) := by
  have hlength := length_of_drop hrest (List.cons_ne_nil c rest)
  rw [List.length_cons] at hlength
  rw [scanToken, endsAt_bind_ok (endsAt_advance hrest)]
  split
  case h_14 =>
    have hequal := @endsAt_token line start 1 .equal Nat.one_pos (by omega)
    refine (endsAt_pair hrest '=' .equalEqual _).trans ?_
    rw [hequal]
    exact (apply_ite (outcome line start '=') _ (some (.equalEqual, 2)) (some (.equal, 1))).symm
  case h_15 | h_16 | h_17 =>
    refine (endsAt_pair hrest _ _ _).trans ?_
    rw [endsAt_unexpected]
    exact (apply_ite (outcome line start _) _ (some (_, 2)) none).symm
  case h_18 =>
    rw [munch_point, apply_ite (outcome line start '.')]
    refine (endsAt_point hrest _).trans ?_
    rw [endsAt_unexpected]
    rfl
  case h_19 =>
    unfold munch?
    by_cases hword : isWordChar c = true
    · rw [if_pos hword, if_pos hword]
      exact endsAt_word hrest rfl
    · rw [if_neg hword, if_neg hword]
      split <;> first | contradiction | exact endsAt_of_run fun _ => rfl
  all_goals exact endsAt_token _ Nat.one_pos (by omega)

end Token

section Lines

/-- A word is not longer than what it is taken from. -/
theorem classifyWord_le (word after : List Char) :
    (classifyWord word after).2 ≤ word.length + after.length := by
  have hfraction := fractionLength_le after
  unfold classifyWord
  split
  · split
    · exact Nat.le_add_right _ _
    · split
      · rename_i f hf
        have hle := (Builtin.prefix_of_wordStart hf).length_le
        rw [String.length_toList] at hle
        exact hle.trans (Nat.le_add_right _ _)
      · exact Nat.le_add_right _ _
  · split
    · exact Nat.le_add_right _ _
    · exact Nat.add_le_add_left hfraction _

/-- What is munched has at least one character, and not more than there are. -/
theorem munch_bounds {kind : TokenKind} {length : Nat} (h : munch? c rest = some (kind, length)) :
    0 < length ∧ length ≤ rest.length + 1 := by
  have hne := (munched_of_munch h).ne_nil
  refine ⟨Nat.pos_of_ne_zero fun hzero => hne (hzero ▸ rfl), ?_⟩
  unfold munch? at h
  split at h
  · have hle := classifyWord_le (c :: rest.takeWhile isWordChar) (rest.dropWhile isWordChar)
    rw [Option.some.inj h, ← List.length_append, List.cons_append,
      List.takeWhile_append_dropWhile] at hle
    exact hle
  · split at h
    case h_14 | h_15 | h_16 | h_17 =>
      split at h <;> cases h
      all_goals
        first
        | exact Nat.succ_le_succ (Nat.zero_le _)
        | rename_i hhead
          obtain ⟨more, rfl⟩ := List.head?_eq_some_iff.mp hhead
          exact Nat.succ_le_succ (Nat.succ_le_succ (Nat.zero_le _))
    case h_18 =>
      have hle := fractionLength_le ('.' :: rest)
      split at h <;> cases h
      exact hle
    all_goals
      cases h
      try exact Nat.succ_le_succ (Nat.zero_le _)

/-- What scanning makes of the text of a line from some place on. -/
def scanFrom (line : Line) (current : Nat) : Except ScriptError (List Token) :=
  match cut (line.text.drop current) with
  | .ok lexemes => .ok (place line.index (line.chars.drop current) lexemes)
  | .error stray =>
    .error ⟨.point (line.offset (current + stray.position)) line.index,
      .unexpectedCharacter stray.char⟩

private theorem scanFrom_of_drop_nil (h : line.text.drop current = []) :
    scanFrom line current = .ok [] := by
  rw [scanFrom, h, cut_nil]
  rfl

/-- Scanning goes on after the lexeme that is munched. -/
theorem scanFrom_of_munch (h : line.text.drop current = c :: rest) {kind : TokenKind}
    {length : Nat} (hmunch : munch? c rest = some (kind, length)) :
    scanFrom line current =
      (scanFrom line (current + length)).map (tokenAt line current length kind :: ·) := by
  obtain ⟨hpos, hle⟩ := munch_bounds hmunch
  obtain ⟨more, rfl⟩ := Nat.exists_eq_succ_of_ne_zero hpos.ne'
  have hdrop : line.text.drop (current + (more + 1)) = rest.drop more := by
    rw [← List.drop_drop, h, List.drop_succ_cons]
  have htext : ((c :: rest).take (more + 1)).length = more + 1 :=
    List.length_take_of_le hle
  rw [scanFrom, scanFrom, h, hdrop]
  cases hlater : cut (rest.drop more) with
  | ok later =>
    rw [cut_cons_eq_ok.mpr ⟨kind, more + 1, later, hmunch, hlater, rfl⟩]
    simp only [place, htext, Except.map, tokenAt, h, List.drop_drop]
  | error stray =>
    rw [cut_cons_eq_error.mpr (.inr ⟨kind, more + 1, stray, hmunch, hlater, rfl⟩)]
    have hposition : current + (stray.position + (more + 1 - 1) + 1) =
        current + (more + 1) + stray.position := by
      omega
    simp only [Except.map, hposition]

private theorem scanFrom_of_none (h : line.text.drop current = c :: rest)
    (hmunch : munch? c rest = none) : scanFrom line current =
      .error ⟨.point (line.offset current) line.index, .unexpectedCharacter c⟩ := by
  rw [scanFrom, h, cut_cons_eq_error.mpr (.inl ⟨hmunch, rfl⟩)]
  rfl

/-- The scanner takes what is left of a line as scanning does. -/
theorem endsAt_lineRest (start current : Nat) (before : List Mark) : ∃ last,
    (lineRest line before).endsAt ⟨start, current⟩ =
      some (((scanFrom line current).map fun tokens =>
        before ++ tokens.map Mark.token ++ [.newline line.stopSpan]).mapError .error, last) := by
  induction hlength : (line.text.drop current).length using Nat.strong_induction_on
    generalizing start current before with
  | _ n ih =>
    rw [lineRest, endsAt_bind_ok endsAt_isAtEnd]
    cases hrest : line.text.drop current with
    | nil =>
      rw [scanFrom_of_drop_nil hrest, if_pos (by simpa using hrest)]
      exact ⟨⟨start, current⟩, by
        simp only [Except.map, List.map_nil, List.append_nil]
        exact endsAt_pure _⟩
    | cons c rest =>
      have hset : (set (Spot.mk current current) : Crawl Unit).endsAt ⟨start, current⟩ =
        some (.ok (), ⟨current, current⟩) :=
        endsAt_of_run fun _ => rfl
      rw [if_neg (by simpa using lt_length hrest), endsAt_bind_ok endsAt_get, endsAt_bind_ok hset]
      cases hmunch : munch? c rest with
      | none =>
        have htoken := endsAt_scanToken hrest
        rw [hmunch] at htoken
        rw [scanFrom_of_none hrest hmunch, endsAt_bind_error htoken]
        exact ⟨_, rfl⟩
      | some found =>
        obtain ⟨kind, length⟩ := found
        have htoken := endsAt_scanToken hrest
        rw [hmunch] at htoken
        have hpos := (munch_bounds hmunch).1
        have hlt := lt_length hrest
        obtain ⟨last, hlast⟩ := ih (line.text.drop (current + length)).length
          (by rw [← hlength, List.length_drop, List.length_drop]; omega) current (current + length)
          (before ++ [.token (tokenAt line current length kind)]) rfl
        refine ⟨last, ?_⟩
        rw [endsAt_bind_ok htoken, endsAt_bind_ok endsAt_get,
          if_neg (show ¬current + length ≤ current by omega), endsAt_enter]
        change (lineRest line _).endsAt _ = _
        rw [hlast, scanFrom_of_munch hrest hmunch]
        cases scanFrom line (current + length) with
        | error error => rfl
        | ok tokens => simp [Except.map]

/-- The scanner takes a whole line as scanning does. -/
theorem endsAt_line (before : List Mark) : ∃ last,
    (lineRest line before).endsAt ⟨0, 0⟩ =
      some ((line.tokenLine.map fun scanned =>
        before ++ (scanned.tokens.map Mark.token ++ [.newline scanned.stop])).mapError .error,
          last) := by
  obtain ⟨last, hlast⟩ := @endsAt_lineRest line 0 0 before
  refine ⟨last, hlast.trans ?_⟩
  rw [scanFrom, Line.tokenLine, Line.tokens, List.drop_zero, List.drop_zero]
  cases cut line.text with
  | ok lexemes => simp [Except.map]
  | error stray => simp [Except.map]

/-- The scanner takes lines one after the other as scanning does. -/
theorem endsAt_linesRest (spot : Spot) (before : List Mark) (lines : List Line) : ∃ last,
    (linesRest before lines).endsAt spot =
      some (((lines.mapM Line.tokenLine).map fun scanned =>
        before ++ scanned.flatMap fun line =>
          line.tokens.map Mark.token ++ [.newline line.stop]).mapError .error, last) := by
  induction lines generalizing spot before with
  | nil =>
    have hend : (linesRest before []).endsAt spot = some (.ok before, spot) := endsAt_pure before
    refine ⟨spot, hend.trans ?_⟩
    exact congrArg (fun marks => some (Except.ok marks, spot)) (List.append_nil before).symm
  | cons line later ih =>
    obtain ⟨middle, hmiddle⟩ := @endsAt_line line before
    have hset : (set (Spot.mk 0 0) : Crawl Unit).endsAt spot = some (.ok (), ⟨0, 0⟩) :=
      endsAt_of_run fun _ => rfl
    rw [linesRest, endsAt_bind_ok hset, List.mapM_cons]
    cases hline : line.tokenLine with
    | error error =>
      rw [hline] at hmiddle
      exact ⟨middle, endsAt_bind_error hmiddle⟩
    | ok scanned =>
      rw [hline] at hmiddle
      obtain ⟨last, hlast⟩ := ih middle
        (before ++ (scanned.tokens.map Mark.token ++ [.newline scanned.stop]))
      refine ⟨last, (endsAt_bind_ok hmiddle).trans (hlast.trans ?_)⟩
      cases later.mapM Line.tokenLine with
      | error error => rfl
      | ok more => simp [bind, Except.bind, pure, Except.pure, Except.map]

/-- The scanner comes to the stream of a text, or fails where scanning fails. -/
theorem endsAt_text (source : String) (spot : Spot) : ∃ last,
    (text (logicalLines source)).endsAt spot =
      some (((scan source).map stream).mapError .error, last) := by
  obtain ⟨last, hlast⟩ := endsAt_linesRest spot [] (logicalLines source)
  refine ⟨last, ?_⟩
  rw [text]
  cases hscan : scan source with
  | error error =>
    rw [scan] at hscan
    rw [hscan] at hlast
    exact endsAt_bind_error hlast
  | ok scanned =>
    obtain ⟨line, _, hline, _, _, hend⟩ := exists_last_of_scan hscan
    rw [scan] at hscan
    rw [hscan] at hlast
    have hindex : (logicalLines source).length - 1 = line.index := by
      have hlast := congrArg List.getLast? (index_logicalLines source)
      rw [List.getLast?_map, hline, List.getLast?_range', if_neg] at hlast
      · simpa using (Option.some.inj hlast).symm
      · intro hnil
        rw [List.length_eq_zero_iff.mp hnil] at hline
        cases hline
    rw [endsAt_bind_ok hlast, hline, hindex]
    simp only [Except.map, stream, hend]
    exact endsAt_of_run fun _ => rfl

end Lines

end Crawl

end NumericScript
