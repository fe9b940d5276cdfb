import Mathlib.Order.Nat
import NumericScript.Proofs.Scanning.Lines
import NumericScript.Proofs.Scanning.Split

/-!
# Places of characters

Where the characters of logical lines come from. A text falls into stretches with gaps between them,
and the characters of a piece are those of its stretch that are not blank. So the lines of a text
are in the order of the text, and what stands between two characters of a line is in the line or
blank.
-/

namespace NumericScript

/-- The characters of a text that are not blank in their places, the text starting at an offset. -/
@[simp]
def keptFrom : Nat → List Char → List Placed
  | _, [] => []
  | pos, c :: rest =>
    if isBlank c then keptFrom (pos + 1) rest else ⟨c, pos⟩ :: keptFrom (pos + 1) rest

section Kept

variable {pos : Nat} {text : List Char} {xs ys : List Placed}

/-- The characters that are kept are those that are not blank. -/
theorem keptFrom_char (pos : Nat) (text : List Char) :
    (keptFrom pos text).map (·.char) = text.filter (!isBlank ·) := by
  induction text generalizing pos with
  | nil => rfl
  | cons c rest ih => by_cases hblank : isBlank c <;> simp [keptFrom, hblank, ih]

private theorem keptFrom_append (pos : Nat) (text more : List Char) :
    keptFrom pos (text ++ more) = keptFrom pos text ++ keptFrom (pos + text.length) more := by
  induction text generalizing pos with
  | nil => rfl
  | cons c rest ih =>
    have hlength : pos + 1 + rest.length = pos + (c :: rest).length := by
      simp only [List.length_cons]
      omega
    by_cases hblank : isBlank c <;> simp [keptFrom, hblank, ih, hlength]

/-- The characters that are kept are in places of the text. -/
theorem offset_keptFrom {p : Placed} (h : p ∈ keptFrom pos text) :
    pos ≤ p.offset ∧ p.offset < pos + text.length := by
  induction text generalizing pos with
  | nil => cases h
  | cons c rest ih =>
    have hrest : p ∈ keptFrom (pos + 1) rest → pos ≤ p.offset ∧
        p.offset < pos + (c :: rest).length := by
      intro hm
      have hbounds := ih hm
      simp only [List.length_cons]
      omega
    rw [keptFrom] at h
    split at h
    · exact hrest h
    · rcases List.mem_cons.mp h with rfl | h
      · simp
      · exact hrest h

/-- Offsets ascend. -/
theorem ascending_keptFrom (pos : Nat) (text : List Char) :
    (keptFrom pos text).Pairwise (fun p q => p.offset < q.offset) := by
  induction text generalizing pos with
  | nil => exact .nil
  | cons c rest ih =>
    rw [keptFrom]
    split
    · exact ih _
    · refine .cons (fun q hq => ?_) (ih _)
      exact (offset_keptFrom hq).1

/-- Where some of the kept characters begin, the text falls into two. -/
theorem keptFrom_from {p : Placed} (h : keptFrom pos text = xs ++ p :: ys) :
    ∃ before after, text = before ++ after ∧ p.offset = pos + before.length ∧
      keptFrom p.offset after = p :: ys := by
  induction text generalizing pos xs with
  | nil => simp [keptFrom] at h
  | cons c rest ih =>
    rw [keptFrom] at h
    split at h
    · obtain ⟨before, after, rfl, hoffset, hkept⟩ := ih h
      refine ⟨c :: before, after, rfl, ?_, hkept⟩
      simp only [List.length_cons]
      omega
    · rename_i hblank
      cases xs with
      | nil =>
        obtain ⟨rfl, rfl⟩ := List.cons.inj h
        refine ⟨[], c :: rest, rfl, rfl, ?_⟩
        simp [keptFrom, hblank]
      | cons x xs =>
        obtain ⟨before, after, rfl, hoffset, hkept⟩ := ih (List.cons.inj h).2
        refine ⟨c :: before, after, rfl, ?_, hkept⟩
        simp only [List.length_cons]
        omega

/-- Where some of the kept characters end, the text falls into two. -/
theorem keptFrom_upTo {q : Placed} (h : keptFrom pos text = xs ++ q :: ys) :
    ∃ before after, text = before ++ after ∧ q.offset + 1 = pos + before.length ∧
      keptFrom pos before = xs ++ [q] := by
  induction text generalizing pos xs with
  | nil => simp [keptFrom] at h
  | cons c rest ih =>
    rw [keptFrom] at h
    split at h
    · rename_i hblank
      obtain ⟨before, after, rfl, hoffset, hkept⟩ := ih h
      refine ⟨c :: before, after, rfl, ?_, ?_⟩
      · simp only [List.length_cons]
        omega
      · rw [keptFrom, if_pos hblank, hkept]
    · rename_i hblank
      cases xs with
      | nil =>
        obtain ⟨rfl, _⟩ := List.cons.inj h
        refine ⟨[c], rest, rfl, rfl, ?_⟩
        simp [keptFrom, hblank]
      | cons x xs =>
        obtain ⟨rfl, hrest⟩ := List.cons.inj h
        obtain ⟨before, after, rfl, hoffset, hkept⟩ := ih hrest
        refine ⟨c :: before, after, rfl, ?_, ?_⟩
        · simp only [List.length_cons]
          omega
        · rw [keptFrom, if_neg hblank, hkept, List.cons_append]

/-- From the first to the last of some kept characters there are only these and blanks. -/
theorem filter_slice {p q : Placed} {group : List Placed} (h : group <:+: keptFrom 0 text)
    (hfirst : group.head? = some p) (hlast : group.getLast? = some q) :
    ((text.drop p.offset).take (q.offset + 1 - p.offset)).filter (!isBlank ·) =
      group.map (·.char) := by
  obtain ⟨front, back, hkept⟩ := h
  obtain ⟨more, rfl⟩ := List.head?_eq_some_iff.mp hfirst
  rw [List.append_assoc, List.cons_append] at hkept
  obtain ⟨before, after, rfl, hoffset, hfrom⟩ := keptFrom_from hkept.symm
  obtain ⟨init, hinit⟩ := List.getLast?_eq_some_iff.mp hlast
  have hgroup : keptFrom p.offset after = init ++ q :: back := by
    rw [hfrom, ← List.cons_append, hinit, List.append_assoc, List.singleton_append]
  obtain ⟨slice, rest, rfl, hstop, hslice⟩ := keptFrom_upTo hgroup
  rw [Nat.zero_add] at hoffset
  have hdrop : (before ++ (slice ++ rest)).drop p.offset = slice ++ rest := by
    rw [hoffset, List.drop_left]
  have htake : (slice ++ rest).take (q.offset + 1 - p.offset) = slice := by
    rw [show q.offset + 1 - p.offset = slice.length by omega, List.take_left]
  rw [hdrop, htake, ← keptFrom_char p.offset, hslice, hinit]

end Kept

/-- The pieces that a text falls into from an offset on, with gaps between their stretches. -/
inductive Falls : Nat → List Char → List Piece → Prop
  | last (pos : Nat) (slice : List Char) :
    Falls pos slice [⟨keptFrom pos slice, pos + slice.length⟩]
  | more {pos : Nat} (slice gap : List Char) {rest : List Char} {pieces : List Piece}
    (h : Falls (pos + slice.length + gap.length) rest pieces) :
    Falls pos (slice ++ (gap ++ rest)) (⟨keptFrom pos slice, pos + slice.length⟩ :: pieces)

namespace Falls

/-- One more character at the beginning belongs to the first stretch. -/
theorem cons {pos : Nat} {rest : List Char} {piece : Piece} {later : List Piece} (c : Char)
    (h : Falls (pos + 1) rest (piece :: later)) :
    Falls pos (c :: rest) (⟨keptFrom pos [c] ++ piece.chars, piece.breakOffset⟩ :: later) := by
  have hkept : ∀ slice,
      keptFrom pos [c] ++ keptFrom (pos + 1) slice = keptFrom pos (c :: slice) := by
    intro slice
    by_cases hblank : isBlank c <;> simp [keptFrom, hblank]
  have hlength : ∀ slice : List Char, pos + 1 + slice.length = pos + (c :: slice).length := by
    intro slice
    simp only [List.length_cons]
    omega
  cases h with
  | last =>
    rw [hkept, hlength]
    exact .last pos (c :: rest)
  | more slice gap hrest =>
    rw [hkept, hlength]
    rw [hlength] at hrest
    exact .more (c :: slice) gap hrest

/-- The characters of a piece are those of a stretch of the text. -/
theorem exists_slice {pos : Nat} {text : List Char} {pieces : List Piece}
    (h : Falls pos text pieces) {piece : Piece} (hm : piece ∈ pieces) :
    ∃ before slice after, text = before ++ (slice ++ after) ∧
      piece.chars = keptFrom (pos + before.length) slice ∧
      piece.breakOffset = pos + before.length + slice.length := by
  induction h with
  | last pos slice =>
    obtain rfl := List.mem_singleton.mp hm
    exact ⟨[], slice, [], by simp, rfl, rfl⟩
  | @more pos slice gap rest pieces h ih =>
    rcases List.mem_cons.mp hm with rfl | hm
    · exact ⟨[], slice, gap ++ rest, rfl, rfl, rfl⟩
    · obtain ⟨before, later, after, rfl, hchars, hbreak⟩ := ih hm
      have hlength : pos + (slice ++ (gap ++ before)).length =
          pos + slice.length + gap.length + before.length := by
        simp only [List.length_append]
        omega
      refine ⟨slice ++ (gap ++ before), later, after, by simp only [List.append_assoc], ?_, ?_⟩
      · rw [hlength, hchars]
      · rw [hlength, hbreak]

/-- What is in the pieces stands after the offset that they begin at. -/
theorem le_offset {pos : Nat} {text : List Char} {pieces : List Piece} (h : Falls pos text pieces)
    {piece : Piece} (hm : piece ∈ pieces) :
    pos ≤ piece.breakOffset ∧ ∀ p ∈ piece.chars, pos ≤ p.offset := by
  obtain ⟨before, slice, after, _, hchars, hbreak⟩ := h.exists_slice hm
  refine ⟨by omega, fun p hp => ?_⟩
  have hbounds := offset_keptFrom (hchars ▸ hp)
  omega

/-- The last piece goes on to the end of the text. -/
theorem exists_last {pos : Nat} {text : List Char} {pieces : List Piece}
    (h : Falls pos text pieces) : ∃ before slice, text = before ++ slice ∧
      pieces.getLast? =
        some ⟨keptFrom (pos + before.length) slice, pos + before.length + slice.length⟩ := by
  induction h with
  | last pos slice => exact ⟨[], slice, rfl, rfl⟩
  | @more pos slice gap rest pieces h ih =>
    obtain ⟨before, last, rfl, hlast⟩ := ih
    have hlength : pos + (slice ++ (gap ++ before)).length =
        pos + slice.length + gap.length + before.length := by
      simp only [List.length_append]
      omega
    refine ⟨slice ++ (gap ++ before), last, by simp only [List.append_assoc], ?_⟩
    rw [hlength, List.getLast?_cons, hlast]
    rfl

/-- Pieces are in the order of the text. -/
theorem ordered {pos : Nat} {text : List Char} {pieces : List Piece} (h : Falls pos text pieces) :
    pieces.Pairwise fun a b =>
      a.breakOffset ≤ b.breakOffset ∧ ∀ p ∈ b.chars, a.breakOffset ≤ p.offset := by
  induction h with
  | last => exact List.pairwise_singleton _ _
  | more slice gap h ih =>
    refine .cons (fun piece hm => ?_) ih
    obtain ⟨hbreak, hchars⟩ := h.le_offset hm
    refine ⟨by dsimp only; omega, fun p hp => ?_⟩
    have hoffset := hchars p hp
    dsimp only
    omega

end Falls

/-- A text falls into its pieces; only a line feed right after a carriage return is left out. -/
theorem Splits.falls_or {afterReturn : Bool} {pos : Nat} {text : List Char} {piece : Piece}
    {later : List Piece} (h : Splits afterReturn pos text piece later) :
    Falls pos text (piece :: later) ∨
      afterReturn = true ∧ ∃ rest, text = '\n' :: rest ∧ Falls (pos + 1) rest (piece :: later) := by
  induction h with
  | nil _ pos => exact .inl (.last pos [])
  | @blank _ pos c rest piece later hblank h ih =>
    have hcons := (ih.resolve_right (by simp)).cons c
    have hnone : keptFrom pos [c] = [] := by simp [keptFrom, hblank]
    rw [hnone] at hcons
    exact .inl hcons
  | feed h ih => exact .inr ⟨rfl, _, rfl, ih.resolve_right (by simp)⟩
  | @ends _ pos c rest piece later _ _ _ h ih =>
    rcases ih with hfalls | ⟨_, rest, rfl, hfalls⟩
    · exact .inl (.more [] [c] hfalls)
    · exact .inl (.more [] [c, '\n'] hfalls)
  | @brace _ pos c rest piece later hblank _ _ h ih =>
    have hone : keptFrom pos [c] = [⟨c, pos⟩] := by simp [keptFrom, hblank]
    have hbrace : Falls pos ([c] ++ ([] ++ rest)) (⟨keptFrom pos [c], pos + 1⟩ :: piece :: later) :=
      .more [c] [] (ih.resolve_right (by simp))
    rw [hone] at hbrace
    exact .inl (.more [] [] hbrace)
  | @keep _ pos c rest piece later hblank _ _ h ih =>
    have hcons := (ih.resolve_right (by simp)).cons c
    have hone : keptFrom pos [c] = [⟨c, pos⟩] := by simp [keptFrom, hblank]
    rw [hone] at hcons
    exact .inl hcons

/-- The lines of a text are those of the pieces that it falls into. -/
theorem exists_pieces (source : String) :
    ∃ pieces, Falls 0 source.toList pieces ∧ logicalLines source = pieces.mapIdx Line.ofPiece := by
  exact ⟨_, (splits false 0 source.toList).falls_or.resolve_right (by simp), rfl⟩

/-- What is dropped at the end is white space. -/
theorem exists_trimEnd (chars : List Placed) :
    ∃ back, chars = trimEnd chars ++ back ∧ ∀ p ∈ back, isWhitespace p.char := by
  induction chars with
  | nil => exact ⟨[], rfl, nofun⟩
  | cons p rest ih =>
    obtain ⟨back, hrest, hback⟩ := ih
    unfold trimEnd
    split
    · rename_i hnil
      rw [hnil, List.nil_append] at hrest
      subst hrest
      split
      · rename_i hp
        exact ⟨p :: rest, rfl, List.forall_mem_cons.mpr ⟨hp, hback⟩⟩
      · exact ⟨rest, rfl, hback⟩
    · exact ⟨back, congrArg (p :: ·) hrest, hback⟩

/-- Trimming takes away at both ends only. -/
theorem exists_trim (chars : List Placed) :
    ∃ front back, chars = front ++ trim chars ++ back ∧ ∀ p ∈ back, isWhitespace p.char := by
  obtain ⟨back, hback, hwhite⟩ := exists_trimEnd (chars.dropWhile fun p => isWhitespace p.char)
  refine ⟨chars.takeWhile fun p => isWhitespace p.char, back, ?_, hwhite⟩
  rw [List.append_assoc, trim, ← hback, List.takeWhile_append_dropWhile]

/-- What is left of trimmed characters stands among them in a row. -/
theorem trim_within (chars : List Placed) : trim chars <:+: chars := by
  obtain ⟨front, back, hchars, _⟩ := exists_trim chars
  exact ⟨front, back, hchars.symm⟩

namespace Line

/-- A line ends right after its last character, or at the break if there is none. -/
theorem stop_cases (index : Nat) (piece : Piece) :
    ((ofPiece index piece).chars = [] ∧ (ofPiece index piece).stop = piece.breakOffset) ∨
      ∃ init q, (ofPiece index piece).chars = init ++ [q] ∧ q ∈ piece.chars ∧
        (ofPiece index piece).stop = q.offset + 1 := by
  simp only [ofPiece]
  rcases List.eq_nil_or_concat (trim piece.chars) with hnil | ⟨init, q, hchars⟩
  · exact .inl ⟨hnil, by rw [hnil]; rfl⟩
  · rw [List.concat_eq_append] at hchars
    have hmem : q ∈ trim piece.chars := by simp [hchars]
    refine .inr ⟨init, q, hchars, (trim_within _).subset hmem, ?_⟩
    rw [hchars, List.getLast?_concat]
    rfl

end Line

/-- The characters of a line are neighbours in the text, but for blanks. -/
theorem within_keptFrom {source : String} {line : Line} (h : line ∈ logicalLines source) :
    line.chars <:+: keptFrom 0 source.toList := by
  obtain ⟨pieces, hfalls, hlines⟩ := exists_pieces source
  rw [hlines] at h
  obtain ⟨i, hi, rfl⟩ := List.mem_mapIdx.mp h
  obtain ⟨before, slice, after, htext, hchars, _⟩ := hfalls.exists_slice (List.getElem_mem hi)
  have hpiece : pieces[i].chars <:+: keptFrom 0 source.toList := by
    rw [htext, keptFrom_append, keptFrom_append, ← hchars]
    exact ⟨_, _, List.append_assoc ..⟩
  exact (trim_within _).trans hpiece

/-- Along a line the offsets ascend. -/
theorem ascending_chars {source : String} {line : Line} (h : line ∈ logicalLines source) :
    line.chars.Pairwise (fun p q => p.offset < q.offset) :=
  (ascending_keptFrom _ _).sublist (within_keptFrom h).sublist

/-- A line ends after all its characters. -/
theorem offset_lt_stop {source : String} {line : Line} (h : line ∈ logicalLines source) {p : Placed}
    (hp : p ∈ line.chars) : p.offset < line.stop := by
  have hascending := ascending_chars h
  obtain ⟨pieces, _, hlines⟩ := exists_pieces source
  rw [hlines] at h
  obtain ⟨i, hi, rfl⟩ := List.mem_mapIdx.mp h
  rcases Line.stop_cases i pieces[i] with ⟨hnil, _⟩ | ⟨init, q, hchars, _, hstop⟩
  · rw [hnil] at hp
    cases hp
  · rw [hchars] at hascending hp
    rw [hstop]
    rcases List.mem_append.mp hp with hp | hp
    · have hlt := (List.pairwise_append.mp hascending).2.2 p hp q List.mem_cons_self
      omega
    · obtain rfl := List.mem_singleton.mp hp
      exact Nat.lt_succ_self _

/-- After the end of the last line there is only white space. -/
theorem isWhitespace_after {source : String} {line : Line}
    (h : (logicalLines source).getLast? = some line) :
    ∀ c ∈ source.toList.drop line.stop, isWhitespace c := by
  obtain ⟨pieces, hfalls, hlines⟩ := exists_pieces source
  obtain ⟨before, slice, htext, hlast⟩ := hfalls.exists_last
  rw [Nat.zero_add] at hlast
  obtain ⟨i, rfl⟩ : ∃ i, line = Line.ofPiece i
      ⟨keptFrom before.length slice, before.length + slice.length⟩ := by
    obtain ⟨init, rfl⟩ := List.getLast?_eq_some_iff.mp hlast
    rw [hlines, List.mapIdx_concat, List.getLast?_concat] at h
    exact ⟨_, (Option.some.inj h).symm⟩
  rw [htext]
  rcases Line.stop_cases i ⟨keptFrom before.length slice, before.length + slice.length⟩ with
    ⟨_, hstop⟩ | ⟨init, q, hchars, _, hstop⟩
  · rw [hstop, ← List.length_append, List.drop_length]
    exact nofun
  · obtain ⟨front, back, hkept, hback⟩ := exists_trim (keptFrom before.length slice)
    have htrim : trim (keptFrom before.length slice) = init ++ [q] := hchars
    rw [htrim, ← List.append_assoc, List.append_assoc, List.singleton_append] at hkept
    obtain ⟨upTo, rest, rfl, hoffset, hupTo⟩ := keptFrom_upTo hkept
    have hrest : keptFrom (before.length + upTo.length) rest = back := by
      rw [keptFrom_append, hupTo, List.append_assoc, List.singleton_append] at hkept
      exact (List.cons.inj (List.append_cancel_left hkept)).2
    rw [hstop, hoffset, ← List.append_assoc, ← List.length_append, List.drop_left]
    intro c hc
    by_cases hblank : isBlank c
    · exact isWhitespace_of_isBlank hblank
    · have hm : c ∈ (keptFrom (before.length + upTo.length) rest).map (·.char) := by
        rw [keptFrom_char]
        exact List.mem_filter.mpr ⟨hc, by simpa using hblank⟩
      rw [hrest] at hm
      obtain ⟨p, hp, rfl⟩ := List.mem_map.mp hm
      exact hback p hp

/-- A line ends no later than its piece. -/
theorem Falls.stop_le {pos : Nat} {text : List Char} {pieces : List Piece}
    (h : Falls pos text pieces) {piece : Piece} (hm : piece ∈ pieces) (index : Nat) :
    (Line.ofPiece index piece).stop ≤ piece.breakOffset := by
  rcases Line.stop_cases index piece with ⟨_, hstop⟩ | ⟨init, q, _, hq, hstop⟩
  · exact Nat.le_of_eq hstop
  · obtain ⟨before, slice, after, _, hkept, hbreak⟩ := h.exists_slice hm
    have hbounds := offset_keptFrom (hkept ▸ hq)
    omega

/-- Lines are in the order of the text. -/
theorem ordered_logicalLines (source : String) :
    (logicalLines source).Pairwise fun a b =>
      a.stop ≤ b.stop ∧ ∀ p ∈ b.chars, a.stop ≤ p.offset := by
  obtain ⟨pieces, hfalls, hlines⟩ := exists_pieces source
  rw [hlines, List.pairwise_iff_getElem]
  intro i j hi hj hlt
  rw [List.length_mapIdx] at hi hj
  obtain ⟨hbreak, hchars⟩ := List.pairwise_iff_getElem.mp hfalls.ordered i j hi hj hlt
  rw [List.getElem_mapIdx, List.getElem_mapIdx]
  have hbefore := hfalls.stop_le (List.getElem_mem hi) i
  refine ⟨?_, fun p hp => hbefore.trans (hchars p ((trim_within _).subset hp))⟩
  rcases Line.stop_cases j pieces[j] with ⟨_, hstop⟩ | ⟨init, q, _, hq, hstop⟩
  · exact hstop ▸ hbefore.trans hbreak
  · have hafter := hchars q hq
    omega

end NumericScript
