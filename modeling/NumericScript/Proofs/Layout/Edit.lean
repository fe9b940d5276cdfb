import Mathlib.Logic.Relation
import NumericScript.Proofs.Layout.Texts

/-!
# Changes of layout

What may be changed about a text so that its lines go on to say the same: blanks anywhere, the
breaks that separate lines, and empty lines where a line begins or ends, which is also next to a
brace.
-/

namespace NumericScript

/-- What separates two lines. -/
def IsSeparator (text : List Char) : Prop := text ∈ [[';'], ['\n'], ['\r'], ['\r', '\n']]

/-- Whether a line ends at a character. -/
def endsLine (c : Char) : Bool := isBreak c || isBrace c

/--
One change of layout. Empty lines come in between two parts of a text if the first part is nothing
or ends at the end of a line, or the second part is nothing or begins with it.
-/
inductive Relayout : List Char → List Char → Prop
  | blank {c : Char} (h : isBlank c) (before after : List Char) :
    Relayout (before ++ after) (before ++ c :: after)
  | separator {text text' : List Char} (h : IsSeparator text) (h' : IsSeparator text')
    (before after : List Char) : Relayout (before ++ (text ++ after)) (before ++ (text' ++ after))
  | emptyLines {gap : List Char} (h : ∀ c ∈ gap, isWhitespace c ∨ isBreak c)
    (before after : List Char)
    (hbound : (∀ c ∈ before.getLast?, endsLine c) ∨ ∀ c ∈ after.head?, endsLine c) :
    Relayout (before ++ after) (before ++ (gap ++ after))

/-- The piece that a character is where a line ends. -/
def endPieces (c : Char) : List (List Char) := if isBreak c then [] else [[c]]

/-- Where a line ends, the pieces of a text fall apart. -/
theorem allPieces_append {c : Char} (h : endsLine c) (before after : List Char) :
    allPieces (before ++ c :: after) = allPieces before ++ (endPieces c ++ allPieces after) := by
  induction before with
  | nil =>
    simp only [List.nil_append, allPieces, pieces, endPieces]
    by_cases hbreak : isBreak c
    · simp [hbreak]
    · have hbrace : isBrace c := by simpa [endsLine, hbreak] using h
      simp [hbreak, hbrace]
  | cons d before ih =>
    obtain ⟨hfirst, hlater⟩ := List.cons.inj ih
    simp only [List.cons_append, allPieces, pieces]
    split
    · exact congrArg _ ih
    · split
      · exact congrArg _ (congrArg _ ih)
      · simp only [hfirst]
        exact congrArg _ hlater

private theorem not_isBlank_of_endsLine {c : Char} (h : endsLine c) : isBlank c = false := by
  simp only [endsLine, isBreak, isBrace, Bool.or_eq_true, decide_eq_true_eq] at h
  rcases h with ((rfl | rfl) | rfl) | rfl | rfl <;> rfl

/-- A text that is cut after a character which ends a line gives the lines of both parts. -/
theorem textsOf_append {c : Char} (h : endsLine c) (before after : List Char) :
    textsOf (before ++ c :: after) =
      textsOf before ++ (keptTexts (endPieces c) ++ textsOf after) := by
  have hblank := not_isBlank_of_endsLine h
  rw [textsOf, List.filter_append, List.filter_cons_of_pos (by simp [hblank]), allPieces_append h,
    keptTexts_append, keptTexts_append]
  rfl

/-- A break between two texts gives the lines of both. -/
theorem textsOf_break {c : Char} (h : isBreak c) (before after : List Char) :
    textsOf (before ++ c :: after) = textsOf before ++ textsOf after := by
  rw [textsOf_append (by simp [endsLine, h]), endPieces, if_pos h]
  rfl

private theorem textsOf_separator {text : List Char} (h : IsSeparator text)
    (before after : List Char) :
    textsOf (before ++ (text ++ after)) = textsOf before ++ textsOf after := by
  simp only [IsSeparator, List.mem_cons, List.not_mem_nil, or_false] at h
  rcases h with rfl | rfl | rfl | rfl
  · exact textsOf_break rfl before after
  · exact textsOf_break rfl before after
  · exact textsOf_break rfl before after
  · have hfeed : textsOf ('\n' :: after) = textsOf after := textsOf_break rfl [] after
    exact (textsOf_break rfl before ('\n' :: after)).trans (by rw [hfeed])

section Gaps

private theorem not_isBrace_of_isWhitespace {c : Char} (h : isWhitespace c) :
    isBrace c = false := by
  by_contra hbrace
  simp only [isBrace, Bool.not_eq_false, Bool.or_eq_true, decide_eq_true_eq] at hbrace
  rcases hbrace with rfl | rfl <;> cases h

private theorem trimText_cons {c : Char} (h : isWhitespace c) (text : List Char) :
    trimText (c :: text) = trimText text := by
  rw [trimText, List.dropWhile_cons_of_pos h, trimText]

private theorem trimText_concat {c : Char} (h : isWhitespace c) (text : List Char) :
    trimText (text ++ [c]) = trimText text := by
  rw [trimText, List.dropWhile_append]
  split
  · rename_i hnil
    rw [trimText, List.isEmpty_iff.mp hnil, List.dropWhile_cons_of_pos h]
    rfl
  · rw [List.rdropWhile_concat_pos _ _ _ h, trimText]

/-- A character that is no brace joins the last piece or, if it is a break, begins another one. -/
theorem exists_allPieces_concat {c : Char} (hbreak : isBreak c = false) (hbrace : isBrace c = false)
    (text : List Char) : ∃ init last, allPieces text = init ++ [last] ∧
      allPieces (text ++ [c]) = init ++ [last ++ [c]] := by
  induction text with
  | nil => exact ⟨[], [], rfl, by simp [allPieces, pieces, hbreak, hbrace]⟩
  | cons d text ih =>
    obtain ⟨init, last, htext, hconcat⟩ := ih
    simp only [List.cons_append, allPieces, pieces]
    split
    · exact ⟨[] :: init, last, congrArg _ htext, congrArg _ hconcat⟩
    · split
      · exact ⟨[] :: [d] :: init, last, congrArg _ (congrArg _ htext),
          congrArg _ (congrArg _ hconcat)⟩
      · cases init with
        | nil =>
          obtain ⟨hfirst, hlater⟩ := List.cons.inj htext
          obtain ⟨hfirst', hlater'⟩ := List.cons.inj hconcat
          exact ⟨[], d :: last, by rw [hfirst, hlater]; rfl, by rw [hfirst', hlater']; rfl⟩
        | cons first init =>
          obtain ⟨hfirst, hlater⟩ := List.cons.inj htext
          obtain ⟨hfirst', hlater'⟩ := List.cons.inj hconcat
          exact ⟨(d :: first) :: init, last, by rw [hfirst, hlater]; rfl,
            by rw [hfirst', hlater']; rfl⟩

/-- White space or a break at the beginning of a text makes no difference. -/
theorem textsOf_cons {c : Char} (h : isWhitespace c ∨ isBreak c) (text : List Char) :
    textsOf (c :: text) = textsOf text := by
  by_cases hbreak : isBreak c
  · exact textsOf_break hbreak [] text
  · have hwhite := h.resolve_right hbreak
    by_cases hblank : isBlank c
    · simp [textsOf, hblank]
    · have hbrace := not_isBrace_of_isWhitespace hwhite
      rw [textsOf, List.filter_cons_of_pos (by simp [hblank])]
      simp only [allPieces, pieces, hbreak, hbrace, Bool.false_eq_true, if_false]
      rw [keptTexts_cons, textsOf, allPieces, keptTexts_cons (pieces _).1]
      simp only [keptTexts, List.map_cons, trimText_cons hwhite]

/-- White space or a break at the end of a text makes no difference. -/
theorem textsOf_concat {c : Char} (h : isWhitespace c ∨ isBreak c) (text : List Char) :
    textsOf (text ++ [c]) = textsOf text := by
  by_cases hbreak : isBreak c
  · rw [textsOf_break hbreak]
    exact List.append_nil _
  · have hwhite := h.resolve_right hbreak
    by_cases hblank : isBlank c
    · simp [textsOf, hblank]
    · have hbrace := not_isBrace_of_isWhitespace hwhite
      have hfilter : (text ++ [c]).filter (!isBlank ·) = text.filter (!isBlank ·) ++ [c] := by
        simp [hblank]
      obtain ⟨init, last, htext, hconcat⟩ :=
        exists_allPieces_concat (by simpa using hbreak) hbrace (text.filter (!isBlank ·))
      rw [textsOf, hfilter, hconcat, textsOf, htext, keptTexts_append, keptTexts_append]
      simp only [keptTexts, List.map_cons, trimText_concat hwhite]

private theorem textsOf_gap_append {gap : List Char} (h : ∀ c ∈ gap, isWhitespace c ∨ isBreak c)
    (text : List Char) : textsOf (gap ++ text) = textsOf text := by
  induction gap with
  | nil => rfl
  | cons c gap ih =>
    obtain ⟨hc, hgap⟩ := List.forall_mem_cons.mp h
    rw [List.cons_append, textsOf_cons hc, ih hgap]

private theorem textsOf_append_gap {gap : List Char} (h : ∀ c ∈ gap, isWhitespace c ∨ isBreak c)
    (text : List Char) : textsOf (text ++ gap) = textsOf text := by
  induction gap generalizing text with
  | nil => rw [List.append_nil]
  | cons c gap ih =>
    obtain ⟨hc, hgap⟩ := List.forall_mem_cons.mp h
    rw [List.append_cons, ih hgap, textsOf_concat hc]

end Gaps

/-- A change of layout leaves the texts of the lines as they are. -/
theorem Relayout.textsOf_eq {text text' : List Char} (h : Relayout text text') :
    textsOf text = textsOf text' := by
  cases h with
  | blank hblank before after => simp [textsOf, hblank]
  | separator h h' before after => rw [textsOf_separator h, textsOf_separator h']
  | @emptyLines gap hgap before after hbound =>
    rcases hbound with hbefore | hafter
    · rcases List.eq_nil_or_concat before with rfl | ⟨init, c, rfl⟩
      · exact (textsOf_gap_append hgap after).symm
      · rw [List.concat_eq_append] at hbefore ⊢
        have hc := hbefore c (by simp)
        rw [List.append_assoc, List.append_assoc, List.singleton_append, List.singleton_append,
          textsOf_append hc, textsOf_append hc, textsOf_gap_append hgap]
    · cases after with
      | nil =>
        rw [List.append_nil, List.append_nil]
        exact (textsOf_append_gap hgap before).symm
      | cons c after =>
        have hc := hafter c rfl
        rw [← List.append_assoc, textsOf_append hc, textsOf_append hc, textsOf_append_gap hgap]

/-- So do changes of layout one after the other, made or undone. -/
theorem lineTexts_of_relayout {source source' : String}
    (h : Relation.EqvGen Relayout source.toList source'.toList) :
    lineTexts source = lineTexts source' := by
  rw [lineTexts_eq, lineTexts_eq]
  generalize source.toList = text, source'.toList = text' at h
  induction h with
  | rel _ _ h => exact h.textsOf_eq
  | refl => rfl
  | symm _ _ _ ih => exact ih.symm
  | trans _ _ _ _ _ ih ih' => exact ih.trans ih'

end NumericScript
