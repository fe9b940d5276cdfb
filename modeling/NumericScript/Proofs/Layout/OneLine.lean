import NumericScript.Proofs.Layout.Edit
import NumericScript.Proofs.Layout.Tokens
import NumericScript.Proofs.Scanning.Names

/-!
# Texts that take one line

The line of such a text is the text without its blanks. An accepted name at its beginning is cut off
whole, so that what comes after the name decides on what the line is an assignment of.
-/

namespace NumericScript

/-- Whether a text takes one line: there are no breaks and no braces in it, and no white space but
blanks. -/
def OneLine (source : String) : Prop := ∀ c ∈ source.toList, isBlank c ∨ isInk c

instance (source : String) : Decidable (OneLine source) :=
  decidable_of_iff (source.toList.all fun c => isBlank c || isInk c) (by simp [OneLine])

/-- A text without its blanks. -/
def inked (source : String) : List Char := source.toList.filter (!isBlank ·)

section Texts

private theorem trimText_ink {text : List Char} (h : ∀ c ∈ text, isInk c) :
    trimText text = text := by
  have hspace : ∀ c ∈ text, ¬isWhitespace c := fun c hc hwhite => by
    have hink := h c hc
    simp [isInk, hwhite] at hink
  have hdrop : text.dropWhile isWhitespace = text := by
    cases text with
    | nil => rfl
    | cons c rest => exact List.dropWhile_cons_of_neg (hspace c List.mem_cons_self)
  rw [trimText, hdrop, List.rdropWhile_eq_self_iff]
  exact fun hne => hspace _ (List.getLast_mem hne)

private theorem keptTexts_ink {text : List Char} (h : ∀ c ∈ text, isInk c) (hne : text ≠ []) :
    keptTexts [text] = [text] := by
  simp [keptTexts, trimText_ink h, hne]

variable {source : String}

/-- The inked characters of one line are ink. -/
theorem ink_inked (h : OneLine source) : ∀ c ∈ inked source, isInk c := by
  intro c hc
  obtain ⟨hc, hblank⟩ := List.mem_filter.mp hc
  exact (h c hc).resolve_left (by simpa using hblank)

/-- It is enough that there is ink besides the blanks. -/
theorem oneLine_of_inked (h : ∀ c ∈ inked source, isInk c) : OneLine source := by
  intro c hc
  cases hblank : isBlank c with
  | true => exact .inl rfl
  | false => exact .inr (h c (List.mem_filter.mpr ⟨hc, by simp [hblank]⟩))

/-- Texts one after the other are inked one after the other. -/
theorem inked_append (source later : String) :
    inked (source ++ later) = inked source ++ inked later := by
  rw [inked, String.toList_append, List.filter_append]
  rfl

/-- There are no blanks in ink. -/
theorem inked_of_ink (h : ∀ c ∈ source.toList, isInk c) : inked source = source.toList := by
  refine List.filter_eq_self.mpr fun c hc => ?_
  have hink := h c hc
  simp only [isInk, Bool.and_eq_true] at hink
  by_contra hblank
  simp [isWhitespace_of_isBlank (by simpa using hblank)] at hink

/-- The line of a text that takes one line is the text without its blanks. -/
theorem lineTexts_of_ink (h : ∀ c ∈ inked source, isInk c) (hne : inked source ≠ []) :
    lineTexts source = [inked source] := by
  rw [lineTexts_eq, textsOf]
  exact (congrArg keptTexts (allPieces_ink h)).trans (keptTexts_ink h hne)

/-- An empty block comes on two lines of its own. -/
theorem lineTexts_block (h : ∀ c ∈ inked source, isInk c) (hne : inked source ≠ []) :
    lineTexts (source ++ "\x7b\x7d") = [inked source, ['\x7b'], ['\x7d']] := by
  have hblock : textsOf ['\x7d'] = [['\x7d']] := by decide
  have hends : endsLine '\x7b' := by decide
  rw [lineTexts_eq, String.toList_append]
  refine (textsOf_append hends source.toList ['\x7d']).trans ?_
  rw [hblock, ← lineTexts_eq, lineTexts_of_ink h hne]
  rfl

end Texts

section Lexemes

variable {text : List Char} {e : Expr}

/-- An equality sign at the beginning of a text is a lexeme, alone or with another one. -/
theorem cut_equal {lexemes : List Lexeme} (h : cut ('=' :: text) = .ok lexemes) :
    ∃ kind chars later, lexemes = ⟨kind, chars⟩ :: later ∧
      (kind = .equal ∧ cut text = .ok later ∨ kind = .equalEqual) := by
  obtain ⟨kind, length, later, hmunch, hlater, rfl⟩ := cut_cons_eq_ok.mp h
  refine ⟨kind, _, later, rfl, ?_⟩
  have hsign : (if text.head? = some '=' then some (TokenKind.equalEqual, 2)
      else some (TokenKind.equal, 1)) = some (kind, length) := hmunch
  split at hsign <;> obtain ⟨rfl, rfl⟩ := Prod.mk.inj (Option.some.inj hsign)
  · exact .inr rfl
  · exact .inl ⟨rfl, hlater⟩

/-- No text of an expression begins with an equality sign. -/
theorem head_of_spells (h : Spells text e.glyphs) : text.head? ≠ some '=' := by
  intro hhead
  obtain ⟨rest, rfl⟩ := List.head?_eq_some_iff.mp hhead
  obtain ⟨lexemes, hcut, hglyphs⟩ := h
  obtain ⟨kind, chars, later, rfl, hkind⟩ := cut_equal hcut
  obtain ⟨glyph, more, hhead, hnot⟩ := e.glyphs_head
  rw [hhead] at hglyphs
  obtain ⟨hglyph, _⟩ := List.cons.inj hglyphs
  rcases hkind with ⟨rfl, _⟩ | rfl
  · exact absurd (hnot .equal hglyph.symm) (by simp)
  · exact absurd (hnot .equalEqual hglyph.symm) (by simp)

/-- So an equality sign in front of one stays alone. -/
theorem cut_equal_of_spells (h : Spells text e.glyphs) {lexemes : List Lexeme}
    (hcut : cut text = .ok lexemes) : cut ('=' :: text) = .ok (⟨.equal, ['=']⟩ :: lexemes) :=
  cut_cons_eq_ok.mpr ⟨.equal, 1, lexemes, if_neg (head_of_spells h), hcut, rfl⟩

end Lexemes

section Assignments

variable {name : String} {text : List Char} {e : Expr}

/-- A name that is accepted for a scalar can stand as a target. -/
theorem isTargetName_of_accepted (hname : violation? false name = none) : IsTargetName name := by
  have hisName := isName_of_accepted hname
  obtain ⟨c, hc, -⟩ := hisName.letter
  refine ⟨?_, hisName.word, fun k heq => hisName.keyword k (congrArg String.toList heq)⟩
  rintro rfl
  cases hc

/-- An accepted name is cut off in front of what is no part of a word. -/
theorem cut_named (hname : violation? false name = none)
    (hbreak : ∀ c ∈ text.head?, isWordChar c = false) {lexemes : List Lexeme} :
    cut (name.toList ++ text) = .ok lexemes ↔
      ∃ later, cut text = .ok later ∧ lexemes = ⟨.identifier, name.toList⟩ :: later := by
  obtain ⟨c, chars, htext, hmunch⟩ := munch_accepted hname hbreak
  rw [htext, List.cons_append, cut_cons_of_munch hmunch, Nat.add_sub_cancel, List.drop_left,
    List.take_succ_cons, List.take_left]

namespace IsTargetName

/-- The characters of a target's name are ink. -/
theorem isInk (hname : IsTargetName name) : ∀ c ∈ name.toList, NumericScript.isInk c :=
  fun c hc => isInk_of_isWordChar (hname.word c hc)

/-- A target's name is inked in full. -/
theorem inked_eq (hname : IsTargetName name) : inked name = name.toList :=
  inked_of_ink hname.isInk

/-- An element is inked as its array's name, the brackets and the inked index. -/
theorem inked_element (hname : IsTargetName name) (index : String) :
    inked (name ++ "[" ++ index ++ "]") = name.toList ++ '[' :: (inked index ++ [']']) := by
  rw [inked_append, inked_append, inked_append, hname.inked_eq, List.append_assoc,
    List.append_assoc]
  rfl

/-- After a target's name and an equality sign the text of an expression spells an assignment. -/
theorem spellsLine_scalar (hname : IsTargetName name) (h : Spells text e.glyphs) :
    SpellsLine (name.toList ++ '=' :: text) (assignmentLine (.scalar name default) e) := by
  obtain ⟨lexemes, hcut, hglyphs⟩ := id h
  have hline : SpellsLine _ _ := exists_cut_target hname (loose_cons text rfl (by decide))
    (cut_equal_of_spells h hcut) rfl ⟨_, List.mem_cons_self, rfl⟩
  rw [List.map_cons, hglyphs] at hline
  exact hline

/-- So it does after a target's name, an index in brackets and an equality sign. -/
theorem spellsLine_element (hname : IsTargetName name) {indexText : List Char} {index : Expr}
    (hindex : Spells indexText index.glyphs) (h : Spells text e.glyphs) :
    SpellsLine (name.toList ++ '[' :: (indexText ++ ']' :: '=' :: text))
      (assignmentLine (.element name index default) e) := by
  obtain ⟨lexemes, hcut, hglyphs⟩ := id h
  obtain ⟨inner, hinner, hinnerGlyphs⟩ := hindex
  have hequal : cut ('=' :: text) = .ok (⟨.equal, ['=']⟩ :: lexemes) := cut_equal_of_spells h hcut
  have hclose : cut (']' :: '=' :: text) =
      .ok (⟨.rightBracket, [']']⟩ :: ⟨.equal, ['=']⟩ :: lexemes) :=
    cut_cons_eq_ok.mpr ⟨.rightBracket, 1, _, rfl, hequal, rfl⟩
  have hopen : cut ('[' :: (indexText ++ ']' :: '=' :: text)) =
      .ok (⟨.leftBracket, ['[']⟩ ::
        (inner ++ ⟨.rightBracket, [']']⟩ :: ⟨.equal, ['=']⟩ :: lexemes)) :=
    cut_cons_eq_ok.mpr ⟨.leftBracket, 1, _, rfl, cut_append_closing hinner (.inr rfl) hclose, rfl⟩
  have hline : SpellsLine _ _ := exists_cut_target hname (loose_cons _ rfl (by decide)) hopen rfl
    ⟨⟨.equal, ['=']⟩, by simp, rfl⟩
  rw [List.map_cons, List.map_append, hinnerGlyphs, List.map_cons, List.map_cons, hglyphs] at hline
  have hglyphs : assignmentLine (.element name index default) e = .target name ::
      .mark .leftBracket :: (index.glyphs ++ .mark .rightBracket :: .mark .equal :: e.glyphs) := by
    simp [assignmentLine, Target.glyphs, bracketed]
  rw [hglyphs]
  exact hline

end IsTargetName

end Assignments

end NumericScript
