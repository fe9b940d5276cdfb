import NumericScript.Proofs.Layout.Texts
import NumericScript.Proofs.Nesting.Program
import NumericScript.Proofs.Print.Scan
import NumericScript.Proofs.ReadBack.Source

/-!
# Texts that are accepted

A text is accepted if the lines that are not empty are cut into lexemes that read back as a tree in
the shape of precedence whose levels fit, and only then. So whether a text is accepted, and as
which tree apart from places, can be told from the texts of its lines.
-/

namespace NumericScript

section Scanning

variable {source : String} {lines : List TokenLine}

/-- The lines with tokens are those with a text, and their tokens are what that text is cut into. -/
theorem forall₂_scan (h : scan source = .ok lines) :
    List.Forall₂ (fun text line => cut text = .ok (line.tokens.map Token.bare)) (lineTexts source)
      (lines.filter (!·.tokens.isEmpty)) := by
  have hall := mapM_eq_ok.mp h
  unfold lineTexts
  clear h
  generalize logicalLines source = all at hall
  induction hall with
  | nil => exact .nil
  | @cons line scanned all lines hhead _ ih =>
    have hcut := Line.cut_of_tokenLine hhead
    have hempty : line.text.isEmpty = scanned.tokens.isEmpty := by
      rw [Bool.eq_iff_iff, List.isEmpty_iff, List.isEmpty_iff]
      constructor
      · intro hnil
        rw [hnil] at hcut
        exact List.map_eq_nil_iff.mp (Except.ok.inj hcut).symm
      · intro hnil
        rw [hnil] at hcut
        exact cut_eq_nil hcut
    rw [List.map_cons, List.filter_cons, List.filter_cons, hempty]
    split
    · exact .cons hcut ih
    · exact ih

private theorem exists_scan_of_cut
    (h : ∀ text ∈ lineTexts source, ∃ lexemes, cut text = .ok lexemes) :
    ∃ lines, scan source = .ok lines := by
  refine exists_mapM_eq_ok fun line hm => ?_
  by_cases hempty : line.text = []
  · exact Line.tokenLine_of_cut (hempty ▸ cut_nil)
  · have hkept : line.text ∈ lineTexts source :=
      List.mem_filter.mpr ⟨List.mem_map_of_mem hm, by simpa using hempty⟩
    obtain ⟨lexemes, hcut⟩ := h _ hkept
    exact Line.tokenLine_of_cut hcut

/-- Empty lines say nothing. -/
theorem scriptGlyphs_filter (lines : List TokenLine) :
    scriptGlyphs (lines.filter (!·.tokens.isEmpty)) = scriptGlyphs lines := by
  induction lines with
  | nil => rfl
  | cons line lines ih =>
    obtain ⟨_ | ⟨t, more⟩, stop⟩ := line
    · exact ih
    · rw [List.filter_cons_of_pos (by simp), scriptGlyphs_cons, scriptGlyphs_cons, ih]

end Scanning

section Alone

variable {α : Type} {subject : Subject} {reader : Reader α} {lines : List TokenLine} {a : α}

/-- What stands alone in a text is read from the one line that is not empty, and from all of it. -/
theorem readAlone_eq_ok (hreader : Shrinks reader) (h : readAlone subject reader lines = .ok a) :
    ∃ line, lines.filter (!·.tokens.isEmpty) = [line] ∧
      reader line.stop line.tokens = .ok (a, []) := by
  rw [readAlone] at h
  cases hlines : lines.filter (!·.tokens.isEmpty) with
  | nil =>
    rw [hlines] at h
    obtain ⟨⟨read, rest⟩, hread, _⟩ := bind_eq_ok.mp h
    exact absurd (hreader _ _ _ _ hread) (Nat.not_lt_zero _)
  | cons line later =>
    rw [hlines] at h
    obtain ⟨⟨read, rest⟩, hread, h⟩ := bind_eq_ok.mp h
    dsimp only at h
    split at h
    · rename_i hnil
      obtain ⟨rfl, hlater⟩ := List.append_eq_nil_iff.mp hnil
      obtain rfl := Except.ok.inj h
      refine ⟨line, ?_, hread⟩
      cases later with
      | nil => rfl
      | cons next more =>
        have hnext : next ∈ lines.filter (!·.tokens.isEmpty) := by simp [hlines]
        have htokens : next.tokens = [] := (List.flatMap_eq_nil_iff.mp hlater) next (by simp)
        simp [htokens] at hnext
    · simp [fail] at h

end Alone

/-- What is read has levels that fit. -/
theorem Settles.fits_of_ok {α β : Type} {fits : Prop} {good : α → Prop}
    {goOn : α → Except ScriptError β} {run : Except ScriptError β} {b : β}
    (h : Settles fits good goOn run) (hrun : run = .ok b) : fits := by
  subst hrun
  rcases h with ⟨hfits, _⟩ | ⟨_, error, _, heq⟩
  · exact hfits
  · cases heq

/-- A settled run whose levels fit has a good result. -/
theorem Settles.exists_ok {α : Type} {fits : Prop} {good : α → Prop} {run : Except ScriptError α}
    (h : Settles fits good .ok run) (hfits : fits) : ∃ a, run = .ok a ∧ good a := by
  rcases h with ⟨_, a, hgood, heq⟩ | ⟨hnot, _⟩
  · exact ⟨a, heq, hgood⟩
  · exact absurd hfits hnot

/-- Whether a text is cut into lexemes that say what some glyphs say. -/
def Spells (text : List Char) (glyphs : List Glyph) : Prop :=
  ∃ lexemes, cut text = .ok lexemes ∧ lexemes.map Lexeme.glyph = glyphs

/-- Whether a line with a text is read back as some glyphs. -/
def SpellsLine (text : List Char) (line : List Glyph) : Prop :=
  ∃ lexemes, cut text = .ok lexemes ∧
    ∀ tokens : List Token, tokens.map Token.bare = lexemes → lineGlyphs tokens = line

section Sources

variable {source : String} {text : List Char}

/-- A reader is settled on a text as it is on the tokens of the text's line. -/
theorem settles_alone {α : Type} {fits : Prop} {good : α → Prop} {reader : Reader α}
    {glyphs : List Glyph} (subject : Subject) (htexts : lineTexts source = [text])
    (hspells : Spells text glyphs)
    (h : ∀ stop ts, ts.map Token.glyph = glyphs →
      Settles fits good (fun a => .ok (a, [])) (reader stop (ts ++ []))) :
    Settles fits good .ok (scan source >>= readAlone subject reader) := by
  obtain ⟨lexemes, hcut, hglyphs⟩ := hspells
  obtain ⟨lines, hscan⟩ : ∃ lines, scan source = .ok lines :=
    exists_scan_of_cut (by simp [htexts, hcut])
  have hall := forall₂_scan hscan
  rw [htexts] at hall
  generalize hlines : lines.filter (!·.tokens.isEmpty) = kept at hall
  cases hall with
  | @cons _ line _ _ hline hnil =>
    cases hnil
    have hbare := Except.ok.inj (hcut.symm.trans hline)
    have hsettles := h line.stop line.tokens ((map_glyph_of_bare hbare.symm).trans hglyphs)
    rw [List.append_nil] at hsettles
    rw [hscan]
    exact settles_readAlone subject hlines hsettles

/-- What is read alone is read from one line, whose text is cut into the tokens read. -/
theorem reads_alone {α : Type} {reader : Reader α} {subject : Subject} {a : α}
    (hreader : Shrinks reader) (h : (scan source >>= readAlone subject reader) = .ok a) :
    ∃ (text : List Char) (line : TokenLine), lineTexts source = [text] ∧
      cut text = .ok (line.tokens.map Token.bare) ∧
      reader line.stop (line.tokens ++ []) = .ok (a, []) := by
  obtain ⟨lines, hscan, hread⟩ := bind_eq_ok.mp h
  obtain ⟨line, hline, hreads⟩ := readAlone_eq_ok hreader hread
  have hall := forall₂_scan hscan
  rw [hline] at hall
  generalize htexts : lineTexts source = texts at hall
  cases hall with
  | @cons text _ _ _ hcut hnil =>
    cases hnil
    exact ⟨text, line, rfl, hcut, by rwa [List.append_nil]⟩

private theorem glyph_bare (tokens : List Token) :
    (tokens.map Token.bare).map Lexeme.glyph = tokens.map Token.glyph :=
  (map_glyph_of_bare rfl).symm

/-- An accepted expression is spelled by the one line of its text. -/
theorem parseExpression_eq_ok {e : Expr} (h : parseExpression source = .ok e) :
    ∃ text, lineTexts source = [text] ∧ Spells text e.glyphs ∧ e.Shaped ∧
      Within e.levels maxNesting := by
  obtain ⟨text, line, htexts, hcut, hread⟩ := reads_alone (shrinks_expression maxNesting) h
  obtain ⟨hglyphs, hshaped, _⟩ := readsExpr_expression maxNesting _ _ _ _ hread
  rw [List.append_nil, List.map_nil, List.append_nil] at hglyphs
  have hsettles := settles_expression hshaped maxNesting line.stop hglyphs (stops_nil 0)
  refine ⟨text, htexts, ⟨_, hcut, (glyph_bare _).trans hglyphs⟩, hshaped, ?_⟩
  exact hsettles.fits_of_ok hread

/-- A line that spells an expression reads as it if its levels fit, and is too deep otherwise. -/
theorem settles_spelled_expression {e : Expr} (htexts : lineTexts source = [text])
    (hspells : Spells text e.glyphs) (hshaped : e.Shaped) :
    Settles (Within e.levels maxNesting) (·.bare = e.bare) .ok (parseExpression source) :=
  settles_alone .expression htexts hspells fun stop _ hts =>
    settles_expression hshaped maxNesting stop hts (stops_nil 0)

/-- Reading a condition leaves fewer tokens. -/
theorem shrinks_condition (room : Nat) : Shrinks (condition room) :=
  shrinks_chain (shrinks_chain (shrinks_comparison room))

/-- An accepted condition is spelled by the one line of its text. -/
theorem parseCondition_eq_ok {c : Cond} (h : parseCondition source = .ok c) :
    ∃ text, lineTexts source = [text] ∧ Spells text c.glyphs ∧ c.Shaped ∧
      Within c.levels maxNesting := by
  obtain ⟨text, line, htexts, hcut, hread⟩ := reads_alone (shrinks_condition maxNesting) h
  obtain ⟨hglyphs, hshaped, _⟩ := readsCond_condition maxNesting _ _ _ _ hread
  rw [List.append_nil, List.map_nil, List.append_nil] at hglyphs
  have hsettles := settles_condition hshaped maxNesting line.stop hglyphs (ends_nil 0)
  refine ⟨text, htexts, ⟨_, hcut, (glyph_bare _).trans hglyphs⟩, hshaped, ?_⟩
  exact hsettles.fits_of_ok hread

/-- A line that spells a condition reads as it if its levels fit, and is too deep otherwise. -/
theorem settles_spelled_condition {c : Cond} (htexts : lineTexts source = [text])
    (hspells : Spells text c.glyphs) (hshaped : c.Shaped) :
    Settles (Within c.levels maxNesting) (·.bare = c.bare) .ok (parseCondition source) :=
  settles_alone .condition htexts hspells fun stop _ hts =>
    settles_condition hshaped maxNesting stop hts (ends_nil 0)

private theorem exists_cut_of_spells {texts : List (List Char)} {glyphs : List (List Glyph)}
    (h : List.Forall₂ SpellsLine texts glyphs) :
    ∀ text ∈ texts, ∃ lexemes, cut text = .ok lexemes := by
  induction h with
  | nil => nofun
  | cons hline _ ih =>
    obtain ⟨lexemes, hcut, _⟩ := hline
    exact List.forall_mem_cons.mpr ⟨⟨lexemes, hcut⟩, ih⟩

/-- Lines of tokens that are cut from texts are read back as what the texts spell. -/
theorem map_lineGlyphs_of_spells {texts : List (List Char)} {glyphs : List (List Glyph)}
    {lines : List TokenLine} (h : List.Forall₂ SpellsLine texts glyphs)
    (hlines : List.Forall₂ (fun text line => cut text = .ok (line.tokens.map Token.bare)) texts
      lines) : lines.map (lineGlyphs ·.tokens) = glyphs := by
  induction h generalizing lines with
  | nil =>
    cases hlines
    rfl
  | cons hline _ ih =>
    cases hlines with
    | cons hcut hlater =>
      obtain ⟨lexemes, hlexemes, hread⟩ := hline
      rw [List.map_cons, hread _ (Except.ok.inj (hcut.symm.trans hlexemes)), ih hlater]

/-- Statements are settled on a text whose lines spell theirs. -/
theorem settles_spelled_program {stmts : List Stmt} (hread : Readable (phrasesOf stmts))
    (hlines : List.Forall₂ SpellsLine (lineTexts source) (linesOf stmts)) :
    Settles (Within (levelsOf stmts) maxNesting) (bareOf · = bareOf stmts) .ok
      (parseProgram source) := by
  obtain ⟨lines, hscan⟩ := exists_scan_of_cut (exists_cut_of_spells hlines)
  rw [parseProgram, hscan]
  exact settles_readProgram hread maxNesting (map_lineGlyphs_of_spells hlines (forall₂_scan hscan))

/--
An accepted script none of whose lines is ignored has the lines that its statements are read back
as.
-/
theorem parseProgram_eq_ok {stmts : List Stmt} (h : parseProgram source = .ok stmts)
    (hlength : (linesOf stmts).length = (lineTexts source).length) :
    ∃ lines : List TokenLine,
      List.Forall₂ (fun text line => cut text = .ok (line.tokens.map Token.bare))
        (lineTexts source) lines ∧
      lines.map (lineGlyphs ·.tokens) = linesOf stmts ∧
      (∀ phrase ∈ phrasesOf stmts, phrase.Shaped) ∧
      ((∀ phrase ∈ phrasesOf stmts, phrase.Named) → Within (levelsOf stmts) maxNesting) := by
  obtain ⟨lines, hscan, hread⟩ := bind_eq_ok.mp h
  obtain ⟨hback, hshaped⟩ := readProgram_reads hscan hread
  have hall := forall₂_scan hscan
  have hlines : (lines.filter (!·.tokens.isEmpty)).map (lineGlyphs ·.tokens) = linesOf stmts := by
    rw [← scriptGlyphs_filter, scriptGlyphs] at hback
    have hkept := hlength.trans (hall.length_eq.trans
      (List.length_map fun line : TokenLine => lineGlyphs line.tokens).symm)
    rw [hback, List.length_filter_eq_length_iff] at hkept
    rw [hback, List.filter_eq_self.mpr hkept]
  refine ⟨_, hall, hlines, hshaped, fun hnamed => ?_⟩
  exact (settles_readProgram (fun phrase hm => ⟨hshaped phrase hm, hnamed phrase hm⟩) maxNesting
    hlines).fits_of_ok hread

end Sources

end NumericScript
