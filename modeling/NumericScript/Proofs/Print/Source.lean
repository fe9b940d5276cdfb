import NumericScript.Proofs.Nesting.Program
import NumericScript.Proofs.Print.Scan

/-!
# Reading printed text

Whatever has the shape of precedence and can be printed is read from its text again, up to its
places, if its levels fit; and if they do not, the only error is that it is too deep. Blanks may
stand anywhere in the text.
-/

namespace NumericScript

section

variable {numeral : Single → List Char} {source : String}

/-- What can be printed has names to write to. -/
theorem readable_of_printable {stmts : List Stmt}
    (hshaped : ∀ phrase ∈ phrasesOf stmts, phrase.Shaped)
    (h : ∀ line ∈ linesOf stmts, ∀ glyph ∈ line, glyph.Printable numeral) :
    Readable (phrasesOf stmts) := by
  intro phrase hm
  refine ⟨hshaped phrase hm, ?_⟩
  cases phrase with
  | condition => trivial
  | assignment target value =>
    obtain ⟨_, hline, rfl⟩ := exists_line_linesOf stmts hm
    have hline := h _ hline
    cases target with
    | scalar name => exact (hline (.target name) List.mem_cons_self).1
    | element name => exact (hline (.target name) List.mem_cons_self).1

private theorem linesText_eq_flatMap (lines : List (List Glyph)) :
    linesText numeral lines = (lines.map (textOf numeral)).flatMap (· ++ ['\n']) := by
  rw [linesText, List.flatMap_map]

/-- Every line of statements is printed as a line of its own. -/
theorem isLineText_linesOf {stmts : List Stmt}
    (h : ∀ line ∈ linesOf stmts, ∀ glyph ∈ line, glyph.Printable numeral) :
    ∀ text ∈ (linesOf stmts).map (textOf numeral), IsLineText text := by
  intro text hm
  obtain ⟨line, hline, rfl⟩ := List.mem_map.mp hm
  exact (isLine_linesOf stmts line hline).isLineText (h line hline)

/-- In printed statements there is no white space but line feeds. -/
theorem isWhitespace_linesOf {stmts : List Stmt}
    (h : ∀ line ∈ linesOf stmts, ∀ glyph ∈ line, glyph.Printable numeral) :
    ∀ c ∈ linesText numeral (linesOf stmts), isWhitespace c → c = '\n' := by
  rw [linesText_eq_flatMap]
  exact isWhitespace_linesText (isLineText_linesOf h)

/-- In printed glyphs without braces there is no white space. -/
theorem isWhitespace_textOf {glyphs : List Glyph} (h : ∀ glyph ∈ glyphs, glyph.Printable numeral)
    (hbraceless : Free Glyph.isBrace glyphs) :
    ∀ c ∈ textOf numeral glyphs, isWhitespace c → c = '\n' := by
  intro c hc hspace
  have hink := ink_textOf h hbraceless c hc
  simp [isInk, hspace] at hink

/-- A text with no white space but line feeds is its own text without blanks. -/
theorem filter_isBlank_ofList {text : List Char} (h : ∀ c ∈ text, isWhitespace c → c = '\n') :
    (String.ofList text).toList.filter (!isBlank ·) = text := by
  rw [String.toList_ofList, List.filter_eq_self]
  intro c hc
  cases hblank : isBlank c with
  | false => rfl
  | true =>
    obtain rfl := h c hc (isWhitespace_of_isBlank hblank)
    cases hblank

/-- A text that is printed lines, blanks apart, is scanned as these lines. -/
theorem scan_linesText {stmts : List Stmt}
    (h : ∀ line ∈ linesOf stmts, ∀ glyph ∈ line, glyph.Printable numeral)
    (hsource : source.toList.filter (!isBlank ·) = linesText numeral (linesOf stmts)) :
    ∃ scanned, scan source = .ok scanned ∧
      (scanned.filter (!·.tokens.isEmpty)).map (lineGlyphs ·.tokens) = linesOf stmts := by
  have hspace : ∀ c ∈ source.toList.filter (!isBlank ·), isWhitespace c → c = '\n' := by
    rw [hsource]
    exact isWhitespace_linesOf h
  refine scan_reads numeral ?_ fun line hline =>
    (isLine_linesOf stmts line hline).readsAs (h line hline)
  rw [text_logicalLines hspace, hsource, linesText_eq_flatMap,
    filter_allPieces (isLineText_linesOf h)]

/-- A text that is printed glyphs without braces, blanks apart, is scanned as one line of them. -/
theorem scan_textOf {glyphs : List Glyph} (hcuts : Cuts numeral glyphs []) (hne : glyphs ≠ [])
    (h : ∀ glyph ∈ glyphs, glyph.Printable numeral) (hbraceless : Free Glyph.isBrace glyphs)
    (hsource : source.toList.filter (!isBlank ·) = textOf numeral glyphs) :
    ∃ scanned line, scan source = .ok scanned ∧ scanned.filter (!·.tokens.isEmpty) = [line] ∧
      line.tokens.map Token.glyph = glyphs := by
  have hink := ink_textOf h hbraceless
  have hspace : ∀ c ∈ source.toList.filter (!isBlank ·), isWhitespace c → c = '\n' := by
    rw [hsource]
    exact isWhitespace_textOf h hbraceless
  have htext := hcuts.readsAs.text_ne_nil hne
  have hread : ∃ scanned, scan source = .ok scanned ∧
      (scanned.filter (!·.tokens.isEmpty)).map (·.tokens.map Token.glyph) = [glyphs] := by
    refine scan_reads numeral ?_ (by simpa using hcuts.readsAs)
    rw [text_logicalLines hspace, hsource, allPieces_ink hink]
    simpa using htext
  obtain ⟨scanned, hscan, hlines⟩ := hread
  obtain ⟨line, hline, hglyphs⟩ := List.map_eq_singleton_iff.mp hlines
  exact ⟨scanned, line, hscan, hline, hglyphs⟩

/-- A printed script reads as the script if its levels fit, and is too deep otherwise. -/
theorem settles_parseProgram {stmts : List Stmt}
    (hshaped : ∀ phrase ∈ phrasesOf stmts, phrase.Shaped)
    (h : ∀ line ∈ linesOf stmts, ∀ glyph ∈ line, glyph.Printable numeral)
    (hsource : source.toList.filter (!isBlank ·) = linesText numeral (linesOf stmts)) :
    Settles (Within (levelsOf stmts) maxNesting) (bareOf · = bareOf stmts) .ok
      (parseProgram source) := by
  obtain ⟨scanned, hscan, hlines⟩ := scan_linesText h hsource
  rw [parseProgram, hscan]
  exact settles_readProgram (readable_of_printable hshaped h) maxNesting hlines

private theorem settles_parseExpression {e : Expr} (hshaped : e.Shaped)
    (h : ∀ glyph ∈ e.glyphs, glyph.Printable numeral)
    (hsource : source.toList.filter (!isBlank ·) = textOf numeral e.glyphs) :
    Settles (Within e.levels maxNesting) (·.bare = e.bare) .ok (parseExpression source) := by
  obtain ⟨glyph, more, hglyphs, _⟩ := e.glyphs_head
  obtain ⟨scanned, line, hscan, hline, htokens⟩ := scan_textOf (e.cuts h loose_nil)
    (by rw [hglyphs]; exact List.cons_ne_nil _ _) h (e.plain.of_plain Glyph.isBrace_of_plain)
    hsource
  have hread := settles_expression hshaped maxNesting line.stop htokens (stops_nil 0)
  rw [List.append_nil] at hread
  rw [parseExpression, hscan]
  exact settles_readAlone .expression hline hread

/-- A printed condition reads as the condition if its levels fit, and is too deep otherwise. -/
theorem settles_parseCondition {c : Cond} (hshaped : c.Shaped)
    (h : ∀ glyph ∈ c.glyphs, glyph.Printable numeral)
    (hsource : source.toList.filter (!isBlank ·) = textOf numeral c.glyphs) :
    Settles (Within c.levels maxNesting) (·.bare = c.bare) .ok (parseCondition source) := by
  obtain ⟨scanned, line, hscan, hline, htokens⟩ := scan_textOf (c.cuts h loose_nil)
    (by cases c <;> simp [Cond.glyphs]) h c.braceless hsource
  have hread := settles_condition hshaped maxNesting line.stop htokens (ends_nil 0)
  rw [List.append_nil] at hread
  rw [parseCondition, hscan]
  exact settles_readAlone .condition hline hread

end

/-- Nesting decides between a good result and the refusal of what is too deep. -/
theorem Settles.cases {α : Type} {levels : List Nat} {room : Nat} {good : α → Prop}
    {run : Except ScriptError α} (h : Settles (Within levels room) good .ok run) :
    ((∀ level ∈ levels, level ≤ room) → ∃ a, run = .ok a ∧ good a) ∧
      ((∃ level ∈ levels, room < level) →
        ∃ error, run = .error error ∧ error.cause = .tooDeep) := by
  rcases h with ⟨hfits, a, hgood, rfl⟩ | ⟨hfits, error, hdeep, rfl⟩
  · refine ⟨fun _ => ⟨a, rfl, hgood⟩, ?_⟩
    rintro ⟨level, hm, hlt⟩
    exact absurd (hfits level hm) (Nat.not_le_of_gt hlt)
  · exact ⟨fun h => absurd h hfits, fun _ => ⟨error, rfl, hdeep⟩⟩

/--
Programs, expressions and conditions in the shape of precedence are read from their printed text
exactly if none of their levels is beyond the bound, and then they are the same but for their
places. Otherwise the text is refused as too deep.
-/
theorem parse_printed (numeral : Single → List Char) :
    (∀ (stmts : List Stmt) (source : String), (∀ phrase ∈ phrasesOf stmts, phrase.Shaped) →
      (∀ line ∈ linesOf stmts, ∀ glyph ∈ line, glyph.Printable numeral) →
      source.toList.filter (!isBlank ·) = linesText numeral (linesOf stmts) →
      ((∀ level ∈ levelsOf stmts, level ≤ maxNesting) →
        ∃ read, parseProgram source = .ok read ∧ bareOf read = bareOf stmts) ∧
      ((∃ level ∈ levelsOf stmts, maxNesting < level) →
        ∃ error, parseProgram source = .error error ∧ error.cause = .tooDeep)) ∧
    (∀ (e : Expr) (source : String), e.Shaped →
      (∀ glyph ∈ e.glyphs, glyph.Printable numeral) →
      source.toList.filter (!isBlank ·) = textOf numeral e.glyphs →
      ((∀ level ∈ e.levels, level ≤ maxNesting) →
        ∃ read, parseExpression source = .ok read ∧ read.bare = e.bare) ∧
      ((∃ level ∈ e.levels, maxNesting < level) →
        ∃ error, parseExpression source = .error error ∧ error.cause = .tooDeep)) ∧
    (∀ (c : Cond) (source : String), c.Shaped →
      (∀ glyph ∈ c.glyphs, glyph.Printable numeral) →
      source.toList.filter (!isBlank ·) = textOf numeral c.glyphs →
      ((∀ level ∈ c.levels, level ≤ maxNesting) →
        ∃ read, parseCondition source = .ok read ∧ read.bare = c.bare) ∧
      ((∃ level ∈ c.levels, maxNesting < level) →
        ∃ error, parseCondition source = .error error ∧ error.cause = .tooDeep)) := by
  refine ⟨fun stmts source hshaped h hsource => ?_, fun e source hshaped h hsource => ?_,
    fun c source hshaped h hsource => ?_⟩
  · exact (settles_parseProgram hshaped h hsource).cases
  · exact (settles_parseExpression hshaped h hsource).cases
  · exact (settles_parseCondition hshaped h hsource).cases

/-- A script with a name that begins with a function's, a fraction, a loop and an element. -/
def smallProgram : List Stmt :=
  [.assign (.scalar "Login" default)
      (.binary .add (.scalar "y" default) (.number (.ofDecimal 25 1) default) default) default,
    .loop (.compare .less (.scalar "y" default) (.scalar "z" default) default)
      [.assign (.element "A" (.scalar "y" default) default)
        (.negate (.call .sin (.scalar "z" default) default) default) default] default]

/-- The text of `smallProgram`, with blanks. -/
def smallSource : String := "Login = y + 2.5\nwhile (y < z)\n\x7b\n  A[y] = -Sin z\n\x7d\n"

/-- A name in as many parentheses as a number says. -/
def Expr.wrapped : Nat → Expr
  | 0 => .scalar "x" default
  | pairs + 1 => .group (wrapped pairs) default

/-- The text of `Expr.wrapped`. -/
def wrappedSource (pairs : Nat) : String :=
  String.ofList (List.replicate pairs '(' ++ 'x' :: List.replicate pairs ')')

private theorem Expr.printable_wrapped (numeral : Single → List Char) (pairs : Nat) :
    ∀ glyph ∈ (wrapped pairs).glyphs, glyph.Printable numeral := by
  induction pairs with
  | zero =>
    have hx : (Glyph.name "x").Printable numeral := rfl
    simpa [wrapped, glyphs] using hx
  | succ pairs ih =>
    have hmark : ∀ kind, (Glyph.mark kind).Printable numeral := fun _ => trivial
    simpa [wrapped, glyphs, parenthesized, hmark, or_imp, forall_and] using ih

private theorem Expr.textOf_wrapped (numeral : Single → List Char) (pairs : Nat) :
    textOf numeral (wrapped pairs).glyphs =
      List.replicate pairs '(' ++ 'x' :: List.replicate pairs ')' := by
  induction pairs with
  | zero => rfl
  | succ pairs ih =>
    have hopening : (Glyph.mark .leftParen).text numeral = ['('] := rfl
    have hclosing : (Glyph.mark .rightParen).text numeral = [')'] := rfl
    rw [wrapped, glyphs, parenthesized, textOf_cons, textOf_append, ih, textOf_cons, textOf_nil,
      hopening, hclosing, List.replicate_succ, List.replicate_succ']
    simp only [List.append_assoc, List.cons_append, List.nil_append, List.append_nil]

/-- A script with a loop reads as itself, and parentheses one too many are too deep. -/
theorem parse_printed_small :
    (∃ read, parseProgram smallSource = .ok read ∧ bareOf read = bareOf smallProgram) ∧
      ∃ error, parseExpression (wrappedSource maxNesting) = .error error ∧
        error.cause = .tooDeep := by
  have hshaped : ∀ phrase ∈ phrasesOf smallProgram, phrase.Shaped := by decide
  have htext : Single.text (.ofDecimal 25 1) = ['2', '.', '5'] := by decide +kernel
  have hnumber : (Glyph.number (.ofDecimal 25 1)).Printable Single.text := by
    refine ⟨⟨['2'], ['5'], List.all_eq_true.mp rfl, List.all_eq_true.mp rfl,
      .inr ⟨by decide, htext⟩⟩, ?_⟩
    rw [htext]
    decide +kernel
  have hy : (Glyph.name "y").Printable Single.text := rfl
  have hz : (Glyph.name "z").Printable Single.text := rfl
  have hlogin : (Glyph.target "Login").Printable Single.text :=
    ⟨by decide, List.all_eq_true.mp rfl, rfl⟩
  have harray : (Glyph.target "A").Printable Single.text :=
    ⟨by decide, List.all_eq_true.mp rfl, rfl⟩
  have hmark : ∀ kind, (Glyph.mark kind).Printable Single.text := fun _ => trivial
  have hprintable : ∀ line ∈ linesOf smallProgram, ∀ glyph ∈ line,
      glyph.Printable Single.text := by
    simp [smallProgram, linesOf, Stmt.lines, assignmentLine, headerLine, parenthesized, bracketed,
      braced, Target.glyphs, Expr.glyphs, Cond.glyphs, hnumber, hy, hz, hlogin, harray, hmark]
  have hsource : smallSource.toList.filter (!isBlank ·) =
      linesText Single.text (linesOf smallProgram) := by decide +kernel
  have hwrapped : (Expr.wrapped maxNesting).Shaped := by decide +kernel
  have hwrappable := Expr.printable_wrapped Single.text maxNesting
  have hwrappedSource : (wrappedSource maxNesting).toList.filter (!isBlank ·) =
      textOf Single.text (Expr.wrapped maxNesting).glyphs := by
    rw [wrappedSource, ← Expr.textOf_wrapped Single.text]
    exact filter_isBlank_ofList (isWhitespace_textOf hwrappable
      ((Expr.wrapped maxNesting).plain.of_plain Glyph.isBrace_of_plain))
  have hdeep : ∃ level ∈ (Expr.wrapped maxNesting).levels, maxNesting < level := by decide +kernel
  have h := parse_printed Single.text
  exact ⟨(h.1 _ _ hshaped hprintable hsource).1 (by decide),
    (h.2.1 _ _ hwrapped hwrappable hwrappedSource).2 hdeep⟩

end NumericScript
