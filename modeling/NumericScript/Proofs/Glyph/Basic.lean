import NumericScript.Grammar.Program

/-!
# Glyphs

A glyph is what a token says, without its place and without the spelling of a numeral. A tree is
read back as glyphs, so that the tokens it was read from can be compared with it. The name of an
assignment's target is one glyph, however many tokens it was cut into.
-/

namespace NumericScript

/-- What a token says, or all words of a target's name together. -/
inductive Glyph
  /-- A token whose kind fixes its lexeme. -/
  | mark (kind : TokenKind)
  | name (text : String)
  | number (value : Single)
  | target (name : String)
  deriving DecidableEq

/-- The glyph of a kind of token with its lexeme. -/
def glyphOf (kind : TokenKind) (lexeme : String) : Glyph :=
  match kind with
  | .identifier => .name lexeme
  | .number =>
    match Single.ofNumeral? lexeme.toList with
    | some value => .number value
    | none => .mark .number
  | kind => .mark kind

/-- What a token says. -/
def Token.glyph (t : Token) : Glyph := glyphOf t.kind t.lexeme

/-- A glyph that is a mark is of its token's kind. -/
theorem glyphOf_eq_mark {kind expected : TokenKind} {lexeme : String}
    (h : glyphOf kind lexeme = .mark expected) : kind = expected := by
  unfold glyphOf at h
  split at h
  · cases h
  · split at h
    · cases h
    · exact Glyph.mark.inj h
  · exact Glyph.mark.inj h

/-- A glyph that is a name is an identifier with that text. -/
theorem glyphOf_eq_name {kind : TokenKind} {lexeme text : String}
    (h : glyphOf kind lexeme = .name text) : kind = .identifier ∧ lexeme = text := by
  unfold glyphOf at h
  split at h
  · exact ⟨rfl, Glyph.name.inj h⟩
  · split at h <;> cases h
  · cases h

/-- A glyph that is a number is the value of its numeral. -/
theorem glyphOf_eq_number {kind : TokenKind} {lexeme : String} {value : Single}
    (h : glyphOf kind lexeme = .number value) :
    kind = .number ∧ Single.ofNumeral? lexeme.toList = some value := by
  unfold glyphOf at h
  split at h
  · cases h
  · split at h
    · rename_i v hv
      exact ⟨rfl, hv.trans (congrArg some (Glyph.number.inj h))⟩
    · cases h
  · cases h

/-- No single token is the glyph of a target. -/
theorem glyphOf_ne_target (kind : TokenKind) (lexeme name : String) :
    glyphOf kind lexeme ≠ .target name := by
  intro h
  unfold glyphOf at h
  split at h
  · cases h
  · split at h <;> cases h
  · cases h

/-- The kinds that are neither names nor numbers are glyphs on their own. -/
theorem glyphOf_of_ne {kind : TokenKind} (lexeme : String) (hname : kind ≠ .identifier)
    (hnumber : kind ≠ .number) : glyphOf kind lexeme = .mark kind := by
  unfold glyphOf
  split
  · exact absurd rfl hname
  · exact absurd rfl hnumber
  · rfl

namespace Token

/-- A token whose glyph is a mark is of that kind. -/
theorem kind_of_glyph {t : Token} {kind : TokenKind} (h : t.glyph = .mark kind) : t.kind = kind :=
  glyphOf_eq_mark h

/-- The glyph of a token that is no identifier and no number is its kind. -/
theorem glyph_of_kind {t : Token} {kind : TokenKind} (h : t.kind = kind)
    (hname : kind ≠ .identifier := by decide) (hnumber : kind ≠ .number := by decide) :
    t.glyph = .mark kind := by
  rw [glyph, h, glyphOf_of_ne t.lexeme hname hnumber]

/-- The glyph of an identifier is its text. -/
theorem glyph_of_identifier {t : Token} (h : t.kind = .identifier) : t.glyph = .name t.lexeme := by
  rw [glyph, h]
  rfl

/-- The glyph of a numeral is its value. -/
theorem glyph_of_number {t : Token} {value : Single} (h : t.kind = .number)
    (hvalue : Single.ofNumeral? t.lexeme.toList = some value) : t.glyph = .number value := by
  simp only [glyph, glyphOf, h, hvalue]

end Token

/-- The lexemes of some tokens, put together. -/
def joinedLexemes (tokens : List Token) : String :=
  tokens.foldr (fun t later => t.lexeme ++ later) ""

/-- The glyphs of an assignment's line: the words at its start are the name of a target. -/
def assignmentGlyphs (tokens : List Token) : List Glyph :=
  .target (joinedLexemes (tokens.takeWhile (isNamePart ·.kind))) ::
    (tokens.dropWhile (isNamePart ·.kind)).map Token.glyph

/--
The glyphs of a line that does not begin with a brace. The line is ignored if it begins with no
keyword and holds no bare equality sign.
-/
def statementGlyphs : List Token → List Glyph
  | [] => []
  | t :: more =>
    match t.kind with
    | .keyword _ => (t :: more).map Token.glyph
    | _ => if hasEqual (t :: more) then assignmentGlyphs (t :: more) else []

/-- The glyphs of a line. -/
def lineGlyphs : List Token → List Glyph
  | [] => []
  | t :: more =>
    match t.kind with
    | .leftBrace | .rightBrace => (t :: more).map Token.glyph
    | _ => statementGlyphs (t :: more)

/-- A line, unless it says nothing. -/
def keptLine (line : List Glyph) : List (List Glyph) := [line].filter (!·.isEmpty)

/-- The glyphs of the lines of a script, without the lines that say nothing. -/
def scriptGlyphs (lines : List TokenLine) : List (List Glyph) :=
  (lines.map fun line => lineGlyphs line.tokens).filter (!·.isEmpty)

@[simp] theorem keptLine_cons (glyph : Glyph) (line : List Glyph) :
    keptLine (glyph :: line) = [glyph :: line] := rfl

/-- The glyphs of a script are those of its lines, one after the other. -/
theorem scriptGlyphs_cons (line : TokenLine) (lines : List TokenLine) :
    scriptGlyphs (line :: lines) = keptLine (lineGlyphs line.tokens) ++ scriptGlyphs lines := by
  rw [scriptGlyphs, List.map_cons, ← List.singleton_append, List.filter_append]
  rfl

/-- A line that begins with a brace says all of its tokens. -/
theorem lineGlyphs_of_brace {t : Token} (more : List Token)
    (h : t.kind = .leftBrace ∨ t.kind = .rightBrace) :
    lineGlyphs (t :: more) = (t :: more).map Token.glyph := by
  rcases h with h | h <;> simp only [lineGlyphs, h]

/-- A line that begins with no brace is a line of a statement. -/
theorem lineGlyphs_of_not_brace {t : Token} (more : List Token) (hleft : t.kind ≠ .leftBrace)
    (hright : t.kind ≠ .rightBrace) : lineGlyphs (t :: more) = statementGlyphs (t :: more) := by
  rw [lineGlyphs]
  split
  · rename_i hkind
    exact absurd hkind hleft
  · rename_i hkind
    exact absurd hkind hright
  · rfl

/-- A line that begins with a keyword says all of its tokens. -/
theorem statementGlyphs_of_keyword {t : Token} {word : Keyword} (more : List Token)
    (h : t.kind = .keyword word) :
    statementGlyphs (t :: more) = .mark (.keyword word) :: more.map Token.glyph := by
  have hglyph : t.glyph = .mark (.keyword word) := by
    rw [Token.glyph, h]
    rfl
  simp only [statementGlyphs, h, List.map_cons, hglyph]

/--
A line that begins with no keyword is an assignment if it has an equals sign, and says nothing
otherwise.
-/
theorem statementGlyphs_of_not_keyword {t : Token} (more : List Token)
    (h : ∀ word, t.kind ≠ .keyword word) :
    statementGlyphs (t :: more) =
      if hasEqual (t :: more) then assignmentGlyphs (t :: more) else [] := by
  rw [statementGlyphs]
  split
  · rename_i word hword
    exact absurd hword (h word)
  · rfl

end NumericScript
