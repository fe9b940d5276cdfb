import NumericScript.Proofs.ReadBack.Program
import NumericScript.Proofs.Scanning.Lines

/-!
# Scripts read back

An accepted script is read back as its tokens, line by line. What is missing are the lines that the
reader ignores, and empty lines.
-/

namespace NumericScript

/-- A lexeme of a brace is one character. -/
theorem isBrace_of_munch {c : Char} {rest : List Char} {kind : TokenKind} {length : Nat}
    (h : munch? c rest = some (kind, length)) (hkind : kind = .leftBrace ∨ kind = .rightBrace) :
    isBrace c = true := by
  rcases hkind with rfl | rfl
  all_goals
    have htake := take_munch h (by decide) (by decide)
    cases length with
    | zero => cases htake
    | succ length =>
      obtain ⟨rfl, _⟩ := List.cons.inj htake
      rfl

/-- In a scanned line a brace is alone. -/
theorem bracesAlone_of_scan {source : String} {lines : List TokenLine}
    (h : scan source = .ok lines) : ∀ line ∈ lines, BracesAlone line := by
  intro scanned hm t more htokens hkind
  obtain ⟨line, hline, hscanned⟩ := scan_mem h hm
  have hcut := Line.cut_of_tokenLine hscanned
  have halone := logicalLines_braceAlone hline
  unfold Line.text at hcut
  rw [htokens] at hcut
  cases hchars : line.chars with
  | nil =>
    rw [hchars] at hcut
    cases hcut
  | cons p rest =>
    rw [hchars] at hcut halone
    obtain ⟨kind, length, later, hmunch, hlater, heq⟩ := cut_cons_eq_ok.mp hcut
    obtain ⟨hhead, htail⟩ := List.cons.inj heq
    obtain rfl : t.kind = kind := congrArg Lexeme.kind hhead
    have hbrace := isBrace_of_munch hmunch hkind
    obtain ⟨_, rfl⟩ := List.cons.inj (halone p List.mem_cons_self hbrace)
    rw [List.map_nil, List.drop_nil, cut_nil] at hlater
    rw [← Except.ok.inj hlater] at htail
    exact List.map_eq_nil_iff.mp htail

/-- In a scanned line every token but names and numbers is spelled as its kind. -/
theorem spelling_of_scan {source : String} {lines : List TokenLine} (h : scan source = .ok lines) :
    ∀ line ∈ lines, ∀ t ∈ line.tokens, t.kind ≠ .identifier → t.kind ≠ .number →
      t.lexeme.toList = t.kind.spelling := by
  intro scanned hm t ht hname hnumber
  obtain ⟨line, _, hscanned⟩ := scan_mem h hm
  exact spelling_of_cut (Line.cut_of_tokenLine hscanned) (List.mem_map_of_mem ht) hname hnumber

/-- What is read from the scanned lines of a text is read back as those lines. -/
theorem readProgram_reads {source : String} {lines : List TokenLine} {limit : Nat}
    {stmts : List Stmt} (hscan : scan source = .ok lines)
    (h : readProgram limit lines = .ok stmts) :
    linesOf stmts = scriptGlyphs lines ∧ ∀ phrase ∈ phrasesOf stmts, phrase.Shaped := by
  obtain ⟨all, hall, h⟩ := bind_eq_ok.mp h
  obtain rfl := Except.ok.inj h
  have hfrom := sequel_readFrom hall
  have hlines := hfrom.lines
  rw [Outline.lines_ofLines (bracesAlone_of_scan hscan), hfrom.done rfl, Chain.lines,
    List.nil_append] at hlines
  exact ⟨hlines.symm, hfrom.statements⟩

/-- The result of a run is one that it has. -/
theorem toOption_eq_some {ε α : Type} {x : Except ε α} {a : α} :
    x.toOption = some a ↔ x = .ok a := by
  cases x <;> simp [Except.toOption]

/--
An accepted script is read back as its tokens, line by line, without empty lines and ignored lines.
Every token but names and numbers is fixed by its kind, and all assignments and conditions have the
shape of precedence.
-/
theorem parseProgram_reads_back {source : String} {stmts : List Stmt}
    (h : parseProgram source = .ok stmts) :
    ∃ lines, scan source = .ok lines ∧ linesOf stmts = scriptGlyphs lines ∧
      (∀ line ∈ lines, ∀ t ∈ line.tokens, t.kind ≠ .identifier → t.kind ≠ .number →
        t.lexeme.toList = t.kind.spelling) ∧
      ∀ phrase ∈ phrasesOf stmts, phrase.Shaped := by
  obtain ⟨lines, hscan, h⟩ := bind_eq_ok.mp h
  obtain ⟨hlines, hshaped⟩ := readProgram_reads hscan h
  exact ⟨lines, hscan, hlines, spelling_of_scan hscan, hshaped⟩

/-- A script with a target whose name begins with a function's, an ignored line, and a branch. -/
def branchingSource : String := "Login = 2 ^ -x; ignored\nif (x < 1) \x7b y = 3 - 2 - x \x7d"

/-- The lines of `branchingSource`. -/
def branchingLines : List (List Glyph) :=
  [[.target "Login", .mark .equal, .number (.ofDecimal 2 0), .mark .caret, .mark .minus, .name "x"],
    [.mark (.keyword .ifWord), .mark .leftParen, .name "x", .mark .less, .number (.ofDecimal 1 0),
      .mark .rightParen],
    [.mark .leftBrace],
    [.target "y", .mark .equal, .number (.ofDecimal 3 0), .mark .minus, .number (.ofDecimal 2 0),
      .mark .minus, .name "x"],
    [.mark .rightBrace]]

/-- A script with an ignored line and a branch reads back as its other lines. -/
theorem parseProgram_reads_back_branching :
    ∃ stmts lines, parseProgram branchingSource = .ok stmts ∧ linesOf stmts = branchingLines ∧
      scan branchingSource = .ok lines ∧ scriptGlyphs lines = branchingLines ∧
      ∀ phrase ∈ phrasesOf stmts, phrase.Shaped := by
  have hread : (parseProgram branchingSource).toOption.map linesOf = some branchingLines := by
    decide +kernel
  obtain ⟨stmts, hstmts, hlines⟩ := Option.map_eq_some_iff.mp hread
  have h := toOption_eq_some.mp hstmts
  obtain ⟨lines, hscan, hback, _, hshaped⟩ := parseProgram_reads_back h
  exact ⟨stmts, lines, h, hlines, hscan, hback.symm.trans hlines, hshaped⟩

end NumericScript
