import NumericScript.Proofs.Glyph.Tree
import NumericScript.Grammar.Outline

/-!
# Outlines of statements

The outline of lines that are the lines of some statements has these statements one after the other,
with their blocks matched.
-/

namespace NumericScript

/-- An outline that begins with a line of some glyphs. -/
def Outline.HasLine (glyphs : List Glyph) (o next : Outline) : Prop :=
  ∃ first more stop, o = .line first more stop next ∧ lineGlyphs (first :: more) = glyphs

/-- An outline that begins with a closed block, what is inside being as a predicate says. -/
def Outline.HasBlock (inside : Outline → Prop) (o next : Outline) : Prop :=
  ∃ brace stop body close, o = .block brace stop body (some close) next ∧ inside body

mutual

/-- An outline that begins with a statement. -/
def Stmt.Heads : Stmt → Outline → Outline → Prop
  | .assign target value _, o, next => o.HasLine (assignmentLine target value) next
  | .block body _, o, next => o.HasBlock (headsOf body · .done) next
  | .branch condition body otherwise _, o, next => ∃ start,
    o.HasLine (headerLine .ifWord condition) start ∧ ∃ after,
      start.HasBlock (headsOf body · .done) after ∧ otherwise.Heads after next
  | .loop condition body _, o, next => ∃ start,
    o.HasLine (headerLine .whileWord condition) start ∧ start.HasBlock (headsOf body · .done) next

/-- An outline that begins with what a branch does otherwise. -/
def Chain.Heads : Chain → Outline → Outline → Prop
  | .done, o, next => o = next
  | .block body, o, next => ∃ start,
    o.HasLine [.mark (.keyword .elseWord)] start ∧ start.HasBlock (headsOf body · .done) next
  | .branch condition body otherwise, o, next => ∃ start,
    o.HasLine (headerLine .elifWord condition) start ∧ ∃ after,
      start.HasBlock (headsOf body · .done) after ∧ otherwise.Heads after next

/-- An outline that begins with some statements. -/
def headsOf : List Stmt → Outline → Outline → Prop
  | [], o, next => o = next
  | stmt :: later, o, next => ∃ start, stmt.Heads o start ∧ headsOf later start next

end

/-- A line that is read back with a mark first begins with a token of that kind. -/
theorem lineGlyphs_eq_mark {tokens : List Token} {kind : TokenKind} {glyphs : List Glyph}
    (h : lineGlyphs tokens = .mark kind :: glyphs) :
    ∃ t more, tokens = t :: more ∧ t.kind = kind ∧ more.map Token.glyph = glyphs := by
  cases tokens with
  | nil => cases h
  | cons t more =>
    refine ⟨t, more, rfl, ?_⟩
    have hwhole : (t :: more).map Token.glyph = .mark kind :: glyphs := by
      unfold lineGlyphs statementGlyphs at h
      dsimp only at h
      split at h
      · exact h
      · exact h
      · split at h
        · exact h
        · split at h <;> cases h
    obtain ⟨ht, hmore⟩ := List.cons.inj hwhole
    exact ⟨Token.kind_of_glyph ht, hmore⟩

/-- A line that begins with a mark has a first token of that kind. -/
theorem Outline.HasLine.exists_mark {o next : Outline} {kind : TokenKind} {glyphs : List Glyph}
    (h : o.HasLine (.mark kind :: glyphs) next) :
    ∃ first more stop, o = .line first more stop next ∧ first.kind = kind ∧
      more.map Token.glyph = glyphs := by
  obtain ⟨first, more, stop, rfl, hglyphs⟩ := h
  obtain ⟨_, _, hcons, hkind, hmore⟩ := lineGlyphs_eq_mark hglyphs
  obtain ⟨rfl, rfl⟩ := List.cons.inj hcons
  exact ⟨first, more, stop, rfl, hkind, hmore⟩

/-- A line that is read back with a target first is an assignment's. -/
theorem lineGlyphs_eq_target {tokens : List Token} {name : String} {glyphs : List Glyph}
    (h : lineGlyphs tokens = .target name :: glyphs) :
    ∃ t more, tokens = t :: more ∧ t.kind ≠ .leftBrace ∧ t.kind ≠ .rightBrace ∧
      (∀ word, t.kind ≠ .keyword word) ∧ hasEqual tokens ∧
      assignmentGlyphs tokens = .target name :: glyphs := by
  cases tokens with
  | nil => cases h
  | cons t more =>
    have hwhole : (t :: more).map Token.glyph ≠ .target name :: glyphs := by
      intro hmap
      exact glyphOf_ne_target _ _ _ (List.cons.inj hmap).1
    refine ⟨t, more, rfl, ?_⟩
    unfold lineGlyphs statementGlyphs at h
    dsimp only at h
    split at h
    · exact absurd h hwhole
    · exact absurd h hwhole
    · split at h
      · exact absurd h hwhole
      · split at h
        · exact ⟨by assumption, by assumption, by assumption, by assumption, h⟩
        · cases h

namespace Draft

/-- A line with a word first goes before the others. -/
theorem add_line {line : TokenLine} {glyph : Glyph} {glyphs : List Glyph}
    (h : lineGlyphs line.tokens = glyph :: glyphs)
    (hglyph : glyph ≠ .mark .leftBrace ∧ glyph ≠ .mark .rightBrace) (draft : Draft) :
    ∃ o, draft.add line = ⟨o, draft.waiting⟩ ∧ o.HasLine (glyph :: glyphs) draft.current := by
  obtain ⟨tokens, stop⟩ := line
  cases tokens with
  | nil => cases h
  | cons t more =>
    have hbrace : ∀ {kind}, t.kind = kind → kind = .leftBrace ∨ kind = .rightBrace →
        glyph = .mark kind := by
      rintro kind hkind (rfl | rfl) <;>
        simp only [lineGlyphs, hkind, List.map_cons, Token.glyph_of_kind hkind] at h <;>
        exact (List.cons.inj h).1.symm
    unfold add
    dsimp only
    split
    · rename_i hkind
      exact absurd (hbrace hkind (.inl rfl)) hglyph.1
    · rename_i hkind
      exact absurd (hbrace hkind (.inr rfl)) hglyph.2
    · exact ⟨_, rfl, t, more, stop, rfl, h⟩

/-- A closing brace waits with the lines after it. -/
theorem add_close {line : TokenLine} (h : lineGlyphs line.tokens = [.mark .rightBrace])
    (draft : Draft) :
    ∃ close, draft.add line = ⟨.done, (close, draft.current) :: draft.waiting⟩ := by
  obtain ⟨t, more, htokens, hkind, _⟩ := lineGlyphs_eq_mark h
  unfold add
  rw [htokens]
  simp only [hkind]
  exact ⟨t, rfl⟩

/-- An opening brace takes the first brace that waits. -/
theorem add_open {line : TokenLine} (h : lineGlyphs line.tokens = [.mark .leftBrace])
    {body after : Outline} {close : Token} {waiting : List (Token × Outline)} :
    ∃ brace stop, add line ⟨body, (close, after) :: waiting⟩ =
      ⟨.block brace stop body (some close) after, waiting⟩ := by
  obtain ⟨t, more, htokens, hkind, _⟩ := lineGlyphs_eq_mark h
  unfold add
  rw [htokens]
  simp only [hkind]
  exact ⟨t, line.stop, rfl⟩

/-- Lines with some glyphs go before the others in an outline as a relation says. -/
def Adds (glyphs : List (List Glyph)) (heads : Outline → Outline → Prop) : Prop :=
  ∀ (lines : List TokenLine) (draft : Draft), lines.map (lineGlyphs ·.tokens) = glyphs →
    ∃ o, lines.foldr add draft = ⟨o, draft.waiting⟩ ∧ heads o draft.current

namespace Adds

private theorem nil : Adds [] (· = ·) := by
  intro lines draft h
  obtain rfl := List.map_eq_nil_iff.mp h
  exact ⟨draft.current, rfl, rfl⟩

private theorem append {glyphs later : List (List Glyph)}
    {heads headsLater : Outline → Outline → Prop}
    (h : Adds glyphs heads) (hlater : Adds later headsLater) :
    Adds (glyphs ++ later) fun o next => ∃ start, heads o start ∧ headsLater start next := by
  intro lines draft hlines
  obtain ⟨before, after, rfl, hbefore, hafter⟩ := List.map_eq_append_iff.mp hlines
  obtain ⟨start, hstart, hheads⟩ := hlater after draft hafter
  obtain ⟨o, ho, hhead⟩ := h before ⟨start, draft.waiting⟩ hbefore
  exact ⟨o, by rw [List.foldr_append, hstart, ho], start, hhead, hheads⟩

private theorem line {glyph : Glyph} {glyphs : List Glyph}
    (hglyph : glyph ≠ .mark .leftBrace ∧ glyph ≠ .mark .rightBrace) :
    Adds [glyph :: glyphs] (Outline.HasLine (glyph :: glyphs)) := by
  intro lines draft h
  obtain ⟨first, more, rfl, hfirst, hmore⟩ := List.map_eq_cons_iff.mp h
  obtain rfl := List.map_eq_nil_iff.mp hmore
  exact add_line hfirst hglyph draft

private theorem keyword (word : Keyword) (glyphs : List Glyph) :
    Adds [.mark (.keyword word) :: glyphs] (Outline.HasLine (.mark (.keyword word) :: glyphs)) :=
  line ⟨nofun, nofun⟩

private theorem block {inner : List (List Glyph)} {heads : Outline → Outline → Prop}
    (h : Adds inner heads) : Adds (braced inner) (Outline.HasBlock (heads · .done)) := by
  intro lines draft hlines
  obtain ⟨first, more, rfl, hfirst, hmore⟩ := List.map_eq_cons_iff.mp hlines
  obtain ⟨body, last, rfl, hbody, hlast⟩ := List.map_eq_append_iff.mp hmore
  obtain ⟨closing, rest, rfl, hclosing, hrest⟩ := List.map_eq_cons_iff.mp hlast
  obtain rfl := List.map_eq_nil_iff.mp hrest
  obtain ⟨close, hclose⟩ := add_close hclosing draft
  obtain ⟨o, ho, hin⟩ := h body ⟨.done, (close, draft.current) :: draft.waiting⟩ hbody
  obtain ⟨brace, stop, hopen⟩ := add_open hfirst
  refine ⟨_, ?_, brace, stop, o, close, rfl, hin⟩
  rw [List.foldr_cons, List.foldr_append, List.foldr_cons, List.foldr_nil, hclose, ho, hopen]

end Adds

end Draft

mutual

/-- The lines of a statement go before the others as that statement. -/
theorem Stmt.adds : ∀ s : Stmt, Draft.Adds s.lines s.Heads
  | .assign (.scalar ..) _ _ => .line ⟨nofun, nofun⟩
  | .assign (.element ..) _ _ => .line ⟨nofun, nofun⟩
  | .block body _ => .block (adds_linesOf body)
  | .branch _ body otherwise _ =>
    .append (.keyword .ifWord _) (.append (.block (adds_linesOf body)) otherwise.adds)
  | .loop _ body _ => .append (.keyword .whileWord _) (.block (adds_linesOf body))

/-- The lines of what a branch does otherwise go before the others as that. -/
theorem Chain.adds : ∀ chain : Chain, Draft.Adds chain.lines chain.Heads
  | .done => .nil
  | .block body => .append (.keyword .elseWord _) (.block (adds_linesOf body))
  | .branch _ body otherwise =>
    .append (.keyword .elifWord _) (.append (.block (adds_linesOf body)) otherwise.adds)

/-- The lines of statements go before the others as these statements. -/
theorem adds_linesOf : ∀ stmts : List Stmt, Draft.Adds (linesOf stmts) (headsOf stmts)
  | [] => .nil
  | s :: later => .append s.adds (adds_linesOf later)

end

end NumericScript
