import NumericScript.Proofs.Journal.Key
import NumericScript.Proofs.ReadBack.Source
import NumericScript.Proofs.Scanning.Munch

/-!
# What a program mentions

The scalars and the arrays whose names stand in an expression, a condition or a target. No name
that is read in a script has the delimiter of keys in it, so that a scalar that is read is that
scalar and never an element.
-/

namespace NumericScript

/-- A scalar or a whole array, by name. -/
inductive Owner
  | scalar (name : String)
  | array (name : String)
  deriving DecidableEq

/-- The scalar or the array that an address belongs to. -/
def Address.owner : Address → Owner
  | scalar name => .scalar name
  | element array _ => .array array

/-- The scalars and the arrays that an expression names. -/
def Expr.mentions : Expr → List Owner
  | number .. => []
  | scalar name _ => [.scalar name]
  | element name index _ => .array name :: index.mentions
  | binary _ left right _ => left.mentions ++ right.mentions
  | negate operand _ => operand.mentions
  | call _ argument _ => argument.mentions
  | group inner _ => inner.mentions

/-- The scalars and the arrays that a condition names. -/
def Cond.mentions : Cond → List Owner
  | compare _ left right _ => left.mentions ++ right.mentions
  | logical _ left right _ => left.mentions ++ right.mentions

/-- What a target names: what it writes to, and what its index reads. -/
def Target.mentions : Target → List Owner
  | scalar name _ => [.scalar name]
  | element name index _ => .array name :: index.mentions

/-- The scalars and the arrays that an assignment or a condition names. -/
def Phrase.mentions : Phrase → List Owner
  | assignment target value => value.mentions ++ target.mentions
  | condition cond => cond.mentions

/-- The scalars and the arrays that statements name, inside their blocks as well. -/
def mentionsOf (stmts : List Stmt) : List Owner := (phrasesOf stmts).flatMap Phrase.mentions

/-- Whether the names that are glyphs have no delimiter of keys in them. -/
def Undelimited (glyphs : List Glyph) : Prop :=
  ∀ name, .name name ∈ glyphs → keyDelimiter ∉ name.toList

/-- Whether the scalars that are named have no delimiter of keys in their names. -/
def Plain (owners : List Owner) : Prop := ∀ name, .scalar name ∈ owners → keyDelimiter ∉ name.toList

/-- A scalar that an expression reads stands there by name. -/
theorem Expr.name_mem_glyphs {e : Expr} {name : String} (h : .scalar name ∈ e.mentions) :
    .name name ∈ e.glyphs := by
  induction e with
  | number => cases h
  | scalar =>
    obtain rfl := Owner.scalar.inj (List.mem_singleton.mp h)
    exact List.mem_singleton_self _
  | element array index span ih =>
    have hindex : .name name ∈ index.glyphs := by
      rcases List.mem_cons.mp h with h | h
      · cases h
      · exact ih h
    simp [glyphs, bracketed, hindex]
  | binary op left right span ihl ihr =>
    rcases List.mem_append.mp h with h | h
    · simp [glyphs, ihl h]
    · simp [glyphs, ihr h]
  | negate operand span ih => simp [glyphs, ih h]
  | call builtin argument span ih => simp [glyphs, ih h]
  | group inner span ih => simp [glyphs, parenthesized, ih h]

private theorem Cond.name_mem_glyphs {c : Cond} {name : String} (h : .scalar name ∈ c.mentions) :
    .name name ∈ c.glyphs := by
  induction c with
  | compare op left right span =>
    rcases List.mem_append.mp h with h | h
    · simp [glyphs, Expr.name_mem_glyphs h]
    · simp [glyphs, Expr.name_mem_glyphs h]
  | logical op left right span ihl ihr =>
    rcases List.mem_append.mp h with h | h
    · simp [glyphs, ihl h]
    · simp [glyphs, ihr h]

/-- Whether what a phrase reads is plain; what it writes to may have any name. -/
def Phrase.ReadsPlainly : Phrase → Prop
  | assignment (.scalar ..) value => Plain value.mentions
  | assignment (.element _ index _) value => Plain value.mentions ∧ Plain index.mentions
  | condition cond => Plain cond.mentions

private theorem Phrase.readsPlainly {phrase : Phrase} {line : List Glyph}
    (hline : phrase.IsLine line) (h : Undelimited line) : phrase.ReadsPlainly := by
  cases phrase with
  | assignment target value =>
    obtain rfl := hline
    have hvalue : Plain value.mentions := fun name hm =>
      h name (by simp [assignmentLine, value.name_mem_glyphs hm])
    cases target with
    | scalar => exact hvalue
    | element array index =>
      exact ⟨hvalue, fun name hm =>
        h name (by simp [assignmentLine, Target.glyphs, bracketed, index.name_mem_glyphs hm])⟩
  | condition cond =>
    obtain ⟨word, rfl⟩ := hline
    exact fun name hm => h name (by simp [headerLine, parenthesized, cond.name_mem_glyphs hm])

/-- A name that is a glyph of a line is one of the line's tokens. -/
theorem exists_token_of_name {tokens : List Token} {name : String}
    (h : .name name ∈ lineGlyphs tokens) :
    ∃ t ∈ tokens, t.kind = .identifier ∧ t.lexeme = name := by
  have hmap : ∀ {part : List Token}, part ⊆ tokens → .name name ∈ part.map Token.glyph →
      ∃ t ∈ tokens, t.kind = .identifier ∧ t.lexeme = name := fun hsub hm =>
    let ⟨t, ht, hglyph⟩ := List.mem_map.mp hm
    ⟨t, hsub ht, glyphOf_eq_name hglyph⟩
  have hstatement : ∀ {part : List Token}, part = tokens → .name name ∈ statementGlyphs part →
      ∃ t ∈ tokens, t.kind = .identifier ∧ t.lexeme = name := by
    rintro part rfl hm
    unfold statementGlyphs at hm
    split at hm
    · cases hm
    · split at hm
      · exact hmap (List.Subset.refl _) hm
      · split at hm
        · rcases List.mem_cons.mp hm with hm | hm
          · cases hm
          · exact hmap (List.dropWhile_sublist _).subset hm
        · cases hm
  unfold lineGlyphs at h
  split at h
  · cases h
  · split at h
    · exact hmap (List.Subset.refl _) h
    · exact hmap (List.Subset.refl _) h
    · exact hstatement rfl h

/-- No lexeme of a name has the delimiter of keys in it. -/
theorem IsName.keyDelimiter_not_mem {text : List Char} (h : IsName text) : keyDelimiter ∉ text :=
  fun hm => absurd (h.word _ hm) (by decide)

private theorem undelimited_scriptGlyphs {source : String} {lines : List TokenLine}
    (h : scan source = .ok lines) : ∀ line ∈ scriptGlyphs lines, Undelimited line := by
  intro glyphs hm name hname
  obtain ⟨hm, _⟩ := List.mem_filter.mp hm
  obtain ⟨scanned, hscanned, rfl⟩ := List.mem_map.mp hm
  obtain ⟨t, ht, hkind, rfl⟩ := exists_token_of_name hname
  obtain ⟨line, _, hline⟩ := scan_mem h hscanned
  have htiles := tiles_of_cut (Line.cut_of_tokenLine hline)
  have hfits := htiles.fits t.bare (List.mem_map_of_mem ht)
  rw [Token.bare, hkind] at hfits
  exact IsName.keyDelimiter_not_mem hfits

/-- An accepted script reads plainly. -/
theorem readsPlainly_of_parseProgram {source : String} {stmts : List Stmt}
    (h : parseProgram source = .ok stmts) : ∀ phrase ∈ phrasesOf stmts, phrase.ReadsPlainly := by
  obtain ⟨lines, hscan, hread⟩ := bind_eq_ok.mp h
  have hlines := (readProgram_reads hscan hread).1
  intro phrase hm
  obtain ⟨line, hline, his⟩ := exists_line_linesOf stmts hm
  rw [hlines] at hline
  exact Phrase.readsPlainly his (undelimited_scriptGlyphs hscan line hline)

end NumericScript
