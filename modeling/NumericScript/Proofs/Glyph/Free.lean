import NumericScript.Proofs.Glyph.Tree

/-!
# Glyphs that do not occur

Assignments and the expressions in them are made of names, numbers and the signs of arithmetic. A
sort of glyph that has none of these, such as the braces or the joins, does not occur in them.
-/

namespace NumericScript

namespace Glyph

/-- Whether a glyph can stand in an assignment. -/
def isPlain : Glyph → Bool
  | name _ | number _ | target _ => true
  | mark kind =>
    match kind with
    | .leftParen | .rightParen | .leftBracket | .rightBracket | .equal => true
    | .plus | .minus | .star | .slash | .caret | .function _ => true
    | _ => false

/-- Whether a glyph is a brace. -/
def isBrace : Glyph → Bool
  | mark .leftBrace | mark .rightBrace => true
  | _ => false

/-- Whether a glyph joins conditions. -/
def isJoin : Glyph → Bool
  | mark .andAnd | mark .orOr => true
  | _ => false

/-- A plain glyph is no brace. -/
theorem isBrace_of_plain {glyph : Glyph} (h : glyph.isPlain = true) : glyph.isBrace = false := by
  cases glyph with
  | mark kind => cases kind <;> first | rfl | cases h
  | name | number | target => rfl

/-- A plain glyph joins no conditions. -/
theorem isJoin_of_plain {glyph : Glyph} (h : glyph.isPlain = true) : glyph.isJoin = false := by
  cases glyph with
  | mark kind => cases kind <;> first | rfl | cases h
  | name | number | target => rfl

end Glyph

/-- No glyph of a sort is among some glyphs. -/
def Free (sort : Glyph → Bool) (glyphs : List Glyph) : Prop := ∀ glyph ∈ glyphs, sort glyph = false

namespace Free

variable {sort : Glyph → Bool} {glyphs more : List Glyph}

theorem nil : Free sort [] := fun _ hm => absurd hm List.not_mem_nil

theorem append (h : Free sort glyphs) (hmore : Free sort more) : Free sort (glyphs ++ more) :=
  List.forall_mem_append.mpr ⟨h, hmore⟩

theorem cons {glyph : Glyph} (h : sort glyph = false) (hmore : Free sort more) :
    Free sort (glyph :: more) :=
  List.forall_mem_cons.mpr ⟨h, hmore⟩

/-- Glyphs between two marks of another sort stay free. -/
theorem enclosed {opening closing : TokenKind} (hopening : sort (.mark opening) = false)
    (hclosing : sort (.mark closing) = false) (h : Free sort glyphs) :
    Free sort (.mark opening :: (glyphs ++ [.mark closing])) :=
  .cons hopening (h.append (.cons hclosing .nil))

/-- A glyph of a sort is not among glyphs that are free of it. -/
theorem not_mem (h : Free sort glyphs) {glyph : Glyph} (hsort : sort glyph = true) :
    glyph ∉ glyphs := by
  intro hm
  rw [h glyph hm] at hsort
  cases hsort

/-- What has only plain glyphs is free of every sort that no plain glyph is of. -/
theorem of_plain (h : Free (!·.isPlain) glyphs)
    (hsort : ∀ {glyph : Glyph}, glyph.isPlain = true → sort glyph = false) : Free sort glyphs :=
  fun glyph hm => hsort (by simpa using h glyph hm)

end Free

/-- The glyphs of an expression are plain. -/
theorem Expr.plain (e : Expr) : Free (!·.isPlain) e.glyphs := by
  induction e with
  | number | scalar => exact .cons rfl .nil
  | element name index span ih => exact .cons rfl (ih.enclosed rfl rfl)
  | binary op left right span ihl ihr => exact ihl.append (.cons (by cases op <;> rfl) ihr)
  | negate operand span ih => exact .cons rfl ih
  | call f argument span ih => exact .cons rfl ih
  | group inner span ih => exact ih.enclosed rfl rfl

/-- The glyphs of an assignment are plain. -/
theorem plain_assignmentLine (target : Target) (value : Expr) :
    Free (!·.isPlain) (assignmentLine target value) := by
  refine .append ?_ (.cons rfl value.plain)
  cases target with
  | scalar name => exact .cons rfl .nil
  | element name index => exact .cons rfl (index.plain.enclosed rfl rfl)

end NumericScript
