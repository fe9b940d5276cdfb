import NumericScript.Proofs.Glyph.Basic

/-!
# Reading a tree back

The glyphs of an expression and of a condition, and the lines of a statement: one line for each
assignment and each header, and one for each brace.
-/

namespace NumericScript

/-- The token of an operator. -/
def BinaryOp.kind : BinaryOp → TokenKind
  | add => .plus
  | sub => .minus
  | mul => .star
  | div => .slash
  | pow => .caret

/-- The token of a comparison. -/
def CompareOp.kind : CompareOp → TokenKind
  | less => .less
  | greater => .greater
  | equal => .equalEqual
  | notEqual => .bangEqual

/-- The token of an operator that joins conditions. -/
def LogicalOp.kind : LogicalOp → TokenKind
  | and => .andAnd
  | or => .orOr

/-- Glyphs in parentheses. -/
def parenthesized (inner : List Glyph) : List Glyph :=
  .mark .leftParen :: (inner ++ [.mark .rightParen])

/-- Glyphs in brackets. -/
def bracketed (inner : List Glyph) : List Glyph :=
  .mark .leftBracket :: (inner ++ [.mark .rightBracket])

/-- The glyphs of an expression. -/
def Expr.glyphs : Expr → List Glyph
  | number value _ => [.number value]
  | scalar name _ => [.name name]
  | element name index _ => .name name :: bracketed index.glyphs
  | binary op left right _ => left.glyphs ++ .mark op.kind :: right.glyphs
  | negate operand _ => .mark .minus :: operand.glyphs
  | call builtin argument _ => .mark (.function builtin) :: argument.glyphs
  | group inner _ => parenthesized inner.glyphs

/-- The glyphs of a condition. -/
def Cond.glyphs : Cond → List Glyph
  | compare op left right _ => left.glyphs ++ .mark op.kind :: right.glyphs
  | logical op left right _ => left.glyphs ++ .mark op.kind :: right.glyphs

/-- The glyphs of a target. -/
def Target.glyphs : Target → List Glyph
  | scalar name _ => [.target name]
  | element name index _ => .target name :: bracketed index.glyphs

/-- The line of an assignment. -/
def assignmentLine (target : Target) (value : Expr) : List Glyph :=
  target.glyphs ++ .mark .equal :: value.glyphs

/-- The line of a header. -/
def headerLine (word : Keyword) (condition : Cond) : List Glyph :=
  .mark (.keyword word) :: parenthesized condition.glyphs

/-- Lines between two lines that are a brace each. -/
def braced (lines : List (List Glyph)) : List (List Glyph) :=
  [.mark .leftBrace] :: (lines ++ [[.mark .rightBrace]])

mutual

/-- The lines of a statement. -/
def Stmt.lines : Stmt → List (List Glyph)
  | .assign target value _ => [assignmentLine target value]
  | .block body _ => braced (linesOf body)
  | .branch condition body otherwise _ =>
    headerLine .ifWord condition :: (braced (linesOf body) ++ otherwise.lines)
  | .loop condition body _ => headerLine .whileWord condition :: braced (linesOf body)

/-- The lines of what a branch does otherwise. -/
def Chain.lines : Chain → List (List Glyph)
  | .done => []
  | .block body => [.mark (.keyword .elseWord)] :: braced (linesOf body)
  | .branch condition body otherwise =>
    headerLine .elifWord condition :: (braced (linesOf body) ++ otherwise.lines)

/-- The lines of statements, one after the other. -/
def linesOf : List Stmt → List (List Glyph)
  | [] => []
  | stmt :: later => stmt.lines ++ linesOf later

end

/-- An assignment or the condition of a header. -/
inductive Phrase
  | assignment (target : Target) (value : Expr)
  | condition (cond : Cond)

mutual

/-- The assignments and conditions of a statement, in order. -/
def Stmt.phrases : Stmt → List Phrase
  | .assign target value _ => [.assignment target value]
  | .block body _ => phrasesOf body
  | .branch condition body otherwise _ =>
    .condition condition :: (phrasesOf body ++ otherwise.phrases)
  | .loop condition body _ => .condition condition :: phrasesOf body

/-- The assignments and conditions of what a branch does otherwise, in order. -/
def Chain.phrases : Chain → List Phrase
  | .done => []
  | .block body => phrasesOf body
  | .branch condition body otherwise =>
    .condition condition :: (phrasesOf body ++ otherwise.phrases)

/-- The assignments and conditions of statements, in order. -/
def phrasesOf : List Stmt → List Phrase
  | [] => []
  | stmt :: later => stmt.phrases ++ phrasesOf later

end

/-- The lines that an assignment or a condition can stand on. -/
def Phrase.IsLine : Phrase → List Glyph → Prop
  | assignment target value, line => line = assignmentLine target value
  | condition cond, line => ∃ word, line = headerLine word cond

private theorem exists_mem_of_subset {phrase : Phrase} {lines all : List (List Glyph)}
    (hsub : lines ⊆ all)
    (h : ∃ line ∈ lines, phrase.IsLine line) : ∃ line ∈ all, phrase.IsLine line :=
  let ⟨line, hm, hline⟩ := h
  ⟨line, hsub hm, hline⟩

private theorem subset_braced (inner : List (List Glyph)) : inner ⊆ braced inner :=
  fun _ hm => List.mem_cons_of_mem _ (List.mem_append_left _ hm)

mutual

private theorem Stmt.exists_line {phrase : Phrase} : ∀ s : Stmt, phrase ∈ s.phrases →
    ∃ line ∈ s.lines, phrase.IsLine line
  | .assign target value _, h => by
    obtain rfl := List.mem_singleton.mp h
    exact ⟨_, List.mem_cons_self, rfl⟩
  | .block body _, h => exists_mem_of_subset (subset_braced _) (exists_line_linesOf body h)
  | .branch condition body otherwise _, h => by
    rcases List.mem_cons.mp h with rfl | h
    · exact ⟨_, List.mem_cons_self, .ifWord, rfl⟩
    refine exists_mem_of_subset (List.subset_cons_self ..) ?_
    rcases List.mem_append.mp h with h | h
    · exact exists_mem_of_subset (List.subset_append_of_subset_left _ (subset_braced _))
        (exists_line_linesOf body h)
    · exact exists_mem_of_subset (List.subset_append_right ..) (otherwise.exists_line h)
  | .loop condition body _, h => by
    rcases List.mem_cons.mp h with rfl | h
    · exact ⟨_, List.mem_cons_self, .whileWord, rfl⟩
    · exact exists_mem_of_subset (List.subset_cons_of_subset _ (subset_braced _))
        (exists_line_linesOf body h)

private theorem Chain.exists_line {phrase : Phrase} : ∀ chain : Chain, phrase ∈ chain.phrases →
    ∃ line ∈ chain.lines, phrase.IsLine line
  | .done, h => nomatch h
  | .block body, h =>
    exists_mem_of_subset (List.subset_cons_of_subset _ (subset_braced _))
      (exists_line_linesOf body h)
  | .branch condition body otherwise, h => by
    rcases List.mem_cons.mp h with rfl | h
    · exact ⟨_, List.mem_cons_self, .elifWord, rfl⟩
    refine exists_mem_of_subset (List.subset_cons_self ..) ?_
    rcases List.mem_append.mp h with h | h
    · exact exists_mem_of_subset (List.subset_append_of_subset_left _ (subset_braced _))
        (exists_line_linesOf body h)
    · exact exists_mem_of_subset (List.subset_append_right ..) (otherwise.exists_line h)

/-- Every assignment and every condition has its line. -/
theorem exists_line_linesOf {phrase : Phrase} : ∀ stmts : List Stmt, phrase ∈ phrasesOf stmts →
    ∃ line ∈ linesOf stmts, phrase.IsLine line
  | [], h => nomatch h
  | s :: later, h => by
    rcases List.mem_append.mp h with h | h
    · exact exists_mem_of_subset (List.subset_append_left ..) (s.exists_line h)
    · exact exists_mem_of_subset (List.subset_append_right ..) (exists_line_linesOf later h)

end

end NumericScript
