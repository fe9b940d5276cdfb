import NumericScript.Token.Scan

/-!
# Outlines

The lines of a script with its braces matched: before any statement is read, every block knows the
lines inside it, and the lines after it. Empty lines have no place in an outline.
-/

namespace NumericScript

/-- Some lines of a script. Each constructor has what stands first and what comes after it. -/
inductive Outline
  | done
  /-- A line with its tokens, of which there is at least one. -/
  | line (first : Token) (more : List Token) (stop : Span) (next : Outline)
  /--
  A brace, the end of its line, the lines inside, and the brace that closes it if there is one.
  -/
  | block (brace : Token) (stop : Span) (body : Outline) (close : Option Token) (next : Outline)
  /-- A closing brace that closes nothing. -/
  | stray (brace : Token) (next : Outline)

namespace Outline

/-- Put lines after the last of some others. -/
def append : Outline → Outline → Outline
  | done, later => later
  | line first more stop next, later => line first more stop (next.append later)
  | block brace stop body close next, later => block brace stop body close (next.append later)
  | stray brace next, later => stray brace (next.append later)

/-- The span of the first token, where `after` is the span of what follows the lines. -/
def firstSpan (after : Span) : Outline → Span
  | done => after
  | line first .. => first.span
  | block brace .. => brace.span
  | stray brace _ => brace.span

end Outline

/--
 The outline of the lines from some point on. Closing braces whose opening brace is further up
wait with the lines after them, the innermost first.
-/
structure Draft where
  current : Outline
  waiting : List (Token × Outline)

namespace Draft

/-- Put one more line before the others. -/
def add (line : TokenLine) (draft : Draft) : Draft :=
  match line.tokens with
  | [] => draft
  | t :: more =>
    match t.kind with
    | .leftBrace =>
      match draft.waiting with
      | [] => ⟨.block t line.stop draft.current none .done, []⟩
      | (close, after) :: waiting => ⟨.block t line.stop draft.current (some close) after, waiting⟩
    | .rightBrace => ⟨.done, (t, draft.current) :: draft.waiting⟩
    | _ => ⟨.line t more line.stop draft.current, draft.waiting⟩

/-- The lines with the braces that still wait, which close nothing. -/
def release (current : Outline) : List (Token × Outline) → Outline
  | [] => current
  | (brace, after) :: waiting => current.append (.stray brace (release after waiting))

end Draft

/-- The outline of all lines of a script. -/
def Outline.ofLines (lines : List TokenLine) : Outline :=
  let draft := lines.foldr Draft.add ⟨.done, []⟩
  Draft.release draft.current draft.waiting

end NumericScript
