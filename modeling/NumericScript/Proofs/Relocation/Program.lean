import NumericScript.Proofs.Relocation.Sequel

/-!
# Moved scripts

Matching braces does not look at places, so that moved lines have the moved outline. With the same
room for nesting, what is read from moved lines is what is read from the lines, moved.
-/

namespace NumericScript

variable {f : Motion}

section Outlines

private theorem Outline.append_move (o later : Outline) :
    (Movable.move f o).append (Movable.move f later) = Movable.move f (o.append later) := by
  induction o with
  | done => rfl
  | line first more stop next ih => exact congrArg (line _ _ _) ih
  | block brace stop body close next _ ih => exact congrArg (block _ _ _ _) ih
  | stray brace next ih => exact congrArg (stray _) ih

instance : Movable Draft := ⟨fun f draft => ⟨move f draft.current, move f draft.waiting⟩⟩

private theorem Draft.add_move (line : TokenLine) (draft : Draft) :
    add (move f line) (move f draft) = move f (add line draft) := by
  obtain ⟨tokens, stop⟩ := line
  obtain ⟨current, waiting⟩ := draft
  rcases tokens with _ | ⟨⟨kind, lexeme, span⟩, more⟩
  · rfl
  · cases kind with
    | leftBrace => rcases waiting with _ | ⟨⟨close, after⟩, waiting⟩ <;> rfl
    | _ => rfl

private theorem Draft.release_move (current : Outline) (waiting : List (Token × Outline)) :
    release (move f current) (move f waiting) = move f (release current waiting) := by
  induction waiting generalizing current with
  | nil => rfl
  | cons first waiting ih =>
    obtain ⟨brace, after⟩ := first
    rw [release, ← Outline.append_move]
    exact congrArg ((move f current).append <| .stray (move f brace) ·) (ih after)

private theorem Draft.foldr_add_move (lines : List TokenLine) (draft : Draft) :
    (move f lines).foldr add (move f draft) = move f (lines.foldr add draft) := by
  induction lines with
  | nil => rfl
  | cons line lines ih => rw [move_cons, List.foldr_cons, ih, add_move, List.foldr_cons]

/-- Moved lines have the moved outline. -/
theorem Outline.ofLines_move (lines : List TokenLine) :
    ofLines (Movable.move f lines) = Movable.move f (ofLines lines) := by
  rw [ofLines, ofLines, ← Draft.release_move]
  have hfold := Draft.foldr_add_move (f := f) lines ⟨.done, []⟩
  exact congrArg (fun draft => Draft.release draft.current draft.waiting) hfold

end Outlines

section Results

variable {α : Type} [Movable α]

private theorem Follows.eq_move {x y : Except ScriptError α} (h : Follows f False x y) :
    y = move f x := by
  cases h with
  | moved => rfl
  | tooDeep h => exact h.elim

/-- Statements are read from a moved outline as the moved statements. -/
theorem move_sequel (afterBranch : Bool) (room : Nat) (after : Span) (o : Outline) :
    sequel afterBranch room (f.span after) (move f o) = move f (sequel afterBranch room after o) :=
  (readsSequel afterBranch room after o (Nat.le_refl room) (Nat.lt_irrefl room) after).eq_move

private theorem tokens_move (lines : List TokenLine) :
    (move f lines).flatMap TokenLine.tokens = move f (lines.flatMap TokenLine.tokens) := by
  induction lines with
  | nil => rfl
  | cons line lines ih => rw [move_cons, List.flatMap_cons, List.flatMap_cons, move_append, ih]; rfl

/-- The lines with tokens among moved lines are those that were moved. -/
theorem filter_move (lines : List TokenLine) :
    (move f lines).filter (!·.tokens.isEmpty) = move f (lines.filter (!·.tokens.isEmpty)) := by
  induction lines with
  | nil => rfl
  | cons line lines ih =>
    obtain ⟨_ | ⟨t, more⟩, stop⟩ := line
    · exact ih
    · exact congrArg _ ih

/-- What a reader makes of nonempty lines that hold nothing else, `stop` being the text's end. -/
def readLines (subject : Subject) (reader : Reader α) (stop : Span) :
    List TokenLine → Except ScriptError α
  | [] => do
    let (a, _) ← reader stop []
    .ok a
  | line :: later => do
    let (a, rest) ← reader line.stop line.tokens
    match rest ++ later.flatMap TokenLine.tokens with
    | [] => .ok a
    | t :: _ => fail t.span (.notAlone t.lexeme subject)

omit [Movable α] in
/-- What stands alone is read from the lines with tokens. -/
theorem readAlone_eq (subject : Subject) (reader : Reader α) (lines : List TokenLine) :
    readAlone subject reader lines =
      readLines subject reader (endSpan lines) (lines.filter (!·.tokens.isEmpty)) := by
  unfold readAlone readLines
  rfl

/-- What stands alone is read from moved lines as what was read, moved. -/
theorem move_readLines (subject : Subject) {reader : Reader α}
    (h : ReadsAfter f False reader reader) (stop : Span) (lines : List TokenLine) :
    readLines subject reader (f.span stop) (move f lines) =
      move f (readLines subject reader stop lines) := by
  refine Follows.eq_move ?_
  cases lines with
  | nil => exact (h stop []).bind fun _ => .moved
  | cons line later =>
    refine (h line.stop line.tokens).bindPair fun a rest => ?_
    have htokens : move f rest ++ (later.map (move f)).flatMap TokenLine.tokens =
        move f (rest ++ later.flatMap TokenLine.tokens) := by
      rw [move_append, ← tokens_move]
      rfl
    simp only [htokens]
    cases rest ++ later.flatMap TokenLine.tokens with
    | nil => exact .moved
    | cons t more => exact .moved

end Results

end NumericScript
