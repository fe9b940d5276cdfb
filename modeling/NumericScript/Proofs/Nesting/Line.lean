import NumericScript.Proofs.Nesting.Cond
import NumericScript.Proofs.ReadBack.Program

/-!
# Reading the glyphs of a line

Tokens with the glyphs of an assignment or of a header are read as that if the levels of its
operands fit. A target's name has to be there: no word at all is no name.
-/

namespace NumericScript

/-- What an assignment writes to has a name, and not the empty one. -/
def Phrase.Named : Phrase → Prop
  | assignment (.scalar name _) _ | assignment (.element name _ _) _ => name ≠ ""
  | condition _ => True

private theorem exists_part_of_joined {tokens : List Token} {name : String}
    (h : joinedLexemes tokens = name) (hname : name ≠ "") :
    ∃ part parts, tokens = part :: parts := by
  cases tokens with
  | nil => exact absurd h.symm hname
  | cons part parts => exact ⟨part, parts, rfl⟩

/-- A target is read from the words before an equality sign. -/
theorem settles_target {t : Target} {value : Expr} (hshaped : t.Shaped)
    (hnamed : (Phrase.assignment t value).Named) (room : Nat) (stop : Span) {tokens : List Token}
    {glyphs : List Glyph} (h : assignmentGlyphs tokens = t.glyphs ++ .mark .equal :: glyphs) :
    ∃ equal rest, equal.glyph = .mark .equal ∧ rest.map Token.glyph = glyphs ∧
      Settles (Within t.levels room) (·.bare = t.bare) (fun read => .ok (read, equal :: rest))
        (target room stop tokens) := by
  cases t with
  | scalar name span =>
    simp only [assignmentGlyphs, Target.glyphs, List.cons_append, List.nil_append,
      List.cons.injEq, Glyph.target.injEq] at h
    obtain ⟨hname, hmore⟩ := h
    obtain ⟨part, parts, hparts⟩ := exists_part_of_joined hname hnamed
    obtain ⟨⟨kind, lexeme, place⟩, rest, hrest, hequal, hglyphs⟩ := List.map_eq_cons_iff.mp hmore
    obtain rfl : kind = .equal := glyphOf_eq_mark hequal
    refine ⟨_, rest, hequal, hglyphs, .inl ⟨within_nil room, .scalar name
      (parts.foldl (fun span t => span.join t.span) part.span), rfl, ?_⟩⟩
    rw [hparts] at hname
    rw [target, hparts, hrest, ← hname]
    rfl
  | element name index span =>
    simp only [assignmentGlyphs, Target.glyphs, bracketed, List.cons_append, List.nil_append,
      List.append_assoc, List.cons.injEq, Glyph.target.injEq] at h
    obtain ⟨hname, hmore⟩ := h
    obtain ⟨part, parts, hparts⟩ := exists_part_of_joined hname hnamed
    obtain ⟨⟨kind, lexeme, place⟩, inner, hinner, hopen, hmore⟩ := List.map_eq_cons_iff.mp hmore
    obtain rfl : kind = .leftBracket := glyphOf_eq_mark hopen
    obtain ⟨before, after, rfl, hbefore, hafter⟩ := List.map_eq_append_iff.mp hmore
    obtain ⟨close, last, rfl, hclose, hlast⟩ := List.map_eq_cons_iff.mp hafter
    obtain ⟨equal, rest, rfl, hequal, hglyphs⟩ := List.map_eq_cons_iff.mp hlast
    refine ⟨equal, rest, hequal, hglyphs, ?_⟩
    have hstops : Stops 0 (close :: equal :: rest) :=
      stops_cons _ (by simp [Token.kind_of_glyph hclose, TokenKind.grip])
    rw [hparts] at hname
    rw [target, hparts, hinner]
    refine ((settles_expression hshaped room stop hbefore hstops).bind _).map
      (fun index => .element name index
        ((parts.foldl (fun span t => span.join t.span) part.span).join close.span))
      (fun index hindex => by simp only [Target.bare, hindex]) fun index _ => ?_
    rw [ok_bind, ← hname]
    exact bind_eq_ok.mpr ⟨(close, equal :: rest), expect_of_glyph hclose _ _ _, rfl⟩

/-- An assignment is read from its line. -/
theorem settles_assignment {t : Target} {value : Expr} (hshaped : t.Shaped)
    (hvalue : value.Shaped) (hnamed : (Phrase.assignment t value).Named) (span : Span) (room : Nat)
    (stop : Span) {tokens : List Token} (h : assignmentGlyphs tokens = assignmentLine t value) :
    Settles (Within (Stmt.assign t value span).levels room)
      (·.bare = (Stmt.assign t value span).bare) .ok (assignment room stop tokens) := by
  obtain ⟨equal, rest, hequal, hrest, htarget⟩ := settles_target hshaped hnamed room stop h
  refine ((htarget.bind _).trans fun t' ht' => ?_).congr within_append
  rw [ok_bind]
  dsimp only
  rw [expect_of_glyph hequal]
  have hvalue := settles_expression hvalue room stop hrest (stops_nil 0)
  rw [List.append_nil] at hvalue
  refine (hvalue.bind _).map (fun value => .assign t' value (t'.span.join value.span))
    (fun value hvalue => by simp only [Stmt.bare, ht', hvalue]) fun _ _ => rfl

/-- A condition is read from the rest of its header's line. -/
theorem settles_header {c : Cond} (h : c.Shaped) (word : Keyword) (room : Nat) (stop : Span)
    {tokens : List Token} (htokens : tokens.map Token.glyph = parenthesized c.glyphs) :
    Settles (Within c.levels room) (·.bare = c.bare) .ok (header word room stop tokens) := by
  obtain ⟨paren, more, rfl, hparen, hmore⟩ := List.map_eq_cons_iff.mp htokens
  obtain ⟨before, after, rfl, hbefore, hafter⟩ := List.map_eq_append_iff.mp hmore
  obtain ⟨close, last, rfl, hclose, hlast⟩ := List.map_eq_cons_iff.mp hafter
  obtain rfl := List.map_eq_nil_iff.mp hlast
  have hkind := Token.kind_of_glyph hclose
  have hends : Ends 0 [close] := by
    refine ⟨stops_cons _ (by simp [hkind, TokenKind.grip]), ?_⟩
    rintro _ ⟨⟩
    simp [hkind, TokenKind.hold]
  rw [header, expect_of_glyph hparen]
  refine ((settles_condition h room stop hbefore hends).bind _).map id (fun _ => id) fun c' _ => ?_
  rw [ok_bind]
  dsimp only
  rw [expect_of_glyph hclose]
  rfl

/-- A closed block is read one level deeper. -/
theorem settles_block {levels : List Nat} {room : Nat} {after stop : Span} {brace close : Token}
    {good : Sequel → Prop} {read : Nat → Span → Except ScriptError Sequel}
    (h : ∀ room after, Settles (Within levels room) good .ok (read room after)) :
    Settles (Within (blockLevels levels) room)
      (fun result : List Stmt × Span => ∃ body, good body ∧ result.1 = body.statements) .ok
      (blockBody room after brace stop (some close) read) := by
  cases room with
  | zero => exact .of_tooDeep (not_within_block_zero _)
  | succ room =>
    exact (((h room close.span).bind _).map
      (fun body => (body.statements, brace.span.join close.span))
      (fun body hbody => ⟨body, hbody, rfl⟩) fun _ _ => rfl).congr within_block

end NumericScript
