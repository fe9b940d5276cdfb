import Mathlib.Logic.Basic
import NumericScript.Proofs.Relocation.Expr

/-!
# Readers of moved lines

Conditions, headers and assignments are read from moved tokens as they are read from the tokens.
-/

namespace NumericScript

section Conditions

variable {f : Motion} {tighter : Prop} {room room' : Nat}

private theorem readsAfter_comparison (hle : room' ≤ room) (htighter : room' < room → tighter) :
    ReadsAfter f tighter (comparison room) (comparison room') := by
  intro stop tokens
  refine (readsAfter_expression hle htighter stop tokens).bindPair fun left rest => ?_
  cases rest with
  | nil => exact .moved
  | cons t rest =>
    simp only [move_cons, Token.kind_move]
    cases compareOp? t.kind with
    | none => exact .moved
    | some op =>
      have hright := readsAfter_expression (f := f) hle htighter stop rest
      refine (hright.orMissing t.span _).bindPair fun right later => ?_
      refine .okRest (congrArg (Cond.compare op _ _) ?_) later
      simp only [Expr.span_move, f.span_join]

private theorem readsAfter_chainRest {sign : TokenKind} {op : LogicalOp} {link link' : Reader Cond}
    (progress : Shrinks link) (progress' : Shrinks link') (h : ReadsAfter f tighter link link')
    (left : Cond) : ReadsAfter f tighter (chainRest sign op link progress left)
      (chainRest sign op link' progress' (move f left)) := by
  intro stop tokens
  fun_induction chainRest sign op link progress left stop tokens with
  | case1 left =>
    rw [move_nil, chainRest_nil]
    exact .moved
  | case2 left t rest hsign error hlink =>
    have hmoved := h stop rest
    rw [hlink] at hmoved
    rw [move_cons, chainRest_cons, Token.kind_move, if_pos hsign]
    generalize link' (move f stop) (move f rest) = y at hmoved ⊢
    cases hmoved with
    | moved => exact .moved
    | tooDeep htighter span => exact .tooDeep htighter span
  | case3 left t rest hsign right rest' hlink hlt ih =>
    have hmoved := h stop rest
    rw [hlink] at hmoved
    rw [move_cons, chainRest_cons, Token.kind_move, if_pos hsign]
    generalize link' (move f stop) (move f rest) = y at hmoved ⊢
    cases hmoved with
    | moved =>
      rw [Cond.move_join] at ih
      exact ih
    | tooDeep htighter span => exact .tooDeep htighter span
  | case4 left t rest hsign =>
    rw [move_cons, chainRest_cons, Token.kind_move, if_neg hsign]
    exact .moved

private theorem readsAfter_chain {sign : TokenKind} {op : LogicalOp} {link link' : Reader Cond}
    (progress : Shrinks link) (progress' : Shrinks link') (h : ReadsAfter f tighter link link') :
    ReadsAfter f tighter (chain sign op link progress) (chain sign op link' progress') := by
  intro stop tokens
  refine (h stop tokens).bindPair fun left rest => ?_
  exact readsAfter_chainRest progress progress' h left stop rest

/--
Reading a condition does with moved tokens what it does with the tokens, or is too deep if there is
less room.
-/
theorem readsAfter_condition (hle : room' ≤ room) (htighter : room' < room → tighter) :
    ReadsAfter f tighter (condition room) (condition room') :=
  readsAfter_chain _ _ (readsAfter_chain _ _ (readsAfter_comparison hle htighter))

end Conditions

section Lines

variable {f : Motion} {tighter : Prop} {room room' : Nat}

/-- Moved tokens end a line where the tokens do. -/
theorem follows_endOfLine (clause : Clause) (tokens : List Token) :
    Follows f tighter (endOfLine clause tokens) (endOfLine clause (move f tokens)) := by
  cases tokens <;> exact .moved

/-- Reading the head of a statement from moved tokens follows reading it from the tokens. -/
theorem follows_header (word : Keyword) (hle : room' ≤ room) (htighter : room' < room → tighter)
    (stop : Span) (tokens : List Token) :
    Follows f tighter (header word room stop tokens)
      (header word room' (f.span stop) (move f tokens)) := by
  refine (readsAfter_expect _ _ stop tokens).bindPair fun _ rest => ?_
  refine (readsAfter_condition hle htighter stop rest).bindPair fun cond rest => ?_
  refine (readsAfter_expect _ _ stop rest).bindPair fun _ rest => ?_
  exact (follows_endOfLine _ rest).bind fun _ => .moved

private theorem takeWhile_move (p : TokenKind → Bool) (tokens : List Token) :
    (move f tokens).takeWhile (p ·.kind) = move f (tokens.takeWhile (p ·.kind)) :=
  List.takeWhile_map ..

private theorem dropWhile_move (p : TokenKind → Bool) (tokens : List Token) :
    (move f tokens).dropWhile (p ·.kind) = move f (tokens.dropWhile (p ·.kind)) :=
  List.dropWhile_map ..

private theorem name_move (tokens : List Token) :
    (move f tokens).foldr (fun t later => t.lexeme ++ later) "" =
      tokens.foldr (fun t later => t.lexeme ++ later) "" :=
  List.foldr_map ..

private theorem foldl_join_move (tokens : List Token) (span : Span) :
    (move f tokens).foldl (fun span t => span.join t.span) (f.span span) =
      f.span (tokens.foldl (fun span t => span.join t.span) span) := by
  induction tokens generalizing span with
  | nil => rfl
  | cons t tokens ih =>
    simp only [move_cons, List.foldl_cons, Token.span_move, ← f.span_join]
    exact ih _

private theorem readsAfter_target (hle : room' ≤ room) (htighter : room' < room → tighter) :
    ReadsAfter f tighter (target room) (target room') := by
  intro stop tokens
  unfold target
  rw [takeWhile_move, dropWhile_move]
  generalize tokens.takeWhile (isNamePart ·.kind) = words
  generalize tokens.dropWhile (isNamePart ·.kind) = rest
  cases words with
  | nil => exact .fail (nextSpan_move f stop rest)
  | cons part parts =>
    have hname := name_move (f := f) (part :: parts)
    have hspan := foldl_join_move (f := f) parts part.span
    have hscalar := congrArg₂ Target.scalar hname hspan
    rcases rest with _ | ⟨⟨kind, lexeme, span⟩, rest⟩
    · exact .okRest hscalar []
    · cases kind with
      | leftBracket =>
        refine (readsAfter_expression hle htighter stop rest).bindPair fun index rest => ?_
        refine (readsAfter_expect _ _ stop rest).bindPair fun close last => ?_
        have hjoin := (congrArg (·.join (f.span close.span)) hspan).trans (f.span_join _ _).symm
        exact .okRest (congrArg₂ (Target.element · (move f index)) hname hjoin) last
      | _ => exact .okRest hscalar (_ :: rest)

/-- Reading an assignment from moved tokens follows reading it from the tokens. -/
theorem follows_assignment (hle : room' ≤ room) (htighter : room' < room → tighter)
    (stop : Span) (tokens : List Token) :
    Follows f tighter (assignment room stop tokens)
      (assignment room' (f.span stop) (move f tokens)) := by
  refine (readsAfter_target hle htighter stop tokens).bindPair fun target rest => ?_
  refine (readsAfter_expect _ _ stop rest).bindPair fun _ rest => ?_
  refine (readsAfter_expression hle htighter stop rest).bindPair fun value rest => ?_
  refine (follows_endOfLine _ rest).bind fun _ => ?_
  refine .ok (congrArg (Stmt.assign _ _) ?_)
  rw [Target.span_move, Expr.span_move, ← f.span_join]

/-- Moved tokens have an equals sign where the tokens do. -/
theorem hasEqual_move (tokens : List Token) : hasEqual (move f tokens) = hasEqual tokens :=
  List.any_map ..

end Lines

end NumericScript
