import NumericScript.Proofs.Nesting.Expr
import NumericScript.Proofs.Relocation.Move

/-!
# Readers of moved expressions

What is read from moved tokens is what is read from the tokens, moved, errors included. With less
room for nesting the reader may also find that something is too deep, and nothing else changes.
-/

namespace NumericScript

/--
The second result is the first one, moved. If there is less room for it, it may also be that
something is too deep.
-/
inductive Follows {α : Type} [Movable α] (f : Motion) (tighter : Prop)
    (x : Except ScriptError α) : Except ScriptError α → Prop
  | moved : Follows f tighter x (move f x)
  | tooDeep (h : tighter) (span : Span) : Follows f tighter x (fail span .tooDeep)

/-- A reader that gives for moved tokens what another one gives for the tokens. -/
def ReadsAfter {α : Type} [Movable α] (f : Motion) (tighter : Prop) (reader reader' : Reader α) :
    Prop :=
  ∀ stop tokens, Follows f tighter (reader stop tokens) (reader' (move f stop) (move f tokens))

/-- Ladders of such readers; the second one may be shorter if there is less room. -/
inductive Rungs (f : Motion) (tighter : Prop) : Ladder → Ladder → Prop
  | nil : Rungs f tighter [] []
  | cut (h : tighter) (rungs : Ladder) : Rungs f tighter rungs []
  | cons {rung rung' : Reader Expr} {lower lower' : Ladder} (h : ReadsAfter f tighter rung rung')
    (hlower : Rungs f tighter lower lower') : Rungs f tighter (rung :: lower) (rung' :: lower')

section Results

variable {α β : Type} [Movable α] [Movable β] {f : Motion} {tighter : Prop}

namespace Follows

/-- The moved result follows the result. -/
theorem ok {a a' : α} (h : a' = move f a) : Follows f tighter (.ok a) (.ok a') := by
  subst h
  exact .moved

/-- A value that moves to another one, with tokens after it. -/
theorem okRest {a a' : α} (h : a' = move f a) (rest : List Token) :
    Follows f tighter (.ok (a, rest)) (.ok (a', move f rest)) := by
  subst h
  exact .moved

/-- The failure at the moved place follows the failure. -/
theorem fail {span span' : Span} {cause : Cause} (h : span' = f.span span) :
    Follows f tighter (fail (α := α) span cause) (NumericScript.fail span' cause) := by
  subst h
  exact .moved

/-- A sequence follows another one if each of its parts does. -/
theorem bind {x y : Except ScriptError α} {k k' : α → Except ScriptError β}
    (h : Follows f tighter x y) (hk : ∀ a, Follows f tighter (k a) (k' (move f a))) :
    Follows f tighter (x >>= k) (y >>= k') := by
  cases h with
  | moved =>
    cases x with
    | ok a => exact hk a
    | error error => exact .moved
  | tooDeep h span => exact .tooDeep h span

/-- A sequence that goes on with two results follows another one if each of its parts does. -/
theorem bindPair {x y : Except ScriptError (α × β)} {γ : Type} [Movable γ]
    {k k' : α × β → Except ScriptError γ} (h : Follows f tighter x y)
    (hk : ∀ a b, Follows f tighter (k (a, b)) (k' (move f a, move f b))) :
    Follows f tighter (x >>= k) (y >>= k') :=
  h.bind fun pair => hk pair.1 pair.2

/-- What is said in place of an error follows, at the moved place. -/
theorem orMissing {x y : Except ScriptError α} (h : Follows f tighter x y) (span : Span)
    (cause : Cause) : Follows f tighter (orMissing span cause x)
      (NumericScript.orMissing (f.span span) cause y) := by
  cases h with
  | moved =>
    cases x with
    | ok a => exact .moved
    | error error =>
      obtain ⟨place, found⟩ := error
      cases found <;> exact .moved
  | tooDeep h place => exact .tooDeep h place

end Follows

end Results

section Readers

variable {f : Motion} {tighter : Prop}

/-- Expecting a token does with moved tokens what it does with the tokens. -/
theorem readsAfter_expect (kind : TokenKind) (cause : Cause) :
    ReadsAfter f tighter (expect kind cause) (expect kind cause) := by
  intro stop tokens
  cases tokens with
  | nil => exact .moved
  | cons t rest =>
    show Follows f tighter (if t.kind = kind then _ else _) (if t.kind = kind then _ else _)
    split <;> exact .moved

private theorem Tier.ends_move {tier : Tier} {tokens : List Token} :
    tier.Ends (move f tokens) ↔ tier.Ends tokens := by
  cases tokens <;> simp [Ends]

variable {rungs rungs' : Ladder} (h : Rungs f tighter rungs rungs')

include h

private theorem readsAfter_operand : ReadsAfter f tighter (operand rungs) (operand rungs') := by
  intro stop tokens
  cases h with
  | nil => exact .fail (nextSpan_move f stop tokens)
  | cut htighter => exact .tooDeep htighter _
  | cons hrung => exact hrung stop tokens

section Chains

variable (tier : Tier) (hside : ∀ {rungs rungs' : Ladder}, Rungs f tighter rungs rungs' →
  ReadsAfter f tighter (tier.side rungs) (tier.side rungs'))

include hside

private theorem Tier.readsAfter_rest (left : Expr) :
    ReadsAfter f tighter (tier.rest rungs left) (tier.rest rungs' (move f left)) := by
  have hends : ∀ {rungs rungs' left stop tokens}, tier.Ends tokens →
      Follows f tighter (tier.rest rungs left stop tokens)
        (tier.rest rungs' (move f left) (move f stop) (move f tokens)) := by
    intro rungs rungs' left stop tokens hends
    rw [rest_of_ends hends, rest_of_ends (ends_move.mpr hends)]
    exact .moved
  intro stop tokens
  induction h generalizing left tokens with
  | nil =>
    obtain hend | ⟨t, later, op, rfl, hop⟩ := tier.ends_or_operator tokens
    · exact hends hend
    · rw [move_cons, rest_no_rung hop, rest_no_rung (t := move f t) hop]
      exact .fail (nextSpan_move f stop later)
  | cut htighter rungs =>
    obtain hend | ⟨t, later, op, rfl, hop⟩ := tier.ends_or_operator tokens
    · exact hends hend
    · rw [move_cons, rest_no_rung (t := move f t) hop]
      exact .tooDeep htighter _
  | cons hrung hlower ih =>
    obtain hend | ⟨t, later, op, rfl, hop⟩ := tier.ends_or_operator tokens
    · exact hends hend
    · rw [move_cons, rest_rung hop, rest_rung (t := move f t) hop]
      refine ((hside hlower stop later).orMissing t.span _).bindPair fun right after => ?_
      simp only [← Expr.move_binary]
      exact ih _ after

private theorem Tier.readsAfter_whole :
    ReadsAfter f tighter (tier.whole rungs) (tier.whole rungs') := by
  intro stop tokens
  rw [whole_eq, whole_eq]
  exact (hside h stop tokens).bindPair fun left after =>
    tier.readsAfter_rest h hside left stop after

end Chains

private theorem readsAfter_product : ReadsAfter f tighter (product rungs) (product rungs') :=
  Tier.products.readsAfter_whole h readsAfter_operand

private theorem readsAfter_sum : ReadsAfter f tighter (sum rungs) (sum rungs') :=
  Tier.sums.readsAfter_whole h readsAfter_product

private theorem readsAfter_named (name : Token) :
    ReadsAfter f tighter (named rungs name) (named rungs' (move f name)) := by
  intro stop tokens
  cases tokens with
  | nil => exact .moved
  | cons t inner =>
    simp only [move_cons, named, Token.kind_move]
    split
    · refine (readsAfter_sum h stop inner).bindPair fun index rest => ?_
      refine (readsAfter_expect _ _ stop rest).bindPair fun close last => ?_
      exact .okRest (congrArg (Expr.element name.lexeme _) (f.span_join _ _).symm) last
    · exact .moved

private theorem readsAfter_grouped (paren : Token) :
    ReadsAfter f tighter (grouped rungs paren) (grouped rungs' (move f paren)) := by
  intro stop tokens
  by_cases hclose : ∃ lexeme span rest, tokens = ⟨.rightParen, lexeme, span⟩ :: rest
  · obtain ⟨lexeme, span, rest, rfl⟩ := hclose
    exact .fail (f.span_join _ _).symm
  · have hhead : ∀ t ∈ tokens.head?, t.kind ≠ .rightParen := by
      rintro ⟨kind, lexeme, span⟩ ht rfl
      obtain ⟨rest, rfl⟩ := List.head?_eq_some_iff.mp ht
      exact hclose ⟨lexeme, span, rest, rfl⟩
    have hheadMoved : ∀ t ∈ (move f tokens).head?, t.kind ≠ .rightParen := by
      cases tokens with
      | nil => exact nofun
      | cons t rest => simpa using hhead t rfl
    rw [Expr.grouped_of_head hhead, Expr.grouped_of_head hheadMoved]
    refine (readsAfter_sum h stop tokens).bindPair fun inner rest => ?_
    refine (readsAfter_expect _ _ stop rest).bindPair fun close last => ?_
    exact .okRest (congrArg (Expr.group _) (f.span_join _ _).symm) last

private theorem readsAfter_primary : ReadsAfter f tighter (primary rungs) (primary rungs') := by
  intro stop tokens
  cases tokens with
  | nil => exact .moved
  | cons t rest =>
    simp only [move_cons, primary, Token.kind_move, Token.lexeme_move]
    cases t.kind with
    | number =>
      dsimp only
      cases Single.ofNumeral? t.lexeme.toList with
      | none => exact .moved
      | some value => exact .moved
    | identifier => exact readsAfter_named h t stop rest
    | leftParen => exact readsAfter_grouped h t stop rest
    | _ => exact .moved

private theorem readsAfter_call : ReadsAfter f tighter (call rungs) (call rungs') := by
  intro stop tokens
  induction h generalizing stop tokens with
  | nil =>
    rcases tokens with _ | ⟨⟨kind, lexeme, span⟩, rest⟩
    · exact readsAfter_primary .nil stop []
    · cases kind with
      | function g => exact .fail (nextSpan_move f stop rest)
      | _ => exact readsAfter_primary .nil stop (_ :: rest)
  | cut htighter rungs =>
    rcases tokens with _ | ⟨⟨kind, lexeme, span⟩, rest⟩
    · cases rungs <;> exact readsAfter_primary (.cut htighter _) stop []
    · cases kind with
      | function g => exact .tooDeep htighter _
      | _ => cases rungs <;> exact readsAfter_primary (.cut htighter _) stop (_ :: rest)
  | cons hrung hlower ih =>
    rcases tokens with _ | ⟨⟨kind, lexeme, span⟩, rest⟩
    · exact readsAfter_primary (.cons hrung hlower) stop []
    · cases kind with
      | function g =>
        refine ((ih stop rest).orMissing span _).bindPair fun argument later => ?_
        refine .okRest (congrArg (Expr.call g _) ?_) later
        rw [Expr.span_move, ← f.span_join]
      | _ => exact readsAfter_primary (.cons hrung hlower) stop (_ :: rest)

private theorem readsAfter_power : ReadsAfter f tighter (power rungs) (power rungs') := by
  intro stop tokens
  refine (readsAfter_call h stop tokens).bindPair fun base rest => ?_
  rcases rest with _ | ⟨⟨kind, lexeme, span⟩, rest⟩
  · exact .moved
  · cases kind with
    | caret =>
      refine ((readsAfter_operand h stop rest).orMissing span _).bindPair fun exponent later => ?_
      exact .okRest (Expr.move_binary f .pow base exponent).symm later
    | _ => exact .moved

private theorem readsAfter_signedOperand :
    ReadsAfter f tighter (signedOperand rungs) (signedOperand rungs') := by
  intro stop tokens
  rcases tokens with _ | ⟨⟨kind, lexeme, span⟩, rest⟩
  · exact readsAfter_power h stop []
  · cases kind with
    | minus =>
      refine (readsAfter_operand h stop rest).bindPair fun inner later => ?_
      refine .okRest (congrArg (Expr.negate _) ?_) later
      rw [Expr.span_move, ← f.span_join]
    | _ => exact readsAfter_power h stop (_ :: rest)

end Readers

/-- Fewer rungs are enough for a ladder, if there may be less room. -/
theorem rungs_ladder {f : Motion} {tighter : Prop} {room room' : Nat} (hle : room' ≤ room)
    (htighter : room' < room → tighter) : Rungs f tighter (ladder room) (ladder room') := by
  induction room generalizing room' with
  | zero =>
    obtain rfl := Nat.le_zero.mp hle
    exact .nil
  | succ room ih =>
    cases room' with
    | zero => exact .cut (htighter (Nat.succ_pos room)) _
    | succ room' =>
      have hlower := ih (Nat.le_of_succ_le_succ hle) fun hlt => htighter (Nat.succ_lt_succ hlt)
      exact .cons (readsAfter_signedOperand hlower) hlower

/--
Reading an expression does with moved tokens what it does with the tokens, or is too deep if there
is less room.
-/
theorem readsAfter_expression {f : Motion} {tighter : Prop} {room room' : Nat}
    (hle : room' ≤ room) (htighter : room' < room → tighter) :
    ReadsAfter f tighter (expression room) (expression room') :=
  readsAfter_sum (rungs_ladder hle htighter)

end NumericScript
