import NumericScript.Proofs.Cursor.Trace
import NumericScript.Proofs.Nesting.Expr

/-!
# Walks over expressions

The machine reads an expression as the ladder of readers does that has a rung for each level the
machine can still go down. Operands are traced by induction on the levels that are left.
-/

namespace NumericScript

namespace Tier

/-- The signs of a chain's operators. -/
def signs : Tier → List TokenKind
  | products => [.slash, .star]
  | sums => [.minus, .plus]

/-- The operator of a chain whose sign was just accepted. -/
def sign : Tier → MarkKind → Walk BinaryOp
  | products => Walk.productSign
  | sums => Walk.sumSign

section

variable (marks : List Mark)

/-- The walk over what a chain joins. -/
def sideWalk : Tier → Walk Expr
  | products => .enter (.unary marks)
  | sums => Walk.factor marks

/-- The walk over a chain. -/
def wholeWalk : Tier → Walk Expr
  | products => Walk.factor marks
  | sums => Walk.term marks

/-- The walk over what follows the left side of a chain. -/
def restWalk : Tier → Expr → Nat → Walk Expr
  | products => Walk.factorRest marks
  | sums => Walk.termRest marks

/-- The part that the machine calls to go on with a chain. -/
def restPart : Tier → Expr → Nat → Walk.Part Expr
  | products => .factorRest marks
  | sums => .termRest marks

end

variable {tier : Tier} {marks : List Mark} {kind : TokenKind} {op : BinaryOp}

private theorem wholeWalk_eq : tier.wholeWalk marks = (do
    let left ← tier.sideWalk marks
    tier.restWalk marks left 0) := by
  cases tier <;> rfl

private theorem restWalk_eq (left : Expr) (chained : Nat) : tier.restWalk marks left chained = (do
    if ← Walk.accept marks (tier.signs.map .token) then
      Walk.descend marks
      let mark ← Walk.previous marks
      let op ← tier.sign mark.kind
      let right ← Walk.blame mark.span (.missingOperand mark.lexeme tier.operators)
        (tier.sideWalk marks)
      .enter (tier.restPart marks (.binary op left right (left.span.join right.span))
        (chained + 1))
    else
      Walk.ascend marks chained
      return left) := by
  cases tier <;> rfl

private theorem body_restPart (left : Expr) (chained : Nat) :
    Mechanism.body (tier.restPart marks left chained) = tier.restWalk marks left chained := by
  cases tier <;> rfl

private theorem not_mem_signs (h : tier.op? kind = none) : kind ∉ tier.signs := by
  cases tier <;> cases kind <;> simp_all [op?, productOp?, sumOp?, signs]

private theorem mem_signs (h : tier.op? kind = some op) :
    MarkKind.token kind ∈ tier.signs.map .token := by
  cases tier <;> cases kind <;> cases h <;> decide

private theorem sign_token (h : tier.op? kind = some op) : tier.sign (.token kind) = pure op := by
  cases tier <;> cases kind <;> cases h <;> rfl

end Tier

namespace Walk

open Course

/-- The machine reads operands as the ladder does where no more levels are left than a bound. -/
def ReadsOperands (marks : List Mark) (bound : Nat) : Prop :=
  ∀ depth room, room ≤ bound → depth + room = maxNesting →
    Reads marks depth (enter (.unary marks)) (operand (ladder room))

section

variable {marks : List Mark} {stop : Span} {current depth room bound : Nat} {tokens : List Token}

/-- A chain that does not go on comes up by the levels its operators have taken. -/
theorem traces_ends {tier : Tier} {rungs : Ladder} {floor chained : Nat} {left : Expr}
    (hline : LineAt marks stop current tokens) (hends : tier.Ends tokens)
    (hdepth : floor + chained ≤ maxNesting) :
    Traces marks stop (tier.restWalk marks left chained) ⟨current, floor + chained⟩ tokens floor
      (tier.rest rungs left stop tokens) := by
  rw [Tier.restWalk_eq, Tier.rest_of_ends hends]
  have hascend := endsAt_ascend ⟨current, floor + chained⟩ ⟨hline.lt_length, hdepth⟩
    (Nat.le_add_left chained floor)
  rw [Nat.add_sub_cancel] at hascend
  exact .pass tier.signs hline (fun t hm => Tier.not_mem_signs (hends t hm))
    (.step hascend rfl (traces_pure floor left hline))

/-- The machine reads calls as a reader does if it does so where a function stands. -/
theorem reads_call_of_function {rungs : Ladder}
    (hprimary : Reads marks depth (primary marks) (NumericScript.primary rungs))
    (hfunction : ∀ {stop current lexeme span rest} (f : Builtin),
      LineAt marks stop current (⟨.function f, lexeme, span⟩ :: rest) →
      Traces marks stop (call marks) ⟨current, depth⟩ (⟨.function f, lexeme, span⟩ :: rest) depth
        (NumericScript.call rungs stop (⟨.function f, lexeme, span⟩ :: rest))) :
    Reads marks depth (call marks) (NumericScript.call rungs) := by
  intro stop current tokens hline
  have h := hprimary stop current tokens hline
  cases tokens with
  | nil =>
    obtain ⟨mark, hmark, _, hend⟩ := hline
    have hcall : NumericScript.call rungs stop [] = NumericScript.primary rungs stop [] := by
      cases rungs <;> rfl
    rw [call, hcall]
    refine .step (endsAt_peek hmark) rfl ?_
    cases mark with
    | token t => exact absurd rfl (hend t.kind)
    | newline span | endOfText span => exact h
  | cons t rest =>
    obtain ⟨kind, lexeme, span⟩ := t
    by_cases hkind : ∃ f, kind = .function f
    · obtain ⟨f, rfl⟩ := hkind
      exact hfunction f hline
    · rw [call, Expr.call_of_ne rest (not_exists.mp hkind)]
      refine .step (endsAt_peek hline.1) rfl ?_
      cases kind with
      | function f => exact absurd ⟨f, rfl⟩ hkind
      | _ => exact h

variable (hmarks : Streaming marks)

include hmarks

section Chains

variable (tier : Tier) (hside : ∀ {depth room : Nat}, room ≤ bound → depth + room = maxNesting →
  Reads marks depth (tier.sideWalk marks) (tier.side (ladder room)))

include hside

private theorem traces_rest (hroom : room ≤ bound) {floor : Nat} (chained : Nat)
    (hdepth : floor + chained + room = maxNesting) (left : Expr)
    (hline : LineAt marks stop current tokens) :
    Traces marks stop (tier.restWalk marks left chained) ⟨current, floor + chained⟩ tokens floor
      (tier.rest (ladder room) left stop tokens) := by
  induction room generalizing chained left current tokens with
  | zero =>
    obtain hends | ⟨t, later, op, rfl, hop⟩ := tier.ends_or_operator tokens
    · exact traces_ends hline hends (Nat.le_of_eq hdepth)
    · rw [Tier.restWalk_eq, ladder, Tier.rest_no_rung hop]
      exact .accept hmarks (Nat.le_of_eq hdepth) hline (Tier.mem_signs hop)
        (traces_descend_of_eq hline.2 hdepth (Nat.le_add_right floor chained))
  | succ room ih =>
    have hbound : floor + chained < maxNesting := by omega
    obtain hends | ⟨t, later, op, rfl, hop⟩ := tier.ends_or_operator tokens
    · exact traces_ends hline hends (Nat.le_of_lt hbound)
    · obtain ⟨hmark, hlater⟩ := id hline
      rw [Tier.restWalk_eq, ladder, Tier.rest_rung hop]
      refine .accept hmarks (Nat.le_of_lt hbound) hline (Tier.mem_signs hop)
        (.descend hlater hbound (.previous hmark ?_))
      simp only [Mark.kind, Tier.sign_token hop, bind_of_pure]
      have hright := hside (Nat.le_of_succ_le hroom)
        (show floor + (chained + 1) + room = maxNesting by omega) stop _ _ hlater
      refine (hright.blame t.span (.missingOperand t.lexeme tier.operators) (by simp)).bind
        (Nat.le_add_right floor (chained + 1)) fun right after next hafter => .enter ?_
      rw [Tier.body_restPart]
      exact ih (Nat.le_of_succ_le hroom) (chained + 1) (by omega) _ hafter

private theorem reads_whole (hroom : room ≤ bound) (hdepth : depth + room = maxNesting) :
    Reads marks depth (tier.wholeWalk marks) (tier.whole (ladder room)) := by
  intro stop current tokens hline
  rw [Tier.wholeWalk_eq, Tier.whole_eq]
  exact (hside hroom hdepth stop current tokens hline).bind (Nat.le_refl depth)
    fun left after next hafter => traces_rest hmarks tier hside hroom 0 hdepth left hafter

end Chains

private theorem reads_factor (hoperands : ReadsOperands marks bound) (hroom : room ≤ bound)
    (hdepth : depth + room = maxNesting) :
    Reads marks depth (factor marks) (product (ladder room)) :=
  reads_whole hmarks .products (hoperands _ _) hroom hdepth

private theorem reads_term (hoperands : ReadsOperands marks bound) (hroom : room ≤ bound)
    (hdepth : depth + room = maxNesting) : Reads marks depth (term marks) (sum (ladder room)) :=
  reads_whole hmarks .sums (reads_factor hmarks hoperands) hroom hdepth

/-- What follows a name that was just taken. -/
theorem traces_named (hoperands : ReadsOperands marks bound) (hroom : room ≤ bound)
    (hdepth : depth + room = maxNesting) (name : Token) (hline : LineAt marks stop current tokens) :
    Traces marks stop (named marks name) ⟨current, depth⟩ tokens depth
      (NumericScript.named (ladder room) name stop tokens) := by
  have hbound : depth ≤ maxNesting := by omega
  have hstops := traces_pure depth (Expr.scalar name.lexeme name.span) hline
  cases tokens with
  | nil => exact .pass [.leftBracket] hline (by simp) hstops
  | cons t rest =>
    rw [named]
    simp only [NumericScript.named]
    by_cases hkind : t.kind = .leftBracket
    · rw [if_pos hkind]
      refine .accept hmarks hbound hline (by simp [hkind]) ?_
      refine (reads_term hmarks hoperands hroom hdepth stop _ _ hline.2).enter.bind
        (Nat.le_refl depth) fun index later next hlater => ?_
      have hclose := reads_consume hmarks hbound .rightBracket .unclosedIndex (by simp)
      exact (hclose stop _ _ hlater).bind (Nat.le_refl depth)
        fun close last final hlast => traces_pure depth _ hlast
    · rw [if_neg hkind]
      exact .pass [.leftBracket] hline (by simpa using hkind) hstops

/-- What follows a parenthesis that was just taken. -/
theorem traces_grouped (hoperands : ReadsOperands marks bound) (hroom : room ≤ bound)
    (hdepth : depth + room = maxNesting) (paren : Token)
    (hline : LineAt marks stop current tokens) :
    Traces marks stop (grouped marks paren) ⟨current, depth⟩ tokens depth
      (NumericScript.grouped (ladder room) paren stop tokens) := by
  have hbound : depth ≤ maxNesting := by omega
  refine .check hline ?_
  by_cases hhead : ∀ t ∈ tokens.head?, t.kind ≠ .rightParen
  · have hother : tokens.head?.any (·.kind = .rightParen) = false := by
      cases tokens with
      | nil => rfl
      | cons t rest => exact decide_eq_false (hhead t rfl)
    rw [hother, Expr.grouped_of_head hhead]
    refine (reads_term hmarks hoperands hroom hdepth stop _ _ hline).enter.bind (Nat.le_refl depth)
      fun index later next hlater => ?_
    have hclose := reads_consume hmarks hbound .rightParen .unclosedParen (by simp)
    exact (hclose stop _ _ hlater).bind (Nat.le_refl depth)
      fun close last final hlast => traces_pure depth _ hlast
  · obtain ⟨t, ht, hkind⟩ : ∃ t ∈ tokens.head?, t.kind = .rightParen := by
      simpa using hhead
    obtain ⟨rest, rfl⟩ := List.head?_eq_some_iff.mp ht
    obtain ⟨kind, lexeme, span⟩ := t
    cases hkind
    refine ⟨by simp, ⟨current, depth⟩, ⟨hline.lt_length, hbound⟩, Nat.le_refl depth, ?_⟩
    rw [if_pos (by simp), endsAt_bind_ok (endsAt_peek hline.1)]
    exact endsAt_refuse _ _

private theorem reads_primary (hoperands : ReadsOperands marks bound) (hroom : room ≤ bound)
    (hdepth : depth + room = maxNesting) :
    Reads marks depth (primary marks) (NumericScript.primary (ladder room)) := by
  intro stop current tokens hline
  have hbound : depth ≤ maxNesting := by omega
  have hplace : (Place.mk current depth).Within marks := ⟨hline.lt_length, hbound⟩
  rw [primary]
  cases tokens with
  | nil =>
    obtain ⟨mark, hmark, rfl, hkind⟩ := hline
    refine ⟨by simp, _, hplace, Nat.le_refl depth, ?_⟩
    rw [endsAt_bind_ok (endsAt_check .newline hmark), endsAt_bind_ok (endsAt_isAtEnd hmark)]
    cases mark with
    | token t => exact absurd rfl (hkind t.kind)
    | newline span | endOfText span =>
      rw [if_pos (by simp [Mark.kind]), endsAt_bind_ok (endsAt_peek hmark)]
      exact endsAt_refuse _ _
  | cons t rest =>
    obtain ⟨hmark, hrest⟩ := id hline
    refine .step (endsAt_check .newline hmark) rfl (.step (endsAt_isAtEnd hmark) rfl ?_)
    refine .step (endsAt_advance hmarks hmark t.ne_endOfText hbound)
      (Nat.succ_add_eq_add_succ _ _) ?_
    simp only [NumericScript.primary]
    cases hkind : t.kind with
    | number =>
      obtain ⟨value, hvalue⟩ := hmarks.numerals t (List.mem_of_getElem? hmark) hkind
      simp only [hvalue]
      exact traces_pure depth _ hrest
    | identifier => exact traces_named hmarks hoperands hroom hdepth t hrest
    | leftParen => exact traces_grouped hmarks hoperands hroom hdepth t hrest
    | _ =>
      exact ⟨by simp, _, ⟨hrest.lt_length, hbound⟩, Nat.le_refl depth, endsAt_refuse _ _⟩

/-- A function is read if its argument is. -/
theorem traces_function (hdepth : depth ≤ maxNesting) {t : Token} {rest : List Token} {f : Builtin}
    (hline : LineAt marks stop current (t :: rest)) (hkind : t.kind = .function f)
    (outcome : Except ScriptError (Expr × List Token))
    (h : Traces marks stop (argument marks) ⟨current + 1, depth⟩ rest depth outcome) :
    Traces marks stop (call marks) ⟨current, depth⟩ (t :: rest) depth (do
      let (argument, rest) ← orMissing t.span (.missingArgument f) outcome
      .ok (.call f argument (t.span.join argument.span), rest)) := by
  rw [call]
  refine .step (endsAt_peek hline.1) rfl ?_
  simp only [Mark.kind, hkind]
  refine .step (endsAt_advance hmarks hline.1 t.ne_endOfText hdepth)
    (Nat.succ_add_eq_add_succ _ _) ?_
  exact (h.blame t.span (.missingArgument f) (by simp)).bind (Nat.le_refl depth)
    fun argument later next hlater => traces_pure depth _ hlater

private theorem reads_call (hoperands : ReadsOperands marks bound) (hroom : room ≤ bound)
    (hdepth : depth + room = maxNesting) :
    Reads marks depth (call marks) (NumericScript.call (ladder room)) := by
  induction room generalizing depth with
  | zero =>
    refine reads_call_of_function (reads_primary hmarks hoperands hroom hdepth)
      fun {stop _ _ _ rest} f hline => ?_
    refine traces_function hmarks (by omega) hline rfl (fail (nextSpan stop rest) .tooDeep) ?_
    rw [argument]
    exact traces_descend_of_eq hline.2 hdepth (Nat.le_refl depth)
  | succ room ih =>
    refine reads_call_of_function (reads_primary hmarks hoperands hroom hdepth)
      fun {stop _ _ _ rest} f hline => ?_
    refine traces_function hmarks (by omega) hline rfl
      (NumericScript.call (ladder room) stop rest) ?_
    rw [argument]
    have hcall := ih (Nat.le_of_succ_le hroom) (show depth + 1 + room = maxNesting by omega)
      stop _ _ hline.2
    exact .descend hline.2 (by omega) (hcall.enter.leave (by omega))

private theorem reads_power (hoperands : ReadsOperands marks bound) (hroom : room ≤ bound)
    (hdepth : depth + room = maxNesting) :
    Reads marks depth (power marks) (NumericScript.power (ladder room)) := by
  intro stop current tokens hline
  rw [power]
  refine (reads_call hmarks hoperands hroom hdepth stop current tokens hline).bind
    (Nat.le_refl depth) fun base rest next hrest => ?_
  have hstops := traces_pure depth base hrest
  cases rest with
  | nil => exact .pass [.caret] hrest (by simp) hstops
  | cons t later =>
    obtain ⟨kind, lexeme, span⟩ := t
    cases kind with
    | caret =>
      refine .accept hmarks (by omega) hrest (by simp) (.previous hrest.1 ?_)
      have hexponent := hoperands depth room hroom hdepth stop _ _ hrest.2
      exact (hexponent.blame span (.missingOperand lexeme .power) (by simp)).bind
        (Nat.le_refl depth) fun exponent last final hlast => traces_pure depth _ hlast
    | _ => exact .pass [.caret] hrest (by simp) hstops

private theorem reads_negation (hoperands : ReadsOperands marks bound) (hroom : room ≤ bound)
    (hdepth : depth + room = maxNesting) :
    Reads marks depth (negation marks) (signedOperand (ladder room)) := by
  intro stop current tokens hline
  have hpower := reads_power hmarks hoperands hroom hdepth stop current tokens hline
  rw [negation]
  cases tokens with
  | nil => exact .pass [.minus] hline (by simp) hpower
  | cons t rest =>
    obtain ⟨kind, lexeme, span⟩ := t
    cases kind with
    | minus =>
      refine .accept hmarks (by omega) hline (by simp) (.previous hline.1 ?_)
      exact (hoperands depth room hroom hdepth stop _ _ hline.2).bind (Nat.le_refl depth)
        fun inner later next hlater => traces_pure depth _ hlater
    | _ => exact .pass [.minus] hline (by simp) hpower

/-- Operands are read at every depth. -/
theorem reads_operands (bound : Nat) : ReadsOperands marks bound := by
  induction bound with
  | zero =>
    rintro depth room hroom hdepth stop current tokens hline
    obtain rfl := Nat.le_zero.mp hroom
    exact .enter (traces_descend_of_eq hline hdepth (Nat.le_refl depth))
  | succ bound ih =>
    rintro depth (_ | room) hroom hdepth stop current tokens hline
    · exact .enter (traces_descend_of_eq hline hdepth (Nat.le_refl depth))
    · have hnegation := reads_negation hmarks ih (Nat.le_of_succ_le_succ hroom)
        (show depth + 1 + room = maxNesting by omega) stop _ _ hline
      exact .enter (.descend hline (by omega) (hnegation.leave (by omega)))

/-- The machine reads an expression as the reader does that has the levels left. -/
theorem reads_expression (hdepth : depth + room = maxNesting) :
    Reads marks depth (term marks) (expression room) :=
  reads_term hmarks (reads_operands hmarks room) (Nat.le_refl room) hdepth

end

end Walk

end NumericScript
