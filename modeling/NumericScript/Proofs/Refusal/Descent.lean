import NumericScript.Proofs.Refusal.Task
import NumericScript.Proofs.Nesting.Expr
import NumericScript.Proofs.ReadBack.Program

/-!
# Refused descents

A reading fails as too deep exactly if one of the tasks it starts does, and then at the same place.
-/

namespace NumericScript

section Results

variable {α β : Type} {place : Span} {x : Except ScriptError α}

/-- A result that says of a place that nesting is too deep there. -/
def TooDeep (place : Span) (x : Except ScriptError α) : Prop := x = fail place .tooDeep

private theorem not_tooDeep_ok (a : α) : ¬TooDeep place (.ok a) := nofun

private theorem tooDeep_fail {span : Span} {cause : Cause} :
    TooDeep place (fail (α := α) span cause) ↔ span = place ∧ cause = .tooDeep := by
  simp [TooDeep, fail]

private theorem not_tooDeep_fail {span : Span} {cause : Cause} (h : cause ≠ .tooDeep) :
    ¬TooDeep place (fail (α := α) span cause) := fun hdeep => h (tooDeep_fail.mp hdeep).2

private theorem tooDeep_bind {f : α → Except ScriptError β} :
    TooDeep place (x >>= f) ↔ TooDeep place x ∨ ∃ a, x = .ok a ∧ TooDeep place (f a) := by
  cases x with
  | ok a => simp [TooDeep, ok_bind, fail]
  | error error => simp [TooDeep, fail, bind, Except.bind]

/-- What is done with a result after that cannot be too deep by itself. -/
theorem tooDeep_bind_left {f : α → Except ScriptError β} (hf : ∀ a, ¬TooDeep place (f a)) :
    TooDeep place (x >>= f) ↔ TooDeep place x :=
  tooDeep_bind.trans (or_iff_left fun ⟨a, _, h⟩ => hf a h)

/-- An operator passes on that its operand is too deep, and says nothing of the kind by itself. -/
theorem tooDeep_orMissing {span : Span} {cause : Cause} (h : cause ≠ .tooDeep) :
    TooDeep place (orMissing span cause x) ↔ TooDeep place x := by
  rcases x with ⟨span', cause'⟩ | a
  · cases cause' with
    | tooDeep => exact Iff.rfl
    | _ => simp [TooDeep, orMissing, fail, h]
  · exact Iff.rfl

private theorem not_tooDeep_expect {kind : TokenKind} {cause : Cause} (h : cause ≠ .tooDeep)
    (stop : Span) (tokens : List Token) : ¬TooDeep place (expect kind cause stop tokens) := by
  cases tokens with
  | nil => exact not_tooDeep_fail h
  | cons t rest =>
    rw [expect]
    split
    · exact not_tooDeep_ok _
    · exact not_tooDeep_fail h

private theorem not_tooDeep_endOfLine (clause : Clause) (tokens : List Token) :
    ¬TooDeep place (endOfLine clause tokens) := by
  cases tokens with
  | nil => exact not_tooDeep_ok _
  | cons t rest => exact not_tooDeep_fail (by simp)

end Results

namespace Task

/-- A task fails as too deep at a place. -/
def Refused (place : Span) : Task → Prop
  | .descent room next => room = 0 ∧ next = place
  | .expr reader room stop tokens => TooDeep place (reader.run room stop tokens)
  | .cond reader room stop tokens => TooDeep place (reader.run room stop tokens)
  | .target room stop tokens => TooDeep place (NumericScript.target room stop tokens)
  | .assignment room stop tokens => TooDeep place (NumericScript.assignment room stop tokens)
  | .header word room stop tokens => TooDeep place (NumericScript.header word room stop tokens)
  | .block room after brace stop body close =>
    TooDeep place (readBlock room after brace stop body close)
  | .lines afterBranch room after o => TooDeep place (sequel afterBranch room after o)
  | .script limit scanned => TooDeep place (readProgram limit scanned)
  | .onlyExpr limit scanned => TooDeep place (readAlone .expression (expression limit) scanned)
  | .onlyCond limit scanned =>
    TooDeep place (readAlone .condition (NumericScript.condition limit) scanned)

/-- A task other than a descent is refused where one of the tasks is that it starts. -/
def Passes (place : Span) (task : Task) : Prop :=
  task.Refused place ↔ ∃ started, task.Starts started ∧ started.Refused place

variable {place : Span} {room : Nat} {stop : Span} {tokens : List Token}

section Expressions

/-- An operand is refused where its descent is, or the signed operand a level below. -/
theorem passes_operand : Passes place (.expr .operand room stop tokens) := by
  constructor
  · intro h
    cases room with
    | zero => exact ⟨_, .operandDescent 0 stop tokens, rfl, (tooDeep_fail.mp h).1⟩
    | succ room => exact ⟨_, .signed room stop tokens, h⟩
  · rintro ⟨started, hstarts, h⟩
    cases hstarts with
    | operandDescent =>
      obtain ⟨rfl, rfl⟩ := h
      rfl
    | signed => exact h

/-- A signed operand is refused where what stands after the sign is, or without a sign the power. -/
theorem passes_signed : Passes place (.expr .signed room stop tokens) := by
  have hminus : ∀ {t : Token} {rest : List Token}, t.kind = .minus →
      (TooDeep place (ExprReader.signed.run room stop (t :: rest)) ↔
        TooDeep place (ExprReader.operand.run room stop rest)) := by
    rintro ⟨kind, lexeme, span⟩ rest rfl
    exact tooDeep_bind_left fun _ => not_tooDeep_ok _
  have hpower : (∀ t ∈ tokens.head?, t.kind ≠ .minus) →
      ExprReader.signed.run room stop tokens = ExprReader.power.run room stop tokens := by
    intro h
    cases tokens with
    | nil => rfl
    | cons t rest => exact signedOperand_of_ne rest (h t rfl)
  constructor
  · intro h
    by_cases hhead : ∀ t ∈ tokens.head?, t.kind ≠ .minus
    · exact ⟨_, .power room stop hhead, (hpower hhead).symm.trans h⟩
    · cases tokens with
      | nil => exact absurd nofun hhead
      | cons t rest =>
        have ht : t.kind = .minus := by simpa using hhead
        exact ⟨_, .negated room stop rest ht, (hminus ht).mp h⟩
  · rintro ⟨started, hstarts, h⟩
    cases hstarts with
    | negated _ _ _ ht => exact (hminus ht).mpr h
    | power _ _ hhead => exact (hpower hhead).trans h

/-- A power is refused where its base is, or its exponent. -/
theorem passes_power : Passes place (.expr .power room stop tokens) := by
  constructor
  · intro h
    rcases tooDeep_bind.mp h with hbase | ⟨⟨base, rest⟩, hbase, hrest⟩
    · exact ⟨_, .base room stop tokens, hbase⟩
    · dsimp only at hrest
      split at hrest
      · have hexponent := (tooDeep_bind_left fun _ => not_tooDeep_ok _).mp hrest
        exact ⟨_, .exponent hbase rfl, (tooDeep_orMissing (by simp)).mp hexponent⟩
      · exact absurd hrest (not_tooDeep_ok _)
  · rintro ⟨started, hstarts, h⟩
    refine tooDeep_bind.mpr ?_
    cases hstarts with
    | base => exact .inl h
    | @exponent _ _ _ rest base t hbase ht =>
      obtain ⟨kind, lexeme, span⟩ := t
      obtain rfl : kind = .caret := ht
      refine .inr ⟨_, hbase, ?_⟩
      exact (tooDeep_bind_left fun _ => not_tooDeep_ok _).mpr ((tooDeep_orMissing (by simp)).mpr h)

/--
An application is refused where its descent or its argument is, or without a function the primary.
-/
theorem passes_call : Passes place (.expr .call room stop tokens) := by
  have hzero : ∀ {t : Token} {f : Builtin} {rest : List Token}, t.kind = .function f →
      ExprReader.call.run 0 stop (t :: rest) = fail (nextSpan stop rest) .tooDeep := by
    rintro ⟨kind, lexeme, span⟩ f rest rfl
    rfl
  have hsucc : ∀ {room : Nat} {t : Token} {f : Builtin} {rest : List Token}, t.kind = .function f →
      (TooDeep place (ExprReader.call.run (room + 1) stop (t :: rest)) ↔
        TooDeep place (ExprReader.call.run room stop rest)) := by
    rintro room ⟨kind, lexeme, span⟩ f rest rfl
    exact (tooDeep_bind_left fun _ => not_tooDeep_ok _).trans (tooDeep_orMissing (by simp))
  have hprimary : (∀ t ∈ tokens.head?, ∀ f, t.kind ≠ .function f) →
      ExprReader.call.run room stop tokens = ExprReader.primary.run room stop tokens := by
    intro h
    cases tokens with
    | nil => cases room <;> rfl
    | cons t rest => exact Expr.call_of_ne rest (h t rfl)
  constructor
  · intro h
    by_cases hhead : ∀ t ∈ tokens.head?, ∀ f, t.kind ≠ .function f
    · exact ⟨_, .primary room stop hhead, (hprimary hhead).symm.trans h⟩
    · cases tokens with
      | nil => exact absurd nofun hhead
      | cons t rest =>
        obtain ⟨f, hf⟩ : ∃ f, t.kind = .function f := by simpa using hhead
        cases room with
        | zero =>
          have hplace := tooDeep_fail.mp ((hzero hf).symm.trans h)
          exact ⟨_, .callDescent 0 stop rest hf, rfl, hplace.1⟩
        | succ room => exact ⟨_, .argument room stop rest hf, (hsucc hf).mp h⟩
  · rintro ⟨started, hstarts, h⟩
    cases hstarts with
    | callDescent _ _ _ hf =>
      obtain ⟨rfl, rfl⟩ := h
      exact hzero hf
    | argument _ _ _ hf => exact (hsucc hf).mpr h
    | primary _ _ hhead => exact (hprimary hhead).trans h

/-- A primary is refused where what follows its name is, or what follows its parenthesis. -/
theorem passes_primary : Passes place (.expr .primary room stop tokens) := by
  constructor
  · intro h
    cases tokens with
    | nil => exact absurd h (not_tooDeep_fail (by simp))
    | cons t rest =>
      simp only [Refused, ExprReader.run, NumericScript.primary] at h
      split at h
      · split at h
        · exact absurd h (not_tooDeep_ok _)
        · exact absurd h (not_tooDeep_fail (by simp))
      · rename_i ht
        exact ⟨_, .named room stop rest ht, h⟩
      · rename_i ht
        exact ⟨_, .grouped room stop rest ht, h⟩
      · exact absurd h (not_tooDeep_fail (by simp))
  · rintro ⟨started, hstarts, h⟩
    cases hstarts with
    | named _ _ _ ht =>
      simp only [Refused, ExprReader.run, NumericScript.primary, ht] at h ⊢
      exact h
    | grouped _ _ _ ht =>
      simp only [Refused, ExprReader.run, NumericScript.primary, ht] at h ⊢
      exact h

/-- What follows a name is refused where the index there is. -/
theorem passes_named {name : Token} : Passes place (.expr (.named name) room stop tokens) := by
  have hbracket : ∀ {t : Token} {rest : List Token}, t.kind = .leftBracket →
      (TooDeep place ((ExprReader.named name).run room stop (t :: rest)) ↔
        TooDeep place ((ExprReader.chain .sums).run room stop rest)) := by
    intro t rest ht
    simp only [ExprReader.run, NumericScript.named, if_pos ht]
    refine tooDeep_bind_left fun read hclose => ?_
    exact not_tooDeep_expect (by simp) stop read.2
      ((tooDeep_bind_left fun _ => not_tooDeep_ok _).mp hclose)
  constructor
  · intro h
    cases tokens with
    | nil => exact absurd h (not_tooDeep_ok _)
    | cons t rest =>
      by_cases ht : t.kind = .leftBracket
      · exact ⟨_, .index name room stop rest ht, (hbracket ht).mp h⟩
      · simp only [Refused, ExprReader.run, NumericScript.named, if_neg ht] at h
        exact absurd h (not_tooDeep_ok _)
  · rintro ⟨started, hstarts, h⟩
    cases hstarts with
    | index _ _ _ _ ht => exact (hbracket ht).mpr h

/-- What follows a parenthesis is refused where the expression in it is. -/
theorem passes_grouped {paren : Token} :
    Passes place (.expr (.grouped paren) room stop tokens) := by
  have hinner : (∀ t ∈ tokens.head?, t.kind ≠ .rightParen) →
      (TooDeep place ((ExprReader.grouped paren).run room stop tokens) ↔
        TooDeep place ((ExprReader.chain .sums).run room stop tokens)) := by
    intro hhead
    simp only [ExprReader.run, NumericScript.grouped]
    split
    · exact absurd rfl (hhead _ rfl)
    · refine tooDeep_bind_left fun read hclose => ?_
      exact not_tooDeep_expect (by simp) stop read.2
        ((tooDeep_bind_left fun _ => not_tooDeep_ok _).mp hclose)
  constructor
  · intro h
    by_cases hhead : ∀ t ∈ tokens.head?, t.kind ≠ .rightParen
    · exact ⟨_, .inner paren room stop hhead, (hinner hhead).mp h⟩
    · cases tokens with
      | nil => exact absurd nofun hhead
      | cons t rest =>
        obtain ⟨kind, lexeme, span⟩ := t
        obtain rfl : kind = .rightParen := by simpa using hhead
        exact absurd h (not_tooDeep_fail (by simp))
  · rintro ⟨started, hstarts, h⟩
    cases hstarts with
    | inner _ _ _ hhead => exact (hinner hhead).mpr h

/-- A chain is refused where its first side is, or what follows it. -/
theorem passes_chain {tier : Tier} : Passes place (.expr (.chain tier) room stop tokens) := by
  have hchain : TooDeep place ((ExprReader.chain tier).run room stop tokens) ↔
      TooDeep place (tier.link.run room stop tokens) ∨ ∃ read, tier.link.run room stop tokens =
        .ok read ∧ TooDeep place ((ExprReader.chainRest tier read.1).run room stop read.2) := by
    cases tier <;> exact tooDeep_bind
  constructor
  · intro h
    rcases hchain.mp h with hfirst | ⟨⟨left, rest⟩, hfirst, hrest⟩
    · exact ⟨_, .first tier room stop tokens, hfirst⟩
    · exact ⟨_, .further hfirst, hrest⟩
  · rintro ⟨started, hstarts, h⟩
    refine hchain.mpr ?_
    cases hstarts with
    | first => exact .inl h
    | further hfirst => exact .inr ⟨_, hfirst, h⟩

private theorem run_chainRest {tier : Tier} {left : Expr} :
    (ExprReader.chainRest tier left).run room = tier.rest (ladder room) left := by
  cases tier <;> rfl

private theorem run_link {tier : Tier} : tier.link.run room = tier.side (ladder room) := by
  cases tier <;> rfl

/--
What follows a side of a chain is refused where its descent, the next side or what follows that is.
-/
theorem passes_chainRest {tier : Tier} {left : Expr} :
    Passes place (.expr (.chainRest tier left) room stop tokens) := by
  have hzero : ∀ {t op rest}, tier.op? t.kind = some op →
      (ExprReader.chainRest tier left).run 0 stop (t :: rest) =
        fail (nextSpan stop rest) .tooDeep :=
    fun hop => run_chainRest ▸ Tier.rest_no_rung hop
  have hgoesOn : ∀ {room : Nat} {t : Token} {op : BinaryOp} {rest : List Token},
      tier.op? t.kind = some op →
      (TooDeep place ((ExprReader.chainRest tier left).run (room + 1) stop (t :: rest)) ↔
        TooDeep place (tier.link.run room stop rest) ∨ ∃ read, tier.link.run room stop rest =
          .ok read ∧ TooDeep place ((ExprReader.chainRest tier
            (.binary op left read.1 (left.span.join read.1.span))).run room stop read.2)) := by
    intro room t op rest hop
    simp only [run_chainRest, run_link, ladder, Tier.rest_rung hop]
    refine tooDeep_bind.trans (or_congr (tooDeep_orMissing (by simp)) ?_)
    simp only [orMissing_eq_ok]
  constructor
  · intro h
    obtain hends | ⟨t, rest, op, rfl, hop⟩ := tier.ends_or_operator tokens
    · have hread : (ExprReader.chainRest tier left).run room stop tokens = .ok (left, tokens) :=
        run_chainRest ▸ Tier.rest_of_ends hends
      exact absurd (hread.symm.trans h) (not_tooDeep_ok _)
    · cases room with
      | zero =>
        have hplace := tooDeep_fail.mp ((hzero hop).symm.trans h)
        exact ⟨_, .operatorDescent left 0 stop rest hop, rfl, hplace.1⟩
      | succ room =>
        rcases (hgoesOn hop).mp h with hright | ⟨⟨right, later⟩, hright, hlater⟩
        · exact ⟨_, .right left room stop rest hop, hright⟩
        · exact ⟨_, .again hop hright, hlater⟩
  · rintro ⟨started, hstarts, h⟩
    cases hstarts with
    | operatorDescent _ _ _ _ hop =>
      obtain ⟨rfl, rfl⟩ := h
      exact hzero hop
    | right _ _ _ _ hop => exact (hgoesOn hop).mpr (.inl h)
    | again hop hright => exact (hgoesOn hop).mpr (.inr ⟨_, hright, h⟩)

end Expressions

section Conditions

/-- A comparison is refused where one of its sides is. -/
theorem passes_comparison : Passes place (.cond .comparison room stop tokens) := by
  constructor
  · intro h
    rcases tooDeep_bind.mp h with hleft | ⟨⟨left, rest⟩, hleft, hrest⟩
    · exact ⟨_, .compared room stop tokens, hleft⟩
    · dsimp only at hrest
      split at hrest
      · exact absurd hrest (not_tooDeep_fail (by simp))
      · split at hrest
        · exact absurd hrest (not_tooDeep_fail (by simp))
        · rename_i op ht
          have hright := (tooDeep_bind_left fun _ => not_tooDeep_ok _).mp hrest
          exact ⟨_, .comparedWith hleft ht, (tooDeep_orMissing (by simp)).mp hright⟩
  · rintro ⟨started, hstarts, h⟩
    refine tooDeep_bind.mpr ?_
    cases hstarts with
    | compared => exact .inl h
    | comparedWith hleft ht =>
      refine .inr ⟨_, hleft, ?_⟩
      simp only [ht]
      exact (tooDeep_bind_left fun _ => not_tooDeep_ok _).mpr ((tooDeep_orMissing (by simp)).mpr h)

/-- A chain of conditions is refused where its first link is, or what follows it. -/
theorem passes_condChain {op : LogicalOp} : Passes place (.cond (.chain op) room stop tokens) := by
  have hchain : TooDeep place ((CondReader.chain op).run room stop tokens) ↔
      TooDeep place (op.link.run room stop tokens) ∨ ∃ read, op.link.run room stop tokens =
        .ok read ∧ TooDeep place ((CondReader.chainRest op read.1).run room stop read.2) := by
    cases op <;> exact tooDeep_bind
  constructor
  · intro h
    rcases hchain.mp h with hfirst | ⟨⟨left, rest⟩, hfirst, hrest⟩
    · exact ⟨_, .firstLink op room stop tokens, hfirst⟩
    · exact ⟨_, .furtherLinks hfirst, hrest⟩
  · rintro ⟨started, hstarts, h⟩
    refine hchain.mpr ?_
    cases hstarts with
    | firstLink => exact .inl h
    | furtherLinks hfirst => exact .inr ⟨_, hfirst, h⟩

private theorem condChainRest_nil {op : LogicalOp} {left : Cond} :
    (CondReader.chainRest op left).run room stop [] = .ok (left, []) := by
  cases op <;> exact chainRest_nil _ left stop

private theorem condChainRest_cons {op : LogicalOp} {left : Cond} {t : Token} {rest : List Token} :
    (CondReader.chainRest op left).run room stop (t :: rest) =
      if t.kind = op.kind then do
        let (right, later) ← op.link.run room stop rest
        (CondReader.chainRest op (.join op left right)).run room stop later
      else .ok (left, t :: rest) := by
  cases op <;> exact chainRest_cons _ left stop t rest

/-- What follows a link is refused where the next link is, or what follows that. -/
theorem passes_condChainRest {op : LogicalOp} {left : Cond} :
    Passes place (.cond (.chainRest op left) room stop tokens) := by
  have hgoesOn : ∀ {t : Token} {rest : List Token}, t.kind = op.kind →
      (TooDeep place ((CondReader.chainRest op left).run room stop (t :: rest)) ↔
        TooDeep place (op.link.run room stop rest) ∨ ∃ read, op.link.run room stop rest =
          .ok read ∧ TooDeep place
            ((CondReader.chainRest op (.join op left read.1)).run room stop read.2)) := by
    intro t rest ht
    rw [condChainRest_cons, if_pos ht]
    exact tooDeep_bind
  constructor
  · intro h
    cases tokens with
    | nil => exact absurd (condChainRest_nil.symm.trans h) (not_tooDeep_ok _)
    | cons t rest =>
      by_cases ht : t.kind = op.kind
      · rcases (hgoesOn ht).mp h with hright | ⟨⟨right, later⟩, hright, hlater⟩
        · exact ⟨_, .rightLink left room stop rest ht, hright⟩
        · exact ⟨_, .againLinks ht hright, hlater⟩
      · rw [Refused, condChainRest_cons, if_neg ht] at h
        exact absurd h (not_tooDeep_ok _)
  · rintro ⟨started, hstarts, h⟩
    cases hstarts with
    | rightLink _ _ _ _ ht => exact (hgoesOn ht).mpr (.inl h)
    | againLinks ht hright => exact (hgoesOn ht).mpr (.inr ⟨_, hright, h⟩)

end Conditions

section Lines

/-- A target is refused where its index is. -/
theorem passes_target : Passes place (.target room stop tokens) := by
  constructor
  · intro h
    simp only [Refused, NumericScript.target] at h
    split at h
    · exact absurd h (not_tooDeep_fail (by simp))
    · rename_i part parts hname
      split at h
      · rename_i lexeme span rest hrest
        rw [tooDeep_bind] at h
        rcases h with hindex | ⟨⟨index, later⟩, _, hclose⟩
        · exact ⟨_, .targetIndex room stop (by simp [hname]) hrest rfl, hindex⟩
        · exact absurd ((tooDeep_bind_left fun _ => not_tooDeep_ok _).mp hclose)
            (not_tooDeep_expect (by simp) stop later)
      · exact absurd h (not_tooDeep_ok _)
  · rintro ⟨started, hstarts, h⟩
    cases hstarts with
    | @targetIndex _ _ _ rest t hname hrest ht =>
      obtain ⟨kind, lexeme, span⟩ := t
      obtain rfl : kind = .leftBracket := ht
      obtain ⟨part, parts, hparts⟩ := List.exists_cons_of_ne_nil hname
      simp only [Refused, NumericScript.target, hparts, hrest]
      exact tooDeep_bind.mpr (.inl h)

/-- An assignment is refused where its target is, or its value. -/
theorem passes_assignment : Passes place (.assignment room stop tokens) := by
  constructor
  · intro h
    rcases tooDeep_bind.mp h with htarget | ⟨⟨written, after⟩, htarget, hafter⟩
    · exact ⟨_, .target room stop tokens, htarget⟩
    · rcases tooDeep_bind.mp hafter with hequal | ⟨⟨equal, rest⟩, hequal, hrest⟩
      · exact absurd hequal (not_tooDeep_expect (by simp) stop after)
      · obtain ⟨rfl, hkind⟩ := expect_eq_ok.mp hequal
        rcases tooDeep_bind.mp hrest with hvalue | ⟨⟨value, last⟩, _, hlast⟩
        · exact ⟨_, .value htarget hkind, hvalue⟩
        · exact absurd ((tooDeep_bind_left fun _ => not_tooDeep_ok _).mp hlast)
            (not_tooDeep_endOfLine _ last)
  · rintro ⟨started, hstarts, h⟩
    refine tooDeep_bind.mpr ?_
    cases hstarts with
    | target => exact .inl h
    | value htarget ht =>
      refine .inr ⟨_, htarget, tooDeep_bind.mpr (.inr ⟨_, expect_eq_ok.mpr ⟨rfl, ht⟩, ?_⟩)⟩
      exact tooDeep_bind.mpr (.inl h)

/-- The head of a statement is refused where its condition is. -/
theorem passes_header {word : Keyword} : Passes place (.header word room stop tokens) := by
  constructor
  · intro h
    rcases tooDeep_bind.mp h with hopen | ⟨⟨paren, rest⟩, hopen, hrest⟩
    · exact absurd hopen (not_tooDeep_expect (by simp) stop tokens)
    · obtain ⟨rfl, hkind⟩ := expect_eq_ok.mp hopen
      rcases tooDeep_bind.mp hrest with hcond | ⟨⟨condition, later⟩, _, hlater⟩
      · exact ⟨_, .condition word room stop rest hkind, hcond⟩
      · rcases tooDeep_bind.mp hlater with hclose | ⟨⟨close, last⟩, _, hlast⟩
        · exact absurd hclose (not_tooDeep_expect (by simp) stop later)
        · exact absurd ((tooDeep_bind_left fun _ => not_tooDeep_ok _).mp hlast)
            (not_tooDeep_endOfLine _ last)
  · rintro ⟨started, hstarts, h⟩
    cases hstarts with
    | condition _ _ _ _ ht =>
      refine tooDeep_bind.mpr (.inr ⟨_, expect_eq_ok.mpr ⟨rfl, ht⟩, ?_⟩)
      exact tooDeep_bind.mpr (.inl h)

end Lines

section Outlines

variable {after : Span} {afterBranch : Bool}

/-- A block is refused where its descent is, or the lines in it a level below. -/
theorem passes_block {brace : Token} {body : Outline} {close : Option Token} :
    Passes place (.block room after brace stop body close) := by
  have hinside : ∀ {room : Nat}, TooDeep place (readBlock (room + 1) after brace stop body close) ↔
      TooDeep place (sequel false room ((close.map Token.span).getD after) body) := by
    intro room
    cases close with
    | some close => exact tooDeep_bind_left fun _ => not_tooDeep_ok _
    | none => exact tooDeep_bind_left fun _ => not_tooDeep_fail (by simp)
  constructor
  · intro h
    cases room with
    | zero => exact ⟨_, .blockDescent 0 after brace stop body close, rfl, (tooDeep_fail.mp h).1⟩
    | succ room => exact ⟨_, .inside room after brace stop body close, hinside.mp h⟩
  · rintro ⟨started, hstarts, h⟩
    cases hstarts with
    | blockDescent =>
      obtain ⟨rfl, rfl⟩ := h
      rfl
    | inside => exact hinside.mpr h

/-- A block is refused, or what comes after it is. -/
theorem tooDeep_blockThen {afterBlock : Bool} {brace : Token} {body next : Outline}
    {close : Option Token} {combine : List Stmt → Span → Sequel → Sequel} :
    TooDeep place (blockThen afterBlock room after brace stop body close next combine) ↔
      TooDeep place (readBlock room after brace stop body close) ∨
        ∃ read, readBlock room after brace stop body close = .ok read ∧
          TooDeep place (sequel afterBlock room after next) :=
  tooDeep_bind.trans <| or_congr_right <| exists_congr fun _ => and_congr_right fun _ =>
    tooDeep_bind_left fun _ => not_tooDeep_ok _

/-- A line that needs a block is refused, or the block is, or what comes after it. -/
theorem tooDeep_headed {α : Type} {head : Except ScriptError α} {clause : Clause}
    {afterBlock : Bool} {next : Outline} {combine : α → List Stmt → Span → Sequel → Sequel} :
    TooDeep place (headed head clause afterBlock room after next combine) ↔
      TooDeep place head ∨ (∃ a, head = .ok a) ∧ ∃ brace stop body close later,
        next = .block brace stop body close later ∧
          (TooDeep place (readBlock room after brace stop body close) ∨
            ∃ read, readBlock room after brace stop body close = .ok read ∧
              TooDeep place (sequel afterBlock room after later)) := by
  refine tooDeep_bind.trans (or_congr_right ?_)
  constructor
  · rintro ⟨a, ha, h⟩
    cases next with
    | block brace stop body close later =>
      exact ⟨⟨a, ha⟩, brace, stop, body, close, later, rfl, tooDeep_blockThen.mp h⟩
    | done => exact absurd h (not_tooDeep_fail (by simp))
    | line => exact absurd h (not_tooDeep_fail (by simp))
    | stray => exact absurd h (not_tooDeep_fail (by simp))
  · rintro ⟨⟨a, ha⟩, brace, stop, body, close, later, rfl, h⟩
    exact ⟨a, ha, tooDeep_blockThen.mpr h⟩

/-- A line with a keyword is refused with its condition, with its block, or with what follows. -/
theorem tooDeep_keyword {first : Token} {word : Keyword} {more : List Token} {next : Outline}
    (hword : first.kind = .keyword word) (hallowed : word.Allowed afterBranch) :
    TooDeep place (sequel afterBranch room after (.line first more stop next)) ↔
      (word ≠ .elseWord ∧ TooDeep place (NumericScript.header word room stop more)) ∨
        IsHead word room stop more ∧ ∃ brace stop body close later,
          next = .block brace stop body close later ∧
            (TooDeep place (readBlock room after brace stop body close) ∨
              ∃ read, readBlock room after brace stop body close = .ok read ∧
                TooDeep place (sequel word.goesOn room after later)) := by
  cases word with
  | ifWord =>
    rw [sequel_if hword, tooDeep_headed]
    simp [IsHead, Keyword.goesOn]
  | whileWord =>
    rw [sequel_while hword, tooDeep_headed]
    simp [IsHead, Keyword.goesOn]
  | elifWord =>
    obtain rfl := hallowed (.inl rfl)
    rw [sequel_elif hword, tooDeep_headed]
    simp [IsHead, Keyword.goesOn]
  | elseWord =>
    obtain rfl := hallowed (.inr rfl)
    have hhead : (∃ a, endOfLine .elseWord more = .ok a) ↔ more = [] :=
      ⟨fun ⟨_, h⟩ => endOfLine_eq_ok.mp h, fun h => ⟨(), endOfLine_eq_ok.mpr h⟩⟩
    rw [sequel_else hword, tooDeep_headed, hhead]
    simp [IsHead, Keyword.goesOn, not_tooDeep_endOfLine]

private theorem not_tooDeep_dangling {first : Token} {word : Keyword} {more : List Token}
    {next : Outline} (hword : first.kind = .keyword word) (hallowed : ¬word.Allowed afterBranch) :
    ¬TooDeep place (sequel afterBranch room after (.line first more stop next)) := by
  simp only [Keyword.Allowed, Classical.not_imp, Bool.not_eq_true] at hallowed
  obtain ⟨hbranch, rfl⟩ := hallowed
  rw [sequel_dangling (hbranch.imp (fun h => h ▸ hword) fun h => h ▸ hword)]
  exact not_tooDeep_fail (by simp)

private theorem passes_keyword {first : Token} {word : Keyword} {more : List Token} {next : Outline}
    (hword : first.kind = .keyword word) :
    Passes place (.lines afterBranch room after (.line first more stop next)) := by
  have hsame : ∀ {word' : Keyword}, first.kind = .keyword word' → word' = word := fun h =>
    TokenKind.keyword.inj (h.symm.trans hword)
  constructor
  · intro h
    by_cases hallowed : word.Allowed afterBranch
    · rcases (tooDeep_keyword hword hallowed).mp h with ⟨helse, hheader⟩ | ⟨hhead, hblock⟩
      · exact ⟨_, .header room after more stop next hword hallowed helse, hheader⟩
      · obtain ⟨brace, stop', body, close, later, rfl, hblock | ⟨read, hread, hlater⟩⟩ := hblock
        · exact ⟨_, .headedBlock after brace stop' body close later hword hallowed hhead, hblock⟩
        · exact ⟨_, .afterHeaded later hword hallowed hhead hread, hlater⟩
    · exact absurd h (not_tooDeep_dangling hword hallowed)
  · rintro ⟨started, hstarts, h⟩
    cases hstarts with
    | header _ _ _ _ _ hword' hallowed helse =>
      exact (tooDeep_keyword hword' hallowed).mpr (.inl ⟨helse, h⟩)
    | headedBlock _ _ _ _ _ _ hword' hallowed hhead =>
      exact (tooDeep_keyword hword' hallowed).mpr
        (.inr ⟨hhead, _, _, _, _, _, rfl, .inl h⟩)
    | afterHeaded _ hword' hallowed hhead hread =>
      exact (tooDeep_keyword hword' hallowed).mpr
        (.inr ⟨hhead, _, _, _, _, _, rfl, .inr ⟨_, hread, h⟩⟩)
    | assignment _ _ _ _ _ hplain => exact absurd hword (hplain word)
    | afterAssignment _ _ _ hplain => exact absurd hword (hplain word)
    | afterIgnored _ _ _ _ _ hplain => exact absurd hword (hplain word)

private theorem passes_plain {first : Token} {more : List Token} {next : Outline}
    (hplain : ∀ word, first.kind ≠ .keyword word) :
    Passes place (.lines afterBranch room after (.line first more stop next)) := by
  constructor
  · intro h
    rw [Refused, sequel_plain hplain] at h
    split at h
    · rename_i hequal
      rcases tooDeep_bind.mp h with hstmt | ⟨stmt, hstmt, h⟩
      · exact ⟨_, .assignment afterBranch room after stop next hplain hequal, hstmt⟩
      · exact ⟨_, .afterAssignment afterBranch after next hplain hequal hstmt,
          (tooDeep_bind_left fun _ => not_tooDeep_ok _).mp h⟩
    · rename_i hequal
      exact ⟨_, .afterIgnored afterBranch room after stop next hplain hequal,
        (tooDeep_bind_left fun _ => not_tooDeep_ok _).mp h⟩
  · rintro ⟨started, hstarts, h⟩
    rw [Refused, sequel_plain hplain]
    cases hstarts with
    | header _ _ _ _ _ hword => exact absurd hword (hplain _)
    | headedBlock _ _ _ _ _ _ hword => exact absurd hword (hplain _)
    | afterHeaded _ hword => exact absurd hword (hplain _)
    | assignment _ _ _ _ _ _ hequal =>
      rw [if_pos hequal]
      exact tooDeep_bind.mpr (.inl h)
    | afterAssignment _ _ _ _ hequal hstmt =>
      rw [if_pos hequal]
      exact tooDeep_bind.mpr
        (.inr ⟨_, hstmt, (tooDeep_bind_left fun _ => not_tooDeep_ok _).mpr h⟩)
    | afterIgnored _ _ _ _ _ _ hequal =>
      rw [if_neg hequal]
      exact (tooDeep_bind_left fun _ => not_tooDeep_ok _).mpr h

/-- Lines are refused where the first statement of them is, or the lines after it. -/
theorem passes_lines {o : Outline} : Passes place (.lines afterBranch room after o) := by
  cases o with
  | done =>
    constructor
    · intro h
      rw [Refused, sequel] at h
      exact absurd h (not_tooDeep_ok _)
    · rintro ⟨_, hstarts, _⟩
      cases hstarts
  | stray brace next =>
    constructor
    · intro h
      rw [Refused, sequel] at h
      exact absurd h (not_tooDeep_fail (by simp))
    · rintro ⟨_, hstarts, _⟩
      cases hstarts
  | block brace stop body close next =>
    constructor
    · intro h
      rw [Refused, sequel_block] at h
      rcases tooDeep_blockThen.mp h with hblock | ⟨read, hread, hnext⟩
      · exact ⟨_, .block afterBranch room after brace stop body close next, hblock⟩
      · exact ⟨_, .afterBlock afterBranch next hread, hnext⟩
    · rintro ⟨started, hstarts, h⟩
      rw [Refused, sequel_block, tooDeep_blockThen]
      cases hstarts with
      | block => exact .inl h
      | afterBlock _ _ hread => exact .inr ⟨_, hread, h⟩
  | line first more stop next =>
    by_cases hkeyword : ∃ word, first.kind = .keyword word
    · obtain ⟨word, hword⟩ := hkeyword
      exact passes_keyword hword
    · exact passes_plain (not_exists.mp hkeyword)

end Outlines

section Texts

variable {limit : Nat} {scanned : List TokenLine}

/-- A script is refused where the lines of its outline are. -/
theorem passes_script : Passes place (.script limit scanned) := by
  have hscript : TooDeep place (readProgram limit scanned) ↔
      TooDeep place (sequel false limit (endSpan scanned) (.ofLines scanned)) :=
    tooDeep_bind_left fun _ => not_tooDeep_ok _
  constructor
  · exact fun h => ⟨_, .script limit scanned, hscript.mp h⟩
  · rintro ⟨started, hstarts, h⟩
    cases hstarts with
    | script => exact hscript.mpr h

/-- What stands alone is refused as its one line is. -/
theorem tooDeep_readAlone {α : Type} {subject : Subject} {reader : Reader α} :
    TooDeep place (readAlone subject reader scanned) ↔
      TooDeep place (reader (aloneLine scanned).stop (aloneLine scanned).tokens) := by
  rw [readAlone, aloneLine]
  cases scanned.filter (!·.tokens.isEmpty) with
  | nil => exact tooDeep_bind_left fun _ => not_tooDeep_ok _
  | cons line later =>
    refine tooDeep_bind_left fun read h => ?_
    dsimp only at h
    split at h
    · exact not_tooDeep_ok _ h
    · exact not_tooDeep_fail (by simp) h

/-- An expression that stands alone is refused where the expression on its line is. -/
theorem passes_onlyExpr : Passes place (.onlyExpr limit scanned) := by
  constructor
  · exact fun h => ⟨_, .onlyExpr limit scanned, tooDeep_readAlone.mp h⟩
  · rintro ⟨started, hstarts, h⟩
    cases hstarts with
    | onlyExpr => exact tooDeep_readAlone.mpr h

/-- A condition that stands alone is refused where the condition on its line is. -/
theorem passes_onlyCond : Passes place (.onlyCond limit scanned) := by
  constructor
  · exact fun h => ⟨_, .onlyCond limit scanned, tooDeep_readAlone.mp h⟩
  · rintro ⟨started, hstarts, h⟩
    cases hstarts with
    | onlyCond => exact tooDeep_readAlone.mpr h

end Texts

end Task

end NumericScript
