import NumericScript.Grammar.Progress
import NumericScript.Proofs.Glyph.Shape
import NumericScript.Proofs.Glyph.Spelled

/-!
# Expressions read back

Whatever a reader of expressions makes of some tokens is spelled by the tokens that it took, so that
it is read back as them, and has the shape of precedence. The statement goes down the ladder: a
reader keeps it if the rungs that it uses do.
-/

namespace NumericScript

/--
The expressions that a reader gives are read back as the tokens that it took, have the shape of
precedence and hold together at least as tightly as a number says.
-/
def ReadsExpr (binding : Nat) (reader : Reader Expr) : Prop :=
  ∀ stop tokens e rest, reader stop tokens = .ok (e, rest) →
    tokens.map Token.glyph = e.glyphs ++ rest.map Token.glyph ∧ e.Shaped ∧ binding ≤ e.binding

/--
The expressions that a reader gives are spelled by the tokens that it took, have the shape of
precedence and hold together at least as tightly as a number says.
-/
def SpellsExpr (binding : Nat) (reader : Reader Expr) : Prop :=
  ∀ stop tokens e rest, reader stop tokens = .ok (e, rest) →
    ∃ used, tokens = used ++ rest ∧ e.Spelled used ∧ e.Shaped ∧ binding ≤ e.binding

private theorem SpellsExpr.reads {binding : Nat} {reader : Reader Expr}
    (h : SpellsExpr binding reader) : ReadsExpr binding reader := by
  intro stop tokens e rest hr
  obtain ⟨used, rfl, hspelled, hshaped⟩ := h _ _ _ _ hr
  exact ⟨by rw [List.map_append, hspelled.glyphs_eq], hshaped⟩

/-- A token is taken only if it is of the kind that is expected, and only that token. -/
theorem expect_eq_ok {kind : TokenKind} {cause : Cause} {stop : Span} {tokens rest : List Token}
    {t : Token} : expect kind cause stop tokens = .ok (t, rest) ↔
      tokens = t :: rest ∧ t.kind = kind := by
  cases tokens with
  | nil => simp [expect, fail]
  | cons head later =>
    simp only [expect, List.cons.injEq]
    split
    · rename_i hkind
      simp only [Except.ok.injEq, Prod.mk.injEq]
      constructor
      · rintro ⟨rfl, rfl⟩
        exact ⟨⟨rfl, rfl⟩, hkind⟩
      · exact And.left
    · rename_i hkind
      simp only [fail, reduceCtorEq, false_iff, not_and]
      rintro ⟨rfl, _⟩
      exact hkind

/-- How tightly a chain holds together. -/
def Tier.binding : Tier → Nat
  | products => 1
  | sums => 0

/-- The operators of a tier are those whose kind it is and which bind as the tier does. -/
theorem Tier.op?_eq_some {tier : Tier} {kind : TokenKind} {op : BinaryOp} :
    tier.op? kind = some op ↔ kind = op.kind ∧ op.leftBinding = tier.binding := by
  cases tier <;> cases kind <;> cases op <;>
    simp [op?, productOp?, sumOp?, BinaryOp.kind, BinaryOp.leftBinding, binding]

/-- The operator of a chain binds as its left side has to, and its right side closer. -/
theorem Tier.bindings_of_left {tier : Tier} {op : BinaryOp} (h : op.leftBinding = tier.binding) :
    op.binding = tier.binding ∧ op.rightBinding = tier.binding + 1 := by
  cases tier <;> cases op <;> simp_all [BinaryOp.leftBinding, BinaryOp.binding,
    BinaryOp.rightBinding, binding]

private theorem BinaryOp.glyph_eq_mark {op : BinaryOp} {t : Token} (h : t.kind = op.kind) :
    t.glyph = .mark op.kind := by
  rw [Token.glyph, h]
  exact glyphOf_of_ne _ (by cases op <;> decide) (by cases op <;> decide)

section Ladder

variable {rungs : Ladder}

private theorem spellsExpr_operand (h : ∀ rung ∈ rungs, SpellsExpr 2 rung) :
    SpellsExpr 2 (operand rungs) := by
  intro stop tokens e rest hr
  cases rungs with
  | nil => simp [operand, fail] at hr
  | cons rung lower => exact h rung (by simp) stop tokens e rest hr

namespace Tier

variable (tier : Tier) (hside : ∀ {rungs : Ladder}, (∀ rung ∈ rungs, SpellsExpr 2 rung) →
  SpellsExpr (tier.binding + 1) (tier.side rungs))

include hside

/-- A chain goes on as its left side and the tokens that follow say. -/
theorem spells_rest (h : ∀ rung ∈ rungs, SpellsExpr 2 rung) {left e : Expr} {stop : Span}
    {before tokens rest : List Token} (hr : tier.rest rungs left stop tokens = .ok (e, rest))
    (hspelled : left.Spelled before) (hshaped : left.Shaped)
    (hbinding : tier.binding ≤ left.binding) :
    ∃ used, before ++ tokens = used ++ rest ∧ e.Spelled used ∧ e.Shaped ∧
      tier.binding ≤ e.binding := by
  refine rest_induction (motive := fun rungs left tokens =>
    (∀ rung ∈ rungs, SpellsExpr 2 rung) → ∀ before, left.Spelled before → left.Shaped →
      tier.binding ≤ left.binding → ∃ used, before ++ tokens = used ++ rest ∧ e.Spelled used ∧
        e.Shaped ∧ tier.binding ≤ e.binding)
    (fun _ _ before hspelled hshaped hbinding => ⟨before, rfl, hspelled, hshaped, hbinding⟩)
    ?_ hr h before hspelled hshaped hbinding
  intro rung lower left t later op right middle hop hright ih h before hspelled hshaped _
  obtain ⟨hkind, hleft⟩ := op?_eq_some.mp hop
  obtain ⟨hown, hrightBinding⟩ := bindings_of_left hleft
  obtain ⟨_, hlower⟩ := List.forall_mem_cons.mp h
  obtain ⟨used, rfl, hrspelled, hrshaped, hrbinding⟩ := hside hlower _ _ _ _ hright
  have hnode : (Expr.binary op left right (left.span.join right.span)).Shaped :=
    ⟨hshaped, hrshaped, by omega, by omega⟩
  obtain ⟨all, hall, hlast⟩ := ih hlower _
    (.binary hspelled (BinaryOp.glyph_eq_mark hkind) hrspelled) hnode (Nat.le_of_eq hown.symm)
  exact ⟨all, by rw [← hall, List.append_assoc, List.cons_append], hlast⟩

private theorem spellsExpr_whole (h : ∀ rung ∈ rungs, SpellsExpr 2 rung) :
    SpellsExpr tier.binding (tier.whole rungs) := by
  intro stop tokens e rest hr
  obtain ⟨⟨left, after⟩, hleft, hrest⟩ := bind_eq_ok.mp (whole_eq tokens ▸ hr)
  obtain ⟨used, rfl, hspelled, hshaped, hbinding⟩ := hside h _ _ _ _ hleft
  exact tier.spells_rest hside h hrest hspelled hshaped (Nat.le_of_succ_le hbinding)

end Tier

private theorem spellsExpr_product (h : ∀ rung ∈ rungs, SpellsExpr 2 rung) :
    SpellsExpr 1 (product rungs) :=
  Tier.products.spellsExpr_whole spellsExpr_operand h

private theorem spellsExpr_sum (h : ∀ rung ∈ rungs, SpellsExpr 2 rung) : SpellsExpr 0 (sum rungs) :=
  Tier.sums.spellsExpr_whole spellsExpr_product h

private theorem spells_named (h : ∀ rung ∈ rungs, SpellsExpr 2 rung) {name : Token} {stop : Span}
    {tokens rest : List Token} {e : Expr} (hr : named rungs name stop tokens = .ok (e, rest))
    (hname : name.glyph = .name name.lexeme) :
    ∃ used, name :: tokens = used ++ rest ∧ e.Spelled used ∧ e.Shaped ∧ 3 ≤ e.binding := by
  unfold named at hr
  split at hr
  · simp only [Except.ok.injEq, Prod.mk.injEq] at hr
    obtain ⟨rfl, rfl⟩ := hr
    exact ⟨[name], rfl, .scalar hname, trivial, Nat.le_refl 3⟩
  · rename_i t inner
    split at hr
    · rename_i hopen
      obtain ⟨⟨index, after⟩, hindex, hclose⟩ := bind_eq_ok.mp hr
      obtain ⟨⟨close, last⟩, hexpect, hlast⟩ := bind_eq_ok.mp hclose
      obtain ⟨used, rfl, hspelled, hshaped, _⟩ := spellsExpr_sum h _ _ _ _ hindex
      obtain ⟨rfl, hkind⟩ := expect_eq_ok.mp hexpect
      simp only [Except.ok.injEq, Prod.mk.injEq] at hlast
      obtain ⟨rfl, rfl⟩ := hlast
      refine ⟨name :: t :: (used ++ [close]), by simp, ?_, hshaped, Nat.le_refl 3⟩
      exact .element hname (Token.glyph_of_kind hopen) hspelled (Token.glyph_of_kind hkind)
    · simp only [Except.ok.injEq, Prod.mk.injEq] at hr
      obtain ⟨rfl, rfl⟩ := hr
      exact ⟨[name], rfl, .scalar hname, trivial, Nat.le_refl 3⟩

private theorem spells_grouped (h : ∀ rung ∈ rungs, SpellsExpr 2 rung) {paren : Token} {stop : Span}
    {tokens rest : List Token} {e : Expr} (hr : grouped rungs paren stop tokens = .ok (e, rest))
    (hparen : paren.glyph = .mark .leftParen) :
    ∃ used, paren :: tokens = used ++ rest ∧ e.Spelled used ∧ e.Shaped ∧ 3 ≤ e.binding := by
  unfold grouped at hr
  split at hr
  · simp [fail] at hr
  · obtain ⟨⟨inner, after⟩, hinner, hclose⟩ := bind_eq_ok.mp hr
    obtain ⟨⟨close, last⟩, hexpect, hlast⟩ := bind_eq_ok.mp hclose
    obtain ⟨used, rfl, hspelled, hshaped, _⟩ := spellsExpr_sum h _ _ _ _ hinner
    obtain ⟨rfl, hkind⟩ := expect_eq_ok.mp hexpect
    simp only [Except.ok.injEq, Prod.mk.injEq] at hlast
    obtain ⟨rfl, rfl⟩ := hlast
    refine ⟨paren :: (used ++ [close]), by simp, ?_, hshaped, Nat.le_refl 3⟩
    exact .group hparen hspelled (Token.glyph_of_kind hkind)

private theorem spellsExpr_primary (h : ∀ rung ∈ rungs, SpellsExpr 2 rung) :
    SpellsExpr 3 (primary rungs) := by
  intro stop tokens e rest hr
  cases tokens with
  | nil => simp [primary, fail] at hr
  | cons t later =>
    simp only [primary] at hr
    split at hr
    · rename_i hkind
      split at hr
      · rename_i value hvalue
        simp only [Except.ok.injEq, Prod.mk.injEq] at hr
        obtain ⟨rfl, rfl⟩ := hr
        exact ⟨[t], rfl, .number (Token.glyph_of_number hkind hvalue), trivial, Nat.le_refl 3⟩
      · simp [fail] at hr
    · rename_i hkind
      exact spells_named h hr (Token.glyph_of_identifier hkind)
    · rename_i hkind
      exact spells_grouped h hr (Token.glyph_of_kind hkind)
    · simp [fail] at hr

private theorem spellsExpr_call (h : ∀ rung ∈ rungs, SpellsExpr 2 rung) :
    SpellsExpr 3 (call rungs) := by
  intro stop tokens e rest hr
  fun_induction call rungs stop tokens generalizing e rest with
  | case1 stop f lexeme span later => simp [fail] at hr
  | case2 stop f lexeme span later rung lower ih =>
    obtain ⟨⟨argument, after⟩, hcall, hlast⟩ := bind_eq_ok.mp hr
    obtain ⟨used, rfl, hspelled, hshaped, hbinding⟩ :=
      ih (fun r hm => h r (by simp [hm])) _ _ (orMissing_eq_ok.mp hcall)
    simp only [Except.ok.injEq, Prod.mk.injEq] at hlast
    obtain ⟨rfl, rfl⟩ := hlast
    have hfunction : Token.glyph ⟨.function f, lexeme, span⟩ = .mark (.function f) := rfl
    exact ⟨_, rfl, .call hfunction hspelled, ⟨hshaped, hbinding⟩, Nat.le_refl 3⟩
  | case3 rungs stop tokens => exact spellsExpr_primary h _ _ _ _ hr

private theorem spellsExpr_power (h : ∀ rung ∈ rungs, SpellsExpr 2 rung) :
    SpellsExpr 2 (power rungs) := by
  intro stop tokens e rest hr
  obtain ⟨⟨base, after⟩, hcall, hrest⟩ := bind_eq_ok.mp hr
  obtain ⟨used, rfl, hspelled, hshaped, hbinding⟩ := spellsExpr_call h _ _ _ _ hcall
  dsimp only at hrest
  split at hrest
  · rename_i lexeme span inner
    obtain ⟨⟨exponent, last⟩, hop, hlast⟩ := bind_eq_ok.mp hrest
    obtain ⟨exponentUsed, rfl, hespelled, heshaped, hebinding⟩ :=
      spellsExpr_operand h _ _ _ _ (orMissing_eq_ok.mp hop)
    simp only [Except.ok.injEq, Prod.mk.injEq] at hlast
    obtain ⟨rfl, rfl⟩ := hlast
    have hcaret : Token.glyph ⟨.caret, lexeme, span⟩ = .mark BinaryOp.pow.kind := rfl
    exact ⟨used ++ ⟨.caret, lexeme, span⟩ :: exponentUsed, by simp,
      .binary hspelled hcaret hespelled, ⟨hshaped, heshaped, hbinding, hebinding⟩, Nat.le_refl 2⟩
  · simp only [Except.ok.injEq, Prod.mk.injEq] at hrest
    obtain ⟨rfl, rfl⟩ := hrest
    exact ⟨used, rfl, hspelled, hshaped, by omega⟩

private theorem spellsExpr_signedOperand (h : ∀ rung ∈ rungs, SpellsExpr 2 rung) :
    SpellsExpr 2 (signedOperand rungs) := by
  intro stop tokens e rest hr
  unfold signedOperand at hr
  split at hr
  · rename_i lexeme span inner
    obtain ⟨⟨operand, after⟩, hop, hlast⟩ := bind_eq_ok.mp hr
    obtain ⟨used, rfl, hspelled, hshaped, hbinding⟩ := spellsExpr_operand h _ _ _ _ hop
    simp only [Except.ok.injEq, Prod.mk.injEq] at hlast
    obtain ⟨rfl, rfl⟩ := hlast
    have hminus : Token.glyph ⟨.minus, lexeme, span⟩ = .mark .minus := rfl
    exact ⟨_, rfl, .negate hminus hspelled, ⟨hshaped, hbinding⟩, Nat.le_refl 2⟩
  · exact spellsExpr_power h _ _ _ _ hr

end Ladder

private theorem spellsExpr_ladder (room : Nat) : ∀ rung ∈ ladder room, SpellsExpr 2 rung :=
  forall_mem_ladder spellsExpr_signedOperand room

/-- An expression is spelled by the tokens that it was read from. -/
theorem spellsExpr_expression (room : Nat) : SpellsExpr 0 (expression room) :=
  spellsExpr_sum (spellsExpr_ladder room)

/-- An expression is read back as the tokens that it was read from. -/
theorem readsExpr_expression (room : Nat) : ReadsExpr 0 (expression room) :=
  (spellsExpr_expression room).reads

end NumericScript
