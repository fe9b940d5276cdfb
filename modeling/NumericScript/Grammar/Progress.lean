import NumericScript.Grammar.Tier

/-!
# Progress

A reader of expressions takes at least one token, so that whatever repeats it comes to an end.
-/

namespace NumericScript

/-- A sequence has a result if its first part has one, from which the rest has it. -/
theorem bind_eq_ok {ε α β : Type} {x : Except ε α} {f : α → Except ε β} {b : β} :
    x >>= f = .ok b ↔ ∃ a, x = .ok a ∧ f a = .ok b := by
  cases x <;> simp [bind, Except.bind]

/-- What is said in place of an error changes no result. -/
theorem orMissing_eq_ok {α : Type} {span : Span} {cause : Cause} {x : Except ScriptError α}
    {a : α} : orMissing span cause x = .ok a ↔ x = .ok a := by
  unfold orMissing
  split <;> simp [fail]

/-- Every success leaves fewer tokens. -/
def Shrinks {α : Type} (reader : Reader α) : Prop :=
  ∀ stop tokens a rest, reader stop tokens = .ok (a, rest) → rest.length < tokens.length

/-- No success leaves more tokens. -/
def Keeps {α : Type} (reader : Reader α) : Prop :=
  ∀ stop tokens a rest, reader stop tokens = .ok (a, rest) → rest.length ≤ tokens.length

/-- Expecting a token leaves fewer tokens. -/
theorem shrinks_expect (kind : TokenKind) (cause : Cause) : Shrinks (expect kind cause) := by
  intro stop tokens a rest h
  cases tokens with
  | nil => simp [expect, fail] at h
  | cons t later =>
    simp only [expect] at h
    split at h
    · simp only [Except.ok.injEq, Prod.mk.injEq] at h
      simp [← h.2]
    · simp [fail] at h

/-- Reading an operand leaves fewer tokens if every rung does. -/
theorem shrinks_operand {rungs : Ladder} (h : ∀ rung ∈ rungs, Shrinks rung) :
    Shrinks (operand rungs) := by
  intro stop tokens a rest hr
  cases rungs with
  | nil => simp [operand, fail] at hr
  | cons rung lower => exact h rung (by simp) stop tokens a rest hr

namespace Tier

variable {tier : Tier}

/--
What holds where a chain ends, and before an operator if it holds after the right side, holds where
a chain is read.
-/
theorem rest_induction {motive : Ladder → Expr → List Token → Prop} {stop : Span} {e : Expr}
    {after : List Token} (ends : ∀ rungs, motive rungs e after)
    (goesOn : ∀ {rung lower left t later op right middle}, tier.op? t.kind = some op →
      tier.side lower stop later = .ok (right, middle) →
      motive lower (.binary op left right (left.span.join right.span)) middle →
      motive (rung :: lower) left (t :: later))
    {rungs : Ladder} {left : Expr} {tokens : List Token}
    (h : tier.rest rungs left stop tokens = .ok (e, after)) : motive rungs left tokens := by
  have hends : ∀ {rungs left tokens}, tier.Ends tokens →
      tier.rest rungs left stop tokens = .ok (e, after) → motive rungs left tokens := by
    intro rungs left tokens hends h
    cases rest_of_ends hends ▸ h
    exact ends rungs
  induction rungs generalizing left tokens with
  | nil =>
    obtain hend | ⟨t, later, op, rfl, hop⟩ := tier.ends_or_operator tokens
    · exact hends hend h
    · cases rest_no_rung hop ▸ h
  | cons rung lower ih =>
    obtain hend | ⟨t, later, op, rfl, hop⟩ := tier.ends_or_operator tokens
    · exact hends hend h
    · obtain ⟨⟨right, middle⟩, hright, hrest⟩ := bind_eq_ok.mp (rest_rung hop ▸ h)
      exact goesOn hop (orMissing_eq_ok.mp hright) (ih hrest)

variable (tier)
  (hside : ∀ {rungs : Ladder}, (∀ rung ∈ rungs, Shrinks rung) → Shrinks (tier.side rungs))

include hside

private theorem keeps_rest {rungs : Ladder} (h : ∀ rung ∈ rungs, Shrinks rung) (left : Expr) :
    Keeps (tier.rest rungs left) := by
  intro stop tokens a rest hr
  refine rest_induction (motive := fun rungs _ tokens =>
    (∀ rung ∈ rungs, Shrinks rung) → rest.length ≤ tokens.length)
    (fun _ _ => Nat.le_refl _) (fun _ hright ih h => ?_) hr h
  obtain ⟨_, hlower⟩ := List.forall_mem_cons.mp h
  have hshorter := hside hlower _ _ _ _ hright
  have hkept := ih hlower
  simp only [List.length_cons]
  omega

private theorem shrinks_whole {rungs : Ladder} (h : ∀ rung ∈ rungs, Shrinks rung) :
    Shrinks (tier.whole rungs) := by
  intro stop tokens a rest hr
  obtain ⟨⟨left, after⟩, hleft, hrest⟩ := bind_eq_ok.mp (whole_eq tokens ▸ hr)
  have hshorter := hside h _ _ _ _ hleft
  have hkept := tier.keeps_rest hside h _ _ _ _ _ hrest
  omega

end Tier

/-- Reading a product leaves fewer tokens if every rung does. -/
theorem shrinks_product {rungs : Ladder} (h : ∀ rung ∈ rungs, Shrinks rung) :
    Shrinks (product rungs) :=
  Tier.products.shrinks_whole shrinks_operand h

private theorem shrinks_sum {rungs : Ladder} (h : ∀ rung ∈ rungs, Shrinks rung) :
    Shrinks (sum rungs) :=
  Tier.sums.shrinks_whole shrinks_product h

/-- A sum and the token that closes it are taken. -/
theorem shrinks_closed {rungs : Ladder} (h : ∀ rung ∈ rungs, Shrinks rung) {kind : TokenKind}
    {cause : Cause} (close : Expr → Token → Expr) {stop : Span} {tokens rest : List Token}
    {a : Expr} (hr : (do
      let (inner, rest) ← sum rungs stop tokens
      let (last, rest) ← expect kind cause stop rest
      .ok (close inner last, rest)) = .ok (a, rest)) : rest.length < tokens.length := by
  obtain ⟨⟨inner, after⟩, hsum, hclose⟩ := bind_eq_ok.mp hr
  obtain ⟨⟨last, later⟩, hexpect, hlast⟩ := bind_eq_ok.mp hclose
  obtain ⟨-, rfl⟩ := Prod.mk.inj (Except.ok.inj hlast)
  have hinner := shrinks_sum h _ _ _ _ hsum
  have hshorter := shrinks_expect _ _ _ _ _ _ hexpect
  omega

private theorem keeps_named {rungs : Ladder} (h : ∀ rung ∈ rungs, Shrinks rung) (name : Token) :
    Keeps (named rungs name) := by
  intro stop tokens a rest hr
  unfold named at hr
  split at hr
  · simp_all
  · split at hr
    · have hshorter := shrinks_closed h (fun index close =>
        .element name.lexeme index (name.span.join close.span)) hr
      simp only [List.length_cons]
      omega
    · simp_all

private theorem keeps_grouped {rungs : Ladder} (h : ∀ rung ∈ rungs, Shrinks rung) (paren : Token) :
    Keeps (grouped rungs paren) := by
  intro stop tokens a rest hr
  unfold grouped at hr
  split at hr
  · simp [fail] at hr
  · exact Nat.le_of_lt (shrinks_closed h (fun inner close =>
      .group inner (paren.span.join close.span)) hr)

private theorem shrinks_primary {rungs : Ladder} (h : ∀ rung ∈ rungs, Shrinks rung) :
    Shrinks (primary rungs) := by
  intro stop tokens a rest hr
  cases tokens with
  | nil => simp [primary, fail] at hr
  | cons t later =>
    simp only [primary] at hr
    split at hr
    · split at hr
      · simp_all
      · simp [fail] at hr
    · have := keeps_named h _ _ _ _ _ hr
      simp only [List.length_cons]
      omega
    · have := keeps_grouped h _ _ _ _ _ hr
      simp only [List.length_cons]
      omega
    · simp [fail] at hr

/-- Reading a function's application leaves fewer tokens if every rung does. -/
theorem shrinks_call {rungs : Ladder} (h : ∀ rung ∈ rungs, Shrinks rung) :
    Shrinks (call rungs) := by
  intro stop tokens a rest hr
  fun_induction call rungs stop tokens generalizing a rest with
  | case1 stop f lexeme span later => simp [fail] at hr
  | case2 stop f lexeme span later rung lower ih =>
    obtain ⟨⟨argument, after⟩, hcall, hlast⟩ := bind_eq_ok.mp hr
    have := ih (fun r hm => h r (by simp [hm])) _ _ (orMissing_eq_ok.mp hcall)
    simp only [Except.ok.injEq, Prod.mk.injEq] at hlast
    simp only [← hlast.2, List.length_cons]
    omega
  | case3 rungs stop tokens => exact shrinks_primary h _ _ _ _ hr

private theorem shrinks_power {rungs : Ladder} (h : ∀ rung ∈ rungs, Shrinks rung) :
    Shrinks (power rungs) := by
  intro stop tokens a rest hr
  obtain ⟨⟨base, after⟩, hcall, hrest⟩ := bind_eq_ok.mp hr
  have hbase := shrinks_call h _ _ _ _ hcall
  dsimp only at hrest
  split at hrest
  · obtain ⟨⟨exponent, last⟩, hop, hlast⟩ := bind_eq_ok.mp hrest
    have := shrinks_operand h _ _ _ _ (orMissing_eq_ok.mp hop)
    simp only [Except.ok.injEq, Prod.mk.injEq] at hlast
    simp only [← hlast.2]
    simp only [List.length_cons] at hbase
    omega
  · simp only [Except.ok.injEq, Prod.mk.injEq] at hrest
    simpa [← hrest.2] using hbase

private theorem shrinks_signedOperand {rungs : Ladder} (h : ∀ rung ∈ rungs, Shrinks rung) :
    Shrinks (signedOperand rungs) := by
  intro stop tokens a rest hr
  unfold signedOperand at hr
  split at hr
  · obtain ⟨⟨inner, after⟩, hop, hlast⟩ := bind_eq_ok.mp hr
    have := shrinks_operand h _ _ _ _ hop
    simp only [Except.ok.injEq, Prod.mk.injEq] at hlast
    simp only [← hlast.2, List.length_cons]
    omega
  · exact shrinks_power h _ _ _ _ hr

/-- What a reader of operands has if the rungs below it do, every rung of a ladder has. -/
theorem forall_mem_ladder {good : Reader Expr → Prop}
    (h : ∀ {rungs : Ladder}, (∀ rung ∈ rungs, good rung) → good (signedOperand rungs))
    (room : Nat) : ∀ rung ∈ ladder room, good rung := by
  induction room with
  | zero => exact List.forall_mem_nil _
  | succ room ih => exact List.forall_mem_cons.mpr ⟨h ih, ih⟩

/-- No rung of a ladder leaves as many tokens as it was given. -/
theorem shrinks_ladder (room : Nat) : ∀ rung ∈ ladder room, Shrinks rung :=
  forall_mem_ladder shrinks_signedOperand room

/-- An expression has at least one token. -/
theorem shrinks_expression (room : Nat) : Shrinks (expression room) :=
  shrinks_sum (shrinks_ladder room)

end NumericScript
