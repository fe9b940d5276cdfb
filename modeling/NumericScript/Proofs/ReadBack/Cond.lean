import NumericScript.Grammar.Cond
import NumericScript.Proofs.ReadBack.Expr

/-!
# Conditions read back

A condition is spelled by the tokens that it was read from and so read back as them, with
conjunctions inside disjunctions and both leaning to the left.
-/

namespace NumericScript

/--
The conditions that a reader gives are read back as the tokens that it took, have the shape of
precedence and hold together at least as tightly as a number says.
-/
def ReadsCond (binding : Nat) (reader : Reader Cond) : Prop :=
  ∀ stop tokens c rest, reader stop tokens = .ok (c, rest) →
    tokens.map Token.glyph = c.glyphs ++ rest.map Token.glyph ∧ c.Shaped ∧ binding ≤ c.binding

/--
The conditions that a reader gives are spelled by the tokens that it took, have the shape of
precedence and hold together at least as tightly as a number says.
-/
def SpellsCond (binding : Nat) (reader : Reader Cond) : Prop :=
  ∀ stop tokens c rest, reader stop tokens = .ok (c, rest) →
    ∃ used, tokens = used ++ rest ∧ c.Spelled used ∧ c.Shaped ∧ binding ≤ c.binding

private theorem SpellsCond.reads {binding : Nat} {reader : Reader Cond}
    (h : SpellsCond binding reader) : ReadsCond binding reader := by
  intro stop tokens c rest hr
  obtain ⟨used, rfl, hspelled, hshaped⟩ := h _ _ _ _ hr
  exact ⟨by rw [List.map_append, hspelled.glyphs_eq], hshaped⟩

/-- A kind is that of one comparison at most, which has it as its kind. -/
theorem compareOp?_eq_some {kind : TokenKind} {op : CompareOp} :
    compareOp? kind = some op ↔ kind = op.kind := by
  cases kind <;> cases op <;> simp [compareOp?, CompareOp.kind]

private theorem CompareOp.glyph_eq_mark {op : CompareOp} {t : Token} (h : t.kind = op.kind) :
    t.glyph = .mark op.kind := by
  rw [Token.glyph, h]
  exact glyphOf_of_ne _ (by cases op <;> decide) (by cases op <;> decide)

private theorem LogicalOp.glyph_eq_mark {op : LogicalOp} {t : Token} (h : t.kind = op.kind) :
    t.glyph = .mark op.kind := by
  rw [Token.glyph, h]
  exact glyphOf_of_ne _ (by cases op <;> decide) (by cases op <;> decide)

/-- A joined condition holds together as tightly as its left side has to. -/
theorem Cond.binding_logical (op : LogicalOp) (left right : Cond) (span : Span) :
    (Cond.logical op left right span).binding = op.leftBinding := by
  cases op <;> rfl

private theorem spellsCond_comparison (room : Nat) : SpellsCond 2 (comparison room) := by
  intro stop tokens c rest h
  obtain ⟨⟨left, after⟩, hleft, hr⟩ := bind_eq_ok.mp h
  obtain ⟨used, rfl, hlspelled, hlshaped, _⟩ := spellsExpr_expression room _ _ _ _ hleft
  dsimp only at hr
  split at hr
  · simp [fail] at hr
  · split at hr
    · simp [fail] at hr
    · rename_i t _ _ op hop
      obtain ⟨⟨right, last⟩, hright, hlast⟩ := bind_eq_ok.mp hr
      obtain ⟨rightUsed, rfl, hrspelled, hrshaped, _⟩ :=
        spellsExpr_expression room _ _ _ _ (orMissing_eq_ok.mp hright)
      simp only [Except.ok.injEq, Prod.mk.injEq] at hlast
      obtain ⟨rfl, rfl⟩ := hlast
      have ht := CompareOp.glyph_eq_mark (compareOp?_eq_some.mp hop)
      exact ⟨used ++ t :: rightUsed, by simp, .compare hlspelled ht hrspelled,
        ⟨hlshaped, hrshaped⟩, Nat.le_refl 2⟩

section Chain

variable {op : LogicalOp} {link : Reader Cond}

/-- A chain goes on as its left side and the tokens that follow say. -/
theorem spells_chainRest (progress : Shrinks link) (hlink : SpellsCond (op.leftBinding + 1) link)
    {left c : Cond} {stop : Span} {before tokens rest : List Token}
    (h : chainRest op.kind op link progress left stop tokens = .ok (c, rest))
    (hspelled : left.Spelled before) (hshaped : left.Shaped)
    (hbinding : op.leftBinding ≤ left.binding) :
    ∃ used, before ++ tokens = used ++ rest ∧ c.Spelled used ∧ c.Shaped ∧
      op.leftBinding ≤ c.binding := by
  fun_induction chainRest op.kind op link progress left stop tokens generalizing before with
  | case1 left =>
    obtain ⟨rfl, rfl⟩ := Prod.mk.inj (Except.ok.inj h)
    exact ⟨before, rfl, hspelled, hshaped, hbinding⟩
  | case2 left t later hsign error hread => simp at h
  | case3 left t later hsign right after hread hlt ih =>
    obtain ⟨used, rfl, hrspelled, hrshaped, hrbinding⟩ := hlink _ _ _ _ hread
    have hnode : (Cond.join op left right).Shaped := ⟨hshaped, hrshaped, hbinding, hrbinding⟩
    have hjoined := Cond.Spelled.logical hspelled (LogicalOp.glyph_eq_mark hsign) hrspelled
    obtain ⟨all, hall, hlast⟩ :=
      ih h hjoined hnode (Nat.le_of_eq (Cond.binding_logical ..).symm)
    exact ⟨all, by rw [← hall, List.append_assoc, List.cons_append], hlast⟩
  | case4 left =>
    obtain ⟨rfl, rfl⟩ := Prod.mk.inj (Except.ok.inj h)
    exact ⟨before, rfl, hspelled, hshaped, hbinding⟩

private theorem spellsCond_chain (op : LogicalOp) (progress : Shrinks link)
    (hlink : SpellsCond (op.leftBinding + 1) link) :
    SpellsCond op.leftBinding (chain op.kind op link progress) := by
  intro stop tokens c rest h
  obtain ⟨⟨left, after⟩, hleft, hrest⟩ := bind_eq_ok.mp h
  obtain ⟨used, rfl, hspelled, hshaped, hbinding⟩ := hlink _ _ _ _ hleft
  exact spells_chainRest progress hlink hrest hspelled hshaped (by omega)

end Chain

private theorem spellsCond_conjunction (room : Nat) : SpellsCond 1 (conjunction room) :=
  spellsCond_chain .and (shrinks_comparison room) (spellsCond_comparison room)

/-- A condition is spelled by the tokens that it was read from. -/
theorem spellsCond_condition (room : Nat) : SpellsCond 0 (condition room) :=
  spellsCond_chain .or (shrinks_chain (shrinks_comparison room)) (spellsCond_conjunction room)

/-- A condition is read back as the tokens that it was read from. -/
theorem readsCond_condition (room : Nat) : ReadsCond 0 (condition room) :=
  (spellsCond_condition room).reads

end NumericScript
