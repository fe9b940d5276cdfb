import NumericScript.Proofs.Layout.Tokens

/-!
# Trees and their tokens

Tokens spell a tree with its places in one way at most. So the tokens of an expression or of a
condition, when they stand alone, are read as that tree and no other one, places included.
-/

namespace NumericScript

private theorem Expr.glyphs_bare (e : Expr) : e.bare.glyphs = e.glyphs := by
  induction e with
  | number | scalar => rfl
  | element _ _ _ ih | negate _ _ ih | call _ _ _ ih | group _ _ ih => simp only [bare, glyphs, ih]
  | binary _ _ _ _ ihl ihr => simp only [bare, glyphs, ihl, ihr]

private theorem Cond.glyphs_bare (c : Cond) : c.bare.glyphs = c.glyphs := by
  induction c with
  | compare => simp only [bare, glyphs, Expr.glyphs_bare]
  | logical _ _ _ _ ihl ihr => simp only [bare, glyphs, ihl, ihr]

namespace Expr.Spelled

variable {e e' : Expr} {tokens tokens' : List Token}

private theorem length_eq (h : e.Spelled tokens) (h' : e'.Spelled tokens')
    (hbare : e.bare = e'.bare) : tokens.length = tokens'.length := by
  have hglyphs := congrArg Expr.glyphs hbare
  rw [glyphs_bare, glyphs_bare, ← h.glyphs_eq, ← h'.glyphs_eq] at hglyphs
  simpa using congrArg List.length hglyphs

/-- The places of an expression are determined by its tokens. -/
theorem unique (h : e.Spelled tokens) (h' : e'.Spelled tokens') (htokens : tokens = tokens')
    (hbare : e.bare = e'.bare) : e = e' := by
  induction h generalizing e' tokens' with
  | number =>
    cases h' with
    | number =>
      obtain ⟨rfl, _⟩ := List.cons.inj htokens
      rw [(Expr.number.inj hbare).1]
    | _ => cases hbare
  | scalar =>
    cases h' with
    | scalar =>
      obtain ⟨rfl, _⟩ := List.cons.inj htokens
      rw [(Expr.scalar.inj hbare).1]
    | _ => cases hbare
  | element _ _ _ _ ih =>
    cases h' with
    | element _ _ hindex =>
      obtain ⟨hname, hindexBare, _⟩ := Expr.element.inj hbare
      obtain ⟨rfl, hmore⟩ := List.cons.inj htokens
      obtain ⟨_, hrest⟩ := List.cons.inj hmore
      obtain ⟨hinner, hclose⟩ := List.append_inj' hrest rfl
      obtain ⟨rfl, _⟩ := List.cons.inj hclose
      rw [hname, ih hindex hinner hindexBare]
    | _ => cases hbare
  | binary hleft _ _ ihl ihr =>
    cases h' with
    | binary hleft' _ hright' =>
      obtain ⟨hop, hl, hr, _⟩ := Expr.binary.inj hbare
      obtain ⟨hbefore, hafter⟩ := List.append_inj htokens (hleft.length_eq hleft' hl)
      obtain ⟨_, hafter⟩ := List.cons.inj hafter
      rw [hop, ihl hleft' hbefore hl, ihr hright' hafter hr]
    | _ => cases hbare
  | negate _ _ ih =>
    cases h' with
    | negate _ hoperand =>
      obtain ⟨rfl, hmore⟩ := List.cons.inj htokens
      rw [ih hoperand hmore (Expr.negate.inj hbare).1]
    | _ => cases hbare
  | call _ _ ih =>
    cases h' with
    | call _ hargument =>
      obtain ⟨hbuiltin, hargumentBare, _⟩ := Expr.call.inj hbare
      obtain ⟨rfl, hmore⟩ := List.cons.inj htokens
      rw [hbuiltin, ih hargument hmore hargumentBare]
    | _ => cases hbare
  | group _ _ _ ih =>
    cases h' with
    | group _ hinner =>
      obtain ⟨rfl, hmore⟩ := List.cons.inj htokens
      obtain ⟨hinside, hclose⟩ := List.append_inj' hmore rfl
      obtain ⟨rfl, _⟩ := List.cons.inj hclose
      rw [ih hinner hinside (Expr.group.inj hbare).1]
    | _ => cases hbare

/-- The tokens of an expression in the shape of precedence are read as that expression. -/
theorem read (h : e.Spelled tokens) (hshaped : e.Shaped) {room : Nat}
    (hlevels : Within e.levels room) (stop : Span) : expression room stop tokens = .ok (e, []) := by
  have hsettles := settles_expression hshaped room stop h.glyphs_eq (stops_nil 0)
  rw [List.append_nil] at hsettles
  rcases hsettles with ⟨_, e', hbare, hread⟩ | ⟨hnot, _⟩
  · obtain ⟨used, hused, hspelled, _⟩ := spellsExpr_expression room _ _ _ _ hread
    rw [List.append_nil] at hused
    rw [hread, hspelled.unique h hused.symm hbare]
  · exact absurd hlevels hnot

end Expr.Spelled

namespace Cond.Spelled

variable {c c' : Cond} {tokens tokens' : List Token}

private theorem length_eq (h : c.Spelled tokens) (h' : c'.Spelled tokens')
    (hbare : c.bare = c'.bare) : tokens.length = tokens'.length := by
  have hglyphs := congrArg Cond.glyphs hbare
  rw [glyphs_bare, glyphs_bare, ← h.glyphs_eq, ← h'.glyphs_eq] at hglyphs
  simpa using congrArg List.length hglyphs

/-- The places of a condition are determined by its tokens. -/
theorem unique (h : c.Spelled tokens) (h' : c'.Spelled tokens') (htokens : tokens = tokens')
    (hbare : c.bare = c'.bare) : c = c' := by
  induction h generalizing c' tokens' with
  | compare hleft _ hright =>
    cases h' with
    | compare hleft' _ hright' =>
      obtain ⟨hop, hl, hr, _⟩ := Cond.compare.inj hbare
      obtain ⟨hbefore, hafter⟩ := List.append_inj htokens (hleft.length_eq hleft' hl)
      obtain ⟨_, hafter⟩ := List.cons.inj hafter
      rw [hop, hleft.unique hleft' hbefore hl, hright.unique hright' hafter hr]
    | logical => cases hbare
  | logical hleft _ _ ihl ihr =>
    cases h' with
    | compare => cases hbare
    | logical hleft' _ hright' =>
      obtain ⟨hop, hl, hr, _⟩ := Cond.logical.inj hbare
      obtain ⟨hbefore, hafter⟩ := List.append_inj htokens (hleft.length_eq hleft' hl)
      obtain ⟨_, hafter⟩ := List.cons.inj hafter
      rw [hop, ihl hleft' hbefore hl, ihr hright' hafter hr]

/-- The tokens of a condition in the shape of precedence are read as that condition. -/
theorem read (h : c.Spelled tokens) (hshaped : c.Shaped) {room : Nat}
    (hlevels : Within c.levels room) (stop : Span) : condition room stop tokens = .ok (c, []) := by
  have hsettles := settles_condition hshaped room stop h.glyphs_eq (ends_nil 0)
  rw [List.append_nil] at hsettles
  rcases hsettles with ⟨_, c', hbare, hread⟩ | ⟨hnot, _⟩
  · obtain ⟨used, hused, hspelled, _⟩ := spellsCond_condition room _ _ _ _ hread
    rw [List.append_nil] at hused
    rw [hread, hspelled.unique h hused.symm hbare]
  · exact absurd hlevels hnot

end Cond.Spelled

end NumericScript
