import NumericScript.Proofs.Nesting.Expr
import NumericScript.Proofs.ReadBack.Cond

/-!
# Reading the glyphs of a condition

Tokens with the glyphs of a condition in the shape of precedence are read as that condition if the
levels of its operands fit, however long its chains are.
-/

namespace NumericScript

/-- How tightly a token holds to a condition before it. -/
def TokenKind.hold : TokenKind → Nat
  | orOr => 1
  | andAnd => 2
  | _ => 0

/-- No expression goes on with what follows, and a condition no tighter than a number says. -/
def Ends (hold : Nat) (rest : List Token) : Prop :=
  Stops 0 rest ∧ ∀ t ∈ rest.head?, t.kind.hold ≤ hold

private theorem Ends.mono {hold hold' : Nat} {rest : List Token} (h : Ends hold rest)
    (hle : hold ≤ hold') : Ends hold' rest :=
  ⟨h.1, fun t hm => Nat.le_trans (h.2 t hm) hle⟩

theorem ends_nil (hold : Nat) : Ends hold [] := ⟨nofun, nofun⟩

/-- Tokens of a condition are settled by a reader, which then goes on. -/
def Cond.SettledBy (c : Cond) (hold room : Nat) (reader : Reader Cond)
    (goOn : Cond → Reader Cond) : Prop :=
  ∀ stop ts rest, ts.map Token.glyph = c.glyphs → Ends hold rest →
    Settles (Within c.levels room) (·.bare = c.bare) (fun read => goOn read stop rest)
      (reader stop (ts ++ rest))

/-- Read nothing more. -/
def noMore (read : Cond) : Reader Cond := fun _ rest => .ok (read, rest)

private theorem Cond.settledBy_comparison {op : CompareOp} {left right : Expr} {span : Span}
    (room : Nat) (h : (compare op left right span).Shaped) :
    (compare op left right span).SettledBy 2 room (comparison room) noMore := by
  intro stop ts rest hts hrest
  obtain ⟨before, after, rfl, hbefore, hafter⟩ := List.map_eq_append_iff.mp hts
  obtain ⟨t, more, rfl, ht, hmore⟩ := List.map_eq_cons_iff.mp hafter
  have hkind := Token.kind_of_glyph ht
  have hsome := compareOp?_eq_some.mpr hkind
  have hstops : Stops 0 (t :: (more ++ rest)) := by
    refine stops_cons _ ?_
    rw [hkind]
    cases op <;> decide
  rw [List.append_assoc, List.cons_append]
  refine (((settles_expression h.1 room stop hbefore hstops).bind _).trans
    fun read hread => ?_).congr within_append
  simp only [ok_bind, hsome]
  refine (((settles_expression h.2 room stop hmore hrest.1).orMissing _ _).bind _).map
    (fun right => .compare op read right (read.span.join right.span)) (fun right hright => ?_)
    fun _ _ => rfl
  simp only [bare, hread, hright]

section Chain

variable (op : LogicalOp) {link : Reader Cond} (progress : Shrinks link) {c left right : Cond}
  {stop : Span} {hold room : Nat}

private theorem chainRest_of_ne {rest : List Token} (h : ∀ t ∈ rest.head?, t.kind ≠ op.kind) :
    chainRest op.kind op link progress left stop rest = .ok (left, rest) := by
  cases rest with
  | nil => rw [chainRest_nil]
  | cons t later => rw [chainRest_cons, if_neg (h t rfl)]

/-- A chain begins with a link. -/
theorem Cond.SettledBy.chain (h : c.SettledBy hold room link noMore) :
    c.SettledBy hold room (chain op.kind op link progress) (chainRest op.kind op link progress) :=
  fun stop ts rest hts hrest => (h stop ts rest hts hrest).bind _

/-- A chain takes one more link. -/
theorem Cond.SettledBy.logical (span : Span)
    (hleft : left.SettledBy hold room (NumericScript.chain op.kind op link progress)
      (chainRest op.kind op link progress))
    (hright : right.SettledBy hold room link noMore) (hhold : op.kind.hold ≤ hold) :
    (Cond.logical op left right span).SettledBy hold room
      (NumericScript.chain op.kind op link progress) (chainRest op.kind op link progress) := by
  intro stop ts rest hts hrest
  obtain ⟨before, after, rfl, hbefore, hafter⟩ := List.map_eq_append_iff.mp hts
  obtain ⟨t, more, rfl, ht, hmore⟩ := List.map_eq_cons_iff.mp hafter
  have hkind := Token.kind_of_glyph ht
  have hends : Ends hold (t :: (more ++ rest)) := by
    refine ⟨stops_cons _ ?_, ?_⟩
    · rw [hkind]
      cases op <;> decide
    · rintro _ ⟨⟩
      rwa [hkind]
  rw [List.append_assoc, List.cons_append]
  refine ((hleft stop before _ hbefore hends).trans fun read hread => ?_).congr within_append
  rw [chainRest_cons, if_pos hkind]
  refine ((hright stop more rest hmore hrest).bind _).map
    (fun right => .join op read right) (fun right hright => ?_) fun _ _ => rfl
  simp only [Cond.join, Cond.bare, hread, hright]

/-- A chain ends where nothing goes on with it. -/
theorem Cond.SettledBy.ended (h : c.SettledBy (hold + 1) room
      (NumericScript.chain op.kind op link progress) (chainRest op.kind op link progress))
    (hhold : op.kind.hold = hold + 1) :
    c.SettledBy hold room (NumericScript.chain op.kind op link progress) noMore := by
  intro stop ts rest hts hrest
  have hends : ∀ t ∈ rest.head?, t.kind ≠ op.kind := by
    intro t hm hkind
    have hle := hrest.2 t hm
    rw [hkind] at hle
    omega
  exact (h stop ts rest hts (hrest.mono (Nat.le_succ _))).map id (fun _ => id)
    fun _ _ => chainRest_of_ne op progress hends

end Chain

/-- Tokens of a condition are settled by every reader that the condition holds together for. -/
structure Cond.Settled (c : Cond) (room : Nat) : Prop where
  comparison : 2 ≤ c.binding → c.SettledBy 2 room (comparison room) noMore
  conjunction : 1 ≤ c.binding → c.SettledBy 2 room (conjunction room)
    (chainRest .andAnd .and (NumericScript.comparison room) (shrinks_comparison room))
  condition : c.SettledBy 1 room (condition room)
    (chainRest .orOr .or (NumericScript.conjunction room) (shrinks_chain (shrinks_comparison room)))

/-- Every condition in the shape of precedence is settled. -/
theorem Cond.settled (c : Cond) (h : c.Shaped) (room : Nat) : c.Settled room := by
  induction c with
  | compare op left right span =>
    have hcomparison := settledBy_comparison room h
    have hconjunction := hcomparison.chain .and (shrinks_comparison room)
    exact ⟨fun _ => hcomparison, fun _ => hconjunction,
      (hconjunction.ended .and _ rfl).chain .or _⟩
  | logical op left right span ihl ihr =>
    obtain ⟨hleft, hright, hlbinding, hrbinding⟩ := h
    cases op with
    | and =>
      have hconjunction := ((ihl hleft).conjunction hlbinding).logical .and _ span
        ((ihr hright).comparison hrbinding) (Nat.le_refl 2)
      exact ⟨nofun, fun _ => hconjunction, (hconjunction.ended .and _ rfl).chain .or _⟩
    | or =>
      exact ⟨nofun, nofun, (ihl hleft).condition.logical .or _ span
        (((ihr hright).conjunction hrbinding).ended .and _ rfl) (Nat.le_refl 1)⟩

/-- Tokens of a condition are read as that condition if its levels fit. -/
theorem settles_condition {c : Cond} (h : c.Shaped) (room : Nat) (stop : Span)
    {ts rest : List Token} (hts : ts.map Token.glyph = c.glyphs) (hrest : Ends 0 rest) :
    Settles (Within c.levels room) (·.bare = c.bare) (fun read => .ok (read, rest))
      (condition room stop (ts ++ rest)) :=
  (c.settled h room).condition.ended .or _ rfl stop ts rest hts hrest

end NumericScript
