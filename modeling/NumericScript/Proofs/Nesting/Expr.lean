import NumericScript.Proofs.Nesting.Bare
import NumericScript.Proofs.Nesting.Level
import NumericScript.Proofs.ReadBack.Expr

/-!
# Reading the glyphs of an expression

Tokens with the glyphs of an expression in the shape of precedence are read as that expression if
its levels fit, and otherwise refused as too deep; no other error is possible. A chain is read up to
any operator that goes on with it, at which as many rungs are gone as the chain has operators.
-/

namespace NumericScript

theorem ok_bind {ε α β : Type} (a : α) (f : α → Except ε β) : (Except.ok a >>= f) = f a := rfl

/--
How nesting decides a run: if the levels fit it goes on with something good, and otherwise it fails
because it is too deep.
-/
def Settles {α β : Type} (fits : Prop) (good : α → Prop) (goOn : α → Except ScriptError β)
    (run : Except ScriptError β) : Prop :=
  (fits ∧ ∃ a, good a ∧ run = goOn a) ∨
    (¬fits ∧ ∃ error, error.cause = .tooDeep ∧ run = .error error)

namespace Settles

variable {α α' β β' : Type} {fits fits' : Prop} {good : α → Prop} {good' : α' → Prop}
  {goOn : α → Except ScriptError β} {goOn' : α' → Except ScriptError β}
  {run : Except ScriptError β}

/-- A run with levels that do not fit is settled by being too deep. -/
theorem of_tooDeep (hfits : ¬fits) {span : Span} :
    Settles fits good goOn (fail span .tooDeep) :=
  .inr ⟨hfits, _, rfl, rfl⟩

/-- What settles a run depends on whether the levels fit only. -/
theorem congr (h : Settles fits good goOn run) (hiff : fits' ↔ fits) :
    Settles fits' good goOn run := by
  rwa [propext hiff]

/-- What comes after a run does not matter to its nesting. -/
theorem bind (h : Settles fits good goOn run) (f : β → Except ScriptError β') :
    Settles fits good (fun a => goOn a >>= f) (run >>= f) := by
  rcases h with ⟨hfits, a, hgood, rfl⟩ | ⟨hfits, error, hdeep, rfl⟩
  · exact .inl ⟨hfits, a, hgood, rfl⟩
  · exact .inr ⟨hfits, error, hdeep, rfl⟩

/-- A run after a run. -/
theorem trans (h : Settles fits good goOn run)
    (hnext : ∀ a, good a → Settles fits' good' goOn' (goOn a)) :
    Settles (fits ∧ fits') good' goOn' run := by
  rcases h with ⟨hfits, a, hgood, rfl⟩ | ⟨hfits, error, hdeep, rfl⟩
  · rcases hnext a hgood with ⟨hfits', a', hgood', heq⟩ | ⟨hfits', error, hdeep, heq⟩
    · exact .inl ⟨⟨hfits, hfits'⟩, a', hgood', heq⟩
    · exact .inr ⟨fun h => hfits' h.2, error, hdeep, heq⟩
  · exact .inr ⟨fun h => hfits h.1, error, hdeep, rfl⟩

/-- A run goes on with what is made of its result. -/
theorem map (h : Settles fits good goOn run) (f : α → α') (hgood : ∀ a, good a → good' (f a))
    (hgoOn : ∀ a, good a → goOn a = goOn' (f a)) : Settles fits good' goOn' run := by
  rcases h with ⟨hfits, a, ha, rfl⟩ | herror
  · exact .inl ⟨hfits, f a, hgood a ha, hgoOn a ha⟩
  · exact .inr herror

/-- Nesting that is too deep is reported as it is, also by an operator. -/
theorem orMissing {f : α → β} (h : Settles fits good (fun a => .ok (f a)) run) (span : Span)
    (cause : Cause) : Settles fits good (fun a => .ok (f a)) (orMissing span cause run) := by
  rcases h with ⟨hfits, a, hgood, rfl⟩ | ⟨hfits, ⟨place, _⟩, rfl, rfl⟩
  · exact .inl ⟨hfits, a, hgood, rfl⟩
  · exact of_tooDeep hfits

end Settles

/-- How tightly a token holds to an expression before it. -/
def TokenKind.grip : TokenKind → Nat
  | plus | minus => 1
  | star | slash => 2
  | caret => 3
  | leftBracket => 4
  | _ => 0

/-- What follows an expression holds to it no tighter than a number says. -/
def Stops (grip : Nat) (rest : List Token) : Prop := ∀ t ∈ rest.head?, t.kind.grip ≤ grip

private theorem Stops.mono {grip grip' : Nat} {rest : List Token} (h : Stops grip rest)
    (hle : grip ≤ grip') : Stops grip' rest :=
  fun t hm => Nat.le_trans (h t hm) hle

theorem stops_nil (grip : Nat) : Stops grip [] := nofun

/-- A token that holds no tighter than a number says stops an expression. -/
theorem stops_cons {grip : Nat} {t : Token} (rest : List Token) (h : t.kind.grip ≤ grip) :
    Stops grip (t :: rest) := by
  rintro _ ⟨⟩
  exact h

/-- A token with the glyph of a mark is one that is expected by its kind. -/
theorem expect_of_glyph {t : Token} {kind : TokenKind} (h : t.glyph = .mark kind) (cause : Cause)
    (stop : Span) (rest : List Token) : expect kind cause stop (t :: rest) = .ok (t, rest) :=
  expect_eq_ok.mpr ⟨rfl, Token.kind_of_glyph h⟩

section Ladder

variable {rungs : Ladder} {left : Expr} {stop : Span}

private theorem Tier.ends_of_stops {tier : Tier} {rest : List Token} (h : Stops tier.binding rest) :
    tier.Ends rest := by
  intro t hm
  have hgrip := h t hm
  cases tier <;> cases hkind : t.kind <;>
    simp_all [op?, productOp?, sumOp?, TokenKind.grip, binding]

/-- A chain goes on one rung down; without a rung what it goes on with is too deep. -/
theorem Tier.rest_operator {tier : Tier} {t : Token} {op : BinaryOp} (more : List Token)
    (hkind : t.kind = op.kind) (hop : op.leftBinding = tier.binding) :
    tier.rest rungs left stop (t :: more) = (do
      let (right, rest) ← orMissing t.span (.missingOperand t.lexeme tier.operators)
        (tier.side rungs.tail stop more)
      tier.rest rungs.tail (.binary op left right (left.span.join right.span)) stop rest) := by
  have hsome := op?_eq_some.mpr ⟨hkind, hop⟩
  cases rungs with
  | nil =>
    rw [rest_no_rung hsome]
    cases tier <;> rfl
  | cons rung lower => rw [rest_rung hsome, List.tail_cons]

/-- An operand without a sign is a power. -/
theorem signedOperand_of_ne {t : Token} (more : List Token) (h : t.kind ≠ .minus) :
    signedOperand rungs stop (t :: more) = power rungs stop (t :: more) := by
  unfold signedOperand
  split
  · rename_i heq
    obtain ⟨rfl, rfl⟩ := List.cons.inj heq
    exact absurd rfl h
  · rfl

end Ladder

@[simp] private theorem tail_ladder (room : Nat) : (ladder room).tail = ladder (room - 1) := by
  cases room <;> rfl

/-- Tokens of an expression are settled by the reader of what needs no parentheses anywhere. -/
def Expr.Calls (e : Expr) : Prop :=
  ∀ room stop ts rest, ts.map Token.glyph = e.glyphs → Stops 3 rest →
    Settles (Within e.levels (room + 1)) (·.bare = e.bare) (fun read => .ok (read, rest))
      (NumericScript.call (ladder room) stop (ts ++ rest))

/-- Tokens of an expression are settled by the reader of operands. -/
def Expr.Operands (e : Expr) : Prop :=
  ∀ room stop ts rest, ts.map Token.glyph = e.glyphs → Stops 2 rest →
    Settles (Within e.levels room) (·.bare = e.bare) (fun read => .ok (read, rest))
      (operand (ladder room) stop (ts ++ rest))

/-- Tokens of an expression are settled by the reader of products, which then goes on. -/
def Expr.Products (e : Expr) : Prop :=
  ∀ room stop ts rest, ts.map Token.glyph = e.glyphs → Stops 2 rest →
    Settles (Within e.levels room) (·.bare = e.bare)
      (fun read => productRest (ladder (room - e.products)) read stop rest)
      (product (ladder room) stop (ts ++ rest))

/-- Tokens of an expression are settled by the reader of sums, which then goes on. -/
def Expr.Sums (e : Expr) : Prop :=
  ∀ room stop ts rest, ts.map Token.glyph = e.glyphs → Stops 1 rest →
    Settles (Within e.levels room) (·.bare = e.bare)
      (fun read => sumRest (ladder (room - e.sums)) read stop rest)
      (sum (ladder room) stop (ts ++ rest))

/--
Tokens of an expression are settled by the reader of a chain, which then goes on with the rungs that
a number of operators leaves.
-/
def Expr.Chains (tier : Tier) (operators : Nat) (e : Expr) : Prop :=
  ∀ room stop ts rest, ts.map Token.glyph = e.glyphs → Stops (tier.binding + 1) rest →
    Settles (Within e.levels room) (·.bare = e.bare)
      (fun read => tier.rest (ladder (room - operators)) read stop rest)
      (tier.whole (ladder room) stop (ts ++ rest))

namespace Expr

variable {e : Expr}

/-- A chain ends where nothing goes on with it. -/
theorem Chains.read {tier : Tier} {operators : Nat} (h : e.Chains tier operators) (room : Nat)
    (stop : Span) {ts rest : List Token} (hts : ts.map Token.glyph = e.glyphs)
    (hrest : Stops tier.binding rest) :
    Settles (Within e.levels room) (·.bare = e.bare) (fun read => .ok (read, rest))
      (tier.whole (ladder room) stop (ts ++ rest)) :=
  (h room stop ts rest hts (hrest.mono (Nat.le_succ _))).map id (fun _ => id)
    fun _ _ => Tier.rest_of_ends (Tier.ends_of_stops hrest)

private theorem Products.read (h : e.Products) (room : Nat) (stop : Span) {ts rest : List Token}
    (hts : ts.map Token.glyph = e.glyphs) (hrest : Stops 1 rest) :
    Settles (Within e.levels room) (·.bare = e.bare) (fun read => .ok (read, rest))
      (product (ladder room) stop (ts ++ rest)) :=
  Chains.read (show e.Chains .products e.products from h) room stop hts hrest

private theorem Sums.read (h : e.Sums) (room : Nat) (stop : Span) {ts rest : List Token}
    (hts : ts.map Token.glyph = e.glyphs) (hrest : Stops 0 rest) :
    Settles (Within e.levels room) (·.bare = e.bare) (fun read => .ok (read, rest))
      (sum (ladder room) stop (ts ++ rest)) :=
  Chains.read (show e.Chains .sums e.sums from h) room stop hts hrest

/-- What needs no parentheses anywhere does not begin with a sign. -/
theorem glyphs_of_binding (h : 3 ≤ e.binding) :
    ∃ glyph more, e.glyphs = glyph :: more ∧ glyph ≠ .mark .minus := by
  cases e with
  | number value => exact ⟨_, _, rfl, nofun⟩
  | scalar name => exact ⟨_, _, rfl, nofun⟩
  | element name index => exact ⟨_, _, rfl, nofun⟩
  | call builtin argument => exact ⟨_, _, rfl, nofun⟩
  | group inner => exact ⟨_, _, rfl, nofun⟩
  | binary op => cases op <;> simp [binding, BinaryOp.binding] at h
  | negate => simp [binding] at h

/-- The signs that an expression can begin with. -/
theorem glyphs_head (e : Expr) :
    ∃ glyph more, e.glyphs = glyph :: more ∧
      ∀ kind, glyph = .mark kind → kind = .minus ∨ kind = .leftParen ∨ ∃ f, kind = .function f := by
  induction e with
  | number value => exact ⟨_, _, rfl, nofun⟩
  | scalar name => exact ⟨_, _, rfl, nofun⟩
  | element name index => exact ⟨_, _, rfl, nofun⟩
  | binary op left right span ihl =>
    obtain ⟨glyph, more, hglyphs, hkind⟩ := ihl
    exact ⟨glyph, _, by rw [glyphs, hglyphs, List.cons_append], hkind⟩
  | negate operand => exact ⟨_, _, rfl, fun kind h => .inl (Glyph.mark.inj h).symm⟩
  | call builtin argument =>
    exact ⟨_, _, rfl, fun kind h => .inr (.inr ⟨builtin, (Glyph.mark.inj h).symm⟩)⟩
  | group inner => exact ⟨_, _, rfl, fun kind h => .inr (.inl (Glyph.mark.inj h).symm)⟩

/-- An operand that does not begin with a sign is a power. -/
theorem operand_of_glyphs {room : Nat} {stop : Span} {ts rest : List Token} (h : 3 ≤ e.binding)
    {more : List Glyph} (hts : ts.map Token.glyph = e.glyphs ++ more) :
    operand (ladder (room + 1)) stop (ts ++ rest) = power (ladder room) stop (ts ++ rest) := by
  obtain ⟨glyph, later, hglyphs, hne⟩ := glyphs_of_binding h
  rw [hglyphs, List.cons_append] at hts
  obtain ⟨t, ts, rfl, rfl, _⟩ := List.map_eq_cons_iff.mp hts
  refine signedOperand_of_ne _ fun hkind => hne ?_
  exact Token.glyph_of_kind hkind

private theorem operands_of_calls (h : e.Calls) (hbinding : 3 ≤ e.binding) : e.Operands := by
  intro room stop ts rest hts hrest
  cases room with
  | zero => exact .of_tooDeep e.not_within_zero
  | succ room =>
    rw [operand_of_glyphs hbinding (hts.trans (List.append_nil _).symm)]
    refine ((h room stop ts rest hts (hrest.mono (by decide))).bind _).map id (fun _ => id) ?_
    intro read _
    have hcaret : ∀ t ∈ rest.head?, t.kind ≠ .caret := by
      intro t hm hkind
      have := hrest t hm
      simp [hkind, TokenKind.grip] at this
    dsimp only [Bind.bind, Except.bind]
    split
    · exact absurd rfl (hcaret _ rfl)
    · rfl

private theorem products_of_operands (h : e.Operands) (hproducts : e.products = 0) :
    e.Products := by
  intro room stop ts rest hts hrest
  rw [hproducts]
  exact (h room stop ts rest hts hrest).bind _

private theorem sums_of_products (h : e.Products) (hsums : e.sums = 0) : e.Sums := by
  intro room stop ts rest hts hrest
  rw [hsums]
  exact (h.read room stop hts hrest).bind _

/-- A chain takes one more operator and what is joined by it. -/
theorem Chains.binary {tier : Tier} {op : BinaryOp} {left right : Expr} {span : Span}
    {operators : Nat} (hop : op.leftBinding = tier.binding) (hdepth : op.depth left = operators + 1)
    (hleft : left.Chains tier operators)
    (hright : ∀ room stop ts rest, ts.map Token.glyph = right.glyphs →
      Stops (tier.binding + 1) rest → Settles (Within right.levels room) (·.bare = right.bare)
        (fun read => .ok (read, rest)) (tier.side (ladder room) stop (ts ++ rest))) :
    (binary op left right span).Chains tier (operators + 1) := by
  have hgrip : op.kind.grip ≤ tier.binding + 1 := by
    cases tier <;> cases op <;> simp_all [BinaryOp.leftBinding, Tier.binding, BinaryOp.kind,
      TokenKind.grip]
  intro room stop ts rest hts hrest
  obtain ⟨before, after, rfl, hbefore, hafter⟩ := List.map_eq_append_iff.mp hts
  obtain ⟨t, more, rfl, ht, hmore⟩ := List.map_eq_cons_iff.mp hafter
  have hkind := glyphOf_eq_mark ht
  rw [List.append_assoc, List.cons_append]
  have hstops : Stops (tier.binding + 1) (t :: (more ++ rest)) :=
    stops_cons _ (by rw [hkind]; exact hgrip)
  refine ((hleft room stop before _ hbefore hstops).trans fun read hread => ?_).congr
    within_binary
  rw [Tier.rest_operator _ hkind hop, tail_ladder, hdepth, Nat.sub_sub]
  refine (((hright _ stop more rest hmore hrest).orMissing _ _).bind _).map
    (fun right => .binary op read right (read.span.join right.span)) (fun right hright => ?_)
    fun _ _ => rfl
  simp only [bare, hread, hright]

/-- A chain of `*` and `/` takes one more operand. -/
theorem products_binary {op : BinaryOp} {left right : Expr} {span : Span}
    (hop : op.leftBinding = 1) (hleft : left.Products) (hright : right.Operands) :
    (binary op left right span).Products := by
  have hdepth : op.depth left = left.products + 1 := by
    cases op <;> simp [BinaryOp.leftBinding] at hop <;> rfl
  have hproducts : (binary op left right span).products = left.products + 1 := by
    cases op <;> simp [BinaryOp.leftBinding] at hop <;> rfl
  have hchains : (binary op left right span).Chains .products (left.products + 1) :=
    .binary hop hdepth hleft hright
  rw [← hproducts] at hchains
  exact hchains

/-- A chain of `+` and `-` takes one more product. -/
theorem sums_binary {op : BinaryOp} {left right : Expr} {span : Span}
    (hop : op.leftBinding = 0) (hleft : left.Sums) (hright : right.Products) :
    (binary op left right span).Sums := by
  have hdepth : op.depth left = left.sums + 1 := by
    cases op <;> simp [BinaryOp.leftBinding] at hop <;> rfl
  have hsums : (binary op left right span).sums = left.sums + 1 := by
    cases op <;> simp [BinaryOp.leftBinding] at hop <;> rfl
  have hchains : (binary op left right span).Chains .sums (left.sums + 1) :=
    .binary hop hdepth hleft fun room stop ts rest hts hrest => hright.read room stop hts hrest
  rw [← hsums] at hchains
  exact hchains

/-- A power is read with its base and its exponent. -/
theorem operands_power {left right : Expr} {span : Span} (hbinding : 3 ≤ left.binding)
    (hleft : left.Calls) (hright : right.Operands) : (binary .pow left right span).Operands := by
  intro room stop ts rest hts hrest
  cases room with
  | zero => exact .of_tooDeep (not_within_zero _)
  | succ room =>
    rw [operand_of_glyphs hbinding hts]
    obtain ⟨before, after, rfl, hbefore, hafter⟩ := List.map_eq_append_iff.mp hts
    obtain ⟨⟨kind, lexeme, place⟩, more, rfl, ht, hmore⟩ := List.map_eq_cons_iff.mp hafter
    obtain rfl : kind = .caret := glyphOf_eq_mark ht
    rw [List.append_assoc, List.cons_append]
    have hstops : Stops 3 (⟨.caret, lexeme, place⟩ :: (more ++ rest)) :=
      stops_cons _ (Nat.le_refl 3)
    refine (((hleft room stop before _ hbefore hstops).bind _).trans fun read hread => ?_).congr
      within_binary
    refine (((hright room stop more rest hmore hrest).orMissing _ _).bind _).map
      (fun right => .binary .pow read right (read.span.join right.span)) (fun right hright => ?_)
      fun _ _ => rfl
    simp only [bare, hread, hright]

private theorem operands_negate {inner : Expr} {span : Span} (h : inner.Operands) :
    (negate inner span).Operands := by
  intro room stop ts rest hts hrest
  cases room with
  | zero => exact .of_tooDeep (not_within_zero _)
  | succ room =>
    obtain ⟨⟨kind, lexeme, place⟩, more, rfl, ht, hmore⟩ := List.map_eq_cons_iff.mp hts
    obtain rfl : kind = .minus := glyphOf_eq_mark ht
    refine (((h room stop more rest hmore hrest).bind _).map
      (fun inner => .negate inner (place.join inner.span)) (fun inner hinner => ?_)
      fun _ _ => rfl).congr within_deeper
    simp only [bare, hinner]

private theorem calls_call {f : Builtin} {argument : Expr} {span : Span} (h : argument.Calls) :
    (call f argument span).Calls := by
  intro room stop ts rest hts hrest
  obtain ⟨⟨kind, lexeme, place⟩, more, rfl, ht, hmore⟩ := List.map_eq_cons_iff.mp hts
  obtain rfl : kind = .function f := glyphOf_eq_mark ht
  cases room with
  | zero => exact .of_tooDeep fun h => argument.not_within_zero (within_deeper.mp h)
  | succ room =>
    refine ((((h room stop more rest hmore hrest).orMissing _ _).bind _).map
      (fun argument => .call f argument (place.join argument.span)) (fun argument hargument => ?_)
      fun _ _ => rfl).congr within_deeper
    simp only [bare, hargument]

/-- What does not begin with a function's name is a primary. -/
theorem call_of_ne {rungs : Ladder} {stop : Span} {t : Token} (more : List Token)
    (h : ∀ f, t.kind ≠ .function f) :
    NumericScript.call rungs stop (t :: more) = primary rungs stop (t :: more) := by
  unfold NumericScript.call
  split
  · rename_i heq
    obtain ⟨rfl, rfl⟩ := List.cons.inj heq
    exact absurd rfl (h _)
  · rfl

/-- What stands in parentheses is not nothing. -/
theorem grouped_of_head {rungs : Ladder} {paren : Token} {stop : Span}
    {tokens : List Token} (h : ∀ t ∈ tokens.head?, t.kind ≠ .rightParen) :
    grouped rungs paren stop tokens = (do
      let (inner, rest) ← NumericScript.sum rungs stop tokens
      let (close, rest) ← expect .rightParen .unclosedParen stop rest
      .ok (.group inner (paren.span.join close.span), rest)) := by
  unfold grouped
  split
  · exact absurd rfl (h _ rfl)
  · rfl

private theorem calls_group {inner : Expr} {span : Span} (h : inner.Sums) :
    (group inner span).Calls := by
  intro room stop ts rest hts hrest
  obtain ⟨paren, more, rfl, hparen, hmore⟩ := List.map_eq_cons_iff.mp hts
  obtain ⟨before, after, rfl, hbefore, hafter⟩ := List.map_eq_append_iff.mp hmore
  obtain ⟨close, last, rfl, hclose, hlast⟩ := List.map_eq_cons_iff.mp hafter
  obtain rfl := List.map_eq_nil_iff.mp hlast
  have hkind := Token.kind_of_glyph hparen
  have hhead : ∀ t ∈ (before ++ (close :: rest)).head?, t.kind ≠ .rightParen := by
    obtain ⟨glyph, later, hglyphs, hne⟩ := inner.glyphs_head
    rw [hglyphs] at hbefore
    obtain ⟨t, before, rfl, rfl, _⟩ := List.map_eq_cons_iff.mp hbefore
    rintro _ ⟨⟩ hright
    rcases hne _ (Token.glyph_of_kind hright) with h | h | ⟨_, h⟩ <;> cases h
  rw [List.cons_append, List.append_assoc, List.cons_append, List.nil_append,
    call_of_ne _ (by simp [hkind])]
  simp only [primary, hkind]
  rw [grouped_of_head hhead]
  have hstops : Stops 0 (close :: rest) :=
    stops_cons _ (by simp [Token.kind_of_glyph hclose, TokenKind.grip])
  refine (((h.read room stop hbefore hstops).bind _).map
    (fun inner => .group inner (paren.span.join close.span)) (fun inner hinner => ?_)
    fun inner _ => ?_).congr within_deeper
  · simp only [bare, hinner]
  · refine bind_eq_ok.mpr ⟨(inner, close :: rest), rfl, ?_⟩
    exact bind_eq_ok.mpr ⟨(close, rest), expect_of_glyph hclose _ _ _, rfl⟩

private theorem calls_element {name : String} {index : Expr} {span : Span} (h : index.Sums) :
    (element name index span).Calls := by
  intro room stop ts rest hts hrest
  obtain ⟨first, more, rfl, hfirst, hmore⟩ := List.map_eq_cons_iff.mp hts
  obtain ⟨bracket, more, rfl, hbracket, hmore⟩ := List.map_eq_cons_iff.mp hmore
  obtain ⟨before, after, rfl, hbefore, hafter⟩ := List.map_eq_append_iff.mp hmore
  obtain ⟨close, last, rfl, hclose, hlast⟩ := List.map_eq_cons_iff.mp hafter
  obtain rfl := List.map_eq_nil_iff.mp hlast
  obtain ⟨hkind, rfl⟩ := glyphOf_eq_name hfirst
  rw [List.cons_append, List.cons_append, List.append_assoc, List.cons_append, List.nil_append,
    call_of_ne _ (by simp [hkind])]
  simp only [primary, hkind, named, Token.kind_of_glyph hbracket, if_true]
  have hstops : Stops 0 (close :: rest) :=
    stops_cons _ (by simp [Token.kind_of_glyph hclose, TokenKind.grip])
  refine (((h.read room stop hbefore hstops).bind _).map
    (fun index => .element first.lexeme index (first.span.join close.span))
    (fun index hindex => ?_) fun index _ => ?_).congr within_deeper
  · simp only [bare, hindex]
  · refine bind_eq_ok.mpr ⟨(index, close :: rest), rfl, ?_⟩
    exact bind_eq_ok.mpr ⟨(close, rest), expect_of_glyph hclose _ _ _, rfl⟩

private theorem calls_number (value : Single) (span : Span) : (number value span).Calls := by
  intro room stop ts rest hts hrest
  obtain ⟨t, more, rfl, ht, hmore⟩ := List.map_eq_cons_iff.mp hts
  obtain rfl := List.map_eq_nil_iff.mp hmore
  obtain ⟨hkind, hvalue⟩ := glyphOf_eq_number ht
  rw [List.cons_append, List.nil_append, call_of_ne _ (by simp [hkind])]
  simp only [primary, hkind, hvalue]
  exact .inl ⟨by simp [Within, levels], number value t.span, rfl, rfl⟩

private theorem calls_scalar (name : String) (span : Span) : (scalar name span).Calls := by
  intro room stop ts rest hts hrest
  obtain ⟨t, more, rfl, ht, hmore⟩ := List.map_eq_cons_iff.mp hts
  obtain rfl := List.map_eq_nil_iff.mp hmore
  obtain ⟨hkind, rfl⟩ := glyphOf_eq_name ht
  rw [List.cons_append, List.nil_append, call_of_ne _ (by simp [hkind])]
  have hread : named (ladder room) t stop rest = .ok (.scalar t.lexeme t.span, rest) := by
    cases rest with
    | nil => rfl
    | cons next later =>
      have hbracket : next.kind ≠ .leftBracket := by
        intro hbracket
        have := hrest next rfl
        simp [hbracket, TokenKind.grip] at this
      simp only [named, if_neg hbracket]
  simp only [primary, hkind, hread]
  exact .inl ⟨by simp [Within, levels], scalar t.lexeme t.span, rfl, rfl⟩

/-- Tokens of an expression are settled by every reader that the expression holds together for. -/
structure Settled (e : Expr) : Prop where
  calls : 3 ≤ e.binding → e.Calls
  operands : 2 ≤ e.binding → e.Operands
  products : 1 ≤ e.binding → e.Products
  sums : e.Sums

private theorem settled_of_products (h : e.Products) (hbinding : e.binding = 1)
    (hsums : e.sums = 0) : e.Settled :=
  ⟨by omega, by omega, fun _ => h, sums_of_products h hsums⟩

private theorem settled_of_operands (h : e.Operands) (hcalls : 3 ≤ e.binding → e.Calls)
    (hproducts : e.products = 0) (hsums : e.sums = 0) : e.Settled :=
  have hchain := products_of_operands h hproducts
  ⟨hcalls, fun _ => h, fun _ => hchain, sums_of_products hchain hsums⟩

/-- What needs no parentheses anywhere is also an operand, a product and a sum. -/
theorem settled_of_calls (h : e.Calls) (hbinding : 3 ≤ e.binding) : e.Settled := by
  have hoperands := operands_of_calls h hbinding
  cases e with
  | binary op => cases op <;> simp [binding, BinaryOp.binding] at hbinding
  | _ => exact settled_of_operands hoperands (fun _ => h) rfl rfl

private theorem settled_binary {op : BinaryOp} {left right : Expr} {span : Span}
    (h : (binary op left right span).Shaped) (hleft : left.Settled) (hright : right.Settled) :
    (binary op left right span).Settled := by
  obtain ⟨_, _, hlbinding, hrbinding⟩ := h
  cases op with
  | pow =>
    exact settled_of_operands
      (operands_power hlbinding (hleft.calls hlbinding) (hright.operands hrbinding)) nofun rfl rfl
  | add | sub => exact ⟨nofun, nofun, nofun, sums_binary rfl hleft.sums (hright.products hrbinding)⟩
  | mul | div =>
    exact settled_of_products
      (products_binary rfl (hleft.products hlbinding) (hright.operands hrbinding)) rfl rfl

/-- Every expression in the shape of precedence is settled. -/
theorem settled (e : Expr) (h : e.Shaped) : e.Settled := by
  induction e with
  | number value span => exact settled_of_calls (calls_number value span) (Nat.le_refl 3)
  | scalar name span => exact settled_of_calls (calls_scalar name span) (Nat.le_refl 3)
  | element name index span ih => exact settled_of_calls (calls_element (ih h).sums) (Nat.le_refl 3)
  | group inner span ih => exact settled_of_calls (calls_group (ih h).sums) (Nat.le_refl 3)
  | call f argument span ih =>
    exact settled_of_calls (calls_call ((ih h.1).calls h.2)) (Nat.le_refl 3)
  | negate inner span ih =>
    exact settled_of_operands (operands_negate ((ih h.1).operands h.2)) nofun rfl rfl
  | binary op left right span ihl ihr => exact settled_binary h (ihl h.1) (ihr h.2.1)

end Expr

/-- Tokens of an expression are read as that expression if its levels fit. -/
theorem settles_expression {e : Expr} (h : e.Shaped) (room : Nat) (stop : Span)
    {ts rest : List Token} (hts : ts.map Token.glyph = e.glyphs) (hrest : Stops 0 rest) :
    Settles (Within e.levels room) (·.bare = e.bare) (fun read => .ok (read, rest))
      (expression room stop (ts ++ rest)) :=
  (e.settled h).sums.read room stop hts hrest

end NumericScript
