import NumericScript.Grammar.Cond
import NumericScript.Proofs.ReadBack.Expr

/-!
# Where readers find errors

The places that a reader blames are those of its tokens, that of the line's end, and what joins two
of them. So a property of places that holds of these, and of what joins two places that have it,
holds of the place of every error.
-/

namespace NumericScript

/-- A property of places that two places give to what joins them. -/
def Joins (good : Span → Prop) : Prop := ∀ a b, good a → good b → good (a.join b)

/-- The places of some tokens have a property. -/
def AllAt (good : Span → Prop) (tokens : List Token) : Prop := ∀ t ∈ tokens, good t.span

/-- The place of an error has a property, and what is given instead of an error has another one. -/
inductive Blames {α : Type} (good : Span → Prop) (post : α → Prop) : Except ScriptError α → Prop
  | ok {a : α} (h : post a) : Blames good post (.ok a)
  | error {error : ScriptError} (h : good error.span) : Blames good post (.error error)

/-- Among places with a property, a reader blames only such places. -/
def BlamesIn {α : Type} (good : Span → Prop) (reader : Reader α) : Prop :=
  ∀ stop tokens, good stop → AllAt good tokens →
    Blames good (fun result => AllAt good result.2) (reader stop tokens)

namespace Blames

variable {α β : Type} {good : Span → Prop} {post : α → Prop} {post' : β → Prop}
  {x : Except ScriptError α}

/-- A failure at a place with the property is blamed on such a place. -/
theorem fail {span : Span} {cause : Cause} (h : good span) :
    Blames good post (fail span cause) := .error h

/-- An error is in a place with the property. -/
theorem of_error (h : Blames good post x) {error : ScriptError} (herror : x = .error error) :
    good error.span := by
  cases h with
  | ok => cases herror
  | error h => exact Except.error.inj herror ▸ h

/-- Blame among fewer places, with more said of the result, is blame all the same. -/
theorem mono {own : Span → Prop} {post' : α → Prop} (h : Blames own post x)
    (hown : ∀ span, own span → good span) (hpost : ∀ a, post a → post' a) :
    Blames good post' x := by
  cases h with
  | ok h => exact .ok (hpost _ h)
  | error h => exact .error (hown _ h)

/-- Blame in a sequence is blame in each of its parts. -/
theorem bind {next : α → Except ScriptError β} (h : Blames good post x)
    (hnext : ∀ a, post a → Blames good post' (next a)) : Blames good post' (x >>= next) := by
  cases h with
  | ok h => exact hnext _ h
  | error h => exact .error h

/-- What is read is not looked at, only the tokens after it. -/
theorem bindRest {x : Except ScriptError (α × List Token)}
    {next : α × List Token → Except ScriptError β}
    (h : Blames good (fun result => AllAt good result.2) x)
    (hnext : ∀ a rest, AllAt good rest → Blames good post' (next (a, rest))) :
    Blames good post' (x >>= next) :=
  h.bind fun result => hnext result.1 result.2

private theorem orMissing (h : Blames good post x) {span : Span} (hspan : good span)
    (cause : Cause) : Blames good post (orMissing span cause x) := by
  cases h with
  | ok h => exact .ok h
  | @error error h =>
    obtain ⟨place, found⟩ := error
    cases found with
    | tooDeep => exact .error h
    | _ => exact .error hspan

end Blames

section Tokens

variable {good : Span → Prop} {stop : Span} {t : Token} {rest tokens : List Token}

/-- The next place of a line is that of a token or of the line's end. -/
theorem AllAt.nextSpan (htokens : AllAt good tokens) (hstop : good stop) :
    good (nextSpan stop tokens) := by
  cases tokens with
  | nil => exact hstop
  | cons t rest => exact htokens t List.mem_cons_self

/-- Places of several tokens are those of the first one and of the others. -/
theorem allAt_cons : AllAt good (t :: rest) ↔ good t.span ∧ AllAt good rest := List.forall_mem_cons

/--
A token that was expected is blamed on the token that stands there, or on the end of the line.
-/
theorem blamesIn_expect (kind : TokenKind) (cause : Cause) : BlamesIn good (expect kind cause) := by
  intro stop tokens hstop htokens
  cases tokens with
  | nil => exact .fail hstop
  | cons t rest =>
    obtain ⟨ht, hrest⟩ := allAt_cons.mp htokens
    rw [expect]
    split
    · exact .ok hrest
    · exact .fail ht

end Tokens

section Expressions

variable {good : Span → Prop} {rungs : Ladder} (h : ∀ rung ∈ rungs, BlamesIn good rung)

include h

private theorem blamesIn_operand : BlamesIn good (operand rungs) := by
  intro stop tokens hstop htokens
  cases rungs with
  | nil => exact .fail (htokens.nextSpan hstop)
  | cons rung lower => exact h rung List.mem_cons_self stop tokens hstop htokens

section Chains

variable (tier : Tier) (hside : ∀ {rungs : Ladder}, (∀ rung ∈ rungs, BlamesIn good rung) →
  BlamesIn good (tier.side rungs))

include hside

private theorem Tier.blamesIn_rest (left : Expr) : BlamesIn good (tier.rest rungs left) := by
  intro stop tokens hstop htokens
  induction rungs generalizing left tokens with
  | nil =>
    obtain hends | ⟨t, later, op, rfl, hop⟩ := tier.ends_or_operator tokens
    · exact rest_of_ends hends ▸ .ok htokens
    · exact rest_no_rung hop ▸ .fail ((allAt_cons.mp htokens).2.nextSpan hstop)
  | cons rung lower ih =>
    obtain ⟨_, hlower⟩ := List.forall_mem_cons.mp h
    obtain hends | ⟨t, later, op, rfl, hop⟩ := tier.ends_or_operator tokens
    · exact rest_of_ends hends ▸ .ok htokens
    · obtain ⟨ht, hlater⟩ := allAt_cons.mp htokens
      rw [rest_rung hop]
      have hright := hside hlower stop later hstop hlater
      exact (hright.orMissing ht _).bindRest fun right after => ih hlower _ after

private theorem Tier.blamesIn_whole : BlamesIn good (tier.whole rungs) := by
  intro stop tokens hstop htokens
  rw [whole_eq]
  refine (hside h stop tokens hstop htokens).bindRest fun left after => ?_
  exact tier.blamesIn_rest h hside left stop after hstop

end Chains

private theorem blamesIn_product : BlamesIn good (product rungs) :=
  Tier.products.blamesIn_whole h blamesIn_operand

private theorem blamesIn_sum : BlamesIn good (sum rungs) :=
  Tier.sums.blamesIn_whole h blamesIn_product

private theorem blamesIn_named (name : Token) : BlamesIn good (named rungs name) := by
  intro stop tokens hstop htokens
  cases tokens with
  | nil => exact .ok htokens
  | cons t inner =>
    obtain ⟨_, hinner⟩ := allAt_cons.mp htokens
    rw [named]
    split
    · refine (blamesIn_sum h stop inner hstop hinner).bindRest fun index rest hrest => ?_
      refine (blamesIn_expect _ _ stop rest hstop hrest).bindRest fun close rest hrest => ?_
      exact .ok hrest
    · exact .ok htokens

variable (hjoins : Joins good)

include hjoins

/-- Empty parentheses are blamed together, which is why places are joined. -/
theorem blamesIn_grouped {paren : Token} (hparen : good paren.span) :
    BlamesIn good (grouped rungs paren) := by
  intro stop tokens hstop htokens
  rw [grouped.eq_def]
  split
  · exact .fail (hjoins _ _ hparen (allAt_cons.mp htokens).1)
  · refine (blamesIn_sum h stop _ hstop htokens).bindRest fun inner rest hrest => ?_
    refine (blamesIn_expect _ _ stop rest hstop hrest).bindRest fun close rest hrest => ?_
    exact .ok hrest

private theorem blamesIn_primary : BlamesIn good (primary rungs) := by
  intro stop tokens hstop htokens
  cases tokens with
  | nil => exact .fail hstop
  | cons t rest =>
    obtain ⟨ht, hrest⟩ := allAt_cons.mp htokens
    rw [primary]
    split
    · split
      · exact .ok hrest
      · exact .fail ht
    · exact blamesIn_named h t stop rest hstop hrest
    · exact blamesIn_grouped h hjoins ht stop rest hstop hrest
    · exact .fail ht

private theorem blamesIn_call : BlamesIn good (call rungs) := by
  intro stop tokens hstop htokens
  induction rungs generalizing tokens with
  | nil =>
    rw [call.eq_def]
    split
    · exact .fail ((allAt_cons.mp htokens).2.nextSpan hstop)
    · exact blamesIn_primary h hjoins _ _ hstop htokens
  | cons rung lower ih =>
    obtain ⟨_, hlower⟩ := List.forall_mem_cons.mp h
    rw [call.eq_def]
    split
    · obtain ⟨ht, hrest⟩ := allAt_cons.mp htokens
      have hargument := ih hlower _ hrest
      exact (hargument.orMissing ht _).bindRest fun argument rest hrest => .ok hrest
    · exact blamesIn_primary h hjoins _ _ hstop htokens

private theorem blamesIn_power : BlamesIn good (power rungs) := by
  intro stop tokens hstop htokens
  refine (blamesIn_call h hjoins stop tokens hstop htokens).bindRest fun base rest hrest => ?_
  dsimp only
  split
  · obtain ⟨ht, hlater⟩ := allAt_cons.mp hrest
    have hoperand := blamesIn_operand h stop _ hstop hlater
    exact (hoperand.orMissing ht _).bindRest fun exponent rest hrest => .ok hrest
  · exact .ok hrest

private theorem blamesIn_signedOperand : BlamesIn good (signedOperand rungs) := by
  intro stop tokens hstop htokens
  rw [signedOperand.eq_def]
  split
  · have hoperand := blamesIn_operand h stop _ hstop (allAt_cons.mp htokens).2
    exact hoperand.bindRest fun inner rest hrest => .ok hrest
  · exact blamesIn_power h hjoins stop tokens hstop htokens

end Expressions

section Conditions

variable {good : Span → Prop} (hjoins : Joins good)

include hjoins

private theorem blamesIn_ladder (room : Nat) : ∀ rung ∈ ladder room, BlamesIn good rung :=
  forall_mem_ladder (fun h => blamesIn_signedOperand h hjoins) room

/-- An expression is blamed on places of its line. -/
theorem blamesIn_expression (room : Nat) : BlamesIn good (expression room) :=
  blamesIn_sum (blamesIn_ladder hjoins room)

private theorem blamesIn_comparison (room : Nat) : BlamesIn good (comparison room) := by
  intro stop tokens hstop htokens
  have hside := blamesIn_expression hjoins room stop
  refine (hside tokens hstop htokens).bindRest fun left rest hrest => ?_
  cases rest with
  | nil => exact .fail hstop
  | cons t rest =>
    obtain ⟨ht, hrest⟩ := allAt_cons.mp hrest
    dsimp only
    split
    · exact .fail ht
    · exact ((hside rest hstop hrest).orMissing ht _).bindRest fun right rest hrest => .ok hrest

omit hjoins in
private theorem blamesIn_chainRest {sign : TokenKind} {op : LogicalOp} {link : Reader Cond}
    (progress : Shrinks link) (hlink : BlamesIn good link) (left : Cond) :
    BlamesIn good (chainRest sign op link progress left) := by
  intro stop tokens hstop htokens
  fun_induction chainRest sign op link progress left stop tokens with
  | case1 => exact .ok htokens
  | case2 left t rest hsign error herror =>
    exact .error ((hlink stop rest hstop (allAt_cons.mp htokens).2).of_error herror)
  | case3 left t rest hsign right after hread hlt ih =>
    have hresult := hlink stop rest hstop (allAt_cons.mp htokens).2
    rw [hread] at hresult
    cases hresult with
    | ok hafter => exact ih hafter
  | case4 => exact .ok htokens

omit hjoins in
private theorem blamesIn_chain {sign : TokenKind} {op : LogicalOp} {link : Reader Cond}
    (progress : Shrinks link) (hlink : BlamesIn good link) :
    BlamesIn good (chain sign op link progress) := by
  intro stop tokens hstop htokens
  refine (hlink stop tokens hstop htokens).bindRest fun left rest => ?_
  exact blamesIn_chainRest progress hlink left stop rest hstop

/-- A condition is blamed on places of its line. -/
theorem blamesIn_condition (room : Nat) : BlamesIn good (condition room) :=
  blamesIn_chain _ (blamesIn_chain _ (blamesIn_comparison hjoins room))

end Conditions

end NumericScript
