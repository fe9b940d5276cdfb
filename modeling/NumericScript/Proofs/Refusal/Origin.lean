import Mathlib.Logic.Relation
import Mathlib.Data.Prod.Lex
import NumericScript.Proofs.Refusal.Descent

/-!
# Where a refusal comes from

Every task starts lighter ones only, so that a refusal can be followed down to the descent it comes
from. Along the way it stays as it is.
-/

namespace NumericScript

/-- The number of lines, where a block with its braces is one. -/
def Outline.size : Outline → Nat
  | done => 0
  | line _ _ _ next => next.size + 1
  | block _ _ body _ next => body.size + next.size + 1
  | stray _ next => next.size + 1

/-- Of two readers that begin at the same token, the one of higher rank starts the other one. -/
def ExprReader.rank : ExprReader → Nat
  | grouped _ => 9
  | chain .sums => 8
  | chain .products => 7
  | operand => 6
  | signed => 5
  | power => 4
  | call => 3
  | primary => 2
  | named _ | chainRest .. => 1

/-- Of two readers that begin at the same token, the one of higher rank starts the other one. -/
def CondReader.rank : CondReader → Nat
  | chain .or => 12
  | chain .and => 11
  | comparison => 10
  | chainRest .. => 1

/-- What a reader reads, and after it whatever else it starts, is read from fewer tokens. -/
theorem ExprReader.shrinks_link (tier : Tier) (room : Nat) : Shrinks (tier.link.run room) := by
  cases tier with
  | products => exact shrinks_operand (shrinks_ladder room)
  | sums => exact shrinks_product (shrinks_ladder room)

private theorem CondReader.shrinks_link (op : LogicalOp) (room : Nat) :
    Shrinks (op.link.run room) := by
  cases op with
  | and => exact shrinks_comparison room
  | or => exact shrinks_conjunction room

private theorem shrinks_target (room : Nat) : Shrinks (target room) := by
  intro stop tokens written rest h
  have hsplit := congrArg List.length
    (List.takeWhile_append_dropWhile (p := (isNamePart ·.kind)) (l := tokens))
  rw [List.length_append] at hsplit
  rw [target] at h
  split at h
  · simp [fail] at h
  · rename_i part parts hname
    rw [hname, List.length_cons] at hsplit
    split at h
    · rename_i lexeme span inner hinner
      obtain ⟨⟨index, later⟩, hindex, hclose⟩ := bind_eq_ok.mp h
      obtain ⟨⟨close, last⟩, hexpect, hlast⟩ := bind_eq_ok.mp hclose
      have hfewer := shrinks_expression room _ _ _ _ hindex
      have hclosed := shrinks_expect _ _ _ _ _ _ hexpect
      obtain ⟨-, rfl⟩ := Prod.mk.inj (Except.ok.inj hlast)
      rw [hinner, List.length_cons] at hsplit
      omega
    · obtain ⟨-, rfl⟩ := Prod.mk.inj (Except.ok.inj h)
      omega

namespace Task

/-- Lines come before tokens, and of two tasks on the same tokens the rank tells which is first. -/
def weight : Task → Nat × Nat
  | descent .. => (0, 0)
  | expr reader _ _ tokens => (0, 16 * tokens.length + reader.rank)
  | cond reader _ _ tokens => (0, 16 * tokens.length + reader.rank)
  | target _ _ tokens => (0, 16 * tokens.length + 13)
  | assignment _ _ tokens => (0, 16 * tokens.length + 14)
  | header _ _ _ tokens => (0, 16 * tokens.length + 14)
  | block _ _ _ _ body _ => (2 * body.size + 2, 0)
  | lines _ _ _ o => (2 * o.size + 1, 0)
  | script _ scanned => (2 * (Outline.ofLines scanned).size + 2, 0)
  | onlyExpr .. => (1, 0)
  | onlyCond .. => (1, 0)

/-- One task is lighter than another one. -/
abbrev Lighter (a b : Task) : Prop := Prod.Lex (· < ·) (· < ·) a.weight b.weight

private theorem lighter_of_lines {a b : Task} (h : a.weight.1 < b.weight.1) : Lighter a b :=
  Prod.Lex.lt_iff.mpr (.inl h)

private theorem lighter_of_tokens {a b : Task} (h : a.weight.1 = b.weight.1)
    (hlt : a.weight.2 < b.weight.2) : Lighter a b :=
  Prod.Lex.lt_iff.mpr (.inr ⟨h, hlt⟩)

private theorem Starts.lighter {a b : Task} (h : Starts a b) : Lighter b a := by
  cases h with
  | exponent hbase =>
    have := shrinks_call (shrinks_ladder _) _ _ _ _ hbase
    refine lighter_of_tokens rfl ?_
    simp only [weight, ExprReader.rank, List.length_cons] at this ⊢
    omega
  | @further tier _ _ _ _ left hfirst =>
    have := ExprReader.shrinks_link tier _ _ _ _ _ hfirst
    refine lighter_of_tokens rfl ?_
    cases tier <;> simp only [weight, ExprReader.rank] <;> omega
  | @again tier _ _ _ _ _ _ _ _ _ hright =>
    have := ExprReader.shrinks_link tier _ _ _ _ _ hright
    refine lighter_of_tokens rfl ?_
    simp only [weight, ExprReader.rank, List.length_cons]
    omega
  | comparedWith hleft =>
    have := shrinks_expression _ _ _ _ _ hleft
    refine lighter_of_tokens rfl ?_
    simp only [weight, ExprReader.rank, CondReader.rank, List.length_cons] at this ⊢
    omega
  | @furtherLinks op _ _ _ _ _ hfirst =>
    have := CondReader.shrinks_link op _ _ _ _ _ hfirst
    refine lighter_of_tokens rfl ?_
    cases op <;> simp only [weight, CondReader.rank] <;> omega
  | @againLinks op _ _ _ _ _ _ _ _ hright =>
    have := CondReader.shrinks_link op _ _ _ _ _ hright
    refine lighter_of_tokens rfl ?_
    simp only [weight, CondReader.rank, List.length_cons]
    omega
  | @first tier | @right tier =>
    refine lighter_of_tokens rfl ?_
    cases tier <;> simp only [weight, Tier.link, ExprReader.rank, List.length_cons] <;> omega
  | firstLink op | @rightLink op =>
    refine lighter_of_tokens rfl ?_
    cases op <;> simp only [weight, LogicalOp.link, CondReader.rank, List.length_cons] <;> omega
  | @targetIndex _ _ tokens _ _ _ hrest =>
    have := (List.dropWhile_suffix (isNamePart ·.kind) : tokens.dropWhile _ <:+ tokens).length_le
    refine lighter_of_tokens rfl ?_
    simp only [hrest, weight, ExprReader.rank, List.length_cons] at this ⊢
    omega
  | value hwritten =>
    have := shrinks_target _ _ _ _ _ hwritten
    refine lighter_of_tokens rfl ?_
    simp only [weight, ExprReader.rank, List.length_cons] at this ⊢
    omega
  | blockDescent | inside | block | afterBlock | header | headedBlock | afterHeaded | assignment
  | afterAssignment | afterIgnored | script | onlyExpr | onlyCond =>
    refine lighter_of_lines ?_
    simp only [weight, Outline.size]
    omega
  | _ =>
    refine lighter_of_tokens rfl ?_
    simp only [weight, ExprReader.rank, CondReader.rank, List.length_cons]
    omega

variable {place : Span} {a b : Task}

/-- A task is refused where it goes down a level that is not there, or where one that it starts
is. -/
theorem refused_iff :
    a.Refused place ↔
      a = .descent 0 place ∨ ∃ started, a.Starts started ∧ started.Refused place := by
  have hpasses (h : Passes place a) (hne : ∀ room next, a ≠ .descent room next) :
      a.Refused place ↔
        a = .descent 0 place ∨ ∃ started, a.Starts started ∧ started.Refused place :=
    h.trans (or_iff_right (hne 0 place)).symm
  cases a with
  | descent room next =>
    constructor
    · rintro ⟨rfl, rfl⟩
      exact .inl rfl
    · rintro (h | ⟨_, hstarts, _⟩)
      · cases h
        exact ⟨rfl, rfl⟩
      · cases hstarts
  | expr reader =>
    refine hpasses ?_ nofun
    cases reader with
    | operand => exact passes_operand
    | signed => exact passes_signed
    | power => exact passes_power
    | call => exact passes_call
    | primary => exact passes_primary
    | named => exact passes_named
    | grouped => exact passes_grouped
    | chain => exact passes_chain
    | chainRest => exact passes_chainRest
  | cond reader =>
    refine hpasses ?_ nofun
    cases reader with
    | comparison => exact passes_comparison
    | chain => exact passes_condChain
    | chainRest => exact passes_condChainRest
  | target => exact hpasses passes_target nofun
  | assignment => exact hpasses passes_assignment nofun
  | header => exact hpasses passes_header nofun
  | block => exact hpasses passes_block nofun
  | lines => exact hpasses passes_lines nofun
  | script => exact hpasses passes_script nofun
  | onlyExpr => exact hpasses passes_onlyExpr nofun
  | onlyCond => exact hpasses passes_onlyCond nofun

/-- Some tasks that start each other, from the first one to the last one. -/
abbrev LeadsTo : Task → Task → Prop := Relation.ReflTransGen Starts

/-- On the way up from where it is found, a refusal is not replaced. -/
theorem LeadsTo.refused (h : a.LeadsTo b) (hb : b.Refused place) : a.Refused place := by
  induction h using Relation.ReflTransGen.head_induction_on with
  | refl => exact hb
  | head hstarts _ ih => exact refused_iff.mpr (.inr ⟨_, hstarts, ih⟩)

/-- A refusal comes from a descent where no level is left. -/
theorem exists_descent (a : Task) (h : a.Refused place) : a.LeadsTo (.descent 0 place) := by
  rcases refused_iff.mp h with rfl | ⟨started, hstarts, hstarted⟩
  · exact .refl
  · exact .head hstarts (exists_descent started hstarted)
termination_by a.weight
decreasing_by exact hstarts.lighter

/-- A task is refused at the places where it comes to go down a level and none is left. -/
theorem refused_iff_descent (a : Task) : a.Refused place ↔ a.LeadsTo (.descent 0 place) :=
  ⟨exists_descent a, fun h => h.refused ⟨rfl, rfl⟩⟩

end Task

end NumericScript
