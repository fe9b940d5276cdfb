import Mathlib.Data.List.Basic
import NumericScript.Proofs.Glyph.Shape
import NumericScript.Proofs.Nesting.Level

/-!
# Nodes of trees

The statements, targets, conditions and expressions of a tree as nodes of one kind. A node has
parts, and what its blocks enclose is one block deeper; what a branch does otherwise belongs to the
branch.
-/

namespace NumericScript

/-- A node of a tree. -/
inductive Node
  | stmt (s : Stmt)
  | target (t : Target)
  | cond (c : Cond)
  | expr (e : Expr)

/-- The conditions of what a branch does otherwise. -/
def Chain.conditions : Chain → List Cond
  | .done => []
  | .block _ => []
  | .branch condition _ otherwise => condition :: otherwise.conditions

/-- The statements in the blocks of what a branch does otherwise. -/
def Chain.bodies : Chain → List Stmt
  | .done => []
  | .block body => body
  | .branch _ body otherwise => body ++ otherwise.bodies

namespace Node

/-- The text that a node was read from. -/
def span : Node → Span
  | stmt s => s.span
  | target t => t.span
  | cond c => c.span
  | expr e => e.span

/-- The nodes right below a node that are in as many blocks as the node is. -/
def parts : Node → List Node
  | stmt (.assign written value _) => [.target written, .expr value]
  | stmt (.block ..) => []
  | stmt (.branch condition _ otherwise _) => .cond condition :: otherwise.conditions.map .cond
  | stmt (.loop condition _ _) => [.cond condition]
  | target (.scalar ..) => []
  | target (.element _ index _) => [.expr index]
  | cond (.compare _ left right _) => [.expr left, .expr right]
  | cond (.logical _ left right _) => [.cond left, .cond right]
  | expr (.number ..) | expr (.scalar ..) => []
  | expr (.element _ index _) => [.expr index]
  | expr (.binary _ left right _) => [.expr left, .expr right]
  | expr (.negate operand _) => [.expr operand]
  | expr (.call _ argument _) => [.expr argument]
  | expr (.group inner _) => [.expr inner]

/-- The nodes right below a node that are in one more block. -/
def enclosed : Node → List Node
  | stmt (.block body _) => body.map .stmt
  | stmt (.branch _ body otherwise _) => (body ++ otherwise.bodies).map .stmt
  | stmt (.loop _ body _) => body.map .stmt
  | _ => []

/-- A node is another one or below it, inside so many blocks. -/
inductive Holds : Nat → Node → Node → Prop
  | refl (node : Node) : Holds 0 node node
  | part {blocks : Nat} {node part below : Node} (hm : part ∈ node.parts)
    (h : Holds blocks part below) : Holds blocks node below
  | enclosed {blocks : Nat} {node inner below : Node} (hm : inner ∈ node.enclosed)
    (h : Holds blocks inner below) : Holds (blocks + 1) node below

/-- The levels of a node. -/
def levels : Node → List Nat
  | stmt s => s.levels
  | target t => t.levels
  | cond c => c.levels
  | expr e => e.levels

/-- The shape of precedence, in all assignments and conditions of a node. -/
def Shaped : Node → Prop
  | stmt s => ∀ phrase ∈ s.phrases, phrase.Shaped
  | target t => t.Shaped
  | cond c => c.Shaped
  | expr e => e.Shaped

end Node

section Chains

private theorem Chain.shaped_conditions :
    ∀ (chain : Chain), (∀ phrase ∈ chain.phrases, phrase.Shaped) →
    ∀ c ∈ chain.conditions, c.Shaped
  | .done, _ => nofun
  | .block _, _ => nofun
  | .branch condition body otherwise, h => by
    obtain ⟨hcondition, hlater⟩ := List.forall_mem_cons.mp h
    obtain ⟨_, hotherwise⟩ := List.forall_mem_append.mp hlater
    exact List.forall_mem_cons.mpr ⟨hcondition, otherwise.shaped_conditions hotherwise⟩

/-- A phrase of a statement is one of every list the statement is in. -/
theorem mem_phrasesOf {phrase : Phrase} {s : Stmt} (h : phrase ∈ s.phrases) :
    ∀ {stmts : List Stmt}, s ∈ stmts → phrase ∈ phrasesOf stmts
  | first :: later, hm => by
    rcases List.mem_cons.mp hm with rfl | hm
    · exact List.mem_append_left _ h
    · exact List.mem_append_right _ (mem_phrasesOf h hm)

private theorem Chain.shaped_bodies : ∀ (chain : Chain), (∀ phrase ∈ chain.phrases, phrase.Shaped) →
    ∀ s ∈ chain.bodies, ∀ phrase ∈ s.phrases, phrase.Shaped
  | .done, _ => nofun
  | .block body, h => fun s hm phrase hphrase => h phrase (mem_phrasesOf hphrase hm)
  | .branch condition body otherwise, h => by
    obtain ⟨_, hlater⟩ := List.forall_mem_cons.mp h
    obtain ⟨hbody, hotherwise⟩ := List.forall_mem_append.mp hlater
    refine List.forall_mem_append.mpr ⟨fun s hm phrase hphrase => ?_, ?_⟩
    · exact hbody phrase (mem_phrasesOf hphrase hm)
    · exact otherwise.shaped_bodies hotherwise

private theorem Chain.within_conditions {room : Nat} : ∀ (chain : Chain), Within chain.levels room →
    ∀ c ∈ chain.conditions, Within c.levels room
  | .done, _ => nofun
  | .block _, _ => nofun
  | .branch condition body otherwise, h => by
    obtain ⟨hcondition, hlater⟩ := within_append.mp h
    obtain ⟨_, hotherwise⟩ := within_append.mp hlater
    exact List.forall_mem_cons.mpr ⟨hcondition, otherwise.within_conditions hotherwise⟩

/-- Levels that fit for a list of statements fit for each of them. -/
theorem within_of_mem {room : Nat} {s : Stmt} : ∀ {stmts : List Stmt},
    Within (levelsOf stmts) room → s ∈ stmts → Within s.levels room
  | first :: later, h, hm => by
    obtain ⟨hfirst, hlater⟩ := within_append.mp h
    rcases List.mem_cons.mp hm with rfl | hm
    · exact hfirst
    · exact within_of_mem hlater hm

/-- What fits with a block around it fits with one level less. -/
theorem within_enclosed {room : Nat} {body : List Stmt}
    (h : Within (blockLevels (levelsOf body)) room) :
    ∃ lower, room = lower + 1 ∧ ∀ s ∈ body, Within s.levels lower := by
  cases room with
  | zero => exact absurd h (not_within_block_zero _)
  | succ lower => exact ⟨lower, rfl, fun s hm => within_of_mem (within_block.mp h) hm⟩

private theorem Chain.within_bodies {room : Nat} : ∀ (chain : Chain), Within chain.levels room →
    ∀ s ∈ chain.bodies, ∃ lower, room = lower + 1 ∧ Within s.levels lower
  | .done, _ => nofun
  | .block body, h => fun s hm =>
    let ⟨lower, hroom, hbody⟩ := within_enclosed h
    ⟨lower, hroom, hbody s hm⟩
  | .branch condition body otherwise, h => by
    obtain ⟨_, hlater⟩ := within_append.mp h
    obtain ⟨hbody, hotherwise⟩ := within_append.mp hlater
    obtain ⟨lower, hroom, hbody⟩ := within_enclosed hbody
    refine List.forall_mem_append.mpr ⟨fun s hm => ⟨lower, hroom, hbody s hm⟩, ?_⟩
    exact otherwise.within_bodies hotherwise

end Chains

namespace Node

variable {node : Node} {room : Nat}

private theorem Shaped.of_part {part : Node} (h : node.Shaped) (hm : part ∈ node.parts) :
    part.Shaped := by
  cases node with
  | stmt s =>
    cases s with
    | assign target value =>
      obtain ⟨htarget, hvalue⟩ : target.Shaped ∧ value.Shaped := h _ List.mem_cons_self
      rcases List.mem_pair.mp hm with rfl | rfl
      · exact htarget
      · exact hvalue
    | block => cases hm
    | branch condition body otherwise =>
      obtain ⟨hcondition, hlater⟩ := List.forall_mem_cons.mp h
      obtain ⟨_, hotherwise⟩ := List.forall_mem_append.mp hlater
      rcases List.mem_cons.mp hm with rfl | hm
      · exact hcondition
      · obtain ⟨c, hc, rfl⟩ := List.mem_map.mp hm
        exact otherwise.shaped_conditions hotherwise c hc
    | loop condition =>
      obtain rfl := List.mem_singleton.mp hm
      exact h _ List.mem_cons_self
  | target t =>
    cases t with
    | scalar => cases hm
    | element =>
      obtain rfl := List.mem_singleton.mp hm
      exact h
  | cond c =>
    cases c with
    | compare op left right =>
      rcases List.mem_pair.mp hm with rfl | rfl
      · exact h.1
      · exact h.2
    | logical op left right =>
      rcases List.mem_pair.mp hm with rfl | rfl
      · exact h.1
      · exact h.2.1
  | expr e =>
    cases e with
    | number | scalar => cases hm
    | element | group =>
      obtain rfl := List.mem_singleton.mp hm
      exact h
    | binary op left right =>
      rcases List.mem_pair.mp hm with rfl | rfl
      · exact h.1
      · exact h.2.1
    | negate | call =>
      obtain rfl := List.mem_singleton.mp hm
      exact h.1

private theorem Shaped.of_enclosed {inner : Node} (h : node.Shaped) (hm : inner ∈ node.enclosed) :
    inner.Shaped := by
  cases node with
  | target | cond | expr => cases hm
  | stmt s =>
    cases s with
    | assign => cases hm
    | block body =>
      obtain ⟨s, hs, rfl⟩ := List.mem_map.mp hm
      exact fun phrase hphrase => h phrase (mem_phrasesOf hphrase hs)
    | branch condition body otherwise =>
      obtain ⟨s, hs, rfl⟩ := List.mem_map.mp hm
      obtain ⟨_, hlater⟩ := List.forall_mem_cons.mp h
      obtain ⟨hbody, hotherwise⟩ := List.forall_mem_append.mp hlater
      rcases List.mem_append.mp hs with hs | hs
      · exact fun phrase hphrase => hbody phrase (mem_phrasesOf hphrase hs)
      · exact otherwise.shaped_bodies hotherwise s hs
    | loop condition body =>
      obtain ⟨s, hs, rfl⟩ := List.mem_map.mp hm
      exact fun phrase hphrase => h phrase (List.mem_cons_of_mem _ (mem_phrasesOf hphrase hs))

/-- The parts of a node fit where the node does. -/
theorem within_part {part : Node} (h : Within node.levels room) (hm : part ∈ node.parts) :
    Within part.levels room := by
  have hlower : ∀ {e : Expr} {depth : Nat}, Within (e.levels.map (· + depth)) room →
      Within e.levels room := fun {e depth} he level hlevel =>
    Nat.le_trans (Nat.le_add_right level depth) (he _ (List.mem_map_of_mem hlevel))
  cases node with
  | stmt s =>
    cases s with
    | assign target value =>
      obtain ⟨htarget, hvalue⟩ := within_append.mp h
      rcases List.mem_pair.mp hm with rfl | rfl
      · exact htarget
      · exact hvalue
    | block => cases hm
    | branch condition body otherwise =>
      obtain ⟨hcondition, hlater⟩ := within_append.mp h
      obtain ⟨_, hotherwise⟩ := within_append.mp hlater
      rcases List.mem_cons.mp hm with rfl | hm
      · exact hcondition
      · obtain ⟨c, hc, rfl⟩ := List.mem_map.mp hm
        exact otherwise.within_conditions hotherwise c hc
    | loop condition =>
      obtain rfl := List.mem_singleton.mp hm
      exact (within_append.mp h).1
  | target t =>
    cases t with
    | scalar => cases hm
    | element =>
      obtain rfl := List.mem_singleton.mp hm
      exact h
  | cond c =>
    cases c with
    | compare | logical =>
      obtain ⟨hleft, hright⟩ := within_append.mp h
      rcases List.mem_pair.mp hm with rfl | rfl
      · exact hleft
      · exact hright
  | expr e =>
    cases e with
    | number | scalar => cases hm
    | element | negate | call | group =>
      obtain rfl := List.mem_singleton.mp hm
      exact hlower h
    | binary =>
      obtain ⟨hleft, hright⟩ := within_append.mp h
      rcases List.mem_pair.mp hm with rfl | rfl
      · exact hleft
      · exact hlower hright

/-- What the blocks of a node enclose fits with one level less. -/
theorem within_of_enclosed {inner : Node} (h : Within node.levels room)
    (hm : inner ∈ node.enclosed) : ∃ lower, room = lower + 1 ∧ Within inner.levels lower := by
  have hblock : ∀ {body : List Stmt} {s : Stmt}, Within (blockLevels (levelsOf body)) room →
      s ∈ body → ∃ lower, room = lower + 1 ∧ Within s.levels lower := fun hbody hs =>
    let ⟨lower, hroom, hall⟩ := within_enclosed hbody
    ⟨lower, hroom, hall _ hs⟩
  cases node with
  | target | cond | expr => cases hm
  | stmt s =>
    cases s with
    | assign => cases hm
    | block body =>
      obtain ⟨s, hs, rfl⟩ := List.mem_map.mp hm
      exact hblock h hs
    | branch condition body otherwise =>
      obtain ⟨s, hs, rfl⟩ := List.mem_map.mp hm
      obtain ⟨_, hlater⟩ := within_append.mp h
      obtain ⟨hbody, hotherwise⟩ := within_append.mp hlater
      rcases List.mem_append.mp hs with hs | hs
      · exact hblock hbody hs
      · exact otherwise.within_bodies hotherwise s hs
    | loop condition body =>
      obtain ⟨s, hs, rfl⟩ := List.mem_map.mp hm
      exact hblock (within_append.mp h).2 hs

/-- Inside so many blocks there are so many levels less, and the shape is the same. -/
theorem Holds.within {blocks : Nat} {below : Node} (h : Holds blocks node below)
    (hshaped : node.Shaped) (hfits : Within node.levels room) :
    ∃ lower, room = lower + blocks ∧ below.Shaped ∧ Within below.levels lower := by
  induction h generalizing room with
  | refl => exact ⟨room, rfl, hshaped, hfits⟩
  | part hm _ ih => exact ih (hshaped.of_part hm) (within_part hfits hm)
  | enclosed hm _ ih =>
    obtain ⟨lower, rfl, hinner⟩ := within_of_enclosed hfits hm
    obtain ⟨lowest, rfl, hbelow⟩ := ih (hshaped.of_enclosed hm) hinner
    exact ⟨lowest, Nat.add_assoc .., hbelow⟩

end Node

end NumericScript
