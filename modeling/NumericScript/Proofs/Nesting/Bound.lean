import NumericScript.Proofs.Faithful.Line
import NumericScript.Proofs.Faithful.Program
import NumericScript.Proofs.Nesting.Height

/-!
# Nesting of accepted texts

What is read has levels that fit, as it was read with no more than there are. So no more blocks
enclose a node of an accepted text than there are levels, an expression has levels left of its own,
and these bound its height and how deep its evaluation goes.
-/

namespace NumericScript

section Fits

/-- The lines of a block have one level more than the lines inside. -/
theorem BlockLines.fits {inside : Nat → List TokenLine → Prop} {levels : List Nat} {room : Nat}
    {span : Span} {lines : List TokenLine} (h : BlockLines inside room span lines)
    (hinside : ∀ lower lines, inside lower lines → Within levels lower) :
    Within (blockLevels levels) room := by
  cases h with
  | intro hbrace hclose h => exact within_block.mpr (hinside _ _ h)

/-- A line with a condition and its block fit if the block does. -/
theorem HeadedLines.fits {word : Keyword} {room : Nat} {condition : Cond} {first : Token}
    {levels : List Nat} {block : List TokenLine → Prop} {lines : List TokenLine}
    (h : HeadedLines (HeaderLine word room condition) block first lines)
    (hblock : ∀ lines, block lines → Within levels room) :
    Within condition.levels room ∧ Within levels room := by
  cases h with
  | intro hhead hgap h =>
    obtain ⟨_, _, _, _, _, hcondition⟩ := header_spelled hhead.header
    exact ⟨hcondition, hblock _ h⟩

mutual

/-- A statement that is read fits. -/
theorem Stmt.fits_of_reads {room : Nat} : ∀ (s : Stmt) {lines : List TokenLine},
    s.Reads room lines → Within s.levels room
  | .assign target value span, lines, h => by
    cases h with
    | intro _ _ _ _ h =>
      obtain ⟨_, _, _, _, _, _, _, _, _, hfits⟩ := assignment_spelled h
      exact hfits
  | .block body span, lines, h => BlockLines.fits h fun _ _ => fits_of_readsAll body
  | .branch condition body otherwise span, lines, h => by
    obtain ⟨first, blockSpan, last, own, rest, _, _, hown, hrest⟩ := h
    obtain ⟨hcondition, hbody⟩ :=
      hown.fits fun _ hblock => hblock.fits fun _ _ => fits_of_readsAll body
    exact within_append.mpr ⟨hcondition,
      within_append.mpr ⟨hbody, otherwise.fits_of_reads hrest⟩⟩
  | .loop condition body span, lines, h => by
    obtain ⟨first, blockSpan, _, hown⟩ := h
    exact within_append.mpr
      (hown.fits fun _ hblock => hblock.fits fun _ _ => fits_of_readsAll body)

/-- What a branch does otherwise fits if it is read. -/
theorem Chain.fits_of_reads {room : Nat} : ∀ (chain : Chain) {last : Option Span}
    {lines : List TokenLine}, chain.Reads room last lines → Within chain.levels room
  | .done, last, lines, h => within_nil room
  | .block body, last, lines, h => by
    obtain ⟨first, blockSpan, gap, own, _, _, _, hown⟩ := h
    cases hown with
    | intro _ _ hblock => exact hblock.fits fun _ _ => fits_of_readsAll body
  | .branch condition body otherwise, last, lines, h => by
    obtain ⟨first, blockSpan, last', gap, own, rest, _, _, _, hown, hrest⟩ := h
    obtain ⟨hcondition, hbody⟩ :=
      hown.fits fun _ hblock => hblock.fits fun _ _ => fits_of_readsAll body
    exact within_append.mpr ⟨hcondition,
      within_append.mpr ⟨hbody, otherwise.fits_of_reads hrest⟩⟩

/-- Statements that are read fit. -/
theorem fits_of_readsAll {room : Nat} : ∀ (stmts : List Stmt) {lines : List TokenLine},
    readsAll room stmts lines → Within (levelsOf stmts) room
  | [], lines, h => within_nil room
  | s :: later, lines, h => by
    obtain ⟨silent, own, rest, _, _, hown, hrest⟩ := h
    exact within_append.mpr ⟨s.fits_of_reads hown, fits_of_readsAll later hrest⟩

end

end Fits

section Bound

/-- How deep an evaluation goes at most that has so many levels. -/
def depthBound (levels : Nat) : Nat := levels ^ 2 + levels - 1

/--
Under a limit of nesting, a node is in no more blocks than the limit says. An expression is in fewer
blocks, and what they leave of the limit bounds its height and how deep its evaluation goes.
-/
structure Node.NestsIn (limit blocks : Nat) (node : Node) : Prop where
  blocks_le : blocks ≤ limit
  blocks_lt : ∀ e, node = .expr e → blocks < limit
  height_le : ∀ e, node = .expr e → e.height ≤ depthBound (limit - blocks)
  evalDeep_eq : ∀ e store, node = .expr e →
    e.evalDeep store (depthBound (limit - blocks)) = some (e.eval store)

/-- Nodes of a tree whose levels fit nest in the limit. -/
theorem Node.Holds.nestsIn {blocks limit : Nat} {node below : Node} (h : Holds blocks node below)
    (hshaped : node.Shaped) (hfits : Within node.levels limit) : below.NestsIn limit blocks := by
  obtain ⟨room, rfl, hbelow, hroom⟩ := h.within hshaped hfits
  have hbounded : ∀ e, below = .expr e → e.Bounded room := by
    rintro e rfl
    exact Expr.bounded hbelow hroom
  have hheight : ∀ e, below = .expr e → e.height ≤ depthBound (room + blocks - blocks) := by
    intro e he
    have hle := (hbounded e he).height_le
    rw [Nat.add_sub_cancel, depthBound, pow_two]
    omega
  refine ⟨Nat.le_add_left blocks room, fun e he => ?_, hheight, fun e store he => ?_⟩
  · exact Nat.lt_add_of_pos_left (hbounded e he).room_pos
  · rw [e.evalDeep_eq, if_pos (hheight e he)]

/-- A script that is read has the shape of precedence, and its levels fit. -/
theorem fits_of_parseProgram {source : String} {stmts : List Stmt}
    (h : parseProgram source = .ok stmts) :
    (∀ phrase ∈ phrasesOf stmts, phrase.Shaped) ∧ Within (levelsOf stmts) maxNesting := by
  obtain ⟨lines, hscan, hread⟩ := bind_eq_ok.mp h
  have hreads := (readProgram_iff (bracesAlone_of_scan hscan)).mp hread
  exact ⟨(readProgram_reads hscan hread).2, fits_of_readsAll stmts hreads⟩

/--
Accepted texts have bounded depth. With the limit of nesting being `maxNesting`, at most so many
blocks enclose a node of a script, of an expression or of a condition that is accepted. An
expression is in fewer blocks, and with `n` levels left it has at most `n ^ 2 + n - 1` nodes on a
path, so that its evaluation goes as deep at most.
-/
theorem nesting_bounded {source : String} :
    (∀ stmts, parseProgram source = .ok stmts → ∀ s ∈ stmts, ∀ blocks node,
      Node.Holds blocks (.stmt s) node → node.NestsIn maxNesting blocks) ∧
      (∀ e, parseExpression source = .ok e → ∀ blocks node,
        Node.Holds blocks (.expr e) node → node.NestsIn maxNesting blocks) ∧
      ∀ c, parseCondition source = .ok c → ∀ blocks node,
        Node.Holds blocks (.cond c) node → node.NestsIn maxNesting blocks := by
  refine ⟨fun stmts h s hs blocks node hnode => ?_, fun e h blocks node hnode => ?_,
    fun c h blocks node hnode => ?_⟩
  · obtain ⟨hshaped, hfits⟩ := fits_of_parseProgram h
    exact hnode.nestsIn (fun phrase hm => hshaped phrase (mem_phrasesOf hm hs))
      (within_of_mem hfits hs)
  · obtain ⟨_, _, _, hshaped, hfits⟩ := parseExpression_eq_ok h
    exact hnode.nestsIn hshaped hfits
  · obtain ⟨_, _, _, hshaped, hfits⟩ := parseCondition_eq_ok h
    exact hnode.nestsIn hshaped hfits

/-- A script with an expression inside a block. -/
def enclosedSource : String := "\x7b x = -y \x7d"

/-- The expression of `enclosedSource`. -/
def enclosedExpr : Expr := .negate (.scalar "y" ⟨7, 8, 2⟩) ⟨6, 8, 2⟩

/-- The value that the one assignment in the one block of a script gives. -/
def enclosedValue? : List Stmt → Option Expr
  | [.block [.assign _ value _] _] => some value
  | _ => none

/-- The script reads as one assignment in one block. -/
theorem parseProgram_enclosed :
    ∃ t span outer, parseProgram enclosedSource =
      .ok [.block [.assign t enclosedExpr span] outer] := by
  have hread : (parseProgram enclosedSource).toOption.bind enclosedValue? = some enclosedExpr := by
    decide +kernel
  obtain ⟨stmts, hstmts, hvalue⟩ := Option.bind_eq_some_iff.mp hread
  unfold enclosedValue? at hvalue
  split at hvalue
  · rename_i t e span outer
    obtain rfl := Option.some.inj hvalue
    exact ⟨t, span, outer, toOption_eq_some.mp hstmts⟩
  · cases hvalue

/-- The value of the assignment is inside one block. -/
theorem holds_enclosed (t : Target) (span outer : Span) :
    Node.Holds 1 (.stmt (.block [.assign t enclosedExpr span] outer)) (.expr enclosedExpr) :=
  .enclosed List.mem_cons_self (.part (List.mem_cons_of_mem _ List.mem_cons_self) (.refl _))

/-- An expression inside one block nests within what the block leaves. -/
theorem nesting_bounded_enclosed :
    ∃ stmts, parseProgram enclosedSource = .ok stmts ∧ (∃ s ∈ stmts,
      Node.Holds 1 (.stmt s) (.expr enclosedExpr)) ∧
      (Node.expr enclosedExpr).NestsIn maxNesting 1 := by
  obtain ⟨t, span, outer, hparse⟩ := parseProgram_enclosed
  have hholds := holds_enclosed t span outer
  exact ⟨_, hparse, ⟨_, List.mem_cons_self, hholds⟩,
    nesting_bounded.1 _ hparse _ List.mem_cons_self 1 _ hholds⟩

end Bound

end NumericScript
