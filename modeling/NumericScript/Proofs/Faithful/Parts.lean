import NumericScript.Proofs.Faithful.Around
import NumericScript.Proofs.Nesting.Node

/-!
# Where the nodes of a tree stand

Every node of a tree stands on neighbouring tokens of the lines that the tree was read from: a
statement on the tokens of whole lines, any other node on tokens of one line. The tokens of what is
below a node are among its own.
-/

namespace NumericScript

section Covers

/-- The span of a block goes around its lines. -/
theorem BlockLines.covers {inside : Nat → List TokenLine → Prop} {room : Nat} {span : Span}
    {lines : List TokenLine} (h : BlockLines inside room span lines)
    (horder : InOrder (tokensOf lines)) : span.Covers lines := by
  cases h with
  | @intro room brace close stop stop' inner hbrace hclose h =>
    exact ((Span.around_token close).covers stop').join ⟨⟨[brace], stop⟩ :: inner, rfl⟩ horder

namespace HeadedLines

variable {head : Token → List Token → Span → Prop} {block : List TokenLine → Prop} {first : Token}
  {own rest later : List TokenLine} {span : Span}

/-- The lines that need a block end with the lines of the block. -/
theorem exists_covers (h : HeadedLines head block first own)
    (hblock : ∀ lines, block lines → InOrder (tokensOf lines) → span.Covers lines)
    (horder : InOrder (tokensOf own)) : ∃ lines, lines <:+ own ∧ span.Covers lines := by
  cases h with
  | @intro more stop gap lines hhead hgap h =>
    have hlines : lines <:+ ⟨first :: more, stop⟩ :: (gap ++ lines) :=
      ⟨⟨first :: more, stop⟩ :: gap, rfl⟩
    exact ⟨lines, hlines, hblock lines h (horder.narrow (tokensOf_mono hlines.isInfix))⟩

/-- From the first token of such lines on, all lines are covered up to the end of what follows. -/
theorem covers (h : HeadedLines head block first own) (hspan : span.Covers later)
    (hlater : later <:+ own ++ rest) (horder : InOrder (tokensOf (own ++ rest))) :
    (first.span.join span).Covers (own ++ rest) := by
  cases h with
  | intro hhead hgap h => exact hspan.join hlater horder

end HeadedLines

/-- The last block of what a branch does otherwise ends its lines. -/
theorem Chain.exists_covers {room : Nat} : ∀ (chain : Chain) {last : Option Span}
    {lines : List TokenLine}, chain.Reads room last lines → InOrder (tokensOf lines) →
    (last = none ∧ lines = []) ∨ ∃ span own, last = some span ∧ own <:+ lines ∧ span.Covers own
  | .done, last, lines, h, _ => .inl h
  | .block body, last, lines, h, horder => by
    obtain ⟨first, blockSpan, gap, own, rfl, rfl, _, hown⟩ := h
    have hsuffix : own <:+ gap ++ own := List.suffix_append ..
    obtain ⟨block, hblock, hcovers⟩ := hown.exists_covers (fun _ => BlockLines.covers)
      (horder.narrow (tokensOf_mono hsuffix.isInfix))
    exact .inr ⟨blockSpan, block, rfl, hblock.trans hsuffix, hcovers⟩
  | .branch condition body otherwise, last, lines, h, horder => by
    obtain ⟨first, blockSpan, last', gap, own, rest, rfl, rfl, _, hown, hrest⟩ := h
    have hsuffix : rest <:+ gap ++ (own ++ rest) := ⟨gap ++ own, by simp⟩
    have horder' := horder.narrow (tokensOf_mono hsuffix.isInfix)
    rcases otherwise.exists_covers hrest horder' with
      ⟨rfl, rfl⟩ | ⟨span, own', rfl, hown', hcovers⟩
    · have hlines : own <:+ gap ++ (own ++ []) := ⟨gap, by simp⟩
      obtain ⟨block, hblock, hcovers⟩ := hown.exists_covers (fun _ => BlockLines.covers)
        (horder.narrow (tokensOf_mono hlines.isInfix))
      exact .inr ⟨blockSpan, block, rfl, hblock.trans hlines, hcovers⟩
    · exact .inr ⟨span, own', rfl, hown'.trans hsuffix, hcovers⟩

/-- The span of a statement goes around its lines. -/
theorem Stmt.covers {room : Nat} (s : Stmt) {lines : List TokenLine} (h : s.Reads room lines)
    (horder : InOrder (tokensOf lines)) : s.span.Covers lines := by
  cases s with
  | assign target value span =>
    cases h with
    | @intro first more stop _ _ _ _ h =>
      obtain ⟨t, v, before, equal, after, heq, htokens, ht, hv, _⟩ := assignment_spelled h
      obtain ⟨rfl, rfl, rfl⟩ := Stmt.assign.inj heq
      have horder : InOrder (before ++ equal :: after) := by
        rw [← htokens]
        simpa [tokensOf] using horder
      rw [htokens]
      exact (horder.join_sides ht.around hv.around).covers stop
  | block body span => exact BlockLines.covers h horder
  | branch condition body otherwise span =>
    obtain ⟨first, blockSpan, last, own, rest, rfl, rfl, hown, hrest⟩ := h
    have hprefix : own <+: own ++ rest := List.prefix_append ..
    have hsuffix : rest <:+ own ++ rest := List.suffix_append ..
    have horder' := horder.narrow (tokensOf_mono hsuffix.isInfix)
    rcases otherwise.exists_covers hrest horder' with
      ⟨rfl, rfl⟩ | ⟨span, own', rfl, hown', hcovers⟩
    · obtain ⟨block, hblock, hcovers⟩ := hown.exists_covers (fun _ => BlockLines.covers)
        (horder.narrow (tokensOf_mono hprefix.isInfix))
      exact hown.covers hcovers (by rwa [List.append_nil]) horder
    · exact hown.covers hcovers (hown'.trans hsuffix) horder
  | loop condition body span =>
    obtain ⟨first, blockSpan, rfl, hown⟩ := h
    obtain ⟨block, hblock, hcovers⟩ := hown.exists_covers (fun _ => BlockLines.covers) horder
    rw [← List.append_nil lines] at hblock horder ⊢
    exact hown.covers hcovers hblock horder

end Covers

/-- A node stands on some tokens of some lines and was read with so much room for nesting. -/
inductive Node.StandsIn (lines : List TokenLine) : Nat → Node → List Token → Prop
  | stmt {room : Nat} {s : Stmt} {own : List TokenLine} (hown : own <:+: lines)
    (h : s.Reads room own) : StandsIn lines room (.stmt s) (tokensOf own)
  | target {room : Nat} {t : Target} {line : TokenLine} {tokens : List Token} (hline : line ∈ lines)
    (htokens : tokens <:+: line.tokens) (h : t.Spelled tokens) :
    StandsIn lines room (.target t) tokens
  | cond {room : Nat} {c : Cond} {line : TokenLine} {tokens : List Token} (hline : line ∈ lines)
    (htokens : tokens <:+: line.tokens) (h : c.Spelled tokens) :
    StandsIn lines room (.cond c) tokens
  | expr {room : Nat} {e : Expr} {line : TokenLine} {tokens : List Token} (hline : line ∈ lines)
    (htokens : tokens <:+: line.tokens) (h : e.Spelled tokens) :
    StandsIn lines room (.expr e) tokens

namespace Node.StandsIn

variable {lines own : List TokenLine} {room : Nat} {node : Node} {tokens : List Token}

private theorem mono (h : node.StandsIn own room tokens) (hown : own <:+: lines) :
    node.StandsIn lines room tokens := by
  cases h with
  | stmt hinner h => exact .stmt (hinner.trans hown) h
  | target hline htokens h => exact .target (hown.subset hline) htokens h
  | cond hline htokens h => exact .cond (hown.subset hline) htokens h
  | expr hline htokens h => exact .expr (hown.subset hline) htokens h

private theorem tokens_inside (h : node.StandsIn lines room tokens) :
    tokens <:+: tokensOf lines := by
  have hline : ∀ {line : TokenLine}, line ∈ lines → line.tokens <:+: tokensOf lines := by
    intro line hm
    obtain ⟨before, after, rfl⟩ := List.append_of_mem hm
    exact ⟨tokensOf before, tokensOf after, by simp [tokensOf]⟩
  cases h with
  | stmt hown => exact tokensOf_mono hown
  | target hm htokens | cond hm htokens | expr hm htokens => exact htokens.trans (hline hm)

/-- The span of a node goes around its tokens. -/
theorem around (h : node.StandsIn lines room tokens) (horder : InOrder (tokensOf lines)) :
    node.span.Around tokens := by
  have horder := horder.narrow h.tokens_inside
  cases h with
  | stmt hown h => exact (Stmt.covers _ h horder).around
  | target _ _ h => exact h.around horder
  | cond _ _ h => exact h.around horder
  | expr _ _ h => exact h.around horder

/-- The two sides of an operator stand before it and after it. -/
theorem of_sides {left right part : Node} {whole before after : List Token} {t : Token}
    (htokens : before ++ t :: after <:+: whole) (hm : part ∈ [left, right])
    (hleft : before <:+: whole → left.StandsIn lines room before)
    (hright : after <:+: whole → right.StandsIn lines room after) :
    ∃ tokens', part.StandsIn lines room tokens' ∧ tokens' <:+: before ++ t :: after := by
  have hbefore : before <:+: before ++ t :: after := (List.prefix_append ..).isInfix
  have hafter : after <:+: before ++ t :: after := ⟨before ++ [t], [], by simp⟩
  rcases List.mem_pair.mp hm with rfl | rfl
  · exact ⟨before, hleft (hbefore.trans htokens), hbefore⟩
  · exact ⟨after, hright (hafter.trans htokens), hafter⟩

end Node.StandsIn

section Statements

variable {lines own : List TokenLine} {room : Nat} {first : Token} {span : Span}

/-- Every statement of a list is read from lines in a row among those of the list. -/
theorem readsAll_mem {s : Stmt} : ∀ {stmts : List Stmt} {lines : List TokenLine},
    readsAll room stmts lines → s ∈ stmts → ∃ own, own <:+: lines ∧ s.Reads room own
  | stmt :: later, lines, h, hm => by
    obtain ⟨silent, own, rest, rfl, _, hown, hrest⟩ := h
    rcases List.mem_cons.mp hm with rfl | hm
    · exact ⟨own, ⟨silent, rest, List.append_assoc ..⟩, hown⟩
    · obtain ⟨own', hinfix, hown'⟩ := readsAll_mem hrest hm
      have hrest : rest <:+: silent ++ (own ++ rest) := ⟨silent ++ own, [], by simp⟩
      exact ⟨own', hinfix.trans hrest, hown'⟩

/-- The statements of a block stand in the lines of the block. -/
theorem BlockLines.exists_standsIn {body : List Stmt} {s : Stmt}
    (h : BlockLines (readsAll · body) room span own) (hm : s ∈ body) :
    ∃ lower tokens, room = lower + 1 ∧ (Node.stmt s).StandsIn own lower tokens := by
  cases h with
  | @intro lower brace close stop stop' inner _ _ h =>
    obtain ⟨own, hown, hreads⟩ := readsAll_mem h hm
    have hinner : inner <:+: ⟨[brace], stop⟩ :: (inner ++ [⟨[close], stop'⟩]) :=
      ⟨[⟨[brace], stop⟩], [⟨[close], stop'⟩], rfl⟩
    exact ⟨lower, _, rfl, .stmt (hown.trans hinner) hreads⟩

private theorem HeadedLines.exists_block {head : Token → List Token → Span → Prop}
    {block : List TokenLine → Prop} (h : HeadedLines head block first own) :
    ∃ lines, lines <:+: own ∧ block lines := by
  cases h with
  | @intro more stop gap lines _ _ h =>
    exact ⟨lines, ⟨⟨first :: more, stop⟩ :: gap, [], by simp⟩, h⟩

/-- The condition of a header stands in the header's line. -/
theorem HeadedLines.exists_standsIn {word : Keyword} {c : Cond} {block : List TokenLine → Prop}
    (h : HeadedLines (HeaderLine word room c) block first own) :
    ∃ tokens, (Node.cond c).StandsIn own room tokens := by
  cases h with
  | @intro more stop gap lines hhead _ _ =>
    obtain ⟨paren, inner, close, rfl, hspelled, _⟩ := header_spelled hhead.header
    exact ⟨inner, .cond List.mem_cons_self ⟨[first, paren], [close], rfl⟩ hspelled⟩

/-- The conditions of what a branch does otherwise stand in its lines. -/
theorem Chain.conditions_standIn (chain : Chain) {last : Option Span} {lines : List TokenLine}
    (h : chain.Reads room last lines) :
    ∀ c ∈ chain.conditions, ∃ tokens, (Node.cond c).StandsIn lines room tokens := by
  cases chain with
  | done | block => exact List.forall_mem_nil _
  | branch condition body otherwise =>
    obtain ⟨first, blockSpan, last', gap, own, rest, rfl, _, _, hown, hrest⟩ := h
    refine List.forall_mem_cons.mpr ⟨?_, fun c hc => ?_⟩
    · obtain ⟨tokens, hstands⟩ := hown.exists_standsIn
      exact ⟨tokens, hstands.mono ⟨gap, rest, List.append_assoc ..⟩⟩
    · obtain ⟨tokens, hstands⟩ := otherwise.conditions_standIn hrest c hc
      exact ⟨tokens, hstands.mono ⟨gap ++ own, [], by simp⟩⟩

/-- The statements of what a branch does otherwise stand in its lines. -/
theorem Chain.bodies_standIn (chain : Chain) {last : Option Span} {lines : List TokenLine}
    (h : chain.Reads room last lines) : ∀ s ∈ chain.bodies,
      ∃ lower tokens, room = lower + 1 ∧ (Node.stmt s).StandsIn lines lower tokens := by
  cases chain with
  | done => exact List.forall_mem_nil _
  | block body =>
    obtain ⟨first, blockSpan, gap, own, rfl, _, _, hown⟩ := h
    intro s hs
    obtain ⟨block, hblock, h⟩ := hown.exists_block
    obtain ⟨lower, tokens, hroom, hstands⟩ := h.exists_standsIn hs
    exact ⟨lower, tokens, hroom, hstands.mono (hblock.trans ⟨gap, [], by simp⟩)⟩
  | branch condition body otherwise =>
    obtain ⟨first, blockSpan, last', gap, own, rest, rfl, _, _, hown, hrest⟩ := h
    refine List.forall_mem_append.mpr ⟨fun s hs => ?_, fun s hs => ?_⟩
    · obtain ⟨block, hblock, h⟩ := hown.exists_block
      obtain ⟨lower, tokens, hroom, hstands⟩ := h.exists_standsIn hs
      exact ⟨lower, tokens, hroom,
        hstands.mono (hblock.trans ⟨gap, rest, List.append_assoc ..⟩)⟩
    · obtain ⟨lower, tokens, hroom, hstands⟩ := otherwise.bodies_standIn hrest s hs
      exact ⟨lower, tokens, hroom, hstands.mono ⟨gap ++ own, [], by simp⟩⟩

/-- The parts of a statement stand in the statement's lines. -/
theorem Stmt.parts_standIn {s : Stmt} (h : s.Reads room own) {part : Node}
    (hm : part ∈ (Node.stmt s).parts) : ∃ tokens, part.StandsIn own room tokens := by
  cases s with
  | assign target value span =>
    cases h with
    | @intro first more stop _ _ _ _ h =>
      obtain ⟨t, v, before, equal, after, heq, htokens, ht, hv, _⟩ := assignment_spelled h
      obtain ⟨rfl, rfl, _⟩ := Stmt.assign.inj heq
      rw [htokens]
      have hwhole : before ++ equal :: after <:+:
          (⟨before ++ equal :: after, stop⟩ : TokenLine).tokens := List.infix_rfl
      obtain ⟨tokens, hstands, _⟩ := Node.StandsIn.of_sides hwhole hm
        (.target List.mem_cons_self · ht) (.expr List.mem_cons_self · hv)
      exact ⟨tokens, hstands⟩
  | block => cases hm
  | branch condition body otherwise span =>
    obtain ⟨first, blockSpan, last, own, rest, rfl, _, hown, hrest⟩ := h
    rcases List.mem_cons.mp hm with rfl | hm
    · obtain ⟨tokens, hstands⟩ := hown.exists_standsIn
      exact ⟨tokens, hstands.mono (List.prefix_append ..).isInfix⟩
    · obtain ⟨c, hc, rfl⟩ := List.mem_map.mp hm
      obtain ⟨tokens, hstands⟩ := otherwise.conditions_standIn hrest c hc
      exact ⟨tokens, hstands.mono (List.suffix_append ..).isInfix⟩
  | loop condition body span =>
    obtain ⟨first, blockSpan, _, hown⟩ := h
    obtain rfl := List.mem_singleton.mp hm
    exact hown.exists_standsIn

/-- What the blocks of a statement enclose stands in the statement's lines. -/
theorem Stmt.enclosed_standIn {s : Stmt} (h : s.Reads room own) {inner : Node}
    (hm : inner ∈ (Node.stmt s).enclosed) :
    ∃ lower tokens, room = lower + 1 ∧ inner.StandsIn own lower tokens := by
  cases s with
  | assign => cases hm
  | block body span =>
    obtain ⟨s, hs, rfl⟩ := List.mem_map.mp hm
    exact BlockLines.exists_standsIn h hs
  | branch condition body otherwise span =>
    obtain ⟨first, blockSpan, last, own, rest, rfl, _, hown, hrest⟩ := h
    obtain ⟨s, hs, rfl⟩ := List.mem_map.mp hm
    rcases List.mem_append.mp hs with hs | hs
    · obtain ⟨block, hblock, h⟩ := hown.exists_block
      obtain ⟨lower, tokens, hroom, hstands⟩ := h.exists_standsIn hs
      exact ⟨lower, tokens, hroom, hstands.mono (hblock.trans (List.prefix_append ..).isInfix)⟩
    · obtain ⟨lower, tokens, hroom, hstands⟩ := otherwise.bodies_standIn hrest s hs
      exact ⟨lower, tokens, hroom, hstands.mono (List.suffix_append ..).isInfix⟩
  | loop condition body span =>
    obtain ⟨first, blockSpan, _, hown⟩ := h
    obtain ⟨s, hs, rfl⟩ := List.mem_map.mp hm
    obtain ⟨block, hblock, h⟩ := hown.exists_block
    obtain ⟨lower, tokens, hroom, hstands⟩ := h.exists_standsIn hs
    exact ⟨lower, tokens, hroom, hstands.mono hblock⟩

end Statements

namespace Node.StandsIn

variable {lines : List TokenLine} {room : Nat} {node : Node} {tokens : List Token}

/-- The parts of a node stand on some of its tokens. -/
theorem part {part : Node} (h : node.StandsIn lines room tokens) (hm : part ∈ node.parts) :
    ∃ tokens', part.StandsIn lines room tokens' ∧ tokens' <:+: tokens := by
  cases h with
  | stmt hown h =>
    obtain ⟨tokens', hstands⟩ := Stmt.parts_standIn h hm
    exact ⟨tokens', hstands.mono hown, hstands.tokens_inside⟩
  | target hline htokens h =>
    cases h with
    | scalar => cases hm
    | @element name part parts bracket close index inner hindex =>
      obtain rfl := List.mem_singleton.mp hm
      have hinner : inner <:+: part :: parts ++ bracket :: (inner ++ [close]) :=
        ⟨part :: parts ++ [bracket], [close], by simp⟩
      exact ⟨inner, .expr hline (hinner.trans htokens) hindex, hinner⟩
  | cond hline htokens h =>
    cases h with
    | compare hleft _ hright =>
      exact of_sides htokens hm (.expr hline · hleft) (.expr hline · hright)
    | logical hleft _ hright =>
      exact of_sides htokens hm (.cond hline · hleft) (.cond hline · hright)
  | expr hline htokens h =>
    cases h with
    | number | scalar => cases hm
    | @element first bracket close name index inner _ _ hindex _ =>
      obtain rfl := List.mem_singleton.mp hm
      have hinner : inner <:+: first :: bracket :: (inner ++ [close]) :=
        ⟨[first, bracket], [close], rfl⟩
      exact ⟨inner, .expr hline (hinner.trans htokens) hindex, hinner⟩
    | binary hleft _ hright =>
      exact of_sides htokens hm (.expr hline · hleft) (.expr hline · hright)
    | @negate t _ inner _ h | @call t _ _ inner _ h =>
      obtain rfl := List.mem_singleton.mp hm
      have hinner : inner <:+: t :: inner := (List.suffix_cons ..).isInfix
      exact ⟨inner, .expr hline (hinner.trans htokens) h, hinner⟩
    | @group paren close _ inner _ h _ =>
      obtain rfl := List.mem_singleton.mp hm
      have hinner : inner <:+: paren :: (inner ++ [close]) := ⟨[paren], [close], rfl⟩
      exact ⟨inner, .expr hline (hinner.trans htokens) h, hinner⟩

/-- What the blocks of a node enclose stands on some of its tokens. -/
theorem enclosed {inner : Node} (h : node.StandsIn lines room tokens)
    (hm : inner ∈ node.enclosed) : ∃ lower tokens', room = lower + 1 ∧
      inner.StandsIn lines lower tokens' ∧ tokens' <:+: tokens := by
  cases h with
  | stmt hown h =>
    obtain ⟨lower, tokens', hroom, hstands⟩ := Stmt.enclosed_standIn h hm
    exact ⟨lower, tokens', hroom, hstands.mono hown, hstands.tokens_inside⟩
  | target | cond | expr => cases hm

/-- Every node below a node stands somewhere. -/
theorem of_holds {blocks : Nat} {below : Node} (hholds : Node.Holds blocks node below)
    (h : node.StandsIn lines room tokens) :
    ∃ lower tokens', room = lower + blocks ∧ below.StandsIn lines lower tokens' := by
  induction hholds generalizing room tokens with
  | refl => exact ⟨room, tokens, rfl, h⟩
  | part hm _ ih =>
    obtain ⟨tokens', hpart, _⟩ := h.part hm
    exact ih hpart
  | enclosed hm _ ih =>
    obtain ⟨lower, tokens', rfl, hinner, _⟩ := h.enclosed hm
    obtain ⟨lowest, tokens'', rfl, hbelow⟩ := ih hinner
    exact ⟨lowest, tokens'', Nat.add_assoc .., hbelow⟩

/-- The span of what is right below a node is inside the span of the node. -/
theorem inside {child : Node} (h : node.StandsIn lines room tokens)
    (horder : InOrder (tokensOf lines)) (hm : child ∈ node.parts ++ node.enclosed) :
    child.span.Inside node.span := by
  obtain ⟨lower, tokens', hstands, hinfix⟩ : ∃ lower tokens', child.StandsIn lines lower tokens' ∧
      tokens' <:+: tokens := by
    rcases List.mem_append.mp hm with hm | hm
    · exact ⟨room, h.part hm⟩
    · obtain ⟨lower, tokens', -, hstands⟩ := h.enclosed hm
      exact ⟨lower, tokens', hstands⟩
  exact (horder.narrow h.tokens_inside).inside (h.around horder) (hstands.around horder) hinfix

end Node.StandsIn

end NumericScript
