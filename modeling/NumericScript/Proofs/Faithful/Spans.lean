import NumericScript.Proofs.Faithful.Excerpt
import NumericScript.Proofs.Faithful.Parts
import NumericScript.Proofs.Layout.Alike
import NumericScript.Proofs.Nesting.Bound
import NumericScript.Proofs.Refusal.Room

/-!
# Faithful spans

The text under the span of a node is the node's text: when it is read alone, it gives that node and
nothing else, as if it began further on. The spans of what is below a node are inside the node's.
-/

namespace NumericScript

/-- The text under a span. -/
def Span.text (span : Span) (source : String) : String := String.ofList (span.slice source)

/--
The text under the span of a statement, of a condition or of an expression, read alone, is that node
some characters and lines further on. A target is never read alone.
-/
def Node.ReadsAlone (source : String) : Node → Prop
  | .stmt s => ∃ lines s', parseProgram (s.span.text source) = .ok [s'] ∧
    move (.shift s.span.start lines) s' = s
  | .cond c => ∃ lines c', parseCondition (c.span.text source) = .ok c' ∧
    move (.shift c.span.start lines) c' = c
  | .expr e => ∃ lines e', parseExpression (e.span.text source) = .ok e' ∧
    move (.shift e.span.start lines) e' = e
  | .target _ => True

section Readers

private theorem move_eq_ok {α : Type} [Movable α] {f : Motion} {x : Except ScriptError α} {a : α}
    (h : move f x = .ok a) : ∃ a', x = .ok a' ∧ move f a' = a := by
  cases x with
  | error => cases h
  | ok a' => exact ⟨a', rfl, Except.ok.inj h⟩

/-- What is read from moved lines comes from what is read from the lines. -/
theorem exists_of_readProgram_move {f : Motion} {limit : Nat} {lines : List TokenLine}
    {stmts : List Stmt} (h : readProgram limit (move f lines) = .ok stmts) :
    ∃ stmts', readProgram limit lines = .ok stmts' ∧ move f stmts' = stmts := by
  obtain ⟨read, hread, rfl⟩ := exists_sequel_of_readProgram h (f.span (.point 0 0))
  rw [Outline.ofLines_move, move_sequel] at hread
  obtain ⟨read', hread', rfl⟩ := move_eq_ok hread
  exact ⟨read'.statements, readProgram_of_sequel hread', rfl⟩

variable {α : Type} [Movable α] {text : List Char} {chars : Nat}

/-- A text that is scanned as one line is read alone as its tokens are. -/
theorem ScansAs.readAlone {tokens : List Token} {stop : Span} {a : α} {reader : Reader α}
    (h : ScansAs text chars [⟨tokens, stop⟩]) (subject : Subject) (hne : tokens ≠ [])
    (hreader : ∀ f, ReadsAfter f False reader reader) (hread : reader stop tokens = .ok (a, [])) :
    ∃ lines a', (scan (String.ofList text) >>= NumericScript.readAlone subject reader) = .ok a' ∧
      move (.shift chars lines) a' = a := by
  obtain ⟨scanned, count, gap, gap', hscan, hmoved, hgap, hgap'⟩ := h
  have hempty : ∀ {gap : List TokenLine}, Gap gap → gap.filter (!·.tokens.isEmpty) = [] := by
    intro gap hgap
    exact List.filter_eq_nil_iff.mpr fun line hm => by simp [hgap line hm]
  have hone : (move (.shift chars count) scanned).filter (!·.tokens.isEmpty) =
      [⟨tokens, stop⟩] := by
    rw [hmoved, List.filter_append, List.filter_append, hempty hgap, hempty hgap']
    simp [hne]
  have hmove := move_readLines (f := .shift chars count) subject (hreader _) (endSpan scanned)
    (scanned.filter (!·.tokens.isEmpty))
  rw [← filter_move, hone, readLines, hread] at hmove
  obtain ⟨a', ha', rfl⟩ := move_eq_ok hmove.symm
  refine ⟨count, a', bind_eq_ok.mpr ⟨scanned, hscan, ?_⟩, rfl⟩
  rw [readAlone_eq, ha']

end Readers

section Nodes

variable {source : String} {lines : List TokenLine} {room : Nat} {tokens : List Token}

/-- Some tokens of a line are scanned from the text under the span around them. -/
theorem scansAs_of_around (hscan : scan source = .ok lines) {line : TokenLine}
    (hline : line ∈ lines) (htokens : tokens <:+: line.tokens) {span : Span}
    (hspan : span.Around tokens) :
    tokens ≠ [] ∧ ∃ stop, ScansAs (span.slice source) span.start [⟨tokens, stop⟩] := by
  obtain ⟨t, t', ht, ht', rfl⟩ := hspan
  obtain ⟨before, after, rfl⟩ := List.append_of_mem hline
  obtain ⟨whole, stop⟩ := line
  obtain ⟨front, back, rfl⟩ := htokens
  rw [List.append_assoc] at hscan
  refine ⟨?_, scansAs_tokens hscan ht ht' t.span.line⟩
  rintro rfl
  cases ht

/-- A statement is read alone from the text under its span. -/
theorem Stmt.readsAlone (hscan : scan source = .ok lines) {own : List TokenLine}
    (hown : own <:+: lines) {s : Stmt} (h : s.Reads room own) (hroom : room ≤ maxNesting) :
    (Node.stmt s).ReadsAlone source := by
  have horder := (inOrder_of_scan hscan).narrow (tokensOf_mono hown)
  obtain ⟨first, last, t, t', hfirst, ht, hlast, ht', hspan⟩ := (s.covers h horder).exists_ends
  obtain ⟨before, after, rfl⟩ := hown
  rw [List.append_assoc] at hscan
  have hscans := scansAs_lines hscan hfirst ht hlast ht' t.span.line
  rw [← hspan, show t.span.start = s.span.start by rw [hspan]] at hscans
  obtain ⟨scanned, count, gap, gap', hscanned, hmoved, hgap, hgap'⟩ := hscans
  have hreads : readsAll room [s] (gap ++ (own ++ gap')) :=
    ⟨gap, own, gap', rfl, hgap.silent, h, hgap'.silent⟩
  have hlow := readProgram_of_readsAll hreads
  have hhigh : readProgram maxNesting (gap ++ (own ++ gap')) = .ok [s] := by
    rcases refuses_readProgram hroom (gap ++ (own ++ gap')) with heq | ⟨span, hdeep⟩
    · rw [← heq, hlow]
    · rw [hlow] at hdeep
      cases hdeep
  rw [← hmoved] at hhigh
  obtain ⟨stmts, hstmts, hmove⟩ := exists_of_readProgram_move hhigh
  obtain ⟨s', rfl, hs⟩ := List.map_eq_singleton_iff.mp hmove
  exact ⟨count, s', bind_eq_ok.mpr ⟨scanned, hscanned, hstmts⟩, hs⟩

/-- Every node that stands in a scanned text is read alone from the text under its span. -/
theorem Node.StandsIn.readsAlone {node : Node} (h : node.StandsIn lines room tokens)
    (hscan : scan source = .ok lines) (hroom : room ≤ maxNesting) (hshaped : node.Shaped)
    (hfits : Within node.levels room) : node.ReadsAlone source := by
  have haround := h.around (inOrder_of_scan hscan)
  have hfits : Within node.levels maxNesting := fun level hm => (hfits level hm).trans hroom
  cases h with
  | stmt hown h => exact Stmt.readsAlone hscan hown h hroom
  | target => exact trivial
  | cond hline htokens h =>
    obtain ⟨hne, stop, hscans⟩ := scansAs_of_around hscan hline htokens haround
    exact hscans.readAlone .condition hne
      (fun f => readsAfter_condition (Nat.le_refl _) (Nat.lt_irrefl _)) (h.read hshaped hfits stop)
  | expr hline htokens h =>
    obtain ⟨hne, stop, hscans⟩ := scansAs_of_around hscan hline htokens haround
    exact hscans.readAlone .expression hne
      (fun f => readsAfter_expression (Nat.le_refl _) (Nat.lt_irrefl _)) (h.read hshaped hfits stop)

end Nodes

/--
Spans are faithful. In an accepted script the text under the span of any statement, condition or
expression, read alone, is accepted as exactly that node, all spans of which are the same number of
characters and the same number of lines further on in the script. The span of everything right below
a node is inside the node's span.
-/
theorem spans_faithful {source : String} {stmts : List Stmt}
    (h : parseProgram source = .ok stmts) :
    ∀ s ∈ stmts, ∀ blocks node, Node.Holds blocks (.stmt s) node →
      node.ReadsAlone source ∧
        ∀ child ∈ node.parts ++ node.enclosed, child.span.Inside node.span := by
  intro s hs blocks node hholds
  obtain ⟨hshaped, hfits⟩ := fits_of_parseProgram h
  obtain ⟨lines, hscan, hread⟩ := bind_eq_ok.mp h
  have hreads := (readProgram_iff (bracesAlone_of_scan hscan)).mp hread
  obtain ⟨own, hown, hreads⟩ := readsAll_mem hreads hs
  obtain ⟨room, tokens, hroom, hstands⟩ :=
    Node.StandsIn.of_holds hholds (.stmt hown hreads)
  obtain ⟨lower, hlower, hbelow, hwithin⟩ := hholds.within
    (fun phrase hm => hshaped phrase (mem_phrasesOf hm hs)) (within_of_mem hfits hs)
  obtain rfl : lower = room := by omega
  exact ⟨hstands.readsAlone hscan (by omega) hbelow hwithin,
    fun child hm => hstands.inside (inOrder_of_scan hscan) hm⟩

/-- A negation inside a block reads as the same negation from its own slice. -/
theorem spans_faithful_enclosed :
    (∃ stmts, parseProgram enclosedSource = .ok stmts ∧
      ∃ s ∈ stmts, Node.Holds 1 (.stmt s) (.expr enclosedExpr)) ∧
      enclosedExpr.span.text enclosedSource = "-y" ∧
      (Node.expr enclosedExpr).ReadsAlone enclosedSource ∧
      Span.Inside ⟨7, 8, 2⟩ enclosedExpr.span := by
  obtain ⟨t, span, outer, hparse⟩ := parseProgram_enclosed
  have hholds := holds_enclosed t span outer
  obtain ⟨halone, hinside⟩ := spans_faithful hparse _ List.mem_cons_self 1 _ hholds
  refine ⟨⟨_, hparse, _, List.mem_cons_self, hholds⟩, by decide +kernel, halone, ?_⟩
  exact hinside (.expr (.scalar "y" ⟨7, 8, 2⟩)) List.mem_cons_self

end NumericScript
