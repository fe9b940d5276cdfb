import NumericScript.Proofs.Blame.Source
import NumericScript.Proofs.Faithful.Parts
import NumericScript.Proofs.Running.Reach

/-!
# Where a run is found wrong

A run fails at an index, when it is evaluated, or at the condition of a loop, when a limit is
exceeded. Both are nodes of the program, which stand on tokens of one line of the script. So the
place of every error points into a line of the script, whether it is found when the script is read
or when it is run.
-/

namespace NumericScript

/-- The places of the conditions and expressions in a node have a property. -/
structure Node.Points (good : Span → Prop) (node : Node) : Prop where
  cond : ∀ {blocks : Nat} {c : Cond}, Node.Holds blocks node (.cond c) → good c.span
  expr : ∀ {blocks : Nat} {e : Expr}, Node.Holds blocks node (.expr e) → good e.span

/-- The places of the conditions and expressions in a phrase have a property. -/
def Phrase.Points (good : Span → Prop) : Phrase → Prop
  | assignment target value => (Node.target target).Points good ∧ (Node.expr value).Points good
  | condition c => (Node.cond c).Points good

/-- A run that fails does so at a place with a property. -/
def Outcome.Blames (good : Span → Prop) : Outcome → Prop
  | failed error _ => good error.span
  | _ => True

section Nodes

variable {good : Span → Prop}

private theorem Node.Points.part {node part : Node} (h : node.Points good)
    (hm : part ∈ node.parts) : part.Points good :=
  ⟨fun hholds => h.cond (.part hm hholds), fun hholds => h.expr (.part hm hholds)⟩

private theorem Node.Points.enclosed {node inner : Node} (h : node.Points good)
    (hm : inner ∈ node.enclosed) : inner.Points good :=
  ⟨fun hholds => h.cond (.enclosed hm hholds), fun hholds => h.expr (.enclosed hm hholds)⟩

mutual

private theorem Stmt.points_phrases : ∀ s : Stmt, (Node.stmt s).Points good →
    ∀ phrase ∈ s.phrases, phrase.Points good
  | .assign target value _, h => by
    refine List.forall_mem_singleton.mpr ⟨h.part ?_, h.part ?_⟩ <;> simp [Node.parts]
  | .block body _, h =>
    points_phrasesOf body fun _ hs => h.enclosed (List.mem_map_of_mem hs)
  | .branch condition body otherwise _, h => by
    refine List.forall_mem_cons.mpr ⟨h.part List.mem_cons_self, ?_⟩
    have hinner : ∀ s ∈ body ++ otherwise.bodies, (Node.stmt s).Points good :=
      fun _ hs => h.enclosed (List.mem_map_of_mem hs)
    obtain ⟨hbody, hbodies⟩ := List.forall_mem_append.mp hinner
    refine List.forall_mem_append.mpr ⟨points_phrasesOf body hbody, ?_⟩
    exact otherwise.points_phrases
      (fun _ hc => h.part (List.mem_cons_of_mem _ (List.mem_map_of_mem hc))) hbodies
  | .loop condition body _, h =>
    List.forall_mem_cons.mpr ⟨h.part List.mem_cons_self,
      points_phrasesOf body fun _ hs => h.enclosed (List.mem_map_of_mem hs)⟩

private theorem Chain.points_phrases : ∀ chain : Chain,
    (∀ c ∈ chain.conditions, (Node.cond c).Points good) →
    (∀ s ∈ chain.bodies, (Node.stmt s).Points good) → ∀ phrase ∈ chain.phrases, phrase.Points good
  | .done, _, _ => List.forall_mem_nil _
  | .block body, _, hbodies => points_phrasesOf body hbodies
  | .branch condition body otherwise, hconditions, hbodies => by
    obtain ⟨hcondition, hconditions⟩ := List.forall_mem_cons.mp hconditions
    obtain ⟨hbody, hbodies⟩ := List.forall_mem_append.mp hbodies
    exact List.forall_mem_cons.mpr ⟨hcondition, List.forall_mem_append.mpr
      ⟨points_phrasesOf body hbody, otherwise.points_phrases hconditions hbodies⟩⟩

/-- What is true of the places in statements is true of those in their phrases. -/
theorem points_phrasesOf : ∀ stmts : List Stmt, (∀ s ∈ stmts, (Node.stmt s).Points good) →
    ∀ phrase ∈ phrasesOf stmts, phrase.Points good
  | [], _ => List.forall_mem_nil _
  | s :: later, h => by
    obtain ⟨hfirst, hlater⟩ := List.forall_mem_cons.mp h
    exact List.forall_mem_append.mpr ⟨s.points_phrases hfirst, points_phrasesOf later hlater⟩

end

end Nodes

section Evaluation

variable {good : Span → Prop} {store : Store}

private theorem Reading.result_bind {α β : Type} (reading : Reading α) (next : α → Reading β) :
    (reading >>= next).result = reading.result >>= fun a => (next a).result := by
  show (reading.andThen next).result = _
  rw [andThen]
  cases reading.result <;> rfl

private theorem Blames.read {α β : Type} {reading : Reading α} {next : α → Reading β}
    (h : Blames good (fun _ => True) reading.result)
    (hnext : ∀ a, Blames good (fun _ => True) (next a).result) :
    Blames good (fun _ => True) (reading >>= next).result := by
  rw [Reading.result_bind]
  exact h.bind fun a _ => hnext a

private theorem blames_look (address : Address) :
    Blames good (fun _ => True) (Reading.look store address).result := by
  rw [Reading.look]
  split <;> exact .ok trivial

private theorem blames_index {span : Span} (h : good span) (value : Single) :
    Blames good (fun _ => True) (Reading.index span value).result := by
  rw [Reading.index]
  split
  · exact .ok trivial
  · exact .error h

/-- Evaluation blames indices only. -/
theorem Expr.blames_eval (e : Expr) (h : (Node.expr e).Points good) :
    Blames good (fun _ => True) (e.eval store).result := by
  induction e with
  | number => exact .ok trivial
  | scalar name => exact blames_look _
  | element name index span ih =>
    have hindex := h.part List.mem_cons_self
    refine (ih hindex).read fun value => ?_
    exact (blames_index (hindex.expr (.refl _)) value).read fun _ => blames_look _
  | binary op left right span ihl ihr =>
    have hleft := h.part List.mem_cons_self
    have hright := h.part (List.mem_cons_of_mem _ List.mem_cons_self)
    exact (ihl hleft).read fun _ => (ihr hright).read fun _ => .ok trivial
  | negate operand span ih | call builtin operand span ih =>
    exact (ih (h.part List.mem_cons_self)).read fun _ => .ok trivial
  | group inner span ih => exact ih (h.part List.mem_cons_self)

private theorem Expr.blames_evalIndex (index : Expr) (h : (Node.expr index).Points good) :
    Blames good (fun _ => True) (index.evalIndex store).result :=
  (index.blames_eval h).read fun value => blames_index (h.expr (.refl _)) value

private theorem Cond.blames_eval (c : Cond) (h : (Node.cond c).Points good) :
    Blames good (fun _ => True) (c.eval store).result := by
  induction c with
  | compare op left right span =>
    have hleft := h.part List.mem_cons_self
    have hright := h.part (List.mem_cons_of_mem _ List.mem_cons_self)
    refine (left.blames_eval hleft).read fun _ => ?_
    exact (right.blames_eval hright).read fun _ => .ok trivial
  | logical op left right span ihl ihr =>
    have hleft := h.part List.mem_cons_self
    have hright := h.part (List.mem_cons_of_mem _ List.mem_cons_self)
    exact (ihl hleft).read fun _ => (ihr hright).read fun _ => .ok trivial

end Evaluation

section Runs

variable {good : Span → Prop}

/-- A run blames the places of its conditions and of the indices in its phrases. -/
theorem performs_blames (limits : Limits) (good : Span → Prop) :
    Performs limits (Phrase.Points good) fun _ outcome => outcome.Blames good where
  unfinished _ := trivial
  finished _ := trivial
  trans _ hlater := hlater
  decide machine condition h := by
    unfold Machine.branch
    split
    · rename_i error after hcondition
      exact (condition.blames_eval h).of_error (Prod.mk.inj hcondition).1
    · trivial
    · trivial
  assign machine target value h := by
    obtain ⟨htarget, hvalue⟩ := h
    unfold Machine.assign
    split
    · rename_i error after hfails
      exact (value.blames_eval hvalue).of_error (Prod.mk.inj hfails).1
    · cases target with
      | scalar => trivial
      | element name index span =>
        dsimp only
        split
        · rename_i error after hfails
          have hindex := htarget.part List.mem_cons_self
          exact (index.blames_evalIndex hindex).of_error (Prod.mk.inj hfails).1
        · trivial
  start machine condition h := by
    unfold Machine.enter
    split
    · exact h.cond (.refl _)
    · trivial

end Runs

section Programs

variable {source : String} {lines : List TokenLine}

/-- What goes around tokens of a line is in the line. -/
theorem Span.Around.within {span : Span} {tokens : List Token} {line : Line}
    (h : span.Around tokens) (horder : InOrder tokens) (htokens : AllAt (·.Within line) tokens) :
    span.Within line := by
  obtain ⟨first, last, hfirst, hlast, rfl⟩ := h
  have hmem := List.mem_of_getLast? hlast
  have hbegin := htokens first (List.mem_of_head? hfirst)
  have hend := htokens last hmem
  have hle := (horder.first_le hfirst hmem).1
  exact ⟨hbegin.line_eq, hbegin.first_le, Nat.lt_of_le_of_lt hle hend.nonempty, hend.stop_le⟩

/-- A condition or an expression that stands in a scanned text points into one of its lines. -/
theorem pointsInto_of_around (hscan : scan source = .ok lines) {scanned : TokenLine}
    {tokens : List Token} {span : Span} (hscanned : scanned ∈ lines)
    (htokens : tokens <:+: scanned.tokens) (h : InOrder tokens → span.Around tokens) :
    span.PointsInto source := by
  obtain ⟨line, hline, hread⟩ := scan_mem hscan hscanned
  have hinside : tokens <:+: tokensOf lines :=
    htokens.trans (List.infix_of_mem_flatten (List.mem_map_of_mem hscanned))
  have horder := (inOrder_of_scan hscan).narrow hinside
  have htoken := fun t ht => within_token hline hread t (htokens.subset ht)
  have hwithin := (h horder).within horder htoken
  exact hwithin.pointsInto hline

/-- The conditions and expressions of a node that stands in a scanned text point into its lines. -/
theorem Node.StandsIn.points {node : Node} {room : Nat} {tokens : List Token}
    (h : node.StandsIn lines room tokens) (hscan : scan source = .ok lines) :
    node.Points (·.PointsInto source) where
  cond hholds := by
    obtain ⟨_, _, _, hstands⟩ := of_holds hholds h
    cases hstands with
    | cond hline htokens hspelled => exact pointsInto_of_around hscan hline htokens hspelled.around
  expr hholds := by
    obtain ⟨_, _, _, hstands⟩ := of_holds hholds h
    cases hstands with
    | expr hline htokens hspelled => exact pointsInto_of_around hscan hline htokens hspelled.around

private theorem points_of_parseProgram {program : List Stmt}
    (h : parseProgram source = .ok program) :
    ∀ s ∈ program, (Node.stmt s).Points (·.PointsInto source) := by
  intro s hs
  obtain ⟨lines, hscan, hread⟩ := bind_eq_ok.mp h
  have hreads := (readProgram_iff (bracesAlone_of_scan hscan)).mp hread
  obtain ⟨own, hown, hreads⟩ := readsAll_mem hreads hs
  exact (Node.StandsIn.stmt hown hreads).points hscan

/-- What is read from a text alone is read from one of its lines. -/
theorem exists_line_of_alone {α : Type} {subject : Subject} {reader : Reader α} {a : α}
    (hreader : Shrinks reader)
    (h : (do let lines ← scan source; readAlone subject reader lines) = .ok a) :
    ∃ lines line, scan source = .ok lines ∧ line ∈ lines ∧
      reader line.stop line.tokens = .ok (a, []) := by
  obtain ⟨lines, hscan, hread⟩ := bind_eq_ok.mp h
  obtain ⟨line, hlines, hread⟩ := readAlone_eq_ok hreader hread
  exact ⟨lines, line, hscan, (List.mem_filter.mp (hlines ▸ List.mem_cons_self)).1, hread⟩

private theorem points_of_parseExpression {e : Expr} (h : parseExpression source = .ok e) :
    (Node.expr e).Points (·.PointsInto source) := by
  obtain ⟨lines, line, hscan, hline, hread⟩ :=
    exists_line_of_alone (shrinks_expression maxNesting) h
  obtain ⟨used, hused, hspelled, _⟩ := spellsExpr_expression maxNesting _ _ _ _ hread
  have hstands : (Node.expr e).StandsIn lines 0 used :=
    .expr hline ⟨[], [], by rw [hused]; rfl⟩ hspelled
  exact hstands.points hscan

private theorem points_of_parseCondition {c : Cond} (h : parseCondition source = .ok c) :
    (Node.cond c).Points (·.PointsInto source) := by
  obtain ⟨lines, line, hscan, hline, hread⟩ :=
    exists_line_of_alone (shrinks_condition maxNesting) h
  obtain ⟨used, hused, hspelled, _⟩ := spellsCond_condition maxNesting _ _ _ _ hread
  have hstands : (Node.cond c).StandsIn lines 0 used :=
    .cond hline ⟨[], [], by rw [hused]; rfl⟩ hspelled
  exact hstands.points hscan

/--
Every error points into the logical line at fault: when a text is read as a script, an expression or
a condition, when the script is run, from whatever environment and under whatever limits, and when
the expression or the condition is evaluated.
-/
theorem errors_point_into_lines (source : String) :
    (∀ error, parseProgram source = .error error → error.span.PointsInto source) ∧
      (∀ error, parseExpression source = .error error → error.span.PointsInto source) ∧
      (∀ error, parseCondition source = .error error → error.span.PointsInto source) ∧
      (∀ program, parseProgram source = .ok program → ∀ limits rounds env error machine,
        runProgram limits rounds program env = .failed error machine →
          error.span.PointsInto source) ∧
      ∀ (env : Environment) (error : ScriptError), (env.evaluate source).1 = .error error ∨
        (env.evaluateCondition source).1 = .error error → error.span.PointsInto source := by
  refine ⟨fun _ => (blames_parseProgram source).of_error,
    fun _ => (blames_parseExpression source).of_error,
    fun _ => (blames_parseCondition source).of_error, ?_, ?_⟩
  · intro program hparse limits rounds env error machine hrun
    have hpoints := points_phrasesOf program (points_of_parseProgram hparse)
    have hblames : (execAll limits rounds program ⟨env, #[]⟩).Blames _ :=
      (performs_blames limits _).execAll program hpoints ⟨env, #[]⟩
    rw [runProgram] at hrun
    rw [hrun] at hblames
    exact hblames
  · rintro env error (h | h)
    · unfold Environment.evaluate at h
      split at h
      · rename_i found hparse
        exact Except.error.inj h ▸ (blames_parseExpression source).of_error hparse
      · rename_i e hparse
        exact (e.blames_eval (points_of_parseExpression hparse)).of_error h
    · unfold Environment.evaluateCondition at h
      split at h
      · rename_i found hparse
        exact Except.error.inj h ▸ (blames_parseCondition source).of_error hparse
      · rename_i c hparse
        exact (c.blames_eval (points_of_parseCondition hparse)).of_error h

/-- A script that is read and then fails at the index in its second line. -/
def negativeIndexSource : String := "x = 1\r\n A[x - 2] = 0"

/-- A script whose block is not closed at the end of the text. -/
def openBlockSource : String := "x = 1\n if (x > 0) \x7b"

/-- The error of what fails. -/
def failure? {α : Type} : Except ScriptError α → Option ScriptError
  | .error error => some error
  | .ok _ => none

private theorem failure?_eq_some {α : Type} {x : Except ScriptError α} {error : ScriptError} :
    failure? x = some error ↔ x = .error error := by
  cases x <;> simp [failure?]

/--
The error of a run at a negative index and the error of reading an open block, both in the lines.
-/
theorem errors_point_into_lines_open :
    (∃ program error machine, parseProgram negativeIndexSource = .ok program ∧
      runProgram {} 1 program .fresh = .failed error machine ∧ error.span = ⟨10, 15, 1⟩ ∧
      error.span.PointsInto negativeIndexSource) ∧
    ∃ error, parseProgram openBlockSource = .error error ∧ error.span = ⟨18, 19, 2⟩ ∧
      error.span.PointsInto openBlockSource := by
  constructor
  · have hrun : (parseProgram negativeIndexSource).toOption.bind (fun program =>
        match runProgram {} 1 program .fresh with
        | .failed error _ => some error.span
        | _ => none) = some ⟨10, 15, 1⟩ := by decide +kernel
    obtain ⟨program, hprogram, hrun⟩ := Option.bind_eq_some_iff.mp hrun
    have hparse := toOption_eq_some.mp hprogram
    split at hrun
    · rename_i error machine hfailed
      obtain ⟨_, _, _, hruns, _⟩ := errors_point_into_lines negativeIndexSource
      exact ⟨program, error, machine, hparse, hfailed, Option.some.inj hrun,
        hruns program hparse {} 1 .fresh error machine hfailed⟩
    · cases hrun
  · have hread : (failure? (parseProgram openBlockSource)).map ScriptError.span =
        some ⟨18, 19, 2⟩ := by decide +kernel
    obtain ⟨error, herror, hspan⟩ := Option.map_eq_some_iff.mp hread
    have hparse := failure?_eq_some.mp herror
    exact ⟨error, hparse, hspan, (errors_point_into_lines openBlockSource).1 error hparse⟩

end Programs

end NumericScript
