import Mathlib.Data.List.TakeWhile
import Mathlib.Data.Nat.Init
import NumericScript.Proofs.Cursor.Expr
import NumericScript.Proofs.Nesting.Cond

/-!
# Walks over lines

Conditions, headers and assignments: what the machine reads within one line, up to its end.
-/

namespace NumericScript

namespace Walk

open Course

section

variable {marks : List Mark} {stop : Span} {current depth room : Nat} {tokens : List Token}

private theorem compareOp?_eq_none {kind : TokenKind} (h : compareOp? kind = none) :
    kind ∉ [.less, .greater, .equalEqual, .bangEqual] := by
  cases kind <;> simp_all [compareOp?]

private theorem compareOp?_mem {kind : TokenKind} {op : CompareOp} (h : compareOp? kind = some op) :
    MarkKind.token kind ∈
      [.token .less, .token .greater, .token .equalEqual, .token .bangEqual] := by
  cases kind <;> cases h <;> decide

private theorem compareSign_token {kind : TokenKind} {op : CompareOp}
    (h : compareOp? kind = some op) : compareSign (.token kind) = pure op := by
  cases kind <;> cases h <;> rfl

variable (hmarks : Streaming marks)

include hmarks

private theorem reads_comparison (hdepth : depth + room = maxNesting) :
    Reads marks depth (comparison marks) (NumericScript.comparison room) := by
  intro stop current tokens hline
  have hbound : depth ≤ maxNesting := by omega
  rw [comparison]
  refine (reads_expression hmarks hdepth stop current tokens hline).bind (Nat.le_refl depth)
    fun left rest next hrest => ?_
  have hrefuse := traces_refuse (β := Cond) .expectedComparison hrest hbound
    (Nat.le_refl depth) (by simp)
  cases rest with
  | nil => exact .pass [.less, .greater, .equalEqual, .bangEqual] hrest (by simp) hrefuse
  | cons t later =>
    dsimp only
    cases hop : compareOp? t.kind with
    | none =>
      exact .pass [.less, .greater, .equalEqual, .bangEqual] hrest
        (by simpa using compareOp?_eq_none hop) hrefuse
    | some op =>
      refine .accept hmarks hbound hrest (compareOp?_mem hop) (.previous hrest.1 ?_)
      simp only [Mark.kind, compareSign_token hop, bind_of_pure]
      have hright := reads_expression hmarks hdepth stop _ _ hrest.2
      exact (hright.blame t.span (.missingOperand t.lexeme .comparison) (by simp)).bind
        (Nat.le_refl depth) fun right last final hlast => traces_pure depth _ hlast

section Chain

variable {sign : TokenKind} {op : LogicalOp} {link : Walk Cond} {again : Cond → Walk Cond}
  {reader : Reader Cond}

private theorem traces_chainRest (progress : Shrinks reader) (hdepth : depth ≤ maxNesting)
    (hlink : Reads marks depth link reader)
    (hagain : ∀ left place,
      (again left).endsAt place = (chainRest marks sign op link again left).endsAt place)
    (left : Cond) (hline : LineAt marks stop current tokens) :
    Traces marks stop (chainRest marks sign op link again left) ⟨current, depth⟩ tokens depth
      (NumericScript.chainRest sign op reader progress left stop tokens) := by
  induction hlength : tokens.length using Nat.strong_induction_on
    generalizing current tokens left with
  | _ length ih =>
    have hstops := traces_pure depth left hline
    rw [chainRest]
    cases tokens with
    | nil =>
      rw [chainRest_nil]
      exact .pass [sign] hline (by simp) hstops
    | cons t rest =>
      rw [chainRest_cons]
      by_cases hkind : t.kind = sign
      · rw [if_pos hkind]
        refine .accept hmarks hdepth hline (by simp [hkind]) ?_
        refine (hlink stop _ _ hline.2).bind_of_eq (Nat.le_refl depth)
          fun right later next hright hlater =>
            .of_eq (hagain _ _) (ih later.length ?_ _ hlater rfl)
        have := progress _ _ _ _ hright
        simp only [List.length_cons] at hlength
        omega
      · rw [if_neg hkind]
        exact .pass [sign] hline (by simpa using hkind) hstops

private theorem reads_chain (progress : Shrinks reader) (hdepth : depth ≤ maxNesting)
    (hlink : Reads marks depth link reader)
    (hagain : ∀ left place,
      (again left).endsAt place = (chainRest marks sign op link again left).endsAt place) :
    Reads marks depth (do let left ← link; chainRest marks sign op link again left)
      (NumericScript.chain sign op reader progress) := by
  intro stop current tokens hline
  exact (hlink stop current tokens hline).bind (Nat.le_refl depth)
    fun left later next hlater => traces_chainRest hmarks progress hdepth hlink hagain left hlater

end Chain

/-- Parsing a condition does what reading one does. -/
theorem reads_condition (hdepth : depth + room = maxNesting) :
    Reads marks depth (condition marks) (NumericScript.condition room) := by
  have hbound : depth ≤ maxNesting := hdepth ▸ Nat.le_add_right depth room
  have hconjunction : Reads marks depth (conjunction marks) (NumericScript.conjunction room) :=
    reads_chain hmarks _ hbound (reads_comparison hmarks hdepth) fun left =>
      endsAt_enter (Part.conjunctionRest marks left)
  exact reads_chain hmarks _ hbound hconjunction fun left =>
    endsAt_enter (Part.disjunctionRest marks left)

omit hmarks in
/-- Where the target's name ends because no word-like token follows. -/
theorem endsAt_nameRest_of_stop {name : String} {span : Span} {mark : Mark}
    (hmark : marks[current]? = some mark) (hkind : isNameMark mark.kind = false) :
    (nameRest marks name span).endsAt ⟨current, depth⟩ =
      some (.ok (name, span), ⟨current, depth⟩) := by
  rw [nameRest, endsAt_bind_ok (endsAt_peek hmark), hkind]
  exact endsAt_pure (name, span)

private theorem traces_nameRest (hdepth : depth ≤ maxNesting) (name : String) (span : Span)
    (hline : LineAt marks stop current tokens) :
    Traces marks stop (nameRest marks name span) ⟨current, depth⟩ tokens depth
      (.ok
        ((name ++
            (tokens.takeWhile (isNamePart ·.kind)).foldr (fun t later => t.lexeme ++ later) "",
          (tokens.takeWhile (isNamePart ·.kind)).foldl (fun span t => span.join t.span) span),
        tokens.dropWhile (isNamePart ·.kind))) := by
  induction tokens generalizing current name span with
  | nil =>
    obtain ⟨mark, hmark, _, hkind⟩ := id hline
    have hname : isNameMark mark.kind = false := by
      cases h : mark.kind with
      | token kind => exact absurd h (hkind kind)
      | newline | endOfText => rfl
    refine ⟨current, rfl, hline, ?_⟩
    simpa using endsAt_nameRest_of_stop hmark hname
  | cons t rest ih =>
    cases hname : isNamePart t.kind with
    | false =>
      refine ⟨current, ?_, ?_, ?_⟩
      · simp [hname]
      · simpa [hname] using hline
      · simpa [hname] using endsAt_nameRest_of_stop hline.1 hname
    | true =>
      rw [nameRest]
      refine .step (endsAt_peek hline.1) rfl ?_
      rw [if_pos (show isNameMark (Mark.token t).kind = true from hname)]
      refine .step (endsAt_advance hmarks hline.1 t.ne_endOfText hdepth)
        (Nat.succ_add_eq_add_succ _ _) ?_
      refine .enter (show Traces marks stop (nameRest marks _ _) _ _ _ _ from ?_)
      simpa [hname, String.append_assoc, Mark.lexeme, Mark.span] using
        ih (name ++ t.lexeme) (span.join t.span) hline.2

private theorem reads_target (hdepth : depth + room = maxNesting) :
    Reads marks depth (target marks) (NumericScript.target room) := by
  intro stop current tokens hline
  have hbound : depth ≤ maxNesting := by omega
  obtain ⟨mark, hmark, hspan⟩ := hline.exists_mark
  rw [target]
  refine .step (endsAt_peek hmark) rfl ?_
  unfold NumericScript.target
  by_cases hname : ∃ t ∈ tokens.head?, isNamePart t.kind = true
  · obtain ⟨t, ht, hname⟩ := hname
    obtain ⟨rest, rfl⟩ := List.head?_eq_some_iff.mp ht
    obtain rfl := Option.some.inj (hmark.symm.trans hline.1)
    rw [if_pos (show isNameMark (Mark.token t).kind = true from hname)]
    refine .step (endsAt_advance hmarks hline.1 t.ne_endOfText hbound)
      (Nat.succ_add_eq_add_succ _ _) ?_
    simp only [List.takeWhile_cons, List.dropWhile_cons, hname, if_true, List.foldr_cons]
    obtain ⟨next, hlength, hlater, hend⟩ := traces_nameRest hmarks hbound t.lexeme t.span hline.2
    refine .step hend hlength ?_
    generalize rest.dropWhile (isNamePart ·.kind) = later at hlater ⊢
    have hscalar name span := traces_pure depth (Target.scalar name span) hlater
    cases later with
    | nil => exact .pass [.leftBracket] hlater (by simp) (hscalar _ _)
    | cons u inner =>
      obtain ⟨kind, lexeme, span⟩ := u
      cases kind with
      | leftBracket =>
        refine .accept hmarks hbound hlater (by simp) ?_
        refine (reads_expression hmarks hdepth stop _ _ hlater.2).bind (Nat.le_refl depth)
          fun index after final hafter => ?_
        have hclose := reads_consume hmarks hbound .rightBracket .unclosedIndex (by simp)
        exact (hclose stop _ _ hafter).bind (Nat.le_refl depth)
          fun close others place hothers => traces_pure depth _ hothers
      | _ => exact .pass [.leftBracket] hlater (by simp) (hscalar _ _)
  · have hnone : isNameMark mark.kind = false := by
      cases tokens with
      | nil =>
        obtain ⟨_, hmark', _, hkind⟩ := hline
        obtain rfl := Option.some.inj (hmark.symm.trans hmark')
        cases h : mark.kind with
        | token kind => exact absurd h (hkind kind)
        | newline | endOfText => rfl
      | cons t rest =>
        obtain rfl := Option.some.inj (hmark.symm.trans hline.1)
        exact Bool.eq_false_iff.mpr fun h => hname ⟨t, rfl, h⟩
    rw [hnone]
    have hempty : tokens.takeWhile (isNamePart ·.kind) = [] := by
      cases tokens with
      | nil => rfl
      | cons t rest => simpa using hname
    have hall : tokens.dropWhile (isNamePart ·.kind) = tokens := by
      cases tokens with
      | nil => rfl
      | cons t rest => simpa using hname
    rw [hempty, hall]
    exact traces_refuse .invalidTarget hline hbound (Nat.le_refl depth) (by simp)

end

/-- The cursor is before the tokens that are left of a line, and the next line is further on. -/
structure LineTo (marks : List Mark) (stop : Span) (next current : Nat) (tokens : List Token) :
    Prop where
  line : LineAt marks stop current tokens
  length : current + tokens.length + 1 = next
  newline : marks[current + tokens.length]? = some (.newline stop)

/-- A walk comes to a place with what is read there, or fails as reading does. -/
def Passes {α : Type} (marks : List Mark) (walk : Walk α) (place goal : Place) :
    Except ScriptError α → Prop
  | .ok a => walk.endsAt place = some (.ok a, goal)
  | .error error => Fails marks walk place goal.depth error

section

variable {α β : Type} {marks : List Mark} {stop : Span} {current depth room next : Nat}
  {tokens : List Token} {walk : Walk α} {place middle goal : Place}

/-- What is left of a line after something was read. -/
theorem LineTo.later {later : Nat} {rest : List Token} (h : LineTo marks stop next current tokens)
    (hlength : later + rest.length = current + tokens.length)
    (hline : LineAt marks stop later rest) :
    LineTo marks stop next later rest :=
  ⟨hline, hlength ▸ h.length, hlength ▸ h.newline⟩

/-- What is left of a line after its first token. -/
theorem LineTo.tail {t : Token} {rest : List Token}
    (h : LineTo marks stop next current (t :: rest)) : LineTo marks stop next (current + 1) rest :=
  h.later (Nat.succ_add_eq_add_succ _ _) h.line.2

/-- The cursor moves on when it comes to the next line. -/
theorem LineTo.lt (h : LineTo marks stop next current tokens) : current < next :=
  Nat.lt_of_lt_of_eq (by omega) h.length

/-- A walk that ends as another one does passes as it does. -/
theorem Passes.of_eq {walk' : Walk α} {place' : Place} {outcome : Except ScriptError α}
    (heq : walk'.endsAt place' = walk.endsAt place) (h : Passes marks walk place goal outcome) :
    Passes marks walk' place' goal outcome := by
  cases outcome with
  | error error => exact Fails.of_eq heq h
  | ok a => exact heq.trans h

private theorem Passes.bind {f : α → Walk β} {outcome : Except ScriptError α}
    {g : α → Except ScriptError β} (h : Passes marks walk place middle outcome)
    (hlow : goal.depth ≤ middle.depth) (hf : ∀ a, Passes marks (f a) middle goal (g a)) :
    Passes marks (walk >>= f) place goal (outcome >>= g) := by
  cases outcome with
  | error error => exact Fails.mono (Fails.bind h f) hlow
  | ok a =>
    have hnext := hf a
    show Passes marks (walk >>= f) place goal (g a)
    cases hg : g a with
    | error error =>
      rw [hg] at hnext
      exact Fails.step h hnext
    | ok b =>
      rw [hg] at hnext
      exact (endsAt_bind_ok h).trans hnext

/-- A walk that begins with a step of the machine passes as it does from where the step ends. -/
theorem Passes.step {γ : Type} {step : Walk γ} {c : γ} {f : γ → Walk α}
    {outcome : Except ScriptError α} (hstep : step.endsAt place = some (.ok c, middle))
    (h : Passes marks (f c) middle goal outcome) :
    Passes marks (step >>= f) place goal outcome := by
  cases outcome with
  | error error => exact Fails.step hstep h
  | ok a => exact (endsAt_bind_ok hstep).trans h

/-- What reads a part of a line goes on with the rest of the line. -/
theorem Reads.passes {reader : Reader α} (h : Reads marks depth walk reader)
    (hline : LineTo marks stop next current tokens) {f : α → Walk β}
    {g : α × List Token → Except ScriptError β} (hlow : goal.depth ≤ depth)
    (hf : ∀ a rest later, LineTo marks stop next later rest →
      Passes marks (f a) ⟨later, depth⟩ goal (g (a, rest))) :
    Passes marks (walk >>= f) ⟨current, depth⟩ goal (reader stop tokens >>= g) := by
  have htraces := h stop current tokens hline.line
  cases hread : reader stop tokens with
  | error error =>
    rw [hread] at htraces
    exact Fails.mono (Fails.bind htraces f) hlow
  | ok result =>
    rw [hread] at htraces
    obtain ⟨later, hlength, hlater, hend⟩ := htraces
    exact .step hend (hf _ _ later (hline.later hlength hlater))

variable (hmarks : Streaming marks)

include hmarks

/-- The end of a line is taken, or something stands before it. -/
theorem passes_endOfLine (hdepth : depth ≤ maxNesting) (clause : Clause)
    (hline : LineTo marks stop next current tokens) :
    Passes marks (endOfLine marks clause) ⟨current, depth⟩ ⟨next, depth⟩
      (NumericScript.endOfLine clause tokens) := by
  obtain ⟨hat, rfl, hnewline⟩ := hline
  rw [endOfLine]
  cases tokens with
  | nil =>
    have haccept := endsAt_accept hmarks hnewline (Mark.newline_ne_endOfText stop) hdepth
      (List.mem_singleton.mpr rfl)
    exact .step (endsAt_isAtEnd hnewline) (.step haccept (endsAt_pure ()))
  | cons t rest =>
    refine .step (endsAt_isAtEnd hat.1) ?_
    refine .step (endsAt_accept_of_not_mem hat.1 (by simp [Mark.kind])) ?_
    refine ⟨by simp, ⟨current, depth⟩, ⟨hat.lt_length, hdepth⟩, Nat.le_refl depth, ?_⟩
    rw [if_neg (by simp [Mark.kind]), endsAt_bind_ok (endsAt_peek hat.1)]
    exact endsAt_refuse _ _

/-- Parsing the head of a statement up to the next line does what reading it does. -/
theorem passes_header (word : Keyword) (hdepth : depth + room = maxNesting)
    (hline : LineTo marks stop next current tokens) :
    Passes marks (header marks word) ⟨current, depth⟩ ⟨next, depth⟩
      (NumericScript.header word room stop tokens) := by
  have hbound : depth ≤ maxNesting := by omega
  rw [header]
  refine (reads_consume hmarks hbound .leftParen (.expectedHeaderParen word) (by simp)).passes
    hline (Nat.le_refl depth) fun _ rest later hrest => ?_
  refine (reads_condition hmarks hdepth).passes hrest (Nat.le_refl depth)
    fun cond rest later hrest => ?_
  refine (reads_consume hmarks hbound .rightParen (.unclosedHeader word) (by simp)).passes
    hrest (Nat.le_refl depth) fun _ rest later hrest => ?_
  exact (passes_endOfLine hmarks hbound _ hrest).bind (Nat.le_refl depth) fun _ => endsAt_pure cond

/-- Parsing an assignment up to the next line does what reading it does. -/
theorem passes_assignment (hdepth : depth + room = maxNesting)
    (hline : LineTo marks stop next current tokens) :
    Passes marks (assignment marks) ⟨current, depth⟩ ⟨next, depth⟩
      (NumericScript.assignment room stop tokens) := by
  have hbound : depth ≤ maxNesting := by omega
  rw [assignment]
  refine (reads_target hmarks hdepth).passes hline (Nat.le_refl depth)
    fun target rest later hrest => ?_
  refine (reads_consume hmarks hbound .equal .expectedEqual (by simp)).passes
    hrest (Nat.le_refl depth) fun _ rest later hrest => ?_
  refine (reads_expression hmarks hdepth).passes hrest (Nat.le_refl depth)
    fun value rest later hrest => ?_
  exact (passes_endOfLine hmarks hbound _ hrest).bind (Nat.le_refl depth) fun _ => endsAt_pure _

omit hmarks in
/-- Looking for an equals sign in a line finds it where the line has one, and moves nothing. -/
theorem endsAt_lineHasEqual (hline : LineAt marks stop current tokens) :
    (lineHasEqual marks).endsAt ⟨current, depth⟩ =
      some (.ok (hasEqual tokens), ⟨current, depth⟩) := by
  rw [lineHasEqual, endsAt_bind_ok endsAt_get]
  rw [if_neg (Nat.not_lt.mpr (Nat.le_of_lt hline.lt_length)), hline.takeWhile_drop]
  simp only [List.any_map, hasEqual]
  have hkind : ∀ t : Token,
      decide ((Mark.token t).kind = .token .equal) = decide (t.kind = .equal) :=
    fun t => by simp [Mark.kind]
  simp only [Function.comp_def, hkind]
  exact endsAt_pure _

/-- Skipping a line moves the cursor past its tokens. -/
theorem endsAt_skipLine (hdepth : depth ≤ maxNesting) (hline : LineAt marks stop current tokens) :
    (skipLine marks).endsAt ⟨current, depth⟩ =
      some (.ok (), ⟨current + tokens.length, depth⟩) := by
  induction tokens generalizing current with
  | nil =>
    obtain ⟨mark, hmark, _, hkind⟩ := hline
    rw [skipLine, endsAt_bind_ok (endsAt_check .newline hmark),
      endsAt_bind_ok (endsAt_isAtEnd hmark)]
    cases mark with
    | token t => exact absurd rfl (hkind t.kind)
    | newline span | endOfText span =>
      rw [if_neg (by simp [Mark.kind])]
      exact endsAt_pure ()
  | cons t rest ih =>
    rw [skipLine, endsAt_bind_ok (endsAt_check .newline hline.1),
      endsAt_bind_ok (endsAt_isAtEnd hline.1), if_pos (by simp [Mark.kind]),
      endsAt_bind_ok (endsAt_advance hmarks hline.1 t.ne_endOfText hdepth), endsAt_enter]
    have hrest := ih hline.2
    rw [Nat.succ_add_eq_add_succ] at hrest
    exact hrest

end

end Walk

end NumericScript
