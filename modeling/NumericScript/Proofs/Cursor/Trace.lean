import NumericScript.Proofs.Cursor.Descent

/-!
# Walks that do what readers do

The marks that a cursor has before it, as the tokens that are left of a line, and what it takes for
a walk from there to do what a reader does with these tokens. The steps of the machine are traced
one by one; walks are traced by putting the traces of their parts together.
-/

namespace NumericScript

/-- A stream as scanning gives it: its one end of text is the last mark, and numerals are read. -/
structure Streaming (marks : List Mark) : Prop where
  ended : ∃ body span, marks = body ++ [.endOfText span] ∧ ∀ mark ∈ body, mark.kind ≠ .endOfText
  numerals : ∀ t, .token t ∈ marks → t.kind = .number →
    ∃ value, Single.ofNumeral? t.lexeme.toList = some value

theorem Token.ne_endOfText (t : Token) : (Mark.token t).kind ≠ .endOfText := by
  simp [Mark.kind]

theorem Token.ne_newline (t : Token) : (Mark.token t).kind ≠ .newline := by
  simp [Mark.kind]

theorem Mark.newline_ne_endOfText (stop : Span) : (Mark.newline stop).kind ≠ .endOfText := by
  simp [Mark.kind]

theorem Mark.endOfText_ne_newline (span : Span) : (Mark.endOfText span).kind ≠ .newline := by
  simp [Mark.kind]

/--
The cursor is before the tokens that are left of a line, after which the line or the text ends.
-/
def LineAt (marks : List Mark) (stop : Span) : Nat → List Token → Prop
  | current, [] =>
    ∃ mark, marks[current]? = some mark ∧ mark.span = stop ∧ ∀ kind, mark.kind ≠ .token kind
  | current, t :: rest => marks[current]? = some (.token t) ∧ LineAt marks stop (current + 1) rest

/-- There is a mark at the cursor. -/
theorem LineAt.exists_mark {marks : List Mark} {stop : Span} {current : Nat} {tokens : List Token}
    (h : LineAt marks stop current tokens) :
    ∃ mark, marks[current]? = some mark ∧ mark.span = nextSpan stop tokens := by
  cases tokens with
  | nil => exact h.imp fun mark h => ⟨h.1, h.2.1⟩
  | cons t rest => exact ⟨_, h.1, rfl⟩

/-- A cursor in a line is on a mark. -/
theorem LineAt.lt_length {marks : List Mark} {stop : Span} {current : Nat} {tokens : List Token}
    (h : LineAt marks stop current tokens) : current < marks.length := by
  obtain ⟨_, hmark, _⟩ := h.exists_mark
  exact (List.getElem?_eq_some_iff.mp hmark).1

/-- The tokens that are left of a line are the marks before the next end. -/
theorem LineAt.takeWhile_drop {marks : List Mark} {stop : Span} {current : Nat}
    {tokens : List Token} (h : LineAt marks stop current tokens) :
    ((marks.drop current).takeWhile fun mark => mark.kind ≠ .newline && mark.kind ≠ .endOfText) =
      tokens.map .token := by
  induction tokens generalizing current with
  | nil =>
    obtain ⟨mark, hmark, _, hkind⟩ := h
    obtain ⟨hlt, rfl⟩ := List.getElem?_eq_some_iff.mp hmark
    rw [List.drop_eq_getElem_cons hlt]
    cases hm : marks[current].kind with
    | token kind => exact absurd hm (hkind kind)
    | newline | endOfText => exact List.takeWhile_cons_of_neg (by simp [hm])
  | cons t rest ih =>
    obtain ⟨hlt, hmark⟩ := List.getElem?_eq_some_iff.mp h.1
    rw [List.drop_eq_getElem_cons hlt, hmark]
    simpa [Mark.kind] using ih h.2

/-- A mark that is not the end of the text has another one after it. -/
theorem Streaming.within {marks : List Mark} {current depth : Nat} {mark : Mark}
    (hmarks : Streaming marks) (h : marks[current]? = some mark)
    (hkind : mark.kind ≠ .endOfText) (hdepth : depth ≤ maxNesting) :
    (Place.mk (current + 1) depth).Within marks := by
  obtain ⟨body, span, rfl, _⟩ := hmarks.ended
  refine ⟨?_, hdepth⟩
  obtain ⟨hlt, hget⟩ := List.getElem?_eq_some_iff.mp h
  rw [List.length_append, List.length_singleton] at hlt ⊢
  rcases Nat.lt_or_ge current body.length with hbefore | hge
  · exact Nat.succ_lt_succ hbefore
  · rw [List.getElem_append_right hge, List.getElem_singleton] at hget
    exact absurd (hget ▸ rfl) hkind

namespace Walk

open Course

section

variable {marks : List Mark} {current depth : Nat} {mark : Mark}

/-- Looking at the next mark moves nothing. -/
theorem endsAt_peek (h : marks[current]? = some mark) :
    (peek marks).endsAt ⟨current, depth⟩ = some (.ok mark, ⟨current, depth⟩) := by
  rw [peek, endsAt_bind_ok endsAt_get]
  simp only [h]
  exact endsAt_pure mark

/-- The previous mark is the one the cursor has just passed. -/
theorem endsAt_previous (h : marks[current]? = some mark) :
    (previous marks).endsAt ⟨current + 1, depth⟩ = some (.ok mark, ⟨current + 1, depth⟩) := by
  rw [previous, endsAt_bind_ok endsAt_get]
  simp only [Nat.add_sub_cancel, h]
  exact endsAt_pure mark

/-- The cursor is at the end if it is before the end of text. -/
theorem endsAt_isAtEnd (h : marks[current]? = some mark) :
    (isAtEnd marks).endsAt ⟨current, depth⟩ =
      some (.ok (mark.kind = .endOfText), ⟨current, depth⟩) := by
  rw [isAtEnd, endsAt_bind_ok (endsAt_peek h)]
  exact endsAt_pure _

private theorem endsAt_moveTo {place : Place} (h : place.Within marks) :
    (moveTo marks place).endsAt ⟨current, depth⟩ = some (.ok (), place) := by
  rw [moveTo, if_pos h]
  exact endsAt_of_run fun _ => rfl

/-- Past any mark but the end of text the cursor moves on. -/
theorem endsAt_advance (hmarks : Streaming marks) (h : marks[current]? = some mark)
    (hkind : mark.kind ≠ .endOfText) (hdepth : depth ≤ maxNesting) :
    (advance marks).endsAt ⟨current, depth⟩ = some (.ok mark, ⟨current + 1, depth⟩) := by
  rw [advance, endsAt_bind_ok (endsAt_isAtEnd h)]
  simp only [hkind, decide_false, Bool.false_eq_true, if_false]
  rw [endsAt_bind_ok endsAt_get, endsAt_bind_ok (endsAt_moveTo (hmarks.within h hkind hdepth))]
  exact endsAt_previous h

/-- A check finds out the kind of the next mark, unless the text ends there. -/
theorem endsAt_check (kind : MarkKind) (h : marks[current]? = some mark) :
    (check marks kind).endsAt ⟨current, depth⟩ =
      some (.ok (mark.kind ≠ .endOfText ∧ mark.kind = kind), ⟨current, depth⟩) := by
  rw [check, endsAt_bind_ok (endsAt_isAtEnd h)]
  by_cases hend : mark.kind = .endOfText
  · simp only [hend, decide_true, if_true, ne_eq, not_true_eq_false, false_and, decide_false]
    exact endsAt_pure false
  · simp only [hend, decide_false, Bool.false_eq_true, if_false, ne_eq, not_false_eq_true, true_and]
    rw [endsAt_bind_ok (endsAt_peek h)]
    exact endsAt_pure _

/-- A mark of one of the kinds is taken. -/
theorem endsAt_accept (hmarks : Streaming marks) (h : marks[current]? = some mark)
    (hend : mark.kind ≠ .endOfText) (hdepth : depth ≤ maxNesting) {kinds : List MarkKind}
    (hkind : mark.kind ∈ kinds) :
    (accept marks kinds).endsAt ⟨current, depth⟩ = some (.ok true, ⟨current + 1, depth⟩) := by
  induction kinds with
  | nil => cases hkind
  | cons kind kinds ih =>
    rw [accept, endsAt_bind_ok (endsAt_check kind h)]
    by_cases heq : mark.kind = kind
    · simp only [heq ▸ hend, heq, ne_eq, not_false_eq_true, and_self, decide_true, if_true]
      rw [endsAt_bind_ok (endsAt_advance hmarks h hend hdepth)]
      exact endsAt_pure true
    · simp only [heq, and_false, decide_false, Bool.false_eq_true, if_false]
      exact ih ((List.mem_cons.mp hkind).resolve_left heq)

/-- The cursor stays before a mark of another kind. -/
theorem endsAt_accept_of_not_mem (h : marks[current]? = some mark) {kinds : List MarkKind}
    (hkind : mark.kind ∉ kinds) :
    (accept marks kinds).endsAt ⟨current, depth⟩ = some (.ok false, ⟨current, depth⟩) := by
  induction kinds with
  | nil => exact endsAt_pure false
  | cons kind kinds ih =>
    rw [accept, endsAt_bind_ok (endsAt_check kind h)]
    simp only [List.mem_cons, not_or] at hkind
    simp only [hkind.1, and_false, decide_false, Bool.false_eq_true, if_false]
    exact ih hkind.2

/-- A token of the expected kind is consumed. -/
theorem endsAt_consume {t : Token} (hmarks : Streaming marks)
    (h : marks[current]? = some (.token t)) (hdepth : depth ≤ maxNesting) (cause : Cause) :
    (consume marks t.kind cause).endsAt ⟨current, depth⟩ = some (.ok t, ⟨current + 1, depth⟩) := by
  rw [consume, endsAt_bind_ok (endsAt_check (.token t.kind) h)]
  simp only [Mark.kind, ne_eq, reduceCtorEq, not_false_eq_true, and_self, decide_true, if_true]
  rw [endsAt_bind_ok (endsAt_advance hmarks h t.ne_endOfText hdepth)]
  exact endsAt_pure t

/-- Where another mark stands than expected, it is blamed. -/
theorem endsAt_consume_of_ne (h : marks[current]? = some mark) {kind : TokenKind}
    (hkind : mark.kind ≠ .token kind) (cause : Cause) :
    (consume marks kind cause).endsAt ⟨current, depth⟩ =
      some (.error (.error ⟨mark.span, cause⟩), ⟨current, depth⟩) := by
  rw [consume, endsAt_bind_ok (endsAt_check (.token kind) h)]
  simp only [hkind, and_false, decide_false, Bool.false_eq_true, if_false]
  rw [endsAt_bind_ok (endsAt_peek h)]
  exact endsAt_refuse mark.span cause

/-- There is a way down from every level but the deepest. -/
theorem endsAt_descend (h : marks[current]? = some mark) (hdepth : depth < maxNesting) :
    (descend marks).endsAt ⟨current, depth⟩ = some (.ok (), ⟨current, depth + 1⟩) := by
  rw [descend, endsAt_bind_ok endsAt_get]
  simp only [ge_iff_le, Nat.not_le.mpr hdepth, if_false]
  exact endsAt_moveTo ⟨(List.getElem?_eq_some_iff.mp h).1, hdepth⟩

/--
Further down than the deepest level it is too deep, at the mark before which the cursor stands.
-/
theorem endsAt_descend_of_le (h : marks[current]? = some mark) (hdepth : maxNesting ≤ depth) :
    (descend marks).endsAt ⟨current, depth⟩ =
      some (.error (.error ⟨mark.span, .tooDeep⟩), ⟨current, depth⟩) := by
  rw [descend, endsAt_bind_ok endsAt_get]
  simp only [ge_iff_le, hdepth, if_true]
  rw [endsAt_bind_ok (endsAt_peek h)]
  exact endsAt_refuse mark.span .tooDeep

/-- Coming up takes back levels that were gone down. -/
theorem endsAt_ascend {levels : Nat} (place : Place) (hplace : place.Within marks)
    (hlevels : levels ≤ place.depth) :
    (ascend marks levels).endsAt place =
      some (.ok (), { place with depth := place.depth - levels }) := by
  rw [ascend, endsAt_bind_ok endsAt_get]
  simp only [Nat.not_lt.mpr hlevels, if_false]
  exact endsAt_moveTo ⟨hplace.1, Nat.le_trans (Nat.sub_le _ _) hplace.2⟩

/-- Leaving a level takes it back, with whatever result. -/
theorem endsAt_leave {α : Type} (result : Except Halt α) {place : Place}
    (hplace : place.Within marks) (hdepth : 1 ≤ place.depth) :
    (leave marks result).endsAt place =
      some (result, { place with depth := place.depth - 1 }) := by
  rw [leave, endsAt_bind_ok (endsAt_ascend place hplace hdepth)]
  exact endsAt_of_run fun _ => rfl

end

section

variable {α β : Type} {marks : List Mark} {stop : Span} {place : Place} {tokens : List Token}
  {floor : Nat} {walk : Walk α}

/--
A walk fails as a script may make it fail: within the bounds, without coming up past a depth, and
not because of a numeral.
-/
def Fails (marks : List Mark) (walk : Walk α) (place : Place) (floor : Nat) (error : ScriptError) :
    Prop :=
  (∀ lexeme, error.cause ≠ .invalidNumber lexeme) ∧
    ∃ last, last.Within marks ∧ floor ≤ last.depth ∧
      walk.endsAt place = some (.error (.error error), last)

/-- A walk that ends as another one does fails as it does. -/
theorem Fails.of_eq {error : ScriptError} {walk' : Walk α} {place' : Place}
    (heq : walk'.endsAt place' = walk.endsAt place) (h : Fails marks walk place floor error) :
    Fails marks walk' place' floor error := by
  obtain ⟨hcause, last, hlast, hdepth, hend⟩ := h
  exact ⟨hcause, last, hlast, hdepth, heq.trans hend⟩

/-- A failure that does not come up past a depth does not come up past a lesser one. -/
theorem Fails.mono {error : ScriptError} {low : Nat} (h : Fails marks walk place floor error)
    (hlow : low ≤ floor) : Fails marks walk place low error := by
  obtain ⟨hcause, last, hlast, hdepth, hend⟩ := h
  exact ⟨hcause, last, hlast, Nat.le_trans hlow hdepth, hend⟩

/-- A walk fails with its first part. -/
theorem Fails.bind {error : ScriptError} (h : Fails marks walk place floor error) (f : α → Walk β) :
    Fails marks (walk >>= f) place floor error := by
  obtain ⟨hcause, last, hlast, hdepth, hend⟩ := h
  exact ⟨hcause, last, hlast, hdepth, endsAt_bind_error hend⟩

/-- A walk fails as it does from where a part of it has ended. -/
theorem Fails.step {error : ScriptError} {a : α} {f : α → Walk β} {middle : Place}
    (hstep : walk.endsAt place = some (.ok a, middle)) (h : Fails marks (f a) middle floor error) :
    Fails marks (walk >>= f) place floor error := by
  obtain ⟨hcause, last, hlast, hdepth, hend⟩ := h
  exact ⟨hcause, last, hlast, hdepth, (endsAt_bind_ok hstep).trans hend⟩

/-- A part that fails one level deeper comes up again. -/
theorem Fails.leave {error : ScriptError} (h : Fails marks walk place (floor + 1) error) :
    Fails marks (walk.after (leave marks)) place floor error := by
  obtain ⟨hcause, last, hlast, hlow, hend⟩ := h
  exact ⟨hcause, { last with depth := last.depth - 1 },
    ⟨hlast.1, Nat.le_trans (Nat.sub_le _ _) hlast.2⟩, Nat.le_sub_one_of_lt hlow,
    (endsAt_after hend).trans
      (endsAt_leave _ hlast (Nat.le_trans (Nat.le_add_left 1 floor) hlow))⟩

/--
A walk from a place does what a reader does with the tokens there. If it has a result it comes to
the tokens that the reader leaves, at the depth `floor`.
-/
def Traces (marks : List Mark) (stop : Span) (walk : Walk α) (place : Place) (tokens : List Token)
    (floor : Nat) : Except ScriptError (α × List Token) → Prop
  | .ok (a, rest) =>
    ∃ current, current + rest.length = place.current + tokens.length ∧
      LineAt marks stop current rest ∧ walk.endsAt place = some (.ok a, ⟨current, floor⟩)
  | .error error => Fails marks walk place floor error

/-- At a depth a walk does with the rest of every line what a reader does with it. -/
def Reads (marks : List Mark) (depth : Nat) (walk : Walk α) (reader : Reader α) : Prop :=
  ∀ stop current tokens, LineAt marks stop current tokens →
    Traces marks stop walk ⟨current, depth⟩ tokens depth (reader stop tokens)

/-- Walks one after the other do what readers one after the other do. -/
theorem Traces.bind_of_eq {f : α → Walk β} {outcome : Except ScriptError (α × List Token)}
    {g : α × List Token → Except ScriptError (β × List Token)} {low : Nat}
    (h : Traces marks stop walk place tokens floor outcome) (hlow : low ≤ floor)
    (hf : ∀ a rest current, outcome = .ok (a, rest) → LineAt marks stop current rest →
      Traces marks stop (f a) ⟨current, floor⟩ rest low (g (a, rest))) :
    Traces marks stop (walk >>= f) place tokens low (outcome >>= g) := by
  cases outcome with
  | error error => exact Fails.mono (Fails.bind h f) hlow
  | ok result =>
    obtain ⟨a, rest⟩ := result
    obtain ⟨current, hlength, hline, hend⟩ := h
    have hnext := hf a rest current rfl hline
    show Traces marks stop (walk >>= f) place tokens low (g (a, rest))
    cases hg : g (a, rest) with
    | error error =>
      rw [hg] at hnext
      exact Fails.step hend hnext
    | ok later =>
      rw [hg] at hnext
      obtain ⟨final, hfinal, hline, hnext⟩ := hnext
      exact ⟨final, hfinal.trans hlength, hline, (endsAt_bind_ok hend).trans hnext⟩

/-- A sequence of traced walks is traced, the second from where the first one ends. -/
theorem Traces.bind {f : α → Walk β} {outcome : Except ScriptError (α × List Token)}
    {g : α × List Token → Except ScriptError (β × List Token)} {low : Nat}
    (h : Traces marks stop walk place tokens floor outcome) (hlow : low ≤ floor)
    (hf : ∀ a rest current, LineAt marks stop current rest →
      Traces marks stop (f a) ⟨current, floor⟩ rest low (g (a, rest))) :
    Traces marks stop (walk >>= f) place tokens low (outcome >>= g) :=
  h.bind_of_eq hlow fun a rest current _ => hf a rest current

/-- A walk that begins with a step of the machine is traced from where the step ends. -/
theorem Traces.step {γ : Type} {step : Walk γ} {c : γ} {f : γ → Walk α} {next depth : Nat}
    {rest : List Token} {outcome : Except ScriptError (α × List Token)}
    (hstep : step.endsAt place = some (.ok c, ⟨next, depth⟩))
    (hlength : next + rest.length = place.current + tokens.length)
    (h : Traces marks stop (f c) ⟨next, depth⟩ rest floor outcome) :
    Traces marks stop (step >>= f) place tokens floor outcome := by
  cases outcome with
  | error error => exact Fails.step hstep h
  | ok result =>
    obtain ⟨current, hcurrent, hline, hend⟩ := h
    exact ⟨current, hcurrent.trans hlength, hline, (endsAt_bind_ok hstep).trans hend⟩

/-- A walk that gives a result at once. -/
theorem traces_pure {current : Nat} (depth : Nat) (a : α) (h : LineAt marks stop current tokens) :
    Traces marks stop (pure a) ⟨current, depth⟩ tokens depth (.ok (a, tokens)) :=
  ⟨current, rfl, h, endsAt_pure a⟩

/-- A part one level deeper is traced by the same reader. -/
theorem Traces.leave {depth : Nat} {outcome : Except ScriptError (α × List Token)}
    (h : Traces marks stop walk place tokens (depth + 1) outcome) (hdepth : depth < maxNesting) :
    Traces marks stop (walk.after (leave marks)) place tokens depth outcome := by
  cases outcome with
  | error error => exact Fails.leave h
  | ok result =>
    obtain ⟨current, hcurrent, hline, hend⟩ := h
    refine ⟨current, hcurrent, hline, (endsAt_after hend).trans ?_⟩
    exact endsAt_leave _ ⟨hline.lt_length, hdepth⟩ (Nat.le_add_left 1 depth)

private theorem orMissing_error (span : Span) (cause : Cause) (error : ScriptError) :
    orMissing span cause (.error error : Except ScriptError α) =
      .error (if error.cause = .tooDeep then error else ⟨span, cause⟩) := by
  obtain ⟨_, cause'⟩ := error
  cases cause' <;> rfl

/-- An operand that fails is reported by the machine as by the reader. -/
theorem Traces.blame {outcome : Except ScriptError (α × List Token)}
    (h : Traces marks stop walk place tokens floor outcome) (span : Span) (cause : Cause)
    (hcause : ∀ lexeme, cause ≠ .invalidNumber lexeme) :
    Traces marks stop (blame span cause walk) place tokens floor
      (orMissing span cause outcome) := by
  cases outcome with
  | ok result =>
    obtain ⟨current, hcurrent, hline, hend⟩ := h
    exact ⟨current, hcurrent, hline, (endsAt_after hend).trans (endsAt_pure _)⟩
  | error error =>
    obtain ⟨_, last, hlast, hlow, hend⟩ := h
    have hblame : (Walk.blame span cause walk).endsAt place =
        (ended ((orMissing span cause (.error error)).mapError .error) : Walk α).endsAt last :=
      endsAt_after hend
    rw [orMissing_error] at hblame ⊢
    refine ⟨?_, last, hlast, hlow, hblame.trans (endsAt_of_run fun _ => rfl)⟩
    split
    · rename_i hdeep
      simp [hdeep]
    · exact hcause

/-- A walk that ends as another one does from the same place is traced as that one is. -/
theorem Traces.of_eq {walk' : Walk α} {outcome : Except ScriptError (α × List Token)}
    (heq : walk'.endsAt place = walk.endsAt place)
    (h : Traces marks stop walk place tokens floor outcome) :
    Traces marks stop walk' place tokens floor outcome := by
  cases outcome with
  | ok result =>
    obtain ⟨current, hcurrent, hline, hend⟩ := h
    exact ⟨current, hcurrent, hline, heq.trans hend⟩
  | error error => exact Fails.of_eq heq h

/-- A part of the machine that is entered does what a reader does if its body does. -/
theorem Traces.enter {callee : Part α} {outcome : Except ScriptError (α × List Token)}
    (h : Traces marks stop (Mechanism.body callee) place tokens floor outcome) :
    Traces marks stop (enter callee) place tokens floor outcome :=
  .of_eq (endsAt_enter callee place) h

section Steps

variable {f : Bool → Walk β} {current depth low : Nat} {t : Token} {rest : List Token}
  {outcome : Except ScriptError (β × List Token)}

/-- A token of one of the kinds is taken. -/
theorem Traces.accept (hmarks : Streaming marks) (hdepth : depth ≤ maxNesting)
    (hline : LineAt marks stop current (t :: rest)) {kinds : List MarkKind}
    (hkind : .token t.kind ∈ kinds)
    (h : Traces marks stop (f true) ⟨current + 1, depth⟩ rest low outcome) :
    Traces marks stop (accept marks kinds >>= f) ⟨current, depth⟩ (t :: rest) low outcome :=
  .step (endsAt_accept hmarks hline.1 t.ne_endOfText hdepth hkind) (Nat.succ_add_eq_add_succ _ _) h

/-- Before tokens of another kind, and before the end of the line, nothing is taken. -/
theorem Traces.pass (kinds : List TokenKind) (hline : LineAt marks stop current tokens)
    (hkind : ∀ t ∈ tokens.head?, t.kind ∉ kinds)
    (h : Traces marks stop (f false) ⟨current, depth⟩ tokens low outcome) :
    Traces marks stop (Walk.accept marks (kinds.map .token) >>= f) ⟨current, depth⟩ tokens low
      outcome := by
  obtain ⟨mark, hmark, hne⟩ : ∃ mark, marks[current]? = some mark ∧
      ∀ kind ∈ kinds, .token kind ≠ mark.kind := by
    cases tokens with
    | nil => exact hline.imp fun mark h => ⟨h.1, fun kind _ => (h.2.2 kind).symm⟩
    | cons t rest =>
      exact ⟨_, hline.1, fun kind hmem heq => hkind t rfl (MarkKind.token.inj heq ▸ hmem)⟩
  refine .step (endsAt_accept_of_not_mem hmark fun hmem => ?_) rfl h
  obtain ⟨kind, hmem, heq⟩ := List.mem_map.mp hmem
  exact hne kind hmem heq

/-- Whether the next token of the line is of a kind. -/
theorem Traces.check {kind : TokenKind} (hline : LineAt marks stop current tokens)
    (h : Traces marks stop (f (tokens.head?.any (·.kind = kind))) ⟨current, depth⟩ tokens low
      outcome) :
    Traces marks stop (Walk.check marks (.token kind) >>= f) ⟨current, depth⟩ tokens low
      outcome := by
  cases tokens with
  | nil =>
    obtain ⟨mark, hmark, _, hkind⟩ := hline
    refine .step ((endsAt_check (.token kind) hmark).trans ?_) rfl h
    simp [hkind kind]
  | cons t rest =>
    refine .step ((endsAt_check (.token kind) hline.1).trans ?_) rfl h
    simp [Mark.kind]

/-- The machine goes down a level where a reader has a level left. -/
theorem Traces.descend {f : Unit → Walk β} (hline : LineAt marks stop current tokens)
    (hdepth : depth < maxNesting)
    (h : Traces marks stop (f ()) ⟨current, depth + 1⟩ tokens low outcome) :
    Traces marks stop (Walk.descend marks >>= f) ⟨current, depth⟩ tokens low outcome := by
  obtain ⟨_, hmark, _⟩ := hline.exists_mark
  exact .step (endsAt_descend hmark hdepth) rfl h

/-- Without a level left the machine refuses as the reader does. -/
theorem traces_descend_of_eq {f : Unit → Walk β} (hline : LineAt marks stop current tokens)
    (hdepth : depth = maxNesting) (hlow : low ≤ depth) :
    Traces marks stop (Walk.descend marks >>= f) ⟨current, depth⟩ tokens low
      (fail (nextSpan stop tokens) .tooDeep) := by
  obtain ⟨mark, hmark, hspan⟩ := hline.exists_mark
  refine ⟨by simp, ⟨current, depth⟩, ⟨hline.lt_length, Nat.le_of_eq hdepth⟩, hlow, ?_⟩
  rw [← hspan]
  exact endsAt_bind_error (endsAt_descend_of_le hmark (Nat.le_of_eq hdepth.symm))

/-- The token that was just taken. -/
theorem Traces.previous {f : Mark → Walk β} (h : marks[current]? = some (.token t))
    (hf : Traces marks stop (f (.token t)) ⟨current + 1, depth⟩ rest low outcome) :
    Traces marks stop (Walk.previous marks >>= f) ⟨current + 1, depth⟩ rest low outcome :=
  .step (endsAt_previous h) rfl hf

/-- The token that has to stand here is taken, or the machine fails as the reader does. -/
theorem reads_consume (hmarks : Streaming marks) (hdepth : depth ≤ maxNesting) (kind : TokenKind)
    (cause : Cause) (hcause : ∀ lexeme, cause ≠ .invalidNumber lexeme) :
    Reads marks depth (consume marks kind cause) (expect kind cause) := by
  intro stop current tokens hline
  have hplace : (Place.mk current depth).Within marks := ⟨hline.lt_length, hdepth⟩
  cases tokens with
  | nil =>
    obtain ⟨mark, hmark, rfl, hkind⟩ := hline
    exact ⟨hcause, _, hplace, Nat.le_refl depth, endsAt_consume_of_ne hmark (hkind kind) _⟩
  | cons t rest =>
    obtain ⟨hmark, hrest⟩ := hline
    rw [expect]
    by_cases hkind : t.kind = kind
    · subst hkind
      rw [if_pos rfl]
      exact ⟨current + 1, Nat.succ_add_eq_add_succ _ _, hrest,
        endsAt_consume hmarks hmark hdepth cause⟩
    · rw [if_neg hkind]
      have hne : (Mark.token t).kind ≠ .token kind := fun heq => hkind (MarkKind.token.inj heq)
      exact ⟨hcause, _, hplace, Nat.le_refl depth, endsAt_consume_of_ne hmark hne _⟩

/-- The machine fails where its cursor is. -/
theorem traces_refuse (cause : Cause) (hline : LineAt marks stop current tokens)
    (hdepth : depth ≤ maxNesting) (hlow : low ≤ depth)
    (hcause : ∀ lexeme, cause ≠ .invalidNumber lexeme) :
    @Traces β marks stop (do refuse (← peek marks).span cause) ⟨current, depth⟩ tokens low
      (fail (nextSpan stop tokens) cause) := by
  obtain ⟨mark, hmark, hspan⟩ := hline.exists_mark
  rw [← hspan]
  exact ⟨hcause, _, ⟨hline.lt_length, hdepth⟩, hlow,
    (endsAt_bind_ok (endsAt_peek hmark)).trans (endsAt_refuse mark.span cause)⟩

end Steps

end

end Walk

end NumericScript
