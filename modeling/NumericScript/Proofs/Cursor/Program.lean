import Mathlib.Tactic.Conv
import NumericScript.Proofs.Composition.Outline
import NumericScript.Proofs.Cursor.Outline

/-!
# Walks over scripts

The machine reads the marks of an outline as the statements that are read from the outline. Loops
over statements are traced by induction on how the marks spell the outline.
-/

namespace NumericScript

namespace Walk

open Course

/--
A walk that goes on with a list of statements up to a brace that closes it, or on the outermost
level up to the end of the text.
-/
structure Loops {α : Type} (marks : List Mark) (top : Bool) (go : List Stmt → Walk α) : Prop where
  newline {current depth : Nat} {stop : Span} (before : List Stmt)
    (hmark : marks[current]? = some (.newline stop)) (hdepth : depth ≤ maxNesting) :
    (go before).endsAt ⟨current, depth⟩ = (go before).endsAt ⟨current + 1, depth⟩
  statement {current depth : Nat} {t : Token} (before : List Stmt)
    (hmark : marks[current]? = some (.token t)) (hkind : top = false → t.kind ≠ .rightBrace)
    (hdepth : depth ≤ maxNesting) :
    (go before).endsAt ⟨current, depth⟩ =
      (do
        match ← statement marks with
        | some stmt => go (before ++ [stmt])
        | none => go before : Walk α).endsAt ⟨current, depth⟩

section Marks

variable {marks : List Mark} {current depth : Nat} {stop : Span} {mark : Mark}

/-- Where no line ends there is nothing to skip. -/
theorem endsAt_skipNewlines_of_ne (hmark : marks[current]? = some mark)
    (hkind : mark.kind ≠ .newline) :
    (skipNewlines marks).endsAt ⟨current, depth⟩ = some (.ok (), ⟨current, depth⟩) := by
  rw [skipNewlines, endsAt_bind_ok (endsAt_accept_of_not_mem hmark (by simpa using hkind))]
  exact endsAt_pure ()

private theorem endsAt_skipNewlines (hmarks : Streaming marks) (hdepth : depth ≤ maxNesting)
    (hmark : marks[current]? = some (.newline stop)) :
    (skipNewlines marks).endsAt ⟨current, depth⟩ =
      (skipNewlines marks).endsAt ⟨current + 1, depth⟩ := by
  have haccept : (accept marks [.newline]).endsAt ⟨current, depth⟩ =
      some (.ok true, ⟨current + 1, depth⟩) :=
    endsAt_accept hmarks hmark (Mark.newline_ne_endOfText stop) hdepth (List.mem_singleton.mpr rfl)
  conv_lhs => rw [skipNewlines, endsAt_bind_ok haccept, if_pos rfl, endsAt_enter]
  rfl

/-- Before every mark of a stream the ends of lines that follow come to an end. -/
theorem exists_endsAt_skipNewlines (hmarks : Streaming marks) (hdepth : depth ≤ maxNesting)
    (hlt : current < marks.length) :
    ∃ first, (skipNewlines marks).endsAt ⟨current, depth⟩ = some (.ok (), ⟨first, depth⟩) := by
  induction hleft : marks.length - current generalizing current with
  | zero => omega
  | succ left ih =>
    have hmark := List.getElem?_eq_getElem hlt
    by_cases hkind : marks[current].kind = .newline
    · cases hm : marks[current] with
      | newline stop =>
        rw [hm] at hmark
        have hnext := (hmarks.within hmark (Mark.newline_ne_endOfText stop) hdepth).1
        rw [endsAt_skipNewlines hmarks hdepth hmark]
        exact ih hnext (by omega)
      | token | endOfText => simp [hm, Mark.kind] at hkind
    · exact ⟨current, endsAt_skipNewlines_of_ne hmark hkind⟩

/-- A walk that begins with the ends of lines does not depend on how many there are. -/
theorem endsAt_skipNewlines_bind {α : Type} {f : Unit → Walk α} (hmarks : Streaming marks)
    (hdepth : depth ≤ maxNesting) (hmark : marks[current]? = some (.newline stop)) :
    (skipNewlines marks >>= f).endsAt ⟨current, depth⟩ =
      (skipNewlines marks >>= f).endsAt ⟨current + 1, depth⟩ := by
  have hnext := (hmarks.within hmark (Mark.newline_ne_endOfText stop) hdepth).1
  obtain ⟨first, hfirst⟩ := exists_endsAt_skipNewlines hmarks hdepth hnext
  rw [endsAt_bind_ok ((endsAt_skipNewlines hmarks hdepth hmark).trans hfirst),
    endsAt_bind_ok hfirst]

/-- The loop over the statements of a program goes on with one statement after the other. -/
theorem loops_programRest (hmarks : Streaming marks) :
    Loops marks true fun before => enter (.programRest marks before) where
  newline before hmark hdepth := by
    rw [endsAt_enter, endsAt_enter]
    exact endsAt_skipNewlines_bind hmarks hdepth hmark
  statement {_ _ t} before hmark _ hdepth := by
    rw [endsAt_enter]
    change (programRest marks before).endsAt _ = _
    rw [programRest, endsAt_bind_ok (endsAt_skipNewlines_of_ne hmark t.ne_newline),
      endsAt_bind_ok (endsAt_isAtEnd hmark)]
    exact congrArg (endsAt · _) (if_neg (by simp [Mark.kind]))

private theorem loops_blockRest (hmarks : Streaming marks) (brace : Span) :
    Loops marks false fun before => enter (.blockRest marks brace before) where
  newline before hmark hdepth := by
    rw [endsAt_enter, endsAt_enter]
    exact endsAt_skipNewlines_bind hmarks hdepth hmark
  statement {_ _ t} before hmark hkind hdepth := by
    rw [endsAt_enter]
    change (blockRest marks brace before).endsAt _ = _
    rw [blockRest, endsAt_bind_ok (endsAt_skipNewlines_of_ne hmark t.ne_newline),
      endsAt_bind_ok (endsAt_isAtEnd hmark), if_neg (by simp [Mark.kind]),
      endsAt_bind_ok (endsAt_check (.token .rightBrace) hmark)]
    exact congrArg (endsAt · _) (if_neg (by simpa [Mark.kind] using hkind rfl))

/-- A part one level deeper comes up again. -/
theorem Passes.leave {α : Type} {walk : Walk α} {place : Place} {next : Nat}
    {outcome : Except ScriptError α} (h : Passes marks walk place ⟨next, depth + 1⟩ outcome)
    (hgoal : (Place.mk next (depth + 1)).Within marks) :
    Passes marks (walk.after (leave marks)) place ⟨next, depth⟩ outcome := by
  cases outcome with
  | error error => exact Fails.leave h
  | ok a => exact (endsAt_after h).trans (endsAt_leave _ hgoal (Nat.le_add_left 1 depth))

end Marks

section Drawing

variable (marks : List Mark) (top : Bool) (after : Span) (last current : Nat) (o : Outline)

/--
A loop over statements takes the lines of an outline and goes on after them with the statements that
are read from them, or it fails as reading does.
-/
def Draws : Prop :=
  ∀ (α : Type) (go : List Stmt → Walk α), Loops marks top go →
    ∀ depth room : Nat, depth + room = maxNesting → ∀ before,
      match sequel false room after o with
      | .ok read =>
        (go before).endsAt ⟨current, depth⟩ =
          (go (before ++ read.statements)).endsAt ⟨last, depth⟩
      | .error error => Fails marks (go before) ⟨current, depth⟩ depth error

/--
A branch goes on with the lines of an outline as far as they belong to it, and what is left of them
is drawn; or it fails as reading does.
-/
def Continues : Prop :=
  ∀ depth room : Nat, depth + room = maxNesting → ∀ before lastBlock,
    (∃ error, sequel true room after o = .error error ∧
      Fails marks (branches marks before lastBlock) ⟨current, depth⟩ depth error) ∨
    ∃ chain block next later, current ≤ next ∧ Draws marks top after last next later ∧
      (branches marks before lastBlock).endsAt ⟨current, depth⟩ =
        some (.ok (before.foldr (fun b otherwise => .branch b.1 b.2 otherwise) chain,
          block.getD lastBlock), ⟨next, depth⟩) ∧
      sequel true room after o =
        (sequel false room after later).map fun read => ⟨chain, block, read.statements⟩

/-- The block that a header needs is read from the outline, and what is after it is drawn. -/
def Opens : Prop :=
  ∀ depth room : Nat, depth + room = maxNesting → ∀ clause,
    match o with
    | .block brace stop body close later =>
      match NumericScript.blockBody room after brace stop close fun room after =>
        sequel false room after body with
      | .ok read =>
        ∃ next, current < next ∧
          (block marks clause).endsAt ⟨current, depth⟩ = some (.ok read, ⟨next, depth⟩) ∧
          Draws marks top after last next later ∧ Continues marks top after last next later
      | .error error => Fails marks (block marks clause) ⟨current, depth⟩ depth error
    | o =>
      Fails marks (block marks clause) ⟨current, depth⟩ depth
        ⟨o.firstSpan after, .expectedBlock clause⟩

end Drawing

section Statements

variable {marks : List Mark} {top : Bool} {after : Span} {last current depth room : Nat}

/-- What is read after something else. -/
theorem bind_ok_eq_map {β γ : Type} (x : Except ScriptError β) (f : β → γ) :
    (do let b ← x; .ok (f b)) = x.map f := by
  cases x <;> rfl

section Takes

variable {α β : Type} {walk : Walk α} {place : Place} {f : α → List Stmt}
  {outcome : Except ScriptError Sequel}

/--
A walk takes some marks for the statements that reading has first, and what is left is drawn; or it
fails as reading does.
-/
def Takes (marks : List Mark) (top : Bool) (after : Span) (last room : Nat) (walk : Walk α)
    (place : Place) (f : α → List Stmt) (outcome : Except ScriptError Sequel) : Prop :=
  (∃ error, outcome = .error error ∧ Fails marks walk place place.depth error) ∨
    ∃ a next later, place.current < next ∧ Draws marks top after last next later ∧
      walk.endsAt place = some (.ok a, ⟨next, place.depth⟩) ∧
      outcome =
        (sequel false room after later).map fun read => ⟨.done, none, f a ++ read.statements⟩

/-- A walk that ends as another one does from further on takes what that one takes. -/
theorem Takes.of_eq {walk' : Walk α} {next : Nat}
    (heq : walk'.endsAt place = walk.endsAt ⟨next, place.depth⟩) (hle : place.current ≤ next)
    (h : Takes marks top after last room walk ⟨next, place.depth⟩ f outcome) :
    Takes marks top after last room walk' place f outcome := by
  obtain ⟨error, houtcome, hfails⟩ | ⟨a, final, later, hlt, hdraws, hend, houtcome⟩ := h
  · exact .inl ⟨error, houtcome, .of_eq heq hfails⟩
  · exact .inr ⟨a, final, later, Nat.lt_of_le_of_lt hle hlt, hdraws, heq.trans hend, houtcome⟩

private theorem Takes.step {γ : Type} {step : Walk γ} {c : γ} {g : γ → Walk α} {next : Nat}
    (hstep : step.endsAt place = some (.ok c, ⟨next, place.depth⟩)) (hle : place.current ≤ next)
    (h : Takes marks top after last room (g c) ⟨next, place.depth⟩ f outcome) :
    Takes marks top after last room (step >>= g) place f outcome :=
  .of_eq (endsAt_bind_ok hstep) hle h

/-- A walk takes what it passes for the statements of what it has read. -/
theorem Takes.of_passes {result : Except ScriptError α} {next : Nat} {o : Outline}
    (h : Passes marks walk place ⟨next, place.depth⟩ result) (hlt : place.current < next)
    (hdraws : Draws marks top after last next o) :
    Takes marks top after last room walk place f (do
      let a ← result
      let later ← sequel false room after o
      .ok ⟨.done, none, f a ++ later.statements⟩) := by
  cases result with
  | error error => exact .inl ⟨error, rfl, h⟩
  | ok a => exact .inr ⟨a, next, o, hlt, hdraws, h, bind_ok_eq_map _ _⟩

private theorem Takes.map {g : α → β} {f' : β → List Stmt} (hf : ∀ a, f' (g a) = f a)
    (h : Takes marks top after last room walk place f outcome) :
    Takes marks top after last room (do return g (← walk)) place f' outcome := by
  obtain ⟨error, houtcome, hfails⟩ | ⟨a, final, later, hlt, hdraws, hend, houtcome⟩ := h
  · exact .inl ⟨error, houtcome, hfails.bind _⟩
  · exact .inr ⟨g a, final, later, hlt, hdraws,
      (endsAt_bind_ok hend).trans (endsAt_pure (g a)), by rw [houtcome, hf]⟩

/-- A statement that takes marks passes the machine's check that it does. -/
theorem Takes.statement
    (h : Takes marks top after last room (arm marks) ⟨current, depth⟩ Option.toList outcome) :
    Takes marks top after last room (statement marks) ⟨current, depth⟩ Option.toList outcome := by
  rw [Walk.statement]
  refine .step endsAt_get (Nat.le_refl _) ?_
  obtain ⟨error, houtcome, hfails⟩ | ⟨a, next, later, hlt, hdraws, hend, houtcome⟩ := h
  · exact .inl ⟨error, houtcome, hfails.bind _⟩
  · refine .inr ⟨a, next, later, hlt, hdraws, ?_, houtcome⟩
    rw [endsAt_bind_ok hend, endsAt_bind_ok endsAt_get, if_neg (Nat.not_le.mpr hlt)]
    exact endsAt_pure a

end Takes

/-- Lines are drawn if their first statement takes what reading has first. -/
theorem draws_of_takes {t : Token} {o : Outline} (hmark : marks[current]? = some (.token t))
    (hkind : top = false → t.kind ≠ .rightBrace)
    (h : ∀ {depth room}, depth + room = maxNesting →
      Takes marks top after last room (arm marks) ⟨current, depth⟩ Option.toList
        (sequel false room after o)) :
    Draws marks top after last current o := by
  intro α go hgo depth room hdepth before
  have hstatement := hgo.statement before hmark hkind (show depth ≤ maxNesting by omega)
  obtain ⟨error, houtcome, hcause, final, hfinal, hlow, hend⟩ |
    ⟨result, next, later, hlt, hdraws, hend, houtcome⟩ := (h hdepth).statement
  · rw [houtcome]
    exact ⟨hcause, final, hfinal, hlow, hstatement.trans (endsAt_bind_error hend)⟩
  · have hnext : (go before).endsAt ⟨current, depth⟩ =
        (go (before ++ result.toList)).endsAt ⟨next, depth⟩ := by
      rw [hstatement, endsAt_bind_ok hend]
      cases result with
      | some stmt => rfl
      | none => simp
    have hlater := hdraws _ _ hgo _ _ hdepth (before ++ result.toList)
    rw [houtcome]
    cases hread : sequel false room after later with
    | error error =>
      rw [hread] at hlater
      obtain ⟨hcause, final, hfinal, hlow, hend⟩ := hlater
      exact ⟨hcause, final, hfinal, hlow, hnext.trans hend⟩
    | ok read =>
      rw [hread] at hlater
      exact hnext.trans (hlater.trans (by rw [List.append_assoc]))

private theorem draws_newline {stop : Span} {o : Outline}
    (hmark : marks[current]? = some (.newline stop))
    (h : Draws marks top after last (current + 1) o) : Draws marks top after last current o := by
  intro α go hgo depth room hdepth before
  have hlater := h _ _ hgo _ _ hdepth before
  have hnewline := hgo.newline before hmark (show depth ≤ maxNesting by omega)
  cases hread : sequel false room after o with
  | error error =>
    rw [hread] at hlater
    exact .of_eq hnewline hlater
  | ok read =>
    rw [hread] at hlater
    exact hnewline.trans hlater

/-- A line without a keyword is an assignment, or it says nothing. -/
theorem takes_plain (hmarks : Streaming marks) {first : Token} {more : List Token} {stop : Span}
    {next : Nat} {o : Outline} (hline : LineTo marks stop next current (first :: more))
    (hword : ∀ word, first.kind ≠ .keyword word) (hleft : first.kind ≠ .leftBrace)
    (hright : first.kind ≠ .rightBrace) (hdraws : Draws marks top after last next o)
    (hdepth : depth + room = maxNesting) :
    Takes marks top after last room (arm marks) ⟨current, depth⟩ Option.toList
      (sequel false room after (.line first more stop o)) := by
  have harm : (arm marks).endsAt ⟨current, depth⟩ =
      (lineStatement marks).endsAt ⟨current, depth⟩ := by
    rw [arm, endsAt_bind_ok (endsAt_peek hline.line.1)]
    obtain ⟨kind, lexeme, span⟩ := first
    cases kind with
    | leftBrace => exact absurd rfl hleft
    | rightBrace => exact absurd rfl hright
    | keyword word => exact absurd rfl (hword word)
    | _ => rfl
  refine .of_eq harm (Nat.le_refl current) ?_
  rw [sequel_plain hword, lineStatement]
  refine .step (endsAt_lineHasEqual hline.line) (Nat.le_refl current) ?_
  split
  · refine .map (f := fun stmt => [stmt]) (fun stmt => rfl) ?_
    exact .of_passes (passes_assignment hmarks hdepth hline) hline.lt hdraws
  · have hbound : depth ≤ maxNesting := by omega
    have hnewline : Draws marks top after last (current + (first :: more).length) o :=
      draws_newline hline.newline (hline.length ▸ hdraws)
    refine .inr ⟨none, current + (first :: more).length, o, by simp, hnewline, ?_, ?_⟩
    · exact (endsAt_bind_ok (endsAt_skipLine hmarks hbound hline.line)).trans (endsAt_pure none)
    · exact bind_ok_eq_map _ _

section Blocks

variable {brace : Token} {stop : Span} {body : Outline} (hmarks : Streaming marks)

include hmarks

variable (after brace) in
/-- A block is read up to the brace that closes it, one level deeper. -/
theorem passes_blockBody {close : Token} {middle : Nat}
    (hstop : marks[current]? = some (.newline stop)) (hclose : marks[middle]? = some (.token close))
    (hright : close.kind = .rightBrace) (hbody : Draws marks false close.span middle current body)
    (hdepth : depth + room = maxNesting) :
    Passes marks (blockBody marks brace.span) ⟨current, depth⟩ ⟨middle + 1, depth⟩
      (NumericScript.blockBody room after brace stop (some close) fun room after =>
        sequel false room after body) := by
  rw [blockBody]
  cases room with
  | zero =>
    refine ⟨by simp, ⟨current, depth⟩, ⟨?_, Nat.le_of_eq hdepth⟩, Nat.le_refl depth, ?_⟩
    · exact (List.getElem?_eq_some_iff.mp hstop).1
    · exact endsAt_bind_error (endsAt_descend_of_le hstop (Nat.le_of_eq hdepth.symm))
  | succ room =>
    have hlt : depth < maxNesting := by omega
    refine .step (endsAt_descend hstop hlt)
      (Passes.leave ?_ (hmarks.within hclose close.ne_endOfText hlt))
    have hdraws := hbody _ _ (loops_blockRest hmarks brace.span) (depth + 1) room (by omega) []
    simp only [NumericScript.blockBody]
    cases hread : sequel false room close.span body with
    | error error =>
      rw [hread] at hdraws
      exact hdraws
    | ok read =>
      rw [hread] at hdraws
      refine Eq.trans hdraws ((endsAt_enter _ _).trans ?_)
      change (blockRest marks brace.span _).endsAt _ = _
      rw [blockRest, endsAt_bind_ok (endsAt_skipNewlines_of_ne hclose close.ne_newline),
        endsAt_bind_ok (endsAt_isAtEnd hclose), if_neg (by simp [Mark.kind]),
        endsAt_bind_ok (endsAt_check (.token .rightBrace) hclose),
        if_pos (by simp [Mark.kind, hright]),
        endsAt_bind_ok (endsAt_advance hmarks hclose close.ne_endOfText hlt)]
      exact endsAt_pure _

variable (brace) in
/-- Without a closing brace a block fails, if not before then at the end of the text. -/
theorem fails_blockBody {span : Span} (hstop : marks[current]? = some (.newline stop))
    (hend : marks[last]? = some (.endOfText span))
    (hbody : Draws marks false after last current body)
    (hdepth : depth + room = maxNesting) :
    ∃ error, (NumericScript.blockBody room after brace stop none fun room after =>
        sequel false room after body) = .error error ∧
      Fails marks (blockBody marks brace.span) ⟨current, depth⟩ depth error := by
  rw [blockBody]
  cases room with
  | zero =>
    refine ⟨_, rfl, by simp, ⟨current, depth⟩, ⟨?_, Nat.le_of_eq hdepth⟩,
      Nat.le_refl depth, ?_⟩
    · exact (List.getElem?_eq_some_iff.mp hstop).1
    · exact endsAt_bind_error (endsAt_descend_of_le hstop (Nat.le_of_eq hdepth.symm))
  | succ room =>
    have hlt : depth < maxNesting := by omega
    have hdraws := hbody _ _ (loops_blockRest hmarks brace.span) (depth + 1) room (by omega) []
    simp only [NumericScript.blockBody]
    cases hread : sequel false room after body with
    | error error =>
      rw [hread] at hdraws
      exact ⟨error, rfl, .step (endsAt_descend hstop hlt) hdraws.leave⟩
    | ok read =>
      rw [hread] at hdraws
      refine ⟨_, rfl, .step (endsAt_descend hstop hlt) (Fails.leave ?_)⟩
      refine ⟨by simp, ⟨last, depth + 1⟩, ⟨(List.getElem?_eq_some_iff.mp hend).1, hlt⟩,
        Nat.le_refl _, Eq.trans hdraws ((endsAt_enter _ _).trans ?_)⟩
      change (blockRest marks brace.span _).endsAt _ = _
      rw [blockRest,
        endsAt_bind_ok (endsAt_skipNewlines_of_ne hend (Mark.endOfText_ne_newline span)),
        endsAt_bind_ok (endsAt_isAtEnd hend), if_pos (by simp [Mark.kind])]
      exact endsAt_refuse _ _

private theorem opens_block {close : Token} {middle : Nat} {next : Outline}
    (hbrace : marks[current]? = some (.token brace)) (hkind : brace.kind = .leftBrace)
    (hstop : marks[current + 1]? = some (.newline stop))
    (hclose : marks[middle]? = some (.token close)) (hright : close.kind = .rightBrace)
    (hle : current ≤ middle) (hbody : Draws marks false close.span middle (current + 1) body)
    (hdraws : Draws marks top after last (middle + 1) next)
    (hcontinues : Continues marks top after last (middle + 1) next) :
    Opens marks top after last current (.block brace stop body (some close) next) := by
  intro depth room hdepth clause
  have hconsume := endsAt_consume hmarks hbrace (show depth ≤ maxNesting by omega)
    (.expectedBlock clause)
  rw [hkind] at hconsume
  have hpasses := passes_blockBody after brace hmarks hstop hclose hright hbody hdepth
  dsimp only
  have hskip : (skipNewlines marks).endsAt ⟨current, depth⟩ = some (.ok (), ⟨current, depth⟩) :=
    endsAt_skipNewlines_of_ne hbrace brace.ne_newline
  rw [block]
  cases hread : NumericScript.blockBody room after brace stop (some close) fun room after =>
      sequel false room after body with
  | error error =>
    rw [hread] at hpasses
    exact .step hskip (.step hconsume hpasses)
  | ok read =>
    rw [hread] at hpasses
    exact ⟨middle + 1, Nat.lt_succ_of_le hle,
      (endsAt_bind_ok hskip).trans ((endsAt_bind_ok hconsume).trans hpasses), hdraws, hcontinues⟩

private theorem opens_unclosed {span : Span} {next : Outline}
    (hbrace : marks[current]? = some (.token brace)) (hkind : brace.kind = .leftBrace)
    (hstop : marks[current + 1]? = some (.newline stop))
    (hend : marks[last]? = some (.endOfText span))
    (hbody : Draws marks false after last (current + 1) body) :
    Opens marks top after last current (.block brace stop body none next) := by
  intro depth room hdepth clause
  have hconsume := endsAt_consume hmarks hbrace (show depth ≤ maxNesting by omega)
    (.expectedBlock clause)
  rw [hkind] at hconsume
  obtain ⟨error, hread, hfails⟩ := fails_blockBody brace hmarks hstop hend hbody hdepth
  dsimp only
  rw [hread, block]
  exact .step (endsAt_skipNewlines_of_ne hbrace brace.ne_newline) (.step hconsume hfails)

omit hmarks in
/-- What is no brace is no block. -/
theorem fails_block {mark : Mark} (hmark : marks[current]? = some mark)
    (hnewline : mark.kind ≠ .newline) (hkind : mark.kind ≠ .token .leftBrace)
    (hdepth : depth ≤ maxNesting) (clause : Clause) :
    Fails marks (block marks clause) ⟨current, depth⟩ depth
      ⟨mark.span, .expectedBlock clause⟩ := by
  rw [block]
  refine .step (endsAt_skipNewlines_of_ne hmark hnewline) (Fails.bind ?_ _)
  exact ⟨by simp, _, ⟨(List.getElem?_eq_some_iff.mp hmark).1, hdepth⟩, Nat.le_refl depth,
    endsAt_consume_of_ne hmark hkind _⟩

private theorem opens_newline {o : Outline} (hmark : marks[current]? = some (.newline stop))
    (h : Opens marks top after last (current + 1) o) : Opens marks top after last current o := by
  intro depth room hdepth clause
  have hblock : (block marks clause).endsAt ⟨current, depth⟩ =
      (block marks clause).endsAt ⟨current + 1, depth⟩ := by
    rw [block]
    exact endsAt_skipNewlines_bind hmarks (by omega) hmark
  have hopens := h _ _ hdepth clause
  cases o with
  | block brace stop body close later =>
    dsimp only at hopens ⊢
    cases hread : NumericScript.blockBody room after brace stop close fun room after =>
        sequel false room after body with
    | error error =>
      rw [hread] at hopens
      exact .of_eq hblock hopens
    | ok read =>
      rw [hread] at hopens
      obtain ⟨next, hlt, hend, hlater⟩ := hopens
      exact ⟨next, Nat.lt_of_succ_lt hlt, hblock.trans hend, hlater⟩
  | done | line | stray => exact .of_eq hblock hopens

private theorem continues_newline {o : Outline} (hmark : marks[current]? = some (.newline stop))
    (h : Continues marks top after last (current + 1) o) :
    Continues marks top after last current o := by
  intro depth room hdepth before lastBlock
  have hbranches : (branches marks before lastBlock).endsAt ⟨current, depth⟩ =
      (branches marks before lastBlock).endsAt ⟨current + 1, depth⟩ := by
    conv_lhs => rw [branches]
    conv_rhs => rw [branches]
    exact endsAt_skipNewlines_bind hmarks (by omega) hmark
  obtain ⟨error, hread, hfails⟩ | ⟨chain, block, next, later, hle, hdraws, hend, hread⟩ :=
    h _ _ hdepth before lastBlock
  · exact .inl ⟨error, hread, .of_eq hbranches hfails⟩
  · exact .inr ⟨chain, block, next, later, Nat.le_of_succ_le hle, hdraws, hbranches.trans hend,
      hread⟩

omit hmarks in
/-- Lines that are read alike after a branch and elsewhere do not belong to the branch. -/
theorem continues_of_ne {o : Outline} {mark : Mark} (hmark : marks[current]? = some mark)
    (hnewline : mark.kind ≠ .newline) (helif : mark.kind ≠ .token (.keyword .elifWord))
    (helse : mark.kind ≠ .token (.keyword .elseWord))
    (hsame : ∀ room, sequel true room after o = sequel false room after o)
    (hdraws : Draws marks top after last current o) : Continues marks top after last current o := by
  intro depth room hdepth before lastBlock
  refine .inr ⟨.done, none, current, o, Nat.le_refl current, hdraws, ?_, ?_⟩
  · rw [branches, endsAt_bind_ok (endsAt_skipNewlines_of_ne hmark hnewline),
      endsAt_bind_ok (endsAt_accept_of_not_mem hmark (by simpa using helif)), if_neg (by simp),
      endsAt_bind_ok (endsAt_accept_of_not_mem hmark (by simpa using helse)), if_neg (by simp)]
    exact endsAt_pure _
  · cases hread : sequel false room after o with
    | error error => rw [hsame, hread]; rfl
    | ok read => exact isRead_of_sequel hread true

end Blocks

private theorem takes_block (hmarks : Streaming marks) {brace close : Token} {stop : Span}
    {middle : Nat} {body next : Outline} (hbrace : marks[current]? = some (.token brace))
    (hkind : brace.kind = .leftBrace) (hstop : marks[current + 1]? = some (.newline stop))
    (hclose : marks[middle]? = some (.token close)) (hright : close.kind = .rightBrace)
    (hle : current < middle) (hbody : Draws marks false close.span middle (current + 1) body)
    (hdraws : Draws marks top after last (middle + 1) next) (hdepth : depth + room = maxNesting) :
    Takes marks top after last room (arm marks) ⟨current, depth⟩ Option.toList
      (sequel false room after (.block brace stop body (some close) next)) := by
  rw [arm, sequel_block]
  refine .step (endsAt_peek hbrace) (Nat.le_refl current) ?_
  simp only [Mark.kind, hkind]
  refine .step (endsAt_advance hmarks hbrace brace.ne_endOfText (by omega)) (Nat.le_succ current) ?_
  refine .map (f := fun read => [Stmt.block read.1 read.2]) (fun read => rfl) ?_
  have hpasses := passes_blockBody after brace hmarks hstop hclose hright hbody hdepth
  exact .of_passes hpasses (by simp only; omega) hdraws

private theorem takes_unclosed (hmarks : Streaming marks) {brace : Token} {stop span : Span}
    {body next : Outline} (hbrace : marks[current]? = some (.token brace))
    (hkind : brace.kind = .leftBrace) (hstop : marks[current + 1]? = some (.newline stop))
    (hend : marks[last]? = some (.endOfText span))
    (hbody : Draws marks false after last (current + 1) body) (hdepth : depth + room = maxNesting) :
    Takes marks top after last room (arm marks) ⟨current, depth⟩ Option.toList
      (sequel false room after (.block brace stop body none next)) := by
  obtain ⟨error, hread, hfails⟩ := fails_blockBody brace hmarks hstop hend hbody hdepth
  rw [arm, sequel_block, blockThen, hread]
  refine .step (endsAt_peek hbrace) (Nat.le_refl current) ?_
  simp only [Mark.kind, hkind]
  exact .step (endsAt_advance hmarks hbrace brace.ne_endOfText (by omega)) (Nat.le_succ current)
    (.inl ⟨error, rfl, hfails.bind _⟩)

/-- A line that no statement begins with. -/
theorem takes_refused {t : Token} {o : Outline} (cause : Cause)
    (hmark : marks[current]? = some (.token t)) (hdepth : depth ≤ maxNesting)
    (hcause : ∀ lexeme, cause ≠ .invalidNumber lexeme)
    (harm : (arm marks).endsAt ⟨current, depth⟩ =
      (refuse t.span cause : Walk (Option Stmt)).endsAt ⟨current, depth⟩)
    (hread : sequel false room after o = fail t.span cause) :
    Takes marks top after last room (arm marks) ⟨current, depth⟩ Option.toList
      (sequel false room after o) :=
  .inl ⟨_, hread, hcause, ⟨current, depth⟩, ⟨(List.getElem?_eq_some_iff.mp hmark).1, hdepth⟩,
    Nat.le_refl depth, harm.trans (endsAt_refuse _ _)⟩

section Headed

variable {α β : Type} {head : Walk α} {result : Except ScriptError α} {next : Nat} {o : Outline}

/-- A header and its block are read, or the machine fails as reading does. -/
theorem headed_cases (hhead : Passes marks head ⟨current, depth⟩ ⟨next, depth⟩ result)
    (hopens : Opens marks top after last next o) (hdepth : depth + room = maxNesting)
    (clause : Clause) (afterBlock : Bool) (combine : α → List Stmt → Span → Sequel → Sequel) :
    (∃ error, headed result clause afterBlock room after o combine = .error error ∧
      ∀ k : α → List Stmt × Span → Walk β,
        Fails marks (head >>= fun a => block marks clause >>= k a) ⟨current, depth⟩ depth error) ∨
    ∃ a inner span final later, next < final ∧ Draws marks top after last final later ∧
      Continues marks top after last final later ∧
      (∀ k : α → List Stmt × Span → Walk β,
        (head >>= fun a => block marks clause >>= k a).endsAt ⟨current, depth⟩ =
          (k a (inner, span)).endsAt ⟨final, depth⟩) ∧
      headed result clause afterBlock room after o combine =
        (sequel afterBlock room after later).map (combine a inner span) := by
  cases result with
  | error error => exact .inl ⟨error, rfl, fun k => Fails.bind hhead _⟩
  | ok a =>
    have hopens := hopens _ _ hdepth clause
    cases o with
    | block brace stop body close later =>
      dsimp only at hopens
      simp only [headed, blockThen]
      cases hread : NumericScript.blockBody room after brace stop close fun room after =>
          sequel false room after body with
      | error error =>
        rw [hread] at hopens
        exact .inl ⟨error, rfl, fun k => .step hhead (hopens.bind _)⟩
      | ok read =>
        rw [hread] at hopens
        obtain ⟨final, hlt, hend, hdraws, hcontinues⟩ := hopens
        refine .inr ⟨a, read.1, read.2, final, later, hlt, hdraws, hcontinues, fun k => ?_, ?_⟩
        · exact (endsAt_bind_ok hhead).trans (endsAt_bind_ok hend)
        · exact bind_ok_eq_map _ _
    | done | line | stray => exact .inl ⟨_, rfl, fun k => .step hhead (hopens.bind _)⟩

variable (hmarks : Streaming marks) {first : Token} {more : List Token} {stop : Span}

include hmarks

private theorem takes_if (hline : LineTo marks stop next current (first :: more))
    (hword : first.kind = .keyword .ifWord) (hopens : Opens marks top after last next o)
    (hdepth : depth + room = maxNesting) :
    Takes marks top after last room (arm marks) ⟨current, depth⟩ Option.toList
      (sequel false room after (.line first more stop o)) := by
  have hlt := hline.lt
  rw [arm, sequel_if hword]
  refine .step (endsAt_peek hline.line.1) (Nat.le_refl current) ?_
  simp only [Mark.kind, hword]
  refine .step (endsAt_advance hmarks hline.line.1 first.ne_endOfText (by omega))
    (Nat.le_succ current) ?_
  refine .map (f := fun stmt => [stmt]) (fun stmt => rfl) ?_
  rw [ifStatement]
  refine .step (endsAt_previous hline.line.1) (Nat.le_refl _) ?_
  obtain ⟨error, hread, hfails⟩ |
    ⟨cond, inner, span, final, later, hfinal, _, hcontinues, hend, hread⟩ :=
    headed_cases (passes_header hmarks .ifWord hdepth hline.tail) hopens hdepth
      (.condition .ifWord) true (Sequel.branch first)
  · exact .inl ⟨error, hread, hfails _⟩
  · obtain ⟨error, hrest, hfails⟩ | ⟨chain, block, place, rest, hle, hdraws, hbranches, hrest⟩ :=
      hcontinues _ _ hdepth [] span
    · rw [hread, hrest]
      exact .inl ⟨error, rfl, .of_eq (hend _) (hfails.bind _)⟩
    · refine .inr ⟨_, place, rest, by simp only; omega, hdraws,
        (hend _).trans ((endsAt_bind_ok hbranches).trans (endsAt_pure _)), ?_⟩
      rw [hread, hrest]
      cases sequel false room after rest <;> rfl

private theorem takes_while (hline : LineTo marks stop next current (first :: more))
    (hword : first.kind = .keyword .whileWord) (hopens : Opens marks top after last next o)
    (hdepth : depth + room = maxNesting) :
    Takes marks top after last room (arm marks) ⟨current, depth⟩ Option.toList
      (sequel false room after (.line first more stop o)) := by
  have hlt := hline.lt
  rw [arm, sequel_while hword]
  refine .step (endsAt_peek hline.line.1) (Nat.le_refl current) ?_
  simp only [Mark.kind, hword]
  refine .step (endsAt_advance hmarks hline.line.1 first.ne_endOfText (by omega))
    (Nat.le_succ current) ?_
  refine .map (f := fun stmt => [stmt]) (fun stmt => rfl) ?_
  rw [whileStatement]
  refine .step (endsAt_previous hline.line.1) (Nat.le_refl _) ?_
  obtain ⟨error, hread, hfails⟩ |
    ⟨cond, inner, span, final, later, hfinal, hdraws, _, hend, hread⟩ :=
    headed_cases (passes_header hmarks .whileWord hdepth hline.tail) hopens hdepth
      (.condition .whileWord) false fun cond inner span later =>
        later.cons (.loop cond inner (first.span.join span))
  · exact .inl ⟨error, hread, hfails _⟩
  · refine .inr ⟨_, final, later, by simp only; omega, hdraws, (hend _).trans (endsAt_pure _), ?_⟩
    rw [hread]
    rfl

private theorem continues_elif (hline : LineTo marks stop next current (first :: more))
    (hword : first.kind = .keyword .elifWord) (hopens : Opens marks top after last next o) :
    Continues marks top after last current (.line first more stop o) := by
  intro depth room hdepth before lastBlock
  have hlt := hline.lt
  have hskip : (skipNewlines marks).endsAt ⟨current, depth⟩ = some (.ok (), ⟨current, depth⟩) :=
    endsAt_skipNewlines_of_ne hline.line.1 first.ne_newline
  have haccept : (accept marks [.token (.keyword .elifWord)]).endsAt ⟨current, depth⟩ =
      some (.ok true, ⟨current + 1, depth⟩) :=
    endsAt_accept hmarks hline.line.1 first.ne_endOfText (by omega) (by simp [Mark.kind, hword])
  rw [sequel_elif hword]
  obtain ⟨error, hread, hfails⟩ |
    ⟨cond, inner, span, final, later, hfinal, _, hcontinues, hend, hread⟩ :=
    headed_cases (β := Chain × Span) (passes_header hmarks .elifWord hdepth hline.tail) hopens
      hdepth (.condition .elifWord) true Sequel.elif
  · refine .inl ⟨error, hread, ?_⟩
    rw [branches]
    exact .step hskip (.step haccept (hfails _))
  · have hwalk : (branches marks before lastBlock).endsAt ⟨current, depth⟩ =
        (branches marks (before ++ [(cond, inner)]) span).endsAt ⟨final, depth⟩ := by
      rw [branches, endsAt_bind_ok hskip, endsAt_bind_ok haccept, if_pos rfl]
      exact (hend _).trans (endsAt_enter _ _)
    rw [hread]
    obtain ⟨error, hrest, hfails⟩ | ⟨chain, block, place, rest, hle, hdraws, hbranches, hrest⟩ :=
      hcontinues _ _ hdepth (before ++ [(cond, inner)]) span
    · rw [hrest]
      exact .inl ⟨error, rfl, .of_eq hwalk hfails⟩
    · refine .inr ⟨.branch cond inner chain, some (block.getD span), place, rest, by omega, hdraws,
        hwalk.trans (hbranches.trans ?_), ?_⟩
      · rw [List.foldr_append]
        rfl
      · rw [hrest]
        cases sequel false room after rest <;> rfl

private theorem continues_else (hline : LineTo marks stop next current (first :: more))
    (hword : first.kind = .keyword .elseWord) (hopens : Opens marks top after last next o) :
    Continues marks top after last current (.line first more stop o) := by
  intro depth room hdepth before lastBlock
  have hlt := hline.lt
  have hskip : (skipNewlines marks).endsAt ⟨current, depth⟩ = some (.ok (), ⟨current, depth⟩) :=
    endsAt_skipNewlines_of_ne hline.line.1 first.ne_newline
  have hpass : (accept marks [.token (.keyword .elifWord)]).endsAt ⟨current, depth⟩ =
      some (.ok false, ⟨current, depth⟩) :=
    endsAt_accept_of_not_mem hline.line.1 (by simp [Mark.kind, hword])
  have haccept : (accept marks [.token (.keyword .elseWord)]).endsAt ⟨current, depth⟩ =
      some (.ok true, ⟨current + 1, depth⟩) :=
    endsAt_accept hmarks hline.line.1 first.ne_endOfText (by omega) (by simp [Mark.kind, hword])
  rw [sequel_else hword]
  obtain ⟨error, hread, hfails⟩ | ⟨_, inner, span, final, later, hfinal, hdraws, _, hend, hread⟩ :=
    headed_cases (β := Chain × Span)
      (passes_endOfLine hmarks (show depth ≤ maxNesting by omega) .elseWord hline.tail) hopens
      hdepth .elseWord false fun _ inner span later => ⟨.block inner, some span, later.statements⟩
  · refine .inl ⟨error, hread, ?_⟩
    rw [branches]
    exact .step hskip (.step hpass (.step haccept (hfails _)))
  · refine .inr ⟨.block inner, some span, final, later, by omega, hdraws, ?_, ?_⟩
    · rw [branches, endsAt_bind_ok hskip, endsAt_bind_ok hpass, if_neg (by simp),
        endsAt_bind_ok haccept, if_pos rfl]
      exact (hend _).trans (endsAt_pure _)
    · rw [hread]

end Headed

/-- A line is drawn, continues a branch and opens a block as reading says. -/
theorem spelled_line (hmarks : Streaming marks) {first : Token} {more : List Token} {stop : Span}
    {next : Nat} {o : Outline} (hline : LineTo marks stop next current (first :: more))
    (hleft : first.kind ≠ .leftBrace) (hright : first.kind ≠ .rightBrace)
    (hdraws : Draws marks top after last next o) (hopens : Opens marks top after last next o) :
    Draws marks top after last current (.line first more stop o) ∧
      Continues marks top after last current (.line first more stop o) ∧
      Opens marks top after last current (.line first more stop o) := by
  have hmark := hline.line.1
  have hnone : Opens marks top after last current (.line first more stop o) :=
    fun _ _ hdepth clause =>
      fails_block hmark first.ne_newline (by simp [Mark.kind, hleft]) (by omega) clause
  cases hkind : first.kind with
  | keyword word =>
    cases word with
    | ifWord =>
      have h := draws_of_takes hmark (fun _ => hright) (takes_if hmarks hline hkind hopens)
      refine ⟨h, continues_of_ne hmark first.ne_newline ?_ ?_ (fun room => ?_) h, hnone⟩
      · simp [Mark.kind, hkind]
      · simp [Mark.kind, hkind]
      · rw [sequel_if hkind, sequel_if hkind]
    | whileWord =>
      have h := draws_of_takes hmark (fun _ => hright) (takes_while hmarks hline hkind hopens)
      refine ⟨h, continues_of_ne hmark first.ne_newline ?_ ?_ (fun room => ?_) h, hnone⟩
      · simp [Mark.kind, hkind]
      · simp [Mark.kind, hkind]
      · rw [sequel_while hkind, sequel_while hkind]
    | elifWord =>
      refine ⟨draws_of_takes hmark (fun _ => hright) fun hdepth => ?_,
        continues_elif hmarks hline hkind hopens, hnone⟩
      refine takes_refused (.danglingBranch first.lexeme) hmark (by omega) (by simp) ?_
        (sequel_dangling (.inl hkind))
      rw [arm, endsAt_bind_ok (endsAt_peek hmark)]
      simp only [Mark.kind, hkind]
      rfl
    | elseWord =>
      refine ⟨draws_of_takes hmark (fun _ => hright) fun hdepth => ?_,
        continues_else hmarks hline hkind hopens, hnone⟩
      refine takes_refused (.danglingBranch first.lexeme) hmark (by omega) (by simp) ?_
        (sequel_dangling (.inr hkind))
      rw [arm, endsAt_bind_ok (endsAt_peek hmark)]
      simp only [Mark.kind, hkind]
      rfl
  | _ =>
    have hword : ∀ word, first.kind ≠ .keyword word := by simp [hkind]
    have h := draws_of_takes hmark (fun _ => hright)
      (takes_plain hmarks hline hword hleft hright hdraws)
    refine ⟨h, continues_of_ne hmark first.ne_newline ?_ ?_ (fun room => ?_) h, hnone⟩
    · simp [Mark.kind, hkind]
    · simp [Mark.kind, hkind]
    · rw [sequel_plain hword, sequel_plain hword]

/-- Lines are drawn, continue a branch and open a block as reading says. -/
theorem spelled (hmarks : Streaming marks) {o : Outline} (h : Spells marks top current o last)
    (hlast : ∃ mark, marks[last]? = some mark ∧ mark.span = after ∧
      (mark.kind = .endOfText ∨ mark.kind = .token .rightBrace)) :
    Draws marks top after last current o ∧ Continues marks top after last current o ∧
      Opens marks top after last current o := by
  induction h generalizing after with
  | @done top current =>
    obtain ⟨mark, hmark, hspan, hkind⟩ := hlast
    have hdraws : Draws marks top after current current .done := by
      intro α go hgo depth room hdepth before
      simp only [sequel, List.append_nil]
    refine ⟨hdraws, ?_, ?_⟩
    · refine continues_of_ne hmark ?_ ?_ ?_ (fun room => rfl) hdraws <;>
        rcases hkind with h | h <;> simp [h]
    · intro depth room hdepth clause
      have hfails := fails_block hmark (by rcases hkind with h | h <;> simp [h])
        (by rcases hkind with h | h <;> simp [h]) (show depth ≤ maxNesting by omega) clause
      rwa [hspan] at hfails
  | newline hmark _ ih =>
    obtain ⟨hdraws, hcontinues, hopens⟩ := ih hlast
    exact ⟨draws_newline hmark hdraws, continues_newline hmarks hmark hcontinues,
      opens_newline hmarks hmark hopens⟩
  | line hline hleft hright _ ih =>
    obtain ⟨hdraws, _, hopens⟩ := ih hlast
    exact spelled_line hmarks hline hleft hright hdraws hopens
  | block hbrace hkind hstop hbody hclose hright hnext ihbody ihnext =>
    obtain ⟨hdrawsBody, _⟩ := ihbody ⟨_, hclose, rfl, .inr (congrArg MarkKind.token hright)⟩
    obtain ⟨hdrawsNext, hcontinues, _⟩ := ihnext hlast
    have hle := hbody.le rfl
    have hdraws := draws_of_takes hbrace (fun _ => by simp [hkind]) fun hdepth =>
      takes_block hmarks hbrace hkind hstop hclose hright hle hdrawsBody hdrawsNext hdepth
    refine ⟨hdraws, continues_of_ne hbrace (Token.ne_newline _) (by simp [Mark.kind, hkind])
      (by simp [Mark.kind, hkind]) (fun room => rfl) hdraws, ?_⟩
    exact opens_block hmarks hbrace hkind hstop hclose hright (Nat.le_of_succ_le hle) hdrawsBody
      hdrawsNext hcontinues
  | @unclosed top current last brace stop body next span hbrace hkind hstop hbody hend ih =>
    obtain ⟨hdrawsBody, _⟩ := ih hlast
    have hdraws : Draws marks top after last current (.block brace stop body none next) :=
      draws_of_takes hbrace (fun _ => by simp [hkind]) fun hdepth =>
        takes_unclosed hmarks hbrace hkind hstop hend hdrawsBody hdepth
    refine ⟨hdraws, continues_of_ne hbrace brace.ne_newline ?_ ?_ (fun room => rfl) hdraws, ?_⟩
    · simp [Mark.kind, hkind]
    · simp [Mark.kind, hkind]
    · exact opens_unclosed hmarks hbrace hkind hstop hend hdrawsBody
  | @stray current last brace next hbrace hkind =>
    have hdraws : Draws marks true after last current (.stray brace next) := by
      refine draws_of_takes hbrace (by simp) fun hdepth =>
        takes_refused .unmatchedBrace hbrace (by omega) (by simp) ?_ rfl
      rw [arm, endsAt_bind_ok (endsAt_peek hbrace)]
      simp only [Mark.kind, hkind]
      rfl
    refine ⟨hdraws, continues_of_ne hbrace brace.ne_newline ?_ ?_ (fun room => rfl) hdraws, ?_⟩
    · simp [Mark.kind, hkind]
    · simp [Mark.kind, hkind]
    · exact fun _ _ hdepth clause =>
        fails_block hbrace brace.ne_newline (by simp [Mark.kind, hkind]) (by omega) clause

end Statements

end Walk

end NumericScript
