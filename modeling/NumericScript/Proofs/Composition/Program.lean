import NumericScript.Proofs.Composition.Lines
import NumericScript.Proofs.Composition.Outline
import NumericScript.Proofs.Relocation.Run
import NumericScript.Proofs.Running.Limit

/-!
# Composed scripts

Two scripts with a semicolon in between are one script that does what the first one does and then
what the second one does. A script between braces is a block, if that is not too deep.
-/

namespace NumericScript

section Reading

variable {limit : Nat} {lines later : List TokenLine} {stmts more : List Stmt}

/-- An accepted script is read by the reader of its outline, whatever place follows it. -/
theorem exists_sequel_of_readProgram (h : readProgram limit lines = .ok stmts) (after : Span) :
    ∃ read, sequel false limit after (.ofLines lines) = .ok read ∧ read.statements = stmts := by
  obtain ⟨read, hread, h⟩ := bind_eq_ok.mp h
  exact ⟨read, sequel_after hread after, Except.ok.inj h⟩

/-- What the reader of the outline gives is what the script reads as. -/
theorem readProgram_of_sequel {after : Span} {read : Sequel}
    (h : sequel false limit after (.ofLines lines) = .ok read) :
    readProgram limit lines = .ok read.statements :=
  bind_eq_ok.mpr ⟨read, sequel_after h _, rfl⟩

/-- Lines that are read as statements, after lines that are. -/
theorem readProgram_append (h : readProgram limit lines = .ok stmts)
    (hlater : readProgram limit later = .ok more) :
    readProgram limit (lines ++ later) = .ok (stmts ++ more) := by
  obtain ⟨read, hread, rfl⟩ := exists_sequel_of_readProgram h (.point 0 0)
  obtain ⟨rest, hrest, rfl⟩ := exists_sequel_of_readProgram hlater (.point 0 0)
  have hgoes := goesOn_of_sequel hread
  have hfold : later.foldr Draft.add ⟨.done, []⟩ = ⟨.ofLines later, []⟩ := by
    rw [Outline.foldr_add_of_matched (goesOn_of_sequel hrest).matched, Outline.append_done]
  have houtline : Outline.ofLines (lines ++ later) =
      (Outline.ofLines lines).append (.ofLines later) := by
    rw [Outline.ofLines, List.foldr_append, hfold, Outline.foldr_add_of_matched hgoes.matched]
    rfl
  have happend := hgoes.append (isRead_of_sequel hrest)
  rw [← houtline] at happend
  exact readProgram_of_sequel happend

private theorem readProgram_move (f : Motion) (h : readProgram limit lines = .ok stmts) :
    readProgram limit (move f lines) = .ok (moveAll f stmts) := by
  obtain ⟨read, hread, rfl⟩ := exists_sequel_of_readProgram h (.point 0 0)
  have hmoved := move_sequel (f := f) false limit (.point 0 0) (.ofLines lines)
  rw [hread, ← Outline.ofLines_move] at hmoved
  rw [readProgram_of_sequel hmoved, moveAll_eq]
  rfl

/-- Matched lines between braces are one block. -/
theorem ofLines_braces (h : (Outline.ofLines lines).Matched) (chars count : Nat) :
    Outline.ofLines (openingTokens ++ (lines ++ closingTokens chars count)) =
      .block openingBrace (.point 1 1) (.ofLines lines) (some (closingBrace chars count))
        .done := by
  have hclosing : (closingTokens chars count).foldr Draft.add ⟨.done, []⟩ =
      ⟨.done, [(closingBrace chars count, .done)]⟩ := rfl
  rw [Outline.ofLines, List.foldr_append, List.foldr_append, hclosing,
    Outline.foldr_add_of_matched h, Outline.append_done]
  rfl

/-- A script between braces is one block, unless there is no room for one more level. -/
theorem readProgram_braces (h : readProgram limit lines = .ok stmts) (chars count : Nat) :
    readProgram limit (openingTokens ++ (move (.shift 1 2) lines ++ closingTokens chars count)) =
        .ok [.block (moveAll (.shift 1 2) stmts) ⟨0, chars + 2, 1⟩] ∨
      ∃ span, readProgram limit
        (openingTokens ++ (move (.shift 1 2) lines ++ closingTokens chars count)) =
          fail span .tooDeep := by
  obtain ⟨read, hread, rfl⟩ := exists_sequel_of_readProgram h (.point chars count)
  have hmoved := readProgram_move (.shift 1 2) h
  obtain ⟨_, hinside, _⟩ := exists_sequel_of_readProgram hmoved (.point 0 0)
  rw [readProgram, ofLines_braces (goesOn_of_sequel hinside).matched, sequel_block]
  cases limit with
  | zero => exact .inr ⟨.point 1 1, rfl⟩
  | succ room =>
    -- Inside the braces there is one level less, and the closing brace comes next.
    have hfollows : Follows (.shift 1 2) True (.ok read)
        (sequel false room (closingBrace chars count).span
          (.ofLines (move (.shift 1 2) lines))) := by
      rw [← hread, Outline.ofLines_move]
      exact readsSequel false (room + 1) (.point chars count) _ (Nat.le_succ room)
        (fun _ => trivial) (.point chars count)
    have hspan : openingBrace.span.join (closingBrace chars count).span = ⟨0, chars + 2, 1⟩ := by
      simp [openingBrace, closingBrace, Span.join]
    rw [← hspan, moveAll_eq, blockThen, blockBody]
    generalize sequel false room (closingBrace chars count).span
      (.ofLines (move (.shift 1 2) lines)) = inside at hfollows
    cases hfollows with
    | moved => exact .inl rfl
    | tooDeep _ span => exact .inr ⟨span, rfl⟩

end Reading

section Sources

variable {source later : String} {stmts more : List Stmt}

private theorem parseProgram_semicolon (h : parseProgram source = .ok stmts)
    (hlater : parseProgram later = .ok more) :
    parseProgram (source ++ ";" ++ later) = .ok (stmts ++ moveAll (.past source) more) := by
  obtain ⟨scanned, hscan, hread⟩ := bind_eq_ok.mp h
  obtain ⟨scannedLater, hscanLater, hreadLater⟩ := bind_eq_ok.mp hlater
  refine bind_eq_ok.mpr ⟨_, scan_semicolon hscan hscanLater, ?_⟩
  exact readProgram_append hread (readProgram_move _ hreadLater)

private theorem parseProgram_braces (h : parseProgram source = .ok stmts) :
    parseProgram ("\x7b" ++ source ++ "\x7d") =
        .ok [.block (moveAll (.shift 1 2) stmts) ⟨0, source.length + 2, 1⟩] ∨
      ∃ span, parseProgram ("\x7b" ++ source ++ "\x7d") = fail span .tooDeep := by
  obtain ⟨scanned, hscan, hread⟩ := bind_eq_ok.mp h
  have hbraces := readProgram_braces hread source.length (logicalLines source).length
  have hparse : parseProgram ("\x7b" ++ source ++ "\x7d") = readProgram maxNesting
      (openingTokens ++ (move (.shift 1 2) scanned ++
        closingTokens source.length (logicalLines source).length)) := by
    rw [parseProgram, scan_braces hscan]
    rfl
  rwa [hparse]

end Sources

section Running

/-- What is seen of a run that has ended: its error, if there is one, and the environment. The count
of loop bodies is not seen. -/
def Outcome.seen : Outcome → Option (Option ScriptError × Environment)
  | finished machine => some (none, machine.env)
  | failed error machine => some (some error, machine.env)
  | unfinished => none

/-- A program that is run without limits ends with an error, or with none, and leaves an
environment. -/
def Shows (program : List Stmt) (machine : Machine) (error : Option ScriptError)
    (env : Environment) : Prop :=
  ∃ outcome, RunsTo {} program machine outcome ∧ outcome.seen = some (error, env)

private theorem Outcome.seen_move (f : Motion) (outcome : Outcome) :
    (outcome.move f).seen = outcome.seen.map fun (error, env) => (Movable.move f error, env) := by
  cases outcome <;> rfl

/-- Without limits the earlier starts of loop bodies make no difference. -/
theorem accords_seen :
    Accords {} {} (fun machine machine' => machine'.env = machine.env) fun outcome outcome' =>
      outcome = .unfinished ∨ outcome'.seen = outcome.seen where
  env h := h
  update _ _ := rfl
  unfinished _ := .inl rfl
  finished h := .inr (by rw [Outcome.seen, Outcome.seen, h])
  failed h error := .inr (by rw [Outcome.seen, Outcome.seen, h])
  enter h _ _ _ hnext _ := hnext h
  andThen {outcome outcome'} h {next next'} hnext _ := by
    rcases h with rfl | hseen
    · exact .inl rfl
    · cases outcome with
      | finished machine =>
        cases outcome' with
        | finished machine' => exact hnext (Prod.mk.inj (Option.some.inj hseen)).2
        | failed => cases hseen
        | unfinished => cases hseen
      | failed error machine =>
        cases outcome' with
        | finished => cases hseen
        | failed => exact .inr hseen
        | unfinished => cases hseen
      | unfinished => exact .inl rfl

private theorem seen_execAll (rounds : Nat) (stmts : List Stmt) {machine machine' : Machine}
    (h : machine'.env = machine.env) :
    (execAll {} rounds stmts machine').seen = (execAll {} rounds stmts machine).seen := by
  have hseen := accords_seen.execAll (Nat.le_refl rounds) stmts h
  have hseen' := accords_seen.execAll (Nat.le_refl rounds) stmts h.symm
  rcases hseen with hnone | hseen
  · rcases hseen' with hnone' | hseen'
    · rw [hnone, hnone']
    · exact hseen'.symm
  · exact hseen

private theorem execAll_append (limits : Limits) (rounds : Nat) (stmts more : List Stmt)
    (machine : Machine) :
    execAll limits rounds (stmts ++ more) machine =
      (execAll limits rounds stmts machine).andThen (execAll limits rounds more) := by
  induction stmts generalizing machine with
  | nil => rfl
  | cons s later ih =>
    rw [List.cons_append, execAll, execAll]
    cases s.exec limits rounds machine with
    | finished middle => exact ih middle
    | failed error last => rfl
    | unfinished => rfl

private theorem shows_iff {stmts : List Stmt} {machine : Machine} {error : Option ScriptError}
    {env : Environment} : Shows stmts machine error env ↔
      ∃ rounds, (runProgram {} rounds stmts machine.env).seen = some (error, env) := by
  constructor
  · rintro ⟨_, ⟨_, rounds, rfl⟩, hseen⟩
    exact ⟨rounds, hseen⟩
  · rintro ⟨rounds, hseen⟩
    refine ⟨_, ⟨fun hunfinished => ?_, rounds, rfl⟩, hseen⟩
    rw [hunfinished] at hseen
    cases hseen

private theorem Outcome.seen_andThen (outcome : Outcome) (next : Machine → Outcome)
    (error : Option ScriptError) (env : Environment) :
    (outcome.andThen next).seen = some (error, env) ↔
      (error.isSome ∧ outcome.seen = some (error, env)) ∨
        ∃ middle, outcome = .finished middle ∧ (next middle).seen = some (error, env) := by
  cases outcome with
  | finished machine =>
    constructor
    · exact fun h => .inr ⟨machine, rfl, h⟩
    · rintro (⟨hsome, h⟩ | ⟨_, heq, h⟩)
      · obtain ⟨rfl, _⟩ := Prod.mk.inj (Option.some.inj h)
        cases hsome
      · cases heq
        exact h
  | failed failure machine =>
    constructor
    · intro h
      obtain ⟨rfl, _⟩ := Prod.mk.inj (Option.some.inj h)
      exact .inl ⟨rfl, h⟩
    · rintro (⟨_, h⟩ | ⟨_, heq, _⟩)
      · exact h
      · cases heq
  | unfinished => simp [andThen, seen]

/-- Statements one after the other do what they do in turn on the same machine. -/
theorem shows_append (stmts more : List Stmt) (machine : Machine) (error : Option ScriptError)
    (env : Environment) :
    Shows (stmts ++ more) machine error env ↔
      (error.isSome ∧ Shows stmts machine error env) ∨
        ∃ middle, RunsTo {} stmts machine (.finished middle) ∧ Shows more middle error env := by
  have hrun : ∀ rounds, runProgram {} rounds (stmts ++ more) machine.env =
      (runProgram {} rounds stmts machine.env).andThen (execAll {} rounds more) :=
    fun rounds => execAll_append {} rounds stmts more ⟨machine.env, #[]⟩
  have hmore : ∀ rounds (middle : Machine),
      (execAll {} rounds more middle).seen = (runProgram {} rounds more middle.env).seen :=
    fun rounds middle => seen_execAll rounds more rfl
  simp only [shows_iff, hrun, Outcome.seen_andThen, hmore]
  constructor
  · rintro ⟨rounds, ⟨hsome, hseen⟩ | ⟨middle, hfirst, hseen⟩⟩
    · exact .inl ⟨hsome, rounds, hseen⟩
    · exact .inr ⟨middle, ⟨nofun, rounds, hfirst⟩, rounds, hseen⟩
  · rintro (⟨hsome, rounds, hseen⟩ | ⟨middle, ⟨hends, rounds, hfirst⟩, rounds', hseen⟩)
    · exact ⟨rounds, .inl ⟨hsome, hseen⟩⟩
    · -- Both runs end within the larger number of rounds.
      have hfirst' := runProgram_rounds (Nat.le_max_left rounds rounds') (hfirst ▸ hends)
      have hends' : runProgram {} rounds' more middle.env ≠ .unfinished := by
        intro hunfinished
        rw [hunfinished] at hseen
        cases hseen
      have hseen' := runProgram_rounds (Nat.le_max_right rounds rounds') hends'
      exact ⟨max rounds rounds', .inr ⟨middle, hfirst'.trans hfirst, hseen' ▸ hseen⟩⟩

private theorem shows_move (f : Motion) (stmts : List Stmt) (machine : Machine)
    (error : Option ScriptError) (env : Environment) :
    Shows (moveAll f stmts) machine error env ↔
      ∃ error', error = move f error' ∧ Shows stmts machine error' env := by
  have hrun : ∀ rounds, (runProgram {} rounds (moveAll f stmts) machine.env).seen =
      (runProgram {} rounds stmts machine.env).seen.map
        fun (error, env) => (Movable.move f error, env) := by
    intro rounds
    rw [runProgram, execAll_move, Outcome.seen_move]
    rfl
  simp only [shows_iff, hrun, Option.map_eq_some_iff, Prod.exists, Prod.mk.injEq]
  constructor
  · rintro ⟨rounds, error', _, hseen, rfl, rfl⟩
    exact ⟨error', rfl, rounds, hseen⟩
  · rintro ⟨error', rfl, rounds, hseen⟩
    exact ⟨rounds, error', env, hseen, rfl, rfl⟩

end Running

section Scripts

variable {source later : String} {stmts more : List Stmt}

/--
Scripts compose. Accepted scripts with a semicolon in between are accepted as the statements of the
first one and, further on in the text, those of the second one. Between braces a script is one
block, or it is too deep. The composed script runs as the two do in turn on the same machine, the
second one only if the first one does not fail, and an error of the second one is further on.
-/
theorem scripts_compose (h : parseProgram source = .ok stmts)
    (hlater : parseProgram later = .ok more) :
    parseProgram (source ++ ";" ++ later) = .ok (stmts ++ moveAll (.past source) more) ∧
      (parseProgram ("\x7b" ++ source ++ "\x7d") =
          .ok [.block (moveAll (.shift 1 2) stmts) ⟨0, source.length + 2, 1⟩] ∨
        ∃ error, parseProgram ("\x7b" ++ source ++ "\x7d") = .error error ∧
          error.cause.message = "Too deeply nested") ∧
      ∀ machine error env, Shows (stmts ++ moveAll (.past source) more) machine error env ↔
        (error.isSome ∧ Shows stmts machine error env) ∨
          ∃ middle, RunsTo {} stmts machine (.finished middle) ∧
            ∃ error', error = move (.past source) error' ∧ Shows more middle error' env := by
  refine ⟨parseProgram_semicolon h hlater, ?_, fun machine error env => ?_⟩
  · refine (parseProgram_braces h).imp_right ?_
    rintro ⟨span, hfail⟩
    exact ⟨_, hfail, rfl⟩
  · rw [shows_append]
    simp only [shows_move]

/-- A script that sets a name. -/
def settingSource : String := "x = 2"

/-- A script that fails at its index once the name is set. -/
def indexingSource : String := "y[-x] = 1"

/-- The second of two scripts fails at its index, one line further on than where it stands alone. -/
theorem scripts_compose_indexing :
    ∃ stmts more, parseProgram settingSource = .ok stmts ∧ parseProgram indexingSource = .ok more ∧
      parseProgram (settingSource ++ ";" ++ indexingSource) =
        .ok (stmts ++ moveAll (.past settingSource) more) ∧
      ∃ error env, error.span = ⟨8, 10, 1⟩ ∧
        Shows (stmts ++ moveAll (.past settingSource) more) ⟨.fresh, #[]⟩ (some error) env := by
  have hrun : ((parseProgram settingSource).toOption.bind fun stmts =>
      (parseProgram indexingSource).toOption.bind fun more =>
        (runProgram {} 1 (stmts ++ moveAll (.past settingSource) more) .fresh).seen.bind fun seen =>
          seen.1.map (·.span)) = some ⟨8, 10, 1⟩ := by
    decide +kernel
  obtain ⟨stmts, hstmts, hrun⟩ := Option.bind_eq_some_iff.mp hrun
  obtain ⟨more, hmore, hrun⟩ := Option.bind_eq_some_iff.mp hrun
  obtain ⟨⟨failure, env⟩, hseen, hspan⟩ := Option.bind_eq_some_iff.mp hrun
  obtain ⟨error, rfl, hplace⟩ := Option.map_eq_some_iff.mp hspan
  have h := toOption_eq_some.mp hstmts
  have hlater := toOption_eq_some.mp hmore
  have hcompose := scripts_compose h hlater
  exact ⟨stmts, more, h, hlater, hcompose.1, error, env, hplace, shows_iff.mpr ⟨1, hseen⟩⟩

end Scripts

end NumericScript
