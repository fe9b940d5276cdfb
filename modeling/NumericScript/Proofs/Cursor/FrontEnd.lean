import NumericScript.Proofs.Cursor.Program
import NumericScript.Proofs.Cursor.Scan

/-!
# The front end

On every text the scanner and the walks over its stream come to an end, without a fault, and with
what scanning and reading make of the text.
-/

namespace NumericScript

open Course

/-- A numeral is read as some number. -/
theorem IsNumeral.exists_value {text : List Char} (h : IsNumeral text) :
    ∃ value, Single.ofNumeral? text = some value := by
  obtain ⟨whole, fraction, hwhole, hfraction, ⟨hne, rfl⟩ | ⟨hne, rfl⟩⟩ := h
  · exact ⟨_, ofNumeral?_whole hwhole hne⟩
  · exact ⟨_, ofNumeral?_point hwhole hfraction hne⟩

section Stream

variable {source : String} {lines : List TokenLine}

/-- The number tokens of a scanned text are numerals. -/
theorem isNumeral_of_scan (h : scan source = .ok lines) {t : Token}
    (ht : .token t ∈ stream lines) (hkind : t.kind = .number) : IsNumeral t.lexeme.toList := by
  rcases mem_stream ht with ⟨scanned, hm, u, hu, heq⟩ | ⟨_, _, heq⟩ | heq
  · cases heq
    obtain ⟨line, _, hscanned⟩ := scan_mem h hm
    have htiles := tiles_of_cut (Line.cut_of_tokenLine hscanned)
    have hfits := htiles.fits _ (List.mem_map_of_mem hu)
    simp only [Token.bare, hkind] at hfits
    exact hfits
  · cases heq
  · cases heq

private theorem streaming_of_scan (h : scan source = .ok lines) : Streaming (stream lines) where
  ended := by
    refine ⟨_, _, rfl, fun mark hmark => ?_⟩
    obtain ⟨line, _, hmark⟩ := List.mem_flatMap.mp hmark
    rcases List.mem_append.mp hmark with hmark | hmark
    · obtain ⟨t, _, rfl⟩ := List.mem_map.mp hmark
      exact t.ne_endOfText
    · rw [List.mem_singleton.mp hmark]
      exact Mark.newline_ne_endOfText _
  numerals t ht hkind := (isNumeral_of_scan h ht hkind).exists_value

/-- Scanning fails because of a character only. -/
theorem exists_cause_of_scan {error : ScriptError} (h : scan source = .error error) :
    ∃ c, error.cause = .unexpectedCharacter c := by
  obtain ⟨_, line, _, _, _, hline⟩ := mapM_eq_error.mp h
  unfold Line.tokenLine Line.tokens at hline
  cases hcut : cut line.text with
  | ok lexemes =>
    rw [hcut] at hline
    cases hline
  | error stray =>
    rw [hcut] at hline
    exact ⟨stray.char, congrArg ScriptError.cause (Except.error.inj hline).symm⟩

/-- The cursor is before the tokens of a line, and its end is behind them. -/
theorem lineTo_of_drop {marks later : List Mark} {stop : Span} {current : Nat}
    {tokens : List Token}
    (h : marks.drop current = tokens.map Mark.token ++ .newline stop :: later) :
    Walk.LineTo marks stop (current + tokens.length + 1) current tokens ∧
      marks.drop (current + tokens.length + 1) = later := by
  induction tokens generalizing current with
  | nil =>
    have hmark : marks[current]? = some (.newline stop) := by
      rw [← List.head?_drop, h]
      rfl
    refine ⟨⟨⟨_, hmark, rfl, by simp [Mark.kind]⟩, rfl, hmark⟩, ?_⟩
    rw [List.length_nil, Nat.add_zero, ← List.tail_drop, h]
    rfl
  | cons t rest ih =>
    have hmark : marks[current]? = some (.token t) := by
      rw [← List.head?_drop, h]
      rfl
    have hrest : marks.drop (current + 1) = rest.map Mark.token ++ .newline stop :: later := by
      rw [← List.tail_drop, h]
      rfl
    obtain ⟨⟨hline, _, hnewline⟩, hlater⟩ := ih hrest
    have hlength : current + 1 + rest.length = current + (t :: rest).length :=
      Nat.succ_add_eq_add_succ current rest.length
    rw [hlength] at hnewline hlater
    exact ⟨⟨⟨hmark, hline⟩, rfl, hnewline⟩, hlater⟩

/-- The lines that begin at a cursor, after which the text ends. -/
theorem linesAt_of_drop {marks : List Mark} {span : Span} {current : Nat}
    (h : marks.drop current = lines.flatMap (fun line =>
      line.tokens.map Mark.token ++ [.newline line.stop]) ++ [.endOfText span]) :
    Walk.LinesAt marks span current lines := by
  induction lines generalizing current with
  | nil =>
    rw [Walk.LinesAt, ← List.head?_drop, h]
    rfl
  | cons line lines ih =>
    rw [List.flatMap_cons, List.append_assoc, List.append_assoc, List.singleton_append] at h
    obtain ⟨hline, hlater⟩ := lineTo_of_drop h
    exact ⟨hline, ih hlater⟩

end Stream

namespace Walk

section

variable {marks : List Mark} {span : Span} {current depth : Nat} {lines : List TokenLine}

/-- The cursor comes to the first line with a token, or to the end of the text. -/
theorem exists_first (hmarks : Streaming marks) (hdepth : depth ≤ maxNesting)
    (h : LinesAt marks span current lines) :
    ∃ first,
      (∀ (α : Type) (f : Unit → Walk α),
        (skipNewlines marks >>= f).endsAt ⟨current, depth⟩ = (f ()).endsAt ⟨first, depth⟩) ∧
      ((lines.filter (!·.tokens.isEmpty) = [] ∧ marks[first]? = some (.endOfText span)) ∨
        ∃ line later next, lines.filter (!·.tokens.isEmpty) =
            line :: later.filter (!·.tokens.isEmpty) ∧ line.tokens ≠ [] ∧
          LineTo marks line.stop next first line.tokens ∧ LinesAt marks span next later) := by
  induction lines generalizing current with
  | nil =>
    exact ⟨current, fun α f =>
      endsAt_bind_ok (endsAt_skipNewlines_of_ne h (Mark.endOfText_ne_newline span)), .inl ⟨rfl, h⟩⟩
  | cons line lines ih =>
    obtain ⟨hline, hlines⟩ := h
    obtain ⟨tokens, stop⟩ := line
    cases tokens with
    | nil =>
      obtain ⟨first, hskip, hfirst⟩ := ih hlines
      refine ⟨first, fun α f => ?_, hfirst⟩
      exact (endsAt_skipNewlines_bind hmarks hdepth hline.newline).trans (hskip α f)
    | cons t more =>
      exact ⟨current, fun α f =>
        endsAt_bind_ok (endsAt_skipNewlines_of_ne hline.line.1 t.ne_newline),
        .inr ⟨_, lines, _, rfl, List.cons_ne_nil t more, hline, hlines⟩⟩

/-- The tokens of lines are those of the lines that are not empty. -/
theorem flatMap_filter (lines : List TokenLine) :
    (lines.filter (!·.tokens.isEmpty)).flatMap TokenLine.tokens =
      lines.flatMap TokenLine.tokens := by
  induction lines with
  | nil => rfl
  | cons line lines ih =>
    obtain ⟨tokens, stop⟩ := line
    cases tokens with
    | nil => exact ih
    | cons t more => exact congrArg ((t :: more) ++ ·) ih

/-- A token that is left is one too many. -/
theorem fails_endOfInput {t : Token} (hmark : marks[current]? = some (.token t))
    (hdepth : depth ≤ maxNesting) (subject : Subject) :
    Fails marks (endOfInput marks subject) ⟨current, depth⟩ depth
      ⟨t.span, .notAlone t.lexeme subject⟩ := by
  refine ⟨by simp, ⟨current, depth⟩, ⟨(List.getElem?_eq_some_iff.mp hmark).1, hdepth⟩,
    Nat.le_refl depth, ?_⟩
  rw [endOfInput, endsAt_bind_ok (endsAt_skipNewlines_of_ne hmark t.ne_newline),
    endsAt_bind_ok (endsAt_isAtEnd hmark), if_neg (by simp [Mark.kind]),
    endsAt_bind_ok (endsAt_peek hmark)]
  exact endsAt_refuse _ _

private theorem endsAt_endOfInput (hmark : marks[current]? = some (.endOfText span))
    (subject : Subject) :
    (endOfInput marks subject).endsAt ⟨current, depth⟩ = some (.ok (), ⟨current, depth⟩) := by
  rw [endOfInput,
    endsAt_bind_ok (endsAt_skipNewlines_of_ne hmark (Mark.endOfText_ne_newline span)),
    endsAt_bind_ok (endsAt_isAtEnd hmark), if_pos (by simp [Mark.kind])]
  exact endsAt_pure ()

/-- The text has to be at its end, or its first token is one too many. -/
theorem passes_endOfInput (hmarks : Streaming marks) (hdepth : depth ≤ maxNesting)
    (subject : Subject) (h : LinesAt marks span current lines) :
    ∃ last, marks[last]? = some (.endOfText span) ∧
      Passes marks (endOfInput marks subject) ⟨current, depth⟩ ⟨last, depth⟩
        (match lines.flatMap TokenLine.tokens with
          | [] => .ok ()
          | t :: _ => fail t.span (.notAlone t.lexeme subject)) := by
  induction lines generalizing current with
  | nil => exact ⟨current, h, endsAt_endOfInput h subject⟩
  | cons line lines ih =>
    obtain ⟨hline, hlines⟩ := h
    obtain ⟨last, hlast, hpasses⟩ := ih hlines
    refine ⟨last, hlast, ?_⟩
    obtain ⟨tokens, stop⟩ := line
    cases tokens with
    | cons t more => exact fails_endOfInput hline.line.1 hdepth subject
    | nil =>
      have hskip : (endOfInput marks subject).endsAt ⟨current, depth⟩ =
          (endOfInput marks subject).endsAt ⟨current + 1, depth⟩ := by
        rw [endOfInput]
        exact endsAt_skipNewlines_bind hmarks hdepth hline.newline
      exact .of_eq hskip hpasses

/-- What reads a text that holds nothing else does what the machine does. -/
theorem passes_alone {α : Type} {walk : Walk α} {reader : Reader α} (hmarks : Streaming marks)
    (hreads : Reads marks 0 walk reader) (hshrinks : Shrinks reader) (subject : Subject)
    (h : LinesAt marks (endSpan lines) 0 lines) :
    ∃ last, Passes marks (alone marks subject walk) ⟨0, 0⟩ ⟨last, 0⟩
      (readAlone subject reader lines) := by
  obtain ⟨first, hskip, ⟨hnone, hmark⟩ | ⟨line, later, next, hsome, _, hline, hlater⟩⟩ :=
    exists_first hmarks (Nat.zero_le maxNesting) h
  all_goals
    have hwalk : (alone marks subject walk).endsAt ⟨0, 0⟩ =
        (do
          let a ← walk
          endOfInput marks subject
          return a : Walk α).endsAt ⟨first, 0⟩ := hskip _ _
  · have htraces := hreads (endSpan lines) first [] ⟨_, hmark, rfl, by simp [Mark.kind]⟩
    refine ⟨first, .of_eq hwalk ?_⟩
    rw [readAlone, hnone]
    cases hread : reader (endSpan lines) [] with
    | error error =>
      rw [hread] at htraces
      exact Fails.bind htraces _
    | ok result => exact absurd (hshrinks _ _ _ _ hread) (Nat.not_lt_zero _)
  · obtain ⟨last, hlast, hpasses⟩ :=
      passes_endOfInput hmarks (Nat.zero_le maxNesting) subject hlater
    have htraces := hreads line.stop first line.tokens hline.line
    refine ⟨last, .of_eq hwalk ?_⟩
    rw [readAlone, hsome]
    dsimp only
    cases hread : reader line.stop line.tokens with
    | error error =>
      rw [hread] at htraces
      exact Fails.bind htraces _
    | ok result =>
      obtain ⟨a, rest⟩ := result
      rw [hread] at htraces
      obtain ⟨current, hlength, hrest, hend⟩ := htraces
      have hrest := hline.later hlength hrest
      refine .step hend ?_
      change Passes marks _ _ _ (match rest ++ (later.filter _).flatMap TokenLine.tokens with
        | [] => .ok a
        | t :: _ => fail t.span (.notAlone t.lexeme subject))
      cases rest with
      | cons t more => exact Fails.bind (fails_endOfInput hrest.line.1 (Nat.zero_le _) subject) _
      | nil =>
        have hnewline : (endOfInput marks subject).endsAt ⟨current, 0⟩ =
            (endOfInput marks subject).endsAt ⟨next, 0⟩ := by
          rw [← hrest.length, endOfInput]
          exact endsAt_skipNewlines_bind hmarks (Nat.zero_le _) hrest.newline
        have hclose := Passes.of_eq hnewline hpasses
        rw [List.nil_append, flatMap_filter]
        cases hleft : later.flatMap TokenLine.tokens with
        | nil =>
          rw [hleft] at hclose
          exact (endsAt_bind_ok hclose).trans (endsAt_pure a)
        | cons t more =>
          rw [hleft] at hclose
          exact Fails.bind hclose _

/-- The machine reads a whole script as it is read from the outline of its lines. -/
theorem passes_program (hmarks : Streaming marks) (h : LinesAt marks (endSpan lines) 0 lines)
    (hbraces : ∀ line ∈ lines, BracesAlone line) :
    ∃ last, Passes marks (program marks) ⟨0, 0⟩ ⟨last, 0⟩ (readProgram maxNesting lines) := by
  obtain ⟨last, hlast⟩ := h.exists_end
  obtain ⟨final, hspells, hfinal⟩ := spells_ofLines hlast h hbraces
  have hdraws : Draws marks true (endSpan lines) final 0 (.ofLines lines) :=
    (spelled hmarks hspells ⟨_, hfinal, rfl, .inl rfl⟩).1
  have hread := hdraws _ _ (loops_programRest hmarks) 0 maxNesting (Nat.zero_add _) []
  refine ⟨final, ?_⟩
  rw [readProgram, program]
  cases hsequel : sequel false maxNesting (endSpan lines) (.ofLines lines) with
  | error error =>
    rw [hsequel] at hread
    exact .of_eq (endsAt_enter (Part.programRest marks []) _).symm hread
  | ok read =>
    rw [hsequel] at hread
    refine (endsAt_enter (Part.programRest marks []) _).symm.trans (hread.trans ?_)
    rw [endsAt_enter]
    change (programRest marks _).endsAt _ = _
    rw [programRest,
      endsAt_bind_ok (endsAt_skipNewlines_of_ne hfinal (Mark.endOfText_ne_newline _)),
      endsAt_bind_ok (endsAt_isAtEnd hfinal), if_pos (by simp [Mark.kind])]
    exact endsAt_pure _

end

end Walk

section FrontEnd

variable {α : Type}

/--
How the machine ends on a text, if it ends: the scanner runs, and then a walk over the stream that
the scanner has come to.
-/
noncomputable def frontEnd (walk : List Mark → Walk α) (source : String) : Option (Except Halt α) :=
  match (Crawl.text (logicalLines source)).endsAt ⟨0, 0⟩ with
  | none => none
  | some (.error halt, _) => some (.error halt)
  | some (.ok marks, _) => ((walk marks).endsAt ⟨0, 0⟩).map Prod.fst

/-- What is scanned and then read is what the machine comes to. -/
theorem frontEnd_eq {walk : List Mark → Walk α} {read : List TokenLine → Except ScriptError α}
    (source : String) (h : ∀ lines, scan source = .ok lines → ∃ last,
      Walk.Passes (stream lines) (walk (stream lines)) ⟨0, 0⟩ ⟨last, 0⟩ (read lines)) :
    frontEnd walk source = some ((scan source >>= read).mapError .error) ∧
      ∀ error, scan source >>= read = .error error →
        ∀ lexeme, error.cause ≠ .invalidNumber lexeme := by
  obtain ⟨spot, hspot⟩ := Crawl.endsAt_text source ⟨0, 0⟩
  rw [frontEnd, hspot]
  cases hscan : scan source with
  | error error =>
    refine ⟨rfl, fun _ heq lexeme => ?_⟩
    obtain rfl := Except.error.inj heq
    obtain ⟨c, hc⟩ := exists_cause_of_scan hscan
    simp [hc]
  | ok lines =>
    obtain ⟨last, hpasses⟩ := h lines hscan
    change ((walk (stream lines)).endsAt ⟨0, 0⟩).map Prod.fst =
        some ((read lines).mapError .error) ∧
      ∀ error, read lines = .error error → ∀ lexeme, error.cause ≠ .invalidNumber lexeme
    cases hread : read lines with
    | error error =>
      rw [hread] at hpasses
      obtain ⟨hcause, place, _, _, hend⟩ := hpasses
      rw [hend]
      exact ⟨rfl, fun _ heq => Except.error.inj heq ▸ hcause⟩
    | ok a =>
      rw [hread] at hpasses
      have hend : (walk (stream lines)).endsAt ⟨0, 0⟩ = _ := hpasses
      rw [hend]
      exact ⟨rfl, fun error heq => by cases heq⟩

/--
No text makes the machine crash or go on forever: it ends without a fault, with what scanning and
reading make of the text. The stream of a text has its one end of text as the last mark, number
tokens are numerals, and no error says that one of them is not.
-/
theorem frontEnd_total (source : String) :
    frontEnd Walk.program source = some ((parseProgram source).mapError .error) ∧
      frontEnd (fun marks => Walk.alone marks .expression (Walk.term marks)) source =
        some ((parseExpression source).mapError .error) ∧
      frontEnd (fun marks => Walk.alone marks .condition (Walk.condition marks)) source =
        some ((parseCondition source).mapError .error) ∧
      (∀ span lexeme, parseProgram source ≠ .error ⟨span, .invalidNumber lexeme⟩ ∧
        parseExpression source ≠ .error ⟨span, .invalidNumber lexeme⟩ ∧
        parseCondition source ≠ .error ⟨span, .invalidNumber lexeme⟩) ∧
      ∀ lines, scan source = .ok lines →
        Streaming (stream lines) ∧
          ∀ t, .token t ∈ stream lines → t.kind = .number → IsNumeral t.lexeme.toList := by
  have hat : ∀ {lines}, Walk.LinesAt (stream lines) (endSpan lines) 0 lines :=
    fun {lines} => linesAt_of_drop rfl
  have hroom : 0 + maxNesting = maxNesting := Nat.zero_add maxNesting
  obtain ⟨hprogram, hprogramCause⟩ :=
    @frontEnd_eq _ Walk.program (readProgram maxNesting) source fun lines h =>
      Walk.passes_program (streaming_of_scan h) hat (bracesAlone_of_scan h)
  obtain ⟨hexpression, hexpressionCause⟩ :=
    @frontEnd_eq _ (fun marks => Walk.alone marks .expression (Walk.term marks))
      (readAlone .expression (expression maxNesting)) source fun lines h =>
        have hmarks := streaming_of_scan h
        Walk.passes_alone hmarks (Walk.reads_expression hmarks hroom)
          (shrinks_expression maxNesting) .expression hat
  obtain ⟨hcondition, hconditionCause⟩ :=
    @frontEnd_eq _ (fun marks => Walk.alone marks .condition (Walk.condition marks))
      (readAlone .condition (condition maxNesting)) source fun lines h =>
        have hmarks := streaming_of_scan h
        Walk.passes_alone hmarks (Walk.reads_condition hmarks hroom)
          (shrinks_chain (shrinks_chain (shrinks_comparison maxNesting))) .condition hat
  refine ⟨hprogram, hexpression, hcondition, fun span lexeme => ⟨fun h => ?_, fun h => ?_,
    fun h => ?_⟩, fun lines h => ⟨streaming_of_scan h, fun t => isNumeral_of_scan h⟩⟩
  · exact hprogramCause _ h lexeme rfl
  · exact hexpressionCause _ h lexeme rfl
  · exact hconditionCause _ h lexeme rfl

/-- A script that closes a block which it has not opened. -/
def strayBraceSource : String := "x = .5 \x7d"

/-- The front end comes to an end at a brace that closes nothing, with its error. -/
theorem frontEnd_total_strayBrace :
    ∃ lines, scan strayBraceSource = .ok lines ∧ Streaming (stream lines) ∧
      frontEnd Walk.program strayBraceSource =
        some (.error (.error ⟨⟨7, 8, 1⟩, .unmatchedBrace⟩)) := by
  have hread : (match parseProgram strayBraceSource with
      | .error error => some error
      | .ok _ => none) = some ⟨⟨7, 8, 1⟩, .unmatchedBrace⟩ := by
    decide +kernel
  have hparse : parseProgram strayBraceSource = .error ⟨⟨7, 8, 1⟩, .unmatchedBrace⟩ := by
    split at hread
    · rename_i error herror
      rw [herror, Option.some.inj hread]
    · cases hread
  obtain ⟨hprogram, _, _, _, hstream⟩ := frontEnd_total strayBraceSource
  cases hscan : scan strayBraceSource with
  | error error =>
    rw [parseProgram, hscan] at hparse
    obtain ⟨c, hc⟩ := exists_cause_of_scan hscan
    rw [Except.error.inj hparse] at hc
    cases hc
  | ok lines =>
    rw [hparse] at hprogram
    exact ⟨lines, rfl, (hstream lines hscan).1, hprogram⟩

end FrontEnd

end NumericScript
