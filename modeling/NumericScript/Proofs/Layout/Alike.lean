import NumericScript.Proofs.Layout.Edit
import NumericScript.Proofs.Nesting.Program
import NumericScript.Proofs.Print.Scan
import NumericScript.Proofs.Relocation.Program
import NumericScript.Proofs.Relocation.Run

/-!
# Layout makes no difference

Two scripts whose nonempty lines have the same texts are read as trees that differ in their places
only, or are refused for the same cause, and run in the same way.
-/

namespace NumericScript

/-- Two results that are related values, or errors with the same cause and so the same wording. -/
inductive Alike {α : Type} (same : α → α → Prop) :
    Except ScriptError α → Except ScriptError α → Prop
  | ok {a b : α} (h : same a b) : Alike same (.ok a) (.ok b)
  | error {error error' : ScriptError} (h : error.cause = error'.cause) :
    Alike same (.error error) (.error error')

/-- Two outcomes that differ in the place of an error at most. -/
inductive Outcome.Alike : Outcome → Outcome → Prop
  | finished (machine : Machine) : Alike (.finished machine) (.finished machine)
  | failed {error error' : ScriptError} (machine : Machine) (h : error.cause = error'.cause) :
    Alike (.failed error machine) (.failed error' machine)
  | unfinished : Alike .unfinished .unfinished

private theorem alike_of_move {α : Type} [Movable α] {same : α → α → Prop}
    (hsame : ∀ a b, move .forget a = move .forget b → same a b) {x y : Except ScriptError α}
    (h : move .forget x = move .forget y) : Alike same x y := by
  cases x with
  | ok a =>
    cases y with
    | ok b =>
      have hmove : (Except.ok (move .forget a) : Except ScriptError α) = .ok (move .forget b) := h
      exact .ok (hsame a b (Except.ok.inj hmove))
    | error error => cases h
  | error error =>
    cases y with
    | ok b => cases h
    | error error' =>
      have hmove : (Except.error (move .forget error) : Except ScriptError α) =
        .error (move .forget error') := h
      have hcause := congrArg ScriptError.cause (Except.error.inj hmove)
      exact .error hcause

private theorem Outcome.alike_of_move {outcome outcome' : Outcome}
    (h : outcome.move .forget = outcome'.move .forget) : outcome.Alike outcome' := by
  cases outcome with
  | finished machine => cases outcome' <;> cases h; exact .finished machine
  | failed error machine =>
    cases outcome' with
    | failed error' machine' =>
      obtain ⟨herror, rfl⟩ := Outcome.failed.inj h
      have hcause := congrArg ScriptError.cause herror
      exact .failed machine hcause
    | _ => cases h
  | unfinished => cases outcome' <;> cases h; exact .unfinished

section Scanning

/-- What is scanned, without empty lines and without places. -/
def bareLines (lines : Except ScriptError (List TokenLine)) :
    Except ScriptError (List TokenLine) := do
  let lines ← move .forget lines
  .ok (lines.filter (!·.tokens.isEmpty))

/-- The line of tokens without places that has a text. -/
def tokenText (text : List Char) : Except ScriptError TokenLine :=
  match cut text with
  | .ok lexemes =>
    .ok ⟨lexemes.map fun lexeme => ⟨lexeme.kind, .ofList lexeme.text, default⟩, default⟩
  | .error stray => fail default (.unexpectedCharacter stray.char)

private theorem move_place (index : Nat) (chars : List Placed) (lexemes : List Lexeme) :
    move .forget (place index chars lexemes) =
      lexemes.map fun lexeme => (⟨lexeme.kind, .ofList lexeme.text, default⟩ : Token) := by
  induction lexemes generalizing chars with
  | nil => rfl
  | cons lexeme later ih => exact congrArg _ (ih _)

private theorem move_tokenLine (line : Line) :
    move .forget line.tokenLine = tokenText line.text := by
  rw [Line.tokenLine, Line.tokens, tokenText]
  cases cut line.text with
  | ok lexemes =>
    have hplace := move_place line.index line.chars lexemes
    exact congrArg (fun tokens => Except.ok (TokenLine.mk tokens default)) hplace
  | error stray => rfl

/-- There are no tokens on a line just if its text is empty. -/
theorem tokenText_isEmpty {text : List Char} {line : TokenLine} (h : tokenText text = .ok line) :
    line.tokens.isEmpty = text.isEmpty := by
  unfold tokenText at h
  split at h
  · rename_i lexemes hcut
    obtain rfl := Except.ok.inj h
    cases text with
    | nil =>
      obtain rfl := Except.ok.inj hcut
      rfl
    | cons c rest =>
      obtain ⟨_, _, _, _, _, rfl⟩ := cut_cons_eq_ok.mp hcut
      rfl
  · cases h

private theorem bareLines_cons (line : Except ScriptError TokenLine)
    (lines : Except ScriptError (List TokenLine)) :
    bareLines (do
      let first ← line
      let later ← lines
      pure (first :: later)) = (do
      let first ← move .forget line
      let later ← bareLines lines
      .ok (if first.tokens.isEmpty then later else first :: later)) := by
  cases line with
  | error error => rfl
  | ok first =>
    cases lines with
    | error error => rfl
    | ok later =>
      show Except.ok ((move .forget first :: move .forget later).filter (!·.tokens.isEmpty)) =
        .ok (if (move .forget first).tokens.isEmpty then
          (move .forget later).filter (!·.tokens.isEmpty)
        else move .forget first :: (move .forget later).filter (!·.tokens.isEmpty))
      rw [List.filter_cons]
      cases (move .forget first).tokens.isEmpty <;> rfl

private theorem bareLines_mapM (lines : List Line) :
    bareLines (lines.mapM Line.tokenLine) =
      ((lines.map Line.text).filter (!·.isEmpty)).mapM tokenText := by
  induction lines with
  | nil => rfl
  | cons line lines ih =>
    rw [List.mapM_cons, bareLines_cons, ih, move_tokenLine, List.map_cons]
    by_cases htext : line.text.isEmpty
    · rw [List.filter_cons_of_neg (by simp [htext]), List.isEmpty_iff.mp htext]
      generalize List.mapM tokenText _ = later
      cases later <;> rfl
    · rw [List.filter_cons_of_pos (by simp [htext]), List.mapM_cons]
      cases hfirst : tokenText line.text with
      | error error => rfl
      | ok first =>
        have hempty : first.tokens.isEmpty = false := by
          rw [tokenText_isEmpty hfirst]
          simpa using htext
        generalize List.mapM tokenText _ = later
        cases later with
        | error error => rfl
        | ok later =>
          show Except.ok (if first.tokens.isEmpty then later else first :: later) = _
          rw [hempty]
          rfl

/-- What is scanned depends on the texts of the nonempty lines only. -/
theorem bareLines_scan (source : String) :
    bareLines (scan source) = (lineTexts source).mapM tokenText :=
  bareLines_mapM (logicalLines source)

end Scanning

section Reading

/-- The statements of lines without places. -/
def readBare (limit : Nat) (lines : List TokenLine) : Except ScriptError (List Stmt) := do
  let all ← sequel false limit default (.ofLines lines)
  .ok all.statements

/-- What is read from scanned lines, apart from places, does not depend on the empty ones. -/
theorem move_readProgram (limit : Nat) (lines : List TokenLine) :
    move .forget (readProgram limit lines) =
      readBare limit ((move .forget lines).filter (!·.tokens.isEmpty)) := by
  have houtline : Outline.ofLines ((move .forget lines).filter (!·.tokens.isEmpty)) =
      move .forget (Outline.ofLines lines) := by
    rw [← Outline.ofLines_move, Outline.ofLines, Draft.foldr_add_filter, Outline.ofLines]
  have hall : sequel false limit default (move .forget (Outline.ofLines lines)) =
      move .forget (sequel false limit (endSpan lines) (.ofLines lines)) :=
    move_sequel (f := .forget) false limit (endSpan lines) (.ofLines lines)
  rw [readBare, houtline, hall, readProgram]
  cases sequel false limit (endSpan lines) (.ofLines lines) <;> rfl

variable {α : Type} [Movable α]

private theorem move_readAlone (subject : Subject) {reader : Reader α}
    (h : ReadsAfter .forget False reader reader) (lines : List TokenLine) :
    move .forget (readAlone subject reader lines) =
      readLines subject reader default ((move .forget lines).filter (!·.tokens.isEmpty)) := by
  rw [readAlone_eq, filter_move, ← move_readLines subject h]
  rfl

/-- A reader of scanned lines that does not care for empty lines does not care for layout. -/
theorem move_scan_bind {read bare : List TokenLine → Except ScriptError α}
    (h : ∀ lines, move .forget (read lines) =
      bare ((move .forget lines).filter (!·.tokens.isEmpty)))
    {source source' : String} (htexts : lineTexts source = lineTexts source') :
    move .forget (scan source >>= read) = move .forget (scan source' >>= read) := by
  have hbind : ∀ lines, move .forget (lines >>= read) = bareLines lines >>= bare := by
    intro lines
    cases lines with
    | error error => rfl
    | ok lines => exact h lines
  rw [hbind, hbind, bareLines_scan, bareLines_scan, htexts]

end Reading

section Scripts

variable {source source' : String} (h : lineTexts source = lineTexts source')

include h

private theorem alike_parseProgram :
    Alike (bareOf · = bareOf ·) (parseProgram source) (parseProgram source') := by
  refine alike_of_move (fun program program' hmove => ?_)
    (move_scan_bind (move_readProgram maxNesting) h)
  rwa [← moveAll_eq, ← moveAll_eq, moveAll_forget, moveAll_forget] at hmove

private theorem alike_parseExpression :
    Alike (·.bare = ·.bare) (parseExpression source) (parseExpression source') := by
  have hreads := readsAfter_expression (f := .forget) (Nat.le_refl maxNesting) (Nat.lt_irrefl _)
  refine alike_of_move (fun e e' hmove => ?_) (move_scan_bind (move_readAlone _ hreads) h)
  rwa [Expr.move_forget, Expr.move_forget] at hmove

private theorem alike_parseCondition :
    Alike (·.bare = ·.bare) (parseCondition source) (parseCondition source') := by
  have hreads := readsAfter_condition (f := .forget) (Nat.le_refl maxNesting) (Nat.lt_irrefl _)
  refine alike_of_move (fun c c' hmove => ?_) (move_scan_bind (move_readAlone _ hreads) h)
  rwa [Cond.move_forget, Cond.move_forget] at hmove

private theorem alike_runScript (limits : Limits) (rounds : Nat) :
    Alike Outcome.Alike (runScript limits rounds source) (runScript limits rounds source') := by
  have hparse := alike_parseProgram h
  unfold runScript
  generalize parseProgram source = read, parseProgram source' = read' at hparse ⊢
  cases hparse with
  | error hcause => exact .error hcause
  | @ok program program' hbare =>
    refine .ok (Outcome.alike_of_move ?_)
    rw [runProgram, runProgram, ← execAll_move, ← execAll_move, moveAll_forget, moveAll_forget,
      hbare]

end Scripts

/--
Layout makes no difference. Changes of layout leave the texts of the nonempty lines as they are, and
two scripts with the same texts of nonempty lines are read as trees that differ in their places
only, or refused for the same cause. Their runs leave the same machine, or fail for the same cause.
-/
theorem layout_irrelevant (source source' : String) :
    (Relation.EqvGen Relayout source.toList source'.toList →
      lineTexts source = lineTexts source') ∧
    (lineTexts source = lineTexts source' →
      Alike (bareOf · = bareOf ·) (parseProgram source) (parseProgram source') ∧
      Alike (·.bare = ·.bare) (parseExpression source) (parseExpression source') ∧
      Alike (·.bare = ·.bare) (parseCondition source) (parseCondition source') ∧
      ∀ limits rounds,
        Alike Outcome.Alike (runScript limits rounds source) (runScript limits rounds source')) :=
  ⟨lineTexts_of_relayout, fun h => ⟨alike_parseProgram h, alike_parseExpression h,
    alike_parseCondition h, alike_runScript h⟩⟩

/-- A branch on two lines. -/
def spreadSource : String := "if (pi > 3)\x7bx = 1\n\x7d\relse \x7b\x7d"

/-- The same branch with other blanks and breaks and with empty lines. -/
def looseSource : String := "\tif (pi>3);\r\n\x7b;x=1 ;\x7d\r \n\n else\x7b\x7d"

/-- What the lines of the branch say. -/
def branchTexts : List (List Char) :=
  ["if(pi>3)", "\x7b", "x=1", "\x7d", "else", "\x7b", "\x7d"].map String.toList

private theorem lineTexts_spreadSource : lineTexts spreadSource = branchTexts := by decide +kernel

private theorem lineTexts_looseSource : lineTexts looseSource = branchTexts := by decide +kernel

/-- Two ways to break a line are an edit apart, and two layouts of a branch read as one tree. -/
theorem layout_irrelevant_loose :
    Relation.EqvGen Relayout "x;y".toList "x\r\ny".toList ∧ lineTexts "x;y" = lineTexts "x\r\ny" ∧
      lineTexts spreadSource = lineTexts looseSource ∧
      Alike (bareOf · = bareOf ·) (parseProgram spreadSource) (parseProgram looseSource) := by
  have hstep : Relayout (['x'] ++ ([';'] ++ ['y'])) (['x'] ++ (['\r', '\n'] ++ ['y'])) :=
    .separator (by simp [IsSeparator]) (by simp [IsSeparator]) ['x'] ['y']
  have hrelayout : Relation.EqvGen Relayout "x;y".toList "x\r\ny".toList := by
    simpa using Relation.EqvGen.rel _ _ hstep
  have htexts : lineTexts spreadSource = lineTexts looseSource :=
    lineTexts_spreadSource.trans lineTexts_looseSource.symm
  have halike := (layout_irrelevant spreadSource looseSource).2 htexts
  exact ⟨hrelayout, (layout_irrelevant "x;y" "x\r\ny").1 hrelayout, htexts, halike.1⟩

end NumericScript
