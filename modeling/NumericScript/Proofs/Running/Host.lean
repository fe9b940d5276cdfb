import NumericScript.Proofs.Layout.Alike
import NumericScript.Proofs.Layout.OneLine
import NumericScript.Proofs.Running.Accord

/-!
# Hosts

A host that evaluates a text and writes the value under a name does what the script does that
assigns the text to the name, and it decides on a condition as a script does that branches on it.
The same texts are accepted either way.
-/

namespace NumericScript

/-- Evaluate a text and write its value under a name. -/
def Environment.evaluateTo (env : Environment) (name source : String) :
    Except ScriptError Unit × Environment :=
  match env.evaluate source with
  | (.error error, env) => (.error error, env)
  | (.ok value, env) => (.ok (), (env.set name value false).2)

/-- The script that assigns a text to a name. -/
def assigning (name source : String) : String := name ++ "=" ++ source

/-- The script that branches on a text and does nothing. -/
def branching (source : String) : String := "if(" ++ source ++ ")\x7b\x7d"

section Assignment

variable {name : String} {text : List Char} {e : Expr}

/-- After a name and an equality sign only the text of an expression spells an assignment. -/
theorem spells_of_assigning (hname : violation? false name = none) {tokens : List Token}
    (hcut : cut (name.toList ++ '=' :: text) = .ok (tokens.map Token.bare)) {span : Span}
    (hline : lineGlyphs tokens = assignmentLine (.scalar name span) e) : Spells text e.glyphs := by
  obtain ⟨later, hlater, hlexemes⟩ := (cut_named hname (by rintro _ ⟨⟩; decide)).mp hcut
  obtain ⟨first, rest, rfl, hfirst, hrest⟩ := List.map_eq_cons_iff.mp hlexemes
  obtain ⟨kind, chars, last, rfl, hkind⟩ := cut_equal hlater
  obtain ⟨equal, more, rfl, hsign, hmore⟩ := List.map_eq_cons_iff.mp hrest
  have hname : first.kind = .identifier := congrArg Lexeme.kind hfirst
  have hsign : equal.kind = kind := congrArg Lexeme.kind hsign
  obtain ⟨_, _, _, _, _, _, _, hassign⟩ := lineGlyphs_eq_target hline
  have hpart : isNamePart equal.kind = false := by
    rw [hsign]
    rcases hkind with ⟨rfl, _⟩ | rfl <;> rfl
  have hdrop : (first :: equal :: more).dropWhile (isNamePart ·.kind) = equal :: more := by
    rw [List.dropWhile_cons_of_pos (by simp [hname, isNamePart]),
      List.dropWhile_cons_of_neg (by simp [hpart])]
  rw [assignmentGlyphs, hdrop] at hassign
  obtain ⟨_, hglyphs⟩ := List.cons.inj hassign
  obtain ⟨hequal, hglyphs⟩ := List.cons.inj hglyphs
  have hequal := hsign.symm.trans (Token.kind_of_glyph hequal)
  rcases hkind with ⟨_, hlast⟩ | rfl
  · exact ⟨last, hlast, (map_glyph_of_bare hmore).symm.trans hglyphs⟩
  · cases hequal

end Assignment

section Branch

variable {text : List Char} {c : Cond}

private theorem cut_branching {lexemes : List Lexeme} :
    cut ('i' :: 'f' :: '(' :: (text ++ [')'])) = .ok lexemes ↔
      ∃ before, cut text = .ok before ∧ lexemes = ⟨.keyword .ifWord, ['i', 'f']⟩ ::
        ⟨.leftParen, ['(']⟩ :: (before ++ [closingParen]) := by
  have hword : munch? 'i' ('f' :: '(' :: (text ++ [')'])) = some (.keyword .ifWord, 2) := rfl
  have hparen : munch? '(' (text ++ [')']) = some (.leftParen, 1) := rfl
  rw [cut_cons_of_munch hword]
  constructor
  · rintro ⟨later, hlater, rfl⟩
    obtain ⟨last, hlast, rfl⟩ := (cut_cons_of_munch hparen).mp hlater
    obtain ⟨before, hbefore, rfl⟩ := cut_concat_iff.mp hlast
    exact ⟨before, hbefore, rfl⟩
  · rintro ⟨before, hbefore, rfl⟩
    have hlast := cut_concat_iff.mpr ⟨before, hbefore, rfl⟩
    exact ⟨_, (cut_cons_of_munch hparen).mpr ⟨_, hlast, rfl⟩, rfl⟩

/-- A branch's header is read back as what is in its parentheses. -/
theorem lineGlyphs_branching {tokens : List Token} {before : List Lexeme}
    (h : tokens.map Token.bare = ⟨.keyword .ifWord, ['i', 'f']⟩ :: ⟨.leftParen, ['(']⟩ ::
      (before ++ [closingParen])) :
    lineGlyphs tokens =
      .mark (.keyword .ifWord) :: parenthesized (before.map Lexeme.glyph) := by
  obtain ⟨first, more, rfl, hfirst, hmore⟩ := List.map_eq_cons_iff.mp h
  have hkind : first.kind = .keyword .ifWord := congrArg Lexeme.kind hfirst
  rw [lineGlyphs_of_not_brace more (by simp [hkind]) (by simp [hkind]),
    statementGlyphs_of_keyword more hkind, map_glyph_of_bare hmore]
  simp [parenthesized, Lexeme.glyph, closingParen, glyphOf]

private theorem spellsLine_branching (h : Spells text c.glyphs) :
    SpellsLine ('i' :: 'f' :: '(' :: (text ++ [')'])) (headerLine .ifWord c) := by
  obtain ⟨before, hcut, hglyphs⟩ := h
  refine ⟨_, cut_branching.mpr ⟨before, hcut, rfl⟩, fun tokens htokens => ?_⟩
  rw [lineGlyphs_branching htokens, hglyphs, headerLine]

private theorem spells_of_branching {tokens : List Token}
    (hcut : cut ('i' :: 'f' :: '(' :: (text ++ [')'])) = .ok (tokens.map Token.bare))
    (hline : lineGlyphs tokens = headerLine .ifWord c) : Spells text c.glyphs := by
  obtain ⟨before, hbefore, hlexemes⟩ := cut_branching.mp hcut
  rw [lineGlyphs_branching hlexemes, headerLine] at hline
  have hparens := List.cons.inj (List.cons.inj hline).2
  exact ⟨before, hbefore, List.append_cancel_right hparens.2⟩

end Branch

section Accepted

variable {name source : String}

private theorem text_eq_inked (hline : OneLine source) {text : List Char}
    (h : lineTexts source = [text]) : text = inked source := by
  by_cases hne : inked source = []
  · rw [lineTexts_eq, textsOf] at h
    rw [show source.toList.filter (!isBlank ·) = [] from hne] at h
    cases h
  · rw [lineTexts_of_ink (ink_inked hline) hne] at h
    exact (List.cons.inj h).1.symm

private theorem lineTexts_of_spells (hline : OneLine source) {glyphs : List Glyph}
    (h : Spells (inked source) glyphs) (hne : glyphs ≠ []) : lineTexts source = [inked source] := by
  refine lineTexts_of_ink (ink_inked hline) fun hnil => hne ?_
  obtain ⟨lexemes, hcut, rfl⟩ := h
  rw [hnil] at hcut
  rw [← Except.ok.inj hcut]
  rfl

private theorem Expr.glyphs_ne_nil (e : Expr) : e.glyphs ≠ [] := by
  obtain ⟨glyph, more, hglyphs, _⟩ := e.glyphs_head
  rw [hglyphs]
  exact List.cons_ne_nil _ _

private theorem Cond.glyphs_ne_nil (c : Cond) : c.glyphs ≠ [] := by
  cases c <;> simp [glyphs]

/-- A text that takes one line and is accepted as an expression spells the expression. -/
theorem spells_of_parseExpression (hline : OneLine source) {e : Expr}
    (h : parseExpression source = .ok e) :
    Spells (inked source) e.glyphs ∧ e.Shaped ∧ Within e.levels maxNesting := by
  obtain ⟨text, htexts, hspells, hshaped, hlevels⟩ := parseExpression_eq_ok h
  obtain rfl := text_eq_inked hline htexts
  exact ⟨hspells, hshaped, hlevels⟩

/-- The expressions that a text is accepted as, apart from places. -/
theorem parseExpression_iff (hline : OneLine source) (bare : Expr) :
    (∃ e, parseExpression source = .ok e ∧ e.bare = bare) ↔
      ∃ e : Expr, Spells (inked source) e.glyphs ∧ e.Shaped ∧ Within e.levels maxNesting ∧
        e.bare = bare := by
  constructor
  · rintro ⟨e, hread, rfl⟩
    obtain ⟨hspells, hshaped, hlevels⟩ := spells_of_parseExpression hline hread
    exact ⟨e, hspells, hshaped, hlevels, rfl⟩
  · rintro ⟨e, hspells, hshaped, hlevels, rfl⟩
    have htexts := lineTexts_of_spells hline hspells e.glyphs_ne_nil
    exact (settles_spelled_expression htexts hspells hshaped).exists_ok hlevels

/-- The conditions that a text is accepted as, apart from places. -/
theorem parseCondition_iff (hline : OneLine source) (bare : Cond) :
    (∃ c, parseCondition source = .ok c ∧ c.bare = bare) ↔
      ∃ c : Cond, Spells (inked source) c.glyphs ∧ c.Shaped ∧ Within c.levels maxNesting ∧
        c.bare = bare := by
  constructor
  · rintro ⟨c, hread, rfl⟩
    obtain ⟨text, htexts, hspells, hshaped, hlevels⟩ := parseCondition_eq_ok hread
    obtain rfl := text_eq_inked hline htexts
    exact ⟨c, hspells, hshaped, hlevels, rfl⟩
  · rintro ⟨c, hspells, hshaped, hlevels, rfl⟩
    have htexts := lineTexts_of_spells hline hspells c.glyphs_ne_nil
    exact (settles_spelled_condition htexts hspells hshaped).exists_ok hlevels

private theorem inked_assigning (target source : String) :
    inked (assigning target source) = inked target ++ '=' :: inked source := by
  rw [assigning, inked_append, inked_append, List.append_assoc]
  rfl

/-- However blanks are spread over it, an assignment takes one line. -/
theorem lineTexts_assigning {line target : String} (hink : ∀ c ∈ inked target, isInk c)
    (hsource : OneLine source) (hline : inked line = inked (assigning target source)) :
    lineTexts line = [inked target ++ '=' :: inked source] := by
  rw [inked_assigning] at hline
  rw [← hline]
  refine lineTexts_of_ink ?_ ?_
  · rw [hline]
    refine List.forall_mem_append.mpr ⟨hink, ?_⟩
    exact List.forall_mem_cons.mpr ⟨by decide, ink_inked hsource⟩
  · rw [hline]
    exact List.append_ne_nil_of_right_ne_nil _ (List.cons_ne_nil _ _)

private theorem lineTexts_branching (hline : OneLine source) :
    lineTexts (branching source) =
      ['i' :: 'f' :: '(' :: (inked source ++ [')']), ['\x7b'], ['\x7d']] := by
  have hbranching : branching source = "if(" ++ source ++ ")" ++ "\x7b\x7d" := by
    simp only [branching, String.append_assoc]
    rfl
  have hinked : inked ("if(" ++ source ++ ")") =
      'i' :: 'f' :: '(' :: (inked source ++ [')']) := by
    rw [inked_append, inked_append]
    rfl
  rw [hbranching, lineTexts_block, hinked]
  · rw [hinked]
    simp only [List.forall_mem_cons, List.forall_mem_append]
    exact ⟨by decide, by decide, by decide, ink_inked hline, by decide, nofun⟩
  · rw [hinked]
    exact List.cons_ne_nil _ _

/-- What is one assignment without its places is one with them. -/
theorem exists_assign_of_bare {read : List Stmt} {target : Target} {value : Expr}
    (h : bareOf read = [.assign target value default]) :
    ∃ target' e span, read = [.assign target' e span] ∧ target'.bare = target ∧
      e.bare = value := by
  match read, h with
  | [.assign target' e span], h =>
    obtain ⟨htarget, hvalue, _⟩ := Stmt.assign.inj (List.cons.inj h).1
    exact ⟨target', e, span, rfl, htarget, hvalue⟩

/-- So is what is one branch with an empty block. -/
theorem exists_branch_of_bare {read : List Stmt} {condition : Cond}
    (h : bareOf read = [.branch condition [] .done default]) :
    ∃ c span, read = [.branch c [] .done span] ∧ c.bare = condition := by
  match read, h with
  | [.branch c [] .done span], h =>
    exact ⟨c, span, rfl, (Stmt.branch.inj (List.cons.inj h).1).1⟩

private theorem spellsLine_brace {kind : TokenKind}
    (hkind : kind = .leftBrace ∨ kind = .rightBrace) : SpellsLine kind.spelling [.mark kind] := by
  refine ⟨[⟨kind, kind.spelling⟩], by rcases hkind with rfl | rfl <;> rfl, fun tokens h => ?_⟩
  obtain ⟨t, rest, rfl, ht, hrest⟩ := List.map_eq_cons_iff.mp h
  obtain rfl := List.map_eq_nil_iff.mp hrest
  have ht : t.kind = kind := congrArg Lexeme.kind ht
  rw [lineGlyphs_of_brace [] (ht ▸ hkind), List.map_singleton]
  rcases hkind with rfl | rfl
  · rw [Token.glyph_of_kind ht]
  · rw [Token.glyph_of_kind ht]

/-- What spells an assignment is read as one, whether the name of its target is accepted or not. -/
theorem exists_read_assignment {line : String} {text : List Char} {target : Target} {e : Expr}
    (htexts : lineTexts line = [text]) (hspells : SpellsLine text (assignmentLine target e))
    (hshaped : (Phrase.assignment target e).Shaped) (hnamed : (Phrase.assignment target e).Named)
    (hlevels : Within (target.levels ++ e.levels) maxNesting) :
    ∃ target' e' span, parseProgram line = .ok [.assign target' e' span] ∧
      target'.bare = target.bare ∧ e'.bare = e.bare := by
  have hread : Readable (phrasesOf [.assign target e default]) :=
    readable_cons.mpr ⟨⟨hshaped, hnamed⟩, List.forall_mem_nil _⟩
  have hlines : List.Forall₂ SpellsLine (lineTexts line) (linesOf [.assign target e default]) := by
    rw [htexts]
    exact .cons hspells .nil
  obtain ⟨read, hparse, hbare⟩ := (settles_spelled_program hread hlines).exists_ok
    (by simpa only [levelsOf, Stmt.levels, List.append_nil] using hlevels)
  obtain ⟨target', e', span, rfl, htarget, he⟩ := exists_assign_of_bare hbare
  exact ⟨target', e', span, hparse, htarget, he⟩

/-- The line that sets an accepted name to what a text spells reads as that assignment. -/
theorem exists_read_scalar (hname : IsTargetName name) {line : String} {text : List Char}
    (htexts : lineTexts line = [name.toList ++ '=' :: text]) {e : Expr}
    (hspells : Spells text e.glyphs) (hshaped : e.Shaped) (hlevels : Within e.levels maxNesting) :
    ∃ e' span span', parseProgram line = .ok [.assign (.scalar name span) e' span'] ∧
      e'.bare = e.bare := by
  obtain ⟨target, e', span', hparse, htarget, he⟩ := exists_read_assignment htexts
    (hname.spellsLine_scalar hspells) ⟨trivial, hshaped⟩ hname.ne_empty hlevels
  obtain ⟨span, rfl⟩ := Target.eq_scalar_of_bare htarget
  exact ⟨e', span, span', hparse, he⟩

/-- The expressions that a text is accepted as after a name and an equality sign. -/
theorem parseAssigning_iff (hname : violation? false name = none) (hline : OneLine source)
    (bare : Expr) :
    (∃ e span span', parseProgram (assigning name source) =
        .ok [.assign (.scalar name span) e span'] ∧ e.bare = bare) ↔
      ∃ e : Expr, Spells (inked source) e.glyphs ∧ e.Shaped ∧ Within e.levels maxNesting ∧
        e.bare = bare := by
  have htarget := isTargetName_of_accepted hname
  have htexts : lineTexts (assigning name source) = [name.toList ++ '=' :: inked source] := by
    rw [← htarget.inked_eq]
    exact lineTexts_assigning (htarget.inked_eq ▸ htarget.isInk) hline rfl
  constructor
  · rintro ⟨e, span, span', hread, rfl⟩
    obtain ⟨lines, hcuts, hlines, hshaped, hlevels⟩ :=
      parseProgram_eq_ok hread (by rw [htexts]; rfl)
    rw [htexts] at hcuts
    cases hcuts with
    | @cons _ line _ _ hcut hnil =>
      cases hnil
      have hline := (List.cons.inj hlines).1
      have hlevels :=
        hlevels (by simpa [phrasesOf, Stmt.phrases, Phrase.Named] using htarget.ne_empty)
      simp only [levelsOf, Stmt.levels, Target.levels, List.nil_append, List.append_nil] at hlevels
      refine ⟨e, spells_of_assigning hname hcut hline, ?_, hlevels, rfl⟩
      exact (hshaped _ List.mem_cons_self).2
  · rintro ⟨e, hspells, hshaped, hlevels, rfl⟩
    exact exists_read_scalar htarget htexts hspells hshaped hlevels

/-- The conditions that a text is accepted as in the header of a branch. -/
theorem parseBranching_iff (hline : OneLine source) (bare : Cond) :
    (∃ c span, parseProgram (branching source) = .ok [.branch c [] .done span] ∧ c.bare = bare) ↔
      ∃ c : Cond, Spells (inked source) c.glyphs ∧ c.Shaped ∧ Within c.levels maxNesting ∧
        c.bare = bare := by
  have htexts := lineTexts_branching hline
  constructor
  · rintro ⟨c, span, hread, rfl⟩
    obtain ⟨lines, hcuts, hlines, hshaped, hlevels⟩ :=
      parseProgram_eq_ok hread (by rw [htexts]; rfl)
    rw [htexts] at hcuts
    cases hcuts with
    | @cons _ line _ _ hcut _ =>
      have hline := (List.cons.inj hlines).1
      have hlevels := hlevels (by simp [phrasesOf, Stmt.phrases, Chain.phrases, Phrase.Named])
      simp only [levelsOf, Stmt.levels, within_append] at hlevels
      refine ⟨c, spells_of_branching hcut hline, ?_, hlevels.1.1, rfl⟩
      exact hshaped _ List.mem_cons_self
  · rintro ⟨c, hspells, hshaped, hlevels, rfl⟩
    have hread : Readable (phrasesOf [.branch c [] .done default]) :=
      readable_cons.mpr ⟨⟨hshaped, trivial⟩, List.forall_mem_nil _⟩
    have hlines : List.Forall₂ SpellsLine (lineTexts (branching source))
        (linesOf [.branch c [] .done default]) := by
      rw [htexts]
      exact .cons (spellsLine_branching hspells)
        (.cons (spellsLine_brace (.inl rfl)) (.cons (spellsLine_brace (.inr rfl)) .nil))
    have hfits : Within (levelsOf [.branch c [] .done default]) maxNesting := by
      simp only [levelsOf, Stmt.levels, Chain.levels, List.append_nil, within_append]
      exact ⟨hlevels, by decide⟩
    obtain ⟨read, hparse, hbare⟩ := (settles_spelled_program hread hlines).exists_ok hfits
    obtain ⟨c', span, rfl, hc⟩ := exists_branch_of_bare hbare
    exact ⟨c', span, hparse, hc⟩

end Accepted

section Evaluation

/-- Two readings that differ in the place of an error at most. -/
structure Reading.Alike {α : Type} (reading reading' : Reading α) : Prop where
  missing : reading.missing = reading'.missing
  result : (∃ a, reading.result = .ok a ∧ reading'.result = .ok a) ∨
    ∃ error error', reading.result = .error error ∧ reading'.result = .error error' ∧
      error.cause = error'.cause

private theorem Reading.alike_of_move {α : Type} {reading reading' : Reading α}
    (h : reading.move .forget = reading'.move .forget) : reading.Alike reading' := by
  obtain ⟨missing, result⟩ := reading
  obtain ⟨missing', result'⟩ := reading'
  obtain ⟨hmissing, hresult⟩ := Reading.mk.inj h
  refine ⟨hmissing, ?_⟩
  cases result with
  | ok a =>
    cases result' with
    | ok b => exact .inl ⟨a, rfl, by rw [Except.ok.inj hresult]⟩
    | error error => cases hresult
  | error error =>
    cases result' with
    | ok b => cases hresult
    | error error' =>
      have hmove : (Except.error (Movable.move .forget error) : Except ScriptError α) =
        .error (Movable.move .forget error') := hresult
      have hcause := congrArg ScriptError.cause (Except.error.inj hmove)
      exact .inr ⟨error, error', rfl, rfl, hcause⟩

/-- Expressions that differ in places only evaluate alike. -/
theorem Expr.eval_alike {e e' : Expr} (h : e.bare = e'.bare) (store : Store) :
    (e.eval store).Alike (e'.eval store) := by
  refine Reading.alike_of_move ?_
  rw [← eval_move, ← eval_move, move_forget, move_forget, h]

private theorem Cond.eval_alike {c c' : Cond} (h : c.bare = c'.bare) (store : Store) :
    (c.eval store).Alike (c'.eval store) := by
  refine Reading.alike_of_move ?_
  rw [← eval_move, ← eval_move, move_forget, move_forget, h]

/-- What is observed alike leaves the same environment with the same value, or with errors that have
the same cause. -/
theorem Environment.observe_alike {α : Type} (env : Environment) {eval eval' : Store → Reading α}
    (h : ∀ store, (eval store).Alike (eval' store)) :
    ∃ after, (∃ a, env.observe eval = (.ok a, after) ∧ env.observe eval' = (.ok a, after)) ∨
      ∃ error error', env.observe eval = (.error error, after) ∧
        env.observe eval' = (.error error', after) ∧ error.cause = error'.cause := by
  refine ⟨env.reportMissing (eval env.store).missing, ?_⟩
  rw [observe, observe, ← (h env.store).missing]
  rcases (h env.store).result with ⟨a, hresult, hresult'⟩ |
    ⟨error, error', hresult, hresult', hcause⟩
  · exact .inl ⟨a, by rw [hresult], by rw [hresult']⟩
  · exact .inr ⟨error, error', by rw [hresult], by rw [hresult'], hcause⟩

end Evaluation

/-- An outcome that is what a host comes to: it leaves the host's environment, and fails just if the
host gets an error, for the same cause. -/
inductive Outcome.Gives : Except ScriptError Unit × Environment → Outcome → Prop
  | finished (machine : Machine) : Gives (.ok (), machine.env) (.finished machine)
  | failed {error error' : ScriptError} (machine : Machine) (h : error.cause = error'.cause) :
    Gives (.error error, machine.env) (.failed error' machine)

/-- An outcome that a host's answer to a condition decides: the body is run or it is not, or the run
fails for the cause of the host's error. The run goes on from the environment the host has then. -/
def Outcome.DecidedBy (outcome : Outcome) (machine : Machine) (body : Machine → Outcome) :
    Except ScriptError Bool × Environment → Prop
  | (.ok true, env) => outcome = body { machine with env }
  | (.ok false, env) => outcome = .finished { machine with env }
  | (.error error, env) =>
    ∃ error', error.cause = error'.cause ∧ outcome = .failed error' { machine with env }

section Running

variable {limits : Limits} {rounds : Nat} {source : String}

/-- A single assignment is executed as itself. -/
theorem execAll_assign (target : Target) (e : Expr) (span : Span) (machine : Machine) :
    execAll limits rounds [.assign target e span] machine = machine.assign target e := by
  rw [execAll, Stmt.exec]
  cases machine.assign target e <;> rfl

private theorem gives_assign {name : String} {e e' : Expr} {span span' : Span}
    (hparse : parseExpression source = .ok e) (hbare : e.bare = e'.bare) (env : Environment) :
    (runProgram limits rounds [.assign (.scalar name span) e' span'] env).Gives
      (env.evaluateTo name source) := by
  rw [runProgram, execAll_assign, Machine.assign_eq, Environment.assign, Environment.evaluateTo,
    Environment.evaluate, hparse]
  obtain ⟨after, ⟨value, hobserve, hobserve'⟩ | ⟨error, error', hobserve, hobserve', hcause⟩⟩ :=
    env.observe_alike (Expr.eval_alike hbare)
  · simp only [hobserve, hobserve']
    exact .finished ⟨_, #[]⟩
  · simp only [hobserve, hobserve']
    exact .failed ⟨_, #[]⟩ hcause

private theorem decidedBy_branch {c c' : Cond} {span : Span}
    (hparse : parseCondition source = .ok c)
    (hbare : c.bare = c'.bare) (body : List Stmt) (machine : Machine) :
    ((Stmt.branch c' body .done span).exec limits rounds machine).DecidedBy machine
      (execAll limits rounds body) (machine.env.evaluateCondition source) := by
  rw [Stmt.exec_branch, Machine.branch, Machine.observe, Environment.evaluateCondition, hparse]
  obtain ⟨after, ⟨holds, hobserve, hobserve'⟩ | ⟨error, error', hobserve, hobserve', hcause⟩⟩ :=
    machine.env.observe_alike (Cond.eval_alike hbare)
  · simp only [hobserve, hobserve']
    cases holds <;> rfl
  · simp only [hobserve, hobserve']
    exact ⟨error', hcause, rfl⟩

end Running

/--
A host and a script agree. A text that takes one line is accepted as an expression exactly if the
script that assigns it to an accepted name is one assignment to that name, of the same expression
apart from places; and to evaluate the text and write its value comes to what that script comes to.
It is accepted as a condition exactly if the script that branches on it is one branch on the same
condition with nothing otherwise, and the host's answer says whether the branch's body is run.
-/
theorem host_agrees {name source : String} (hname : violation? false name = none)
    (hline : OneLine source) :
    ((∀ bare, (∃ e, parseExpression source = .ok e ∧ e.bare = bare) ↔
        ∃ e span span', parseProgram (assigning name source) =
          .ok [.assign (.scalar name span) e span'] ∧ e.bare = bare) ∧
      ∀ e program, parseExpression source = .ok e →
        parseProgram (assigning name source) = .ok program → ∀ limits rounds env,
          (runProgram limits rounds program env).Gives (env.evaluateTo name source)) ∧
    ((∀ bare, (∃ c, parseCondition source = .ok c ∧ c.bare = bare) ↔
        ∃ c span, parseProgram (branching source) = .ok [.branch c [] .done span] ∧
          c.bare = bare) ∧
      ∀ c c' span, parseCondition source = .ok c →
        parseProgram (branching source) = .ok [.branch c' [] .done span] →
          ∀ limits rounds body machine,
            ((Stmt.branch c' body .done span).exec limits rounds machine).DecidedBy machine
              (execAll limits rounds body) (machine.env.evaluateCondition source)) := by
  have hexpression := fun bare =>
    (parseExpression_iff hline bare).trans (parseAssigning_iff hname hline bare).symm
  have hcondition := fun bare =>
    (parseCondition_iff hline bare).trans (parseBranching_iff hline bare).symm
  refine ⟨⟨hexpression, fun e program hparse hprogram limits rounds env => ?_⟩,
    hcondition, fun c c' span hparse hprogram limits rounds body machine => ?_⟩
  · obtain ⟨e', span, span', hassigning, hbare⟩ := (hexpression e.bare).mp ⟨e, hparse, rfl⟩
    obtain rfl := Except.ok.inj (hprogram.symm.trans hassigning)
    exact gives_assign hparse hbare.symm env
  · obtain ⟨c'', span', hbranching, hbare⟩ := (hcondition c.bare).mp ⟨c, hparse, rfl⟩
    have hsame := Except.ok.inj (hprogram.symm.trans hbranching)
    obtain ⟨rfl, _⟩ := Stmt.branch.inj (List.cons.inj hsame).1
    exact decidedBy_branch hparse hbare.symm body machine

/-- An element whose index is negative. -/
def elementSource : String := "A[x - 2]\t+ 1"

/-- Two comparisons. -/
def comparingSource : String := "x<1 && pi > 3"

/-- An element and a condition as a host evaluates them, and as a script does. -/
theorem host_agrees_element :
    violation? false "y" = none ∧ OneLine elementSource ∧ OneLine comparingSource ∧
      (∃ e program, parseExpression elementSource = .ok e ∧
        parseProgram (assigning "y" elementSource) = .ok program ∧
        (runProgram {} 1 program .fresh).Gives (Environment.fresh.evaluateTo "y" elementSource)) ∧
      ∃ c c' span, parseCondition comparingSource = .ok c ∧
        parseProgram (branching comparingSource) = .ok [.branch c' [] .done span] ∧
        c'.bare = c.bare := by
  have hname : violation? false "y" = none := by decide
  have helement : OneLine elementSource := by decide +kernel
  have hcomparing : OneLine comparingSource := by decide +kernel
  have hexpression : (parseExpression elementSource).toOption.isSome := by decide +kernel
  have hcondition : (parseCondition comparingSource).toOption.isSome := by decide +kernel
  obtain ⟨e, he⟩ := Option.isSome_iff_exists.mp hexpression
  obtain ⟨c, hc⟩ := Option.isSome_iff_exists.mp hcondition
  have he := toOption_eq_some.mp he
  have hc := toOption_eq_some.mp hc
  obtain ⟨⟨haccepted, hgives⟩, _⟩ := host_agrees hname helement
  obtain ⟨_, hbranches, _⟩ := host_agrees hname hcomparing
  obtain ⟨e', span, span', hprogram, _⟩ := (haccepted e.bare).mp ⟨e, he, rfl⟩
  obtain ⟨c', span'', hbranch, hbare⟩ := (hbranches c.bare).mp ⟨c, hc, rfl⟩
  exact ⟨hname, helement, hcomparing,
    ⟨e, _, he, hprogram, hgives e _ he hprogram {} 1 .fresh⟩, c, c', span'', hc, hbranch, hbare⟩

end NumericScript
