import NumericScript.Proofs.Layout.Lossless
import NumericScript.Proofs.Running.Host
import NumericScript.Proofs.Running.Index
import NumericScript.Proofs.Running.Writes

/-!
# Names that hosts and scripts share

Every name that a store accepts is a token of its own, so that a script reads under it what a host
reads under it, and an element's index may be written in its digits. What a script writes is
written under such names, which are words of the script.
-/

namespace NumericScript

/-- Whether the digits of an index read as the number that is equal to the index. -/
def Single.Exact (index : UInt64) : Prop :=
  ∃ onGrid, ofNumeral? (toString index.toNat).toList =
    some (.finite false (index.toNat * unitsPerOne) onGrid)

/-- The sign behind a name where the scalar or the array is assigned to. -/
def Owner.sign : Owner → TokenKind
  | scalar _ => .equal
  | array _ => .leftBracket

/--
Whether a line of a text assigns to a scalar or an array: there is an equality sign in the line, the
name is the first token, the sign of such an assignment is the next one, and what the text has there
is the name with blanks at most.
-/
def Owner.AssignedIn (owner : Owner) (source : String) : Prop :=
  ∃ lines, scan source = .ok lines ∧ ∃ line ∈ lines, hasEqual line.tokens ∧ ∃ t sign more,
    line.tokens = t :: sign :: more ∧ t.kind = .identifier ∧ t.lexeme = owner.name ∧
      sign.kind = owner.sign ∧ (t.span.slice source).filter (!isBlank ·) = owner.name.toList

section Scanning

variable {name source : String}

/-- A text without white space and braces is one line. -/
theorem exists_line_of_ink (h : ∀ c ∈ source.toList, isInk c) (hne : source ≠ "") :
    ∃ line, logicalLines source = [line] ∧ line.text = source.toList := by
  have hinked : inked source = source.toList := inked_of_ink h
  have htexts : lineTexts source = [source.toList] := by
    rw [← hinked]
    refine lineTexts_of_ink (hinked ▸ h) ?_
    rw [hinked]
    exact mt String.toList_eq_nil_iff.mp hne
  have hmem : source.toList ∈ lineTexts source := htexts ▸ List.mem_singleton_self _
  obtain ⟨line, hline, htext⟩ := List.mem_map.mp (List.mem_filter.mp hmem).1
  have hcount := length_logicalLines source
  have hplain : ∀ c ∈ source.toList, isBreak c = false ∧ isBrace c = false := fun c hc => by
    have hink := h c hc
    simp only [isInk, Bool.and_eq_true, Bool.not_eq_true'] at hink
    exact ⟨hink.1.2, hink.2⟩
  rw [List.countP_eq_zero.mpr fun c hc => by simp [hplain c hc],
    List.countP_eq_zero.mpr fun c hc => by simp [hplain c hc]] at hcount
  have hpos := List.length_pos_of_mem hline
  obtain ⟨only, honly⟩ := List.length_eq_one_iff.mp (show (logicalLines source).length = 1 by omega)
  rw [honly] at hline
  obtain rfl := List.mem_singleton.mp hline
  exact ⟨line, honly, htext⟩

/-- An accepted name is scanned as one token. -/
theorem stream_name (hname : violation? false name = none) :
    ∃ lines span stop last, scan name = .ok lines ∧
      stream lines = [.token ⟨.identifier, name, span⟩, .newline stop, .endOfText last] := by
  have htarget := isTargetName_of_accepted hname
  obtain ⟨line, hlines, htext⟩ := exists_line_of_ink htarget.isInk htarget.ne_empty
  have hcut : cut line.text = .ok [⟨.identifier, name.toList⟩] := by
    rw [htext, (isName_of_accepted hname).cut_eq]
  obtain ⟨scanned, hscanned⟩ := Line.tokenLine_of_cut hcut
  have hbare := Except.ok.inj (hcut.symm.trans (Line.cut_of_tokenLine hscanned))
  obtain ⟨⟨kind, lexeme, span⟩, htokens, ht⟩ := List.map_eq_singleton_iff.mp hbare.symm
  obtain ⟨rfl, hlexeme⟩ := Lexeme.mk.inj ht
  obtain rfl := String.toList_inj.mp hlexeme
  refine ⟨[scanned], span, scanned.stop, endSpan [scanned], ?_, ?_⟩
  · rw [scan, hlines]
    exact mapM_eq_ok.mpr (.cons hscanned .nil)
  · rw [stream, List.flatMap_singleton, htokens]
    rfl

end Scanning

section Reading

variable {name : String} {index : UInt64}

/-- An accepted name is read as the scalar. -/
theorem parseExpression_name (hname : violation? false name = none) :
    ∃ span, parseExpression name = .ok (.scalar name span) := by
  have htarget := isTargetName_of_accepted hname
  have hspells : Spells (inked name) (Expr.scalar name default).glyphs := by
    refine ⟨[⟨.identifier, name.toList⟩], ?_, ?_⟩
    · rw [htarget.inked_eq, (isName_of_accepted hname).cut_eq]
    · rw [List.map_singleton, Lexeme.glyph, String.ofList_toList]
      rfl
  have hline : OneLine name := fun c hc => .inr (htarget.isInk c hc)
  obtain ⟨e, hread, hbare⟩ := (parseExpression_iff hline _).mpr ⟨_, hspells, trivial,
    by simp [Expr.levels, Within, maxNesting], rfl⟩
  obtain ⟨span, rfl⟩ := Expr.eq_scalar_of_bare hbare
  exact ⟨span, hread⟩

/-- An accepted name spells an element together with an index in brackets. -/
theorem spells_element (hname : violation? false name = none) {text : List Char} {inner : Expr}
    (h : Spells text inner.glyphs) :
    Spells (name.toList ++ '[' :: (text ++ [']'])) (Expr.element name inner default).glyphs := by
  obtain ⟨lexemes, hcut, hglyphs⟩ := h
  have hopen : cut ('[' :: (text ++ [']'])) =
      .ok (⟨.leftBracket, ['[']⟩ :: (lexemes ++ [⟨.rightBracket, [']']⟩])) :=
    cut_cons_eq_ok.mpr ⟨.leftBracket, 1, _, rfl, cut_append_closing hcut (.inr rfl) rfl, rfl⟩
  have hbreak : ∀ c ∈ ('[' :: (text ++ [']'])).head?, isWordChar c = false := by
    rintro _ ⟨⟩
    decide
  refine ⟨_, (cut_named hname hbreak).mpr ⟨_, hopen, rfl⟩, ?_⟩
  rw [List.map_cons, List.map_cons, List.map_append, hglyphs, Lexeme.glyph, String.ofList_toList]
  rfl

/-- With the digits of an index in brackets an accepted name is read as the element. -/
theorem parseExpression_element (hname : violation? false name = none) (index : UInt64) :
    ∃ span span', parseExpression (name ++ "[" ++ toString index.toNat ++ "]") =
      .ok (.element name (.number (.ofDecimal index.toNat 0) span) span') := by
  have htarget := isTargetName_of_accepted hname
  have hinked : inked (name ++ "[" ++ toString index.toNat ++ "]") =
      name.toList ++ '[' :: (Nat.toDigits 10 index.toNat ++ [']']) := inked_shown_element htarget
  have hspells := spells_element hname (spells_digits index)
  rw [← hinked] at hspells
  have hline : OneLine (name ++ "[" ++ toString index.toNat ++ "]") := by
    refine oneLine_of_inked ?_
    rw [hinked]
    simp only [List.forall_mem_append, List.forall_mem_cons]
    exact ⟨htarget.isInk, by decide, ink_toDigits _, by decide, nofun⟩
  obtain ⟨e, hread, hbare⟩ := (parseExpression_iff hline _).mpr ⟨_, hspells, trivial,
    by simp [Expr.levels, Within, maxNesting], rfl⟩
  obtain ⟨inner, span', rfl, hinner⟩ := Expr.eq_element_of_bare hbare
  obtain ⟨span, rfl⟩ := Expr.eq_number_of_bare hinner
  exact ⟨span, span', hread⟩

/-- What is looked up in a store is what a host reads there, with the same report. -/
theorem Environment.observe_look (env : Environment) (address : Address) :
    env.observe (fun store => .look store address) =
      (.ok (env.read address).1, (env.read address).2) := by
  rw [observe, EnvironmentOf.read, Reading.look]
  cases env.store[address]? <;> rfl

/-- An accepted name is evaluated to what a host reads under it. -/
theorem evaluate_name (hname : violation? false name = none) (env : Environment) :
    env.evaluate name = (.ok (env.get name).1, (env.get name).2) := by
  obtain ⟨span, hread⟩ := parseExpression_name hname
  rw [Environment.evaluate, hread]
  exact env.observe_look (.ofKey name)

/-- An index that its digits are equal to is one that a number stands for. -/
theorem Single.Exact.isIndex (h : Single.Exact index) : Single.IsIndex index := by
  obtain ⟨onGrid, -⟩ := h
  refine ⟨.finite false (index.toNat * Single.unitsPerOne) onGrid, ?_⟩
  have hback : index.toNat * Single.unitsPerOne / Single.unitsPerOne = index.toNat :=
    Nat.mul_div_cancel _ (Nat.two_pow_pos 149)
  have hmin : min index.toNat (2 ^ 64 - 1) = index.toNat :=
    Nat.min_eq_left (Nat.le_sub_one_of_lt index.toNat_lt)
  rw [Single.toIndex?, hback, hmin]
  simp

private theorem Expr.eval_element_number {value : Single} (h : value.toIndex? = some index)
    (span place : Span) (store : Store) :
    (element name (.number value span) place).eval store = .look store (.element name index) := by
  have hvalue : ((number value span).eval store).result = .ok value := rfl
  rw [eval, Reading.bind_of_ok hvalue]
  dsimp only [Expr.span]
  rw [Reading.index_eq_pure h, Reading.bind_of_ok rfl]
  rfl

/-- So is an accepted name with an index in its digits, as long as a number stands for the index. -/
theorem evaluate_element (hname : violation? false name = none) (hindex : Single.IsIndex index)
    (env : Environment) :
    env.evaluate (name ++ "[" ++ toString index.toNat ++ "]") =
      (.ok (env.getElement name index).1, (env.getElement name index).2) := by
  obtain ⟨span, span', hread⟩ := parseExpression_element hname index
  rw [Environment.evaluate, hread]
  simp only [Expr.eval_element_number hindex.toIndex?_ofDecimal]
  exact env.observe_look (.element name index)

end Reading

section Targets

variable {source : String}

/-- The line of an assignment begins with the name and the sign behind it. -/
theorem exists_assignmentLine (target : Target) (value : Expr) :
    ∃ more, assignmentLine target value =
      .target target.owner.name :: .mark target.owner.sign :: more := by
  cases target <;> exact ⟨_, rfl⟩

/-- On the line of an assignment an accepted name is one token, with the sign behind it. -/
theorem exists_token_of_target {line : Line} {scanned : TokenLine}
    (hscanned : line.tokenLine = .ok scanned) {owner : Owner}
    (hname : violation? false owner.name = none) {glyphs : List Glyph}
    (hglyphs : lineGlyphs scanned.tokens = .target owner.name :: .mark owner.sign :: glyphs) :
    hasEqual scanned.tokens ∧ ∃ t sign more, scanned.tokens = t :: sign :: more ∧
      t.kind = .identifier ∧ t.lexeme = owner.name ∧ sign.kind = owner.sign := by
  obtain ⟨_, _, _, _, _, _, hequal, hassign⟩ := lineGlyphs_eq_target hglyphs
  rw [assignmentGlyphs] at hassign
  obtain ⟨hjoined, hrest⟩ := List.cons.inj hassign
  obtain ⟨sign, more, hdrop, hsign, -⟩ := List.map_eq_cons_iff.mp hrest
  have hjoined := Glyph.target.inj hjoined
  have htokens := List.takeWhile_append_dropWhile (p := (isNamePart ·.kind)) (l := scanned.tokens)
  generalize scanned.tokens.takeWhile (isNamePart ·.kind) = words at hjoined htokens
  rw [hdrop] at htokens
  -- The words are cut as the name is cut on its own, which is one token.
  have hcut := Line.cut_of_tokenLine hscanned
  rw [← htokens, List.map_append] at hcut
  have hwords := (cut_split hcut).1
  rw [← toList_joinedLexemes, hjoined, (isName_of_accepted hname).cut_eq] at hwords
  obtain ⟨t, rfl, ht⟩ := List.map_eq_singleton_iff.mp (Except.ok.inj hwords).symm
  obtain ⟨hkind, hlexeme⟩ := Lexeme.mk.inj ht
  exact ⟨hequal, t, sign, more, htokens.symm, hkind, String.toList_inj.mp hlexeme,
    Token.kind_of_glyph hsign⟩

/-- What a program of a text assigns to under an accepted name is assigned to in the text. -/
theorem assignedIn_of_parseProgram {program : List Stmt} (h : parseProgram source = .ok program) :
    ∀ phrase ∈ phrasesOf program, phrase.WritesOnly fun owner =>
      violation? false owner.name = none ∧ owner.AssignedIn source := by
  obtain ⟨lines, hscan, hread⟩ := bind_eq_ok.mp h
  have hlines := (readProgram_reads hscan hread).1
  intro phrase hm
  cases phrase with
  | condition => trivial
  | assignment target value =>
    intro hname
    obtain ⟨glyphs, hglyphs, his⟩ := exists_line_linesOf program hm
    obtain ⟨more, hassignment⟩ := exists_assignmentLine target value
    rw [hlines] at hglyphs
    obtain ⟨scanned, hscanned, hline⟩ := List.mem_map.mp (List.mem_filter.mp hglyphs).1
    obtain ⟨line, -, htokens⟩ := scan_mem hscan hscanned
    obtain ⟨hequal, t, sign, later, heq, hkind, hlexeme, hsign⟩ :=
      exists_token_of_target htokens hname ((hline.trans his).trans hassignment)
    refine ⟨hname, lines, hscan, scanned, hscanned, hequal, t, sign, later, heq, hkind, hlexeme,
      hsign, ?_⟩
    rw [(inPlace_of_scan hscan scanned hscanned).slice t (heq ▸ List.mem_cons_self), hlexeme]

end Targets

/--
Hosts and scripts share one space of names. An accepted name is a text of one token, the name, and
to evaluate it gives what a host reads under the name, with the same reports. So does the name with
an index in brackets, as long as the digits of the index read as a number that is equal to it.
Whatever a script writes to has an accepted name, which stands in the script as the first word of a
line that assigns to it, with blanks at most.
-/
theorem names_are_shared :
    (∀ name : String, violation? false name = none →
      (∃ lines span stop last, scan name = .ok lines ∧
        stream lines = [.token ⟨.identifier, name, span⟩, .newline stop, .endOfText last]) ∧
      ∀ env : Environment,
        env.evaluate name = (.ok (env.get name).1, (env.get name).2) ∧
        ∀ index : UInt64, Single.Exact index →
          env.evaluate (name ++ "[" ++ toString index.toNat ++ "]") =
            (.ok (env.getElement name index).1, (env.getElement name index).2)) ∧
    ∀ (source : String) (program : List Stmt), parseProgram source = .ok program →
      ∀ (limits : Limits) (rounds : Nat) (env : Environment),
        (runProgram limits rounds program env).Leaves fun machine =>
          env.WritesOnly (fun owner => violation? false owner.name = none ∧ owner.AssignedIn source)
            machine.env := by
  refine ⟨fun name hname => ⟨stream_name hname, fun env => ⟨evaluate_name hname env,
    fun index hindex => evaluate_element hname hindex.isIndex env⟩⟩, ?_⟩
  intro source program hparse limits rounds env
  exact writesOnly_runProgram (assignedIn_of_parseProgram hparse) limits rounds env

/-- A script that sets an element under an accepted name and a scalar under a refused one. -/
def spacedSource : String := "2 nd [7] = 1; _1 = 2"

/-- A name that begins with a digit is shared by a script with blanks in it and its host. -/
theorem names_are_shared_spaced :
    violation? false "2nd" = none ∧ Single.Exact 7 ∧
      (∃ lines span stop last, scan "2nd" = .ok lines ∧
        stream lines = [.token ⟨.identifier, "2nd", span⟩, .newline stop, .endOfText last]) ∧
      ∃ program machine, parseProgram spacedSource = .ok program ∧
        runProgram {} 0 program .fresh = .finished machine ∧
        machine.env.journal.toList = Environment.fresh.journal.toList ++
          [.created (.element "2nd" 7) .one, .invalid "_1" .pattern] ∧
        (Owner.array "2nd").AssignedIn spacedSource ∧
        (machine.env.evaluate "2nd").1 = .ok .zero ∧
        (machine.env.evaluate "2nd[7]").1 = .ok .one := by
  have hname : violation? false "2nd" = none := by decide +kernel
  have hindex : Single.Exact 7 := ⟨⟨7, 149, by decide, by decide, rfl⟩, by decide +kernel⟩
  have hread : ((parseProgram spacedSource).toOption.bind fun program =>
      (runProgram {} 0 program .fresh).machine?).map (fun machine =>
        (machine.env.journal.toList, (machine.env.get "2nd").1,
          (machine.env.getElement "2nd" 7).1)) =
      some (Environment.fresh.journal.toList ++
        [.created (.element "2nd" 7) .one, .invalid "_1" .pattern], .zero, .one) := by
    decide +kernel
  obtain ⟨machine, hmachine, hleft⟩ := Option.map_eq_some_iff.mp hread
  obtain ⟨program, hprogram, hfinished⟩ := Option.bind_eq_some_iff.mp hmachine
  have hparse := toOption_eq_some.mp hprogram
  have hrun := Outcome.machine?_eq_some.mp hfinished
  obtain ⟨hjournal, hvalues⟩ := Prod.mk.inj hleft
  obtain ⟨hscalar, helement⟩ := Prod.mk.inj hvalues
  obtain ⟨hshared, hwrites⟩ := names_are_shared
  obtain ⟨hstream, hreads⟩ := hshared "2nd" hname
  obtain ⟨hevaluate, hevaluateElement⟩ := hreads machine.env
  have hleaves := hwrites spacedSource program hparse {} 0 .fresh
  rw [hrun] at hleaves
  obtain ⟨reports, hreports, hnamed⟩ := hleaves.reported
  obtain rfl := List.append_cancel_left (hreports.symm.trans hjournal)
  have hassigned := (hnamed _ List.mem_cons_self (.element "2nd" 7) rfl).2
  refine ⟨hname, hindex, hstream, program, machine, hparse, hrun, hjournal, hassigned, ?_, ?_⟩
  · rw [hevaluate, hscalar]
  · have hseven := hevaluateElement 7 hindex
    rw [helement] at hseven
    exact congrArg Prod.fst hseven

end NumericScript
