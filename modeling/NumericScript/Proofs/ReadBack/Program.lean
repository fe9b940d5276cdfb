import NumericScript.Proofs.ReadBack.Cond

/-!
# Statements read back

A script is read back line by line: each assignment and each header is one line, and so is each
brace. Only lines that say nothing are missing. The outline stands between: its lines are those of
the script, and what is read from it is read back as them.
-/

namespace NumericScript

/-- A line ends where no tokens are left. -/
theorem endOfLine_eq_ok {clause : Clause} {tokens : List Token} :
    endOfLine clause tokens = .ok () ↔ tokens = [] := by
  cases tokens <;> simp [endOfLine, fail]

/-- The rest of a header's line is its condition in parentheses. -/
theorem header_reads {word : Keyword} {room : Nat} {stop : Span} {tokens : List Token} {c : Cond}
    (h : header word room stop tokens = .ok c) :
    tokens.map Token.glyph = parenthesized c.glyphs ∧ c.Shaped := by
  obtain ⟨⟨paren, inner⟩, hopen, h⟩ := bind_eq_ok.mp h
  obtain ⟨⟨cond, after⟩, hcond, h⟩ := bind_eq_ok.mp h
  obtain ⟨⟨close, last⟩, hclose, h⟩ := bind_eq_ok.mp h
  obtain ⟨⟨⟩, hend, h⟩ := bind_eq_ok.mp h
  obtain rfl := Except.ok.inj h
  obtain ⟨rfl, hparen⟩ := expect_eq_ok.mp hopen
  obtain ⟨hglyphs, hshaped, _⟩ := readsCond_condition room _ _ _ _ hcond
  obtain ⟨rfl, hkind⟩ := expect_eq_ok.mp hclose
  obtain rfl := endOfLine_eq_ok.mp hend
  refine ⟨?_, hshaped⟩
  rw [List.map_cons, hglyphs, List.map_cons, List.map_nil, Token.glyph_of_kind hparen,
    Token.glyph_of_kind hkind, parenthesized]

/-- The words at the start of an assignment are the name of its target. -/
theorem target_reads {room : Nat} {stop : Span} {tokens rest : List Token} {t : Target}
    (h : target room stop tokens = .ok (t, rest)) :
    assignmentGlyphs tokens = t.glyphs ++ rest.map Token.glyph ∧ t.Shaped := by
  unfold target at h
  split at h
  · simp [fail] at h
  · rename_i part parts hwords
    dsimp only at h
    rw [assignmentGlyphs, hwords]
    split at h
    · rename_i lexeme span inner hrest
      obtain ⟨⟨index, later⟩, hindex, hclose⟩ := bind_eq_ok.mp h
      obtain ⟨⟨close, last⟩, hexpect, hlast⟩ := bind_eq_ok.mp hclose
      obtain ⟨hglyphs, hshaped, _⟩ := readsExpr_expression room _ _ _ _ hindex
      obtain ⟨rfl, hkind⟩ := expect_eq_ok.mp hexpect
      simp only [Except.ok.injEq, Prod.mk.injEq] at hlast
      obtain ⟨rfl, rfl⟩ := hlast
      refine ⟨?_, hshaped⟩
      rw [hrest]
      simp only [Target.glyphs, bracketed, List.map_cons, hglyphs, Token.glyph_of_kind hkind,
        List.append_assoc, List.cons_append, List.nil_append]
      rfl
    · simp only [Except.ok.injEq, Prod.mk.injEq] at h
      obtain ⟨rfl, rfl⟩ := h
      exact ⟨rfl, trivial⟩

/-- An assignment's line is its target, an equality sign and its value. -/
theorem assignment_reads {room : Nat} {stop : Span} {tokens : List Token} {stmt : Stmt}
    (h : assignment room stop tokens = .ok stmt) :
    ∃ target value span, stmt = .assign target value span ∧
      assignmentGlyphs tokens = assignmentLine target value ∧ target.Shaped ∧ value.Shaped := by
  obtain ⟨⟨target, after⟩, htarget, h⟩ := bind_eq_ok.mp h
  obtain ⟨⟨equal, inner⟩, hequal, h⟩ := bind_eq_ok.mp h
  obtain ⟨⟨value, last⟩, hvalue, h⟩ := bind_eq_ok.mp h
  obtain ⟨⟨⟩, hend, h⟩ := bind_eq_ok.mp h
  obtain ⟨htglyphs, htshaped⟩ := target_reads htarget
  obtain ⟨rfl, hkind⟩ := expect_eq_ok.mp hequal
  obtain ⟨hglyphs, hshaped, _⟩ := readsExpr_expression room _ _ _ _ hvalue
  obtain rfl := endOfLine_eq_ok.mp hend
  refine ⟨target, value, _, (Except.ok.inj h).symm, ?_, htshaped, hshaped⟩
  rw [htglyphs, List.map_cons, hglyphs, Token.glyph_of_kind hkind, List.map_nil, List.append_nil,
    assignmentLine]

private theorem keptLine_assignment (target : Target) (value : Expr) :
    keptLine (assignmentLine target value) = [assignmentLine target value] := by
  cases target <;> rfl

namespace Outline

/-- The lines of an outline, as they are read back. -/
def lines : Outline → List (List Glyph)
  | done => []
  | line first more _ next => keptLine (statementGlyphs (first :: more)) ++ next.lines
  | block _ _ body close next =>
    [.mark .leftBrace] :: (body.lines ++ (close.toList.map fun _ => [.mark .rightBrace]) ++
      next.lines)
  | stray _ next => [.mark .rightBrace] :: next.lines

private theorem lines_append (o later : Outline) :
    (o.append later).lines = o.lines ++ later.lines := by
  induction o with
  | done => rfl
  | line first more stop next ih => simp only [append, lines, ih, List.append_assoc]
  | block brace stop body close next _ ih =>
    simp only [append, lines, ih, List.append_assoc, List.cons_append]
  | stray brace next ih => simp only [append, lines, ih, List.cons_append]

end Outline

/-- A brace stands alone on its line. -/
def BracesAlone (line : TokenLine) : Prop :=
  ∀ t more, line.tokens = t :: more → t.kind = .leftBrace ∨ t.kind = .rightBrace → more = []

namespace Draft

/-- The lines of a draft: those before the first brace that waits, then each brace and its lines. -/
def lines (draft : Draft) : List (List Glyph) :=
  draft.current.lines ++ draft.waiting.flatMap fun w => [.mark .rightBrace] :: w.2.lines

private theorem lines_release (current : Outline) (waiting : List (Token × Outline)) :
    (release current waiting).lines = lines ⟨current, waiting⟩ := by
  induction waiting generalizing current with
  | nil => simp [release, lines]
  | cons w waiting ih =>
    obtain ⟨brace, after⟩ := w
    rw [release, Outline.lines_append, Outline.lines, ih]
    simp only [lines, List.flatMap_cons, List.cons_append]

/-- One more line is one more line. -/
theorem lines_add {line : TokenLine} (draft : Draft) (h : BracesAlone line) :
    (draft.add line).lines = keptLine (lineGlyphs line.tokens) ++ draft.lines := by
  obtain ⟨tokens, stop⟩ := line
  cases tokens with
  | nil => rfl
  | cons t more =>
    unfold add
    dsimp only
    split
    · rename_i hkind
      obtain rfl := h t more rfl (.inl hkind)
      rw [lineGlyphs_of_brace [] (.inl hkind), List.map_singleton, Token.glyph_of_kind hkind,
        keptLine_cons]
      split
      · rename_i hwaiting
        simp [lines, Outline.lines, hwaiting]
      · rename_i close after waiting hwaiting
        simp [lines, Outline.lines, hwaiting]
    · rename_i hkind
      obtain rfl := h t more rfl (.inr hkind)
      rw [lineGlyphs_of_brace [] (.inr hkind), List.map_singleton, Token.glyph_of_kind hkind,
        keptLine_cons]
      simp [lines, Outline.lines]
    · rename_i hleft hright
      rw [lineGlyphs_of_not_brace more hleft hright]
      simp only [lines, Outline.lines, List.append_assoc]

end Draft

/-- The lines of an outline are those of the script. -/
theorem Outline.lines_ofLines {lines : List TokenLine} (h : ∀ line ∈ lines, BracesAlone line) :
    (Outline.ofLines lines).lines = scriptGlyphs lines := by
  have hfold : (lines.foldr Draft.add ⟨.done, []⟩).lines = scriptGlyphs lines := by
    induction lines with
    | nil => rfl
    | cons line lines ih =>
      rw [List.foldr_cons, Draft.lines_add _ (h line (by simp)), scriptGlyphs_cons,
        ih fun l hm => h l (by simp [hm])]
  rw [Outline.ofLines, Draft.lines_release]
  exact hfold

/-- A block that is read is closed, and its lines are read one level deeper. -/
theorem blockBody_eq_ok {room : Nat} {after stop span : Span} {brace : Token}
    {close : Option Token} {read : Nat → Span → Except ScriptError Sequel} {inner : List Stmt}
    (h : blockBody room after brace stop close read = .ok (inner, span)) :
    ∃ lower last body, room = lower + 1 ∧ close = some last ∧ read lower last.span = .ok body ∧
      inner = body.statements := by
  unfold blockBody at h
  split at h
  · simp [fail] at h
  · split at h
    · rename_i lower _ last
      obtain ⟨body, hbody, h⟩ := bind_eq_ok.mp h
      simp only [Except.ok.injEq, Prod.mk.injEq] at h
      exact ⟨lower, last, body, rfl, rfl, hbody, h.1.symm⟩
    · obtain ⟨_, _, h⟩ := bind_eq_ok.mp h
      simp [fail] at h

/-- What is read from some lines is read back as them and has the shape of precedence. -/
structure Sequel.ReadFrom (sequel : Sequel) (afterBranch : Bool) (o : Outline) : Prop where
  lines : o.lines = sequel.otherwise.lines ++ linesOf sequel.statements
  otherwise : ∀ phrase ∈ sequel.otherwise.phrases, phrase.Shaped
  statements : ∀ phrase ∈ phrasesOf sequel.statements, phrase.Shaped
  done : afterBranch = false → sequel.otherwise = .done

/-- What a block's lines are read as, together with what follows the block. -/
private theorem block_reads {room : Nat} {after stop span : Span} {brace : Token}
    {close : Option Token} {body : Outline} (next : Outline) {inner : List Stmt}
    (hbody : ∀ room after sequel', sequel false room after body = .ok sequel' →
      sequel'.ReadFrom false body)
    (h : blockBody room after brace stop close (fun room after => sequel false room after body) =
      .ok (inner, span)) :
    (Outline.block brace stop body close next).lines = braced (linesOf inner) ++ next.lines ∧
      ∀ phrase ∈ phrasesOf inner, phrase.Shaped := by
  obtain ⟨lower, last, read, _, rfl, hread, rfl⟩ := blockBody_eq_ok h
  have hfrom := hbody _ _ _ hread
  have hlines := hfrom.lines
  rw [hfrom.done rfl, Chain.lines, List.nil_append] at hlines
  refine ⟨?_, hfrom.statements⟩
  simp only [Outline.lines, hlines, braced, Option.toList_some, List.map_cons, List.map_nil,
    List.cons_append, List.append_assoc]

/-- A block is read and then what follows it, and a function puts both together. -/
private theorem blockThen_reads (f : List Stmt → Span → Sequel → Sequel) {afterBranch : Bool}
    {room : Nat} {after stop : Span} {brace : Token} {close : Option Token} {body next : Outline}
    {read : Sequel}
    (hbody : ∀ room after sequel', sequel false room after body = .ok sequel' →
      sequel'.ReadFrom false body)
    (hnext : ∀ later, sequel afterBranch room after next = .ok later →
      later.ReadFrom afterBranch next)
    (h : (do
        let (inner, span) ←
          blockBody room after brace stop close fun room after => sequel false room after body
        let later ← sequel afterBranch room after next
        .ok (f inner span later)) = .ok read) :
    ∃ inner span later, read = f inner span later ∧ later.ReadFrom afterBranch next ∧
      (Outline.block brace stop body close next).lines = braced (linesOf inner) ++ next.lines ∧
      ∀ phrase ∈ phrasesOf inner, phrase.Shaped := by
  obtain ⟨⟨inner, span⟩, hblock, h⟩ := bind_eq_ok.mp h
  obtain ⟨later, hlater, h⟩ := bind_eq_ok.mp h
  obtain ⟨hlines, hshaped⟩ := block_reads next hbody hblock
  exact ⟨inner, span, later, (Except.ok.inj h).symm, hnext later hlater, hlines, hshaped⟩

/-- A sequel with one more statement is read from that statement's lines and the lines after. -/
theorem Sequel.ReadFrom.cons {later : Sequel} {afterBranch : Bool} {o next : Outline} {stmt : Stmt}
    (hlater : later.ReadFrom false next) (hlines : o.lines = stmt.lines ++ next.lines)
    (hshaped : ∀ phrase ∈ stmt.phrases, phrase.Shaped) :
    (later.cons stmt).ReadFrom afterBranch o := by
  refine ⟨?_, by simp [Sequel.cons, Chain.phrases], ?_, fun _ => rfl⟩
  · rw [hlines, hlater.lines, hlater.done rfl]
    simp only [Sequel.cons, Chain.lines, linesOf, List.nil_append]
  · intro phrase hm
    rcases List.mem_append.mp hm with hm | hm
    · exact hshaped phrase hm
    · exact hlater.statements phrase hm

/-- A branch takes what it does otherwise from what is read after its block. -/
theorem Sequel.ReadFrom.branch {later : Sequel} {afterBranch : Bool} {o next : Outline} {c : Cond}
    {inner : List Stmt} {span : Span} (hlater : later.ReadFrom true next)
    (hlines : o.lines = headerLine .ifWord c :: (braced (linesOf inner) ++ next.lines))
    (hc : c.Shaped) (hinner : ∀ phrase ∈ phrasesOf inner, phrase.Shaped) :
    (later.cons (.branch c inner later.otherwise span)).ReadFrom afterBranch o := by
  refine ⟨?_, by simp [Sequel.cons, Chain.phrases], ?_, fun _ => rfl⟩
  · rw [hlines, hlater.lines]
    simp only [Sequel.cons, Chain.lines, linesOf, Stmt.lines, List.nil_append, List.cons_append,
      List.append_assoc]
  · intro phrase hm
    simp only [Sequel.cons, phrasesOf, Stmt.phrases, List.cons_append, List.mem_cons,
      List.mem_append] at hm
    rcases hm with rfl | (hm | hm) | hm
    · exact hc
    · exact hinner phrase hm
    · exact hlater.otherwise phrase hm
    · exact hlater.statements phrase hm

/-- So does a branch that is itself what another does otherwise. -/
theorem Sequel.ReadFrom.elif {later : Sequel} {o next : Outline} {c : Cond} {inner : List Stmt}
    {lastBlock : Option Span} (hlater : later.ReadFrom true next)
    (hlines : o.lines = headerLine .elifWord c :: (braced (linesOf inner) ++ next.lines))
    (hc : c.Shaped) (hinner : ∀ phrase ∈ phrasesOf inner, phrase.Shaped) :
    Sequel.ReadFrom ⟨.branch c inner later.otherwise, lastBlock, later.statements⟩ true o := by
  refine ⟨?_, ?_, hlater.statements, fun h => absurd h (by decide)⟩
  · rw [hlines, hlater.lines]
    simp only [Chain.lines, List.cons_append, List.append_assoc]
  · intro phrase hm
    simp only [Chain.phrases, List.mem_cons, List.mem_append] at hm
    rcases hm with rfl | hm | hm
    · exact hc
    · exact hinner phrase hm
    · exact hlater.otherwise phrase hm

/-- A header and its block are read back as themselves. -/
private theorem headed_reads {first : Token} {word : Keyword} {more : List Token} {c : Cond}
    {stop : Span} {block : Outline} {inner : List Stmt} {later : List (List Glyph)}
    (hword : first.kind = .keyword word) (hcond : more.map Token.glyph = parenthesized c.glyphs)
    (hblock : block.lines = braced (linesOf inner) ++ later) :
    (Outline.line first more stop block).lines =
      headerLine word c :: (braced (linesOf inner) ++ later) := by
  rw [Outline.lines, statementGlyphs_of_keyword more hword, hcond, hblock, headerLine]
  rfl

/-- Whatever is read from an outline is read back as its lines. -/
theorem sequel_readFrom {afterBranch : Bool} {room : Nat} {after : Span} {o : Outline}
    {read : Sequel} (h : sequel afterBranch room after o = .ok read) :
    read.ReadFrom afterBranch o := by
  fun_induction sequel afterBranch room after o generalizing read with
  | case1 afterBranch room after =>
    obtain rfl := Except.ok.inj h
    exact ⟨rfl, by simp [Chain.phrases], by simp [phrasesOf], fun _ => rfl⟩
  | case2 => simp [fail] at h
  | case3 afterBranch room after brace stop body close next ihbody ihnext =>
    obtain ⟨inner, span, later, rfl, hfrom, hlines, hshaped⟩ :=
      blockThen_reads (fun inner span later => later.cons (.block inner span))
        (fun _ _ _ hr => ihbody _ _ hr) (fun _ => ihnext) h
    exact hfrom.cons hlines hshaped
  | case4 afterBranch room after first more stop next hword ih =>
    obtain ⟨c, hheader, h⟩ := bind_eq_ok.mp h
    obtain ⟨hcond, hcshaped⟩ := header_reads hheader
    cases next with
    | block brace stop' body close next =>
      obtain ⟨inner, span, later, rfl, hfrom, hlines, hshaped⟩ :=
        blockThen_reads (fun inner span later => later.cons
          (.branch c inner later.otherwise (first.span.join (later.lastBlock.getD span))))
          (fun _ _ _ hr => ih.1 _ _ hr) (fun _ => ih.2) h
      exact hfrom.branch (headed_reads hword hcond hlines) hcshaped hshaped
    | _ => simp [fail] at h
  | case5 afterBranch room after first more stop next hword ih =>
    obtain ⟨c, hheader, h⟩ := bind_eq_ok.mp h
    obtain ⟨hcond, hcshaped⟩ := header_reads hheader
    cases next with
    | block brace stop' body close next =>
      obtain ⟨inner, span, later, rfl, hfrom, hlines, hshaped⟩ :=
        blockThen_reads (fun inner span later => later.cons (.loop c inner (first.span.join span)))
          (fun _ _ _ hr => ih.1 _ _ hr) (fun _ => ih.2) h
      refine hfrom.cons (headed_reads hword hcond hlines) fun phrase hm => ?_
      rcases List.mem_cons.mp hm with rfl | hm
      · exact hcshaped
      · exact hshaped phrase hm
    | _ => simp [fail] at h
  | case6 room after first more stop next hword ih =>
    obtain ⟨c, hheader, h⟩ := bind_eq_ok.mp h
    obtain ⟨hcond, hcshaped⟩ := header_reads hheader
    cases next with
    | block brace stop' body close next =>
      obtain ⟨inner, span, later, rfl, hfrom, hlines, hshaped⟩ :=
        blockThen_reads (fun inner span later =>
          ⟨.branch c inner later.otherwise, some (later.lastBlock.getD span), later.statements⟩)
          (fun _ _ _ hr => ih.1 _ _ hr) (fun _ => ih.2) h
      exact hfrom.elif (headed_reads hword hcond hlines) hcshaped hshaped
    | _ => simp [fail] at h
  | case7 => simp [fail] at h
  | case8 room after first more stop next hword ih =>
    obtain ⟨⟨⟩, hend, hrest⟩ := bind_eq_ok.mp h
    obtain rfl := endOfLine_eq_ok.mp hend
    clear h
    cases next with
    | block brace stop' body close next =>
      obtain ⟨inner, span, later, rfl, hfrom, hlines, hshaped⟩ :=
        blockThen_reads (fun inner span later => ⟨.block inner, some span, later.statements⟩)
          (fun _ _ _ hr => ih.1 _ _ hr) (fun _ => ih.2) hrest
      refine ⟨?_, hshaped, hfrom.statements, fun h => absurd h (by decide)⟩
      rw [Outline.lines, statementGlyphs_of_keyword _ hword, hlines, hfrom.lines, hfrom.done rfl]
      rfl
    | _ => simp [fail] at hrest
  | case9 => simp [fail] at h
  | case10 afterBranch room after first more stop next hequal hif hwhile helif helse ih =>
    obtain ⟨stmt, hassign, h⟩ := bind_eq_ok.mp h
    obtain ⟨later, hlater, h⟩ := bind_eq_ok.mp h
    obtain rfl := Except.ok.inj h
    obtain ⟨target, value, span, rfl, hline, htshaped, hvshaped⟩ := assignment_reads hassign
    refine (ih hlater).cons ?_ fun phrase hm => ?_
    · have hother : ∀ word, first.kind ≠ .keyword word := by rintro (_ | _ | _ | _) <;> assumption
      rw [Outline.lines, statementGlyphs_of_not_keyword more hother, if_pos hequal, hline,
        keptLine_assignment, Stmt.lines]
    · obtain rfl := List.mem_singleton.mp hm
      exact ⟨htshaped, hvshaped⟩
  | case11 afterBranch room after first more stop next hequal hif hwhile helif helse ih =>
    obtain ⟨later, hlater, h⟩ := bind_eq_ok.mp h
    obtain rfl := Except.ok.inj h
    have hfrom := ih hlater
    have hother : ∀ word, first.kind ≠ .keyword word := by rintro (_ | _ | _ | _) <;> assumption
    refine ⟨?_, by simp [Chain.phrases], hfrom.statements, fun _ => rfl⟩
    rw [Outline.lines, statementGlyphs_of_not_keyword more hother, if_neg hequal, hfrom.lines,
      hfrom.done rfl]
    rfl

end NumericScript
