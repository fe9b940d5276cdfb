import NumericScript.Proofs.Composition.Program
import NumericScript.Proofs.Faithful.Outline

/-!
# Statements and their lines

Which lines a statement is read from: from the line of its first token to the line of its last one.
What a branch does otherwise follows its block, a block has its braces, and between the statements
of a block there may be lines that say nothing. A script is read exactly so, and the lines of a
statement, when they stand alone, are read as that statement.
-/

namespace NumericScript

/-- Lines that say nothing, because they are empty or ignored. -/
def Silent (lines : List TokenLine) : Prop := ∀ line ∈ lines, lineGlyphs line.tokens = []

/-- A line with the condition of a header, below a word. -/
structure HeaderLine (word : Keyword) (room : Nat) (condition : Cond) (first : Token)
    (more : List Token) (stop : Span) : Prop where
  kind : first.kind = .keyword word
  header : NumericScript.header word room stop more = .ok condition

/-- A line with `else`. -/
structure ElseLine (first : Token) (more : List Token) (_stop : Span) : Prop where
  kind : first.kind = .keyword .elseWord
  alone : more = []

/-- The line of an assignment. -/
inductive AssignLine (room : Nat) (stmt : Stmt) : List TokenLine → Prop
  | intro {first : Token} {more : List Token} {stop : Span}
    (hopen : first.kind ≠ .leftBrace) (hclose : first.kind ≠ .rightBrace)
    (hplain : ∀ word, first.kind ≠ .keyword word) (hequal : hasEqual (first :: more))
    (h : assignment room stop (first :: more) = .ok stmt) :
    AssignLine room stmt [⟨first :: more, stop⟩]

/-- The lines of a block with its braces, where inside there is one level less. -/
inductive BlockLines (inside : Nat → List TokenLine → Prop) : Nat → Span → List TokenLine → Prop
  | intro {room : Nat} {brace close : Token} {stop stop' : Span} {inner : List TokenLine}
    (hbrace : brace.kind = .leftBrace) (hclose : close.kind = .rightBrace) (h : inside room inner) :
    BlockLines inside (room + 1) (brace.span.join close.span)
      (⟨[brace], stop⟩ :: (inner ++ [⟨[close], stop'⟩]))

/-- A line that needs a block and the lines of the block. -/
inductive HeadedLines (head : Token → List Token → Span → Prop) (block : List TokenLine → Prop) :
    Token → List TokenLine → Prop
  | intro {first : Token} {more : List Token} {stop : Span} {gap lines : List TokenLine}
    (hhead : head first more stop) (hgap : Gap gap) (hblock : block lines) :
    HeadedLines head block first (⟨first :: more, stop⟩ :: (gap ++ lines))

mutual

/-- The lines that a statement is read from. -/
def Stmt.Reads (room : Nat) : Stmt → List TokenLine → Prop
  | .assign target value span, lines => AssignLine room (.assign target value span) lines
  | .block body span, lines => BlockLines (readsAll · body) room span lines
  | .branch condition body otherwise span, lines => ∃ first blockSpan last own rest,
    lines = own ++ rest ∧ span = first.span.join (last.getD blockSpan) ∧
      HeadedLines (HeaderLine .ifWord room condition)
        (BlockLines (readsAll · body) room blockSpan) first own ∧
      otherwise.Reads room last rest
  | .loop condition body span, lines => ∃ first blockSpan, span = first.span.join blockSpan ∧
    HeadedLines (HeaderLine .whileWord room condition)
      (BlockLines (readsAll · body) room blockSpan) first lines

/-- The lines that are read as what a branch does otherwise, and the span of the last block. -/
def Chain.Reads (room : Nat) : Chain → Option Span → List TokenLine → Prop
  | .done, last, lines => last = none ∧ lines = []
  | .block body, last, lines => ∃ first blockSpan gap own, lines = gap ++ own ∧
    last = some blockSpan ∧ Gap gap ∧
      HeadedLines ElseLine (BlockLines (readsAll · body) room blockSpan) first own
  | .branch condition body otherwise, last, lines => ∃ first blockSpan last' gap own rest,
    lines = gap ++ (own ++ rest) ∧ last = some (last'.getD blockSpan) ∧ Gap gap ∧
      HeadedLines (HeaderLine .elifWord room condition)
        (BlockLines (readsAll · body) room blockSpan) first own ∧
      otherwise.Reads room last' rest

/-- The lines that statements are read from, with lines that say nothing. -/
def readsAll (room : Nat) : List Stmt → List TokenLine → Prop
  | [], lines => Silent lines
  | stmt :: later, lines => ∃ silent own rest, lines = silent ++ (own ++ rest) ∧ Silent silent ∧
    stmt.Reads room own ∧ readsAll room later rest

end

/-- Lines without tokens say nothing. -/
theorem Gap.silent {gap : List TokenLine} (h : Gap gap) : Silent gap := by
  intro line hm
  rw [h line hm]
  rfl

private theorem readsAll_silent {room : Nat} {stmts : List Stmt} {silent lines : List TokenLine}
    (hsilent : Silent silent) (h : readsAll room stmts lines) :
    readsAll room stmts (silent ++ lines) := by
  cases stmts with
  | nil => exact List.forall_mem_append.mpr ⟨hsilent, h⟩
  | cons stmt later =>
    obtain ⟨silent', own, rest, rfl, hsilent', hread⟩ := h
    exact ⟨silent ++ silent', own, rest, (List.append_assoc ..).symm,
      List.forall_mem_append.mpr ⟨hsilent, hsilent'⟩, hread⟩

/-- What is read from some lines: first what a branch does otherwise, then statements. -/
def Sequel.Reads (read : Sequel) (room : Nat) (lines : List TokenLine) : Prop :=
  ∃ own rest, lines = own ++ rest ∧ read.otherwise.Reads room read.lastBlock own ∧
    readsAll room read.statements rest

section Reading

/-- Where no branch ends, only statements are read. -/
theorem Sequel.Reads.statements {read : Sequel} {room : Nat} {lines : List TokenLine} {after : Span}
    {o : Outline} (h : read.Reads room lines) (hread : sequel false room after o = .ok read) :
    readsAll room read.statements lines := by
  obtain ⟨own, rest, rfl, hchain, hstmts⟩ := h
  rw [(sequel_readFrom hread).done rfl] at hchain
  obtain ⟨_, rfl⟩ := hchain
  exact hstmts

private theorem Sequel.Reads.of_statements {stmts : List Stmt} {room : Nat} {lines : List TokenLine}
    (h : readsAll room stmts lines) : Sequel.Reads ⟨.done, none, stmts⟩ room lines :=
  ⟨[], lines, rfl, ⟨rfl, rfl⟩, h⟩

/-- A block that is read is closed, and its span goes from brace to brace. -/
theorem blockBody_some_eq_ok {room : Nat} {after stop span : Span} {brace close : Token}
    {read : Nat → Span → Except ScriptError Sequel} {inner : List Stmt}
    (h : blockBody room after brace stop (some close) read = .ok (inner, span)) :
    ∃ lower body, room = lower + 1 ∧ read lower close.span = .ok body ∧
      inner = body.statements ∧ span = brace.span.join close.span := by
  cases room with
  | zero => cases h
  | succ lower =>
    obtain ⟨body, hbody, h⟩ := bind_eq_ok.mp h
    obtain ⟨rfl, rfl⟩ := Prod.mk.inj (Except.ok.inj h)
    exact ⟨lower, body, rfl, hbody, rfl, rfl⟩

variable {afterBlock : Bool} {room : Nat} {after : Span} {read : Sequel}

/-- A block and what follows it are read from lines that stand side by side. -/
theorem reads_blockThen {brace : Token} {stop : Span} {body next : Outline} {close : Option Token}
    {combine : List Stmt → Span → Sequel → Sequel} {lines : List TokenLine}
    (hof : (Outline.block brace stop body close next).Of lines)
    (hbody : ∀ room after read lines, sequel false room after body = .ok read → body.Of lines →
      read.Reads room lines)
    (hnext : ∀ read lines, sequel afterBlock room after next = .ok read → next.Of lines →
      read.Reads room lines)
    (h : blockThen afterBlock room after brace stop body close next combine = .ok read) :
    ∃ gap own rest inner span later, lines = gap ++ (own ++ rest) ∧ Gap gap ∧
      BlockLines (readsAll · inner) room span own ∧ later.Reads room rest ∧
      sequel afterBlock room after next = .ok later ∧ read = combine inner span later := by
  obtain ⟨⟨inner, span⟩, hblock, hrest⟩ := bind_eq_ok.mp h
  obtain ⟨later, hlater, hread⟩ := bind_eq_ok.mp hrest
  cases hof with
  | @block gap lines rest _ close _ stop' _ _ hgap hbrace hclose hofBody hofNext =>
    obtain ⟨lower, body', rfl, hinside, rfl, rfl⟩ := blockBody_some_eq_ok hblock
    have hstmts := (hbody lower close.span body' lines hinside hofBody).statements hinside
    refine ⟨gap, ⟨[brace], stop⟩ :: (lines ++ [⟨[close], stop'⟩]), rest, _, _, later, by simp, hgap,
      .intro hbrace hclose hstmts, hnext later rest hlater hofNext, hlater,
      (Except.ok.inj hread).symm⟩

/-- A line that needs a block, the block and what follows it are read one after the other. -/
theorem reads_headed {α : Type} {head : Except ScriptError α} {clause : Clause}
    {combine : α → List Stmt → Span → Sequel → Sequel} {first : Token} {more : List Token}
    {stop : Span} {next : Outline} {lines : List TokenLine}
    (hof : (Outline.line first more stop next).Of lines)
    (hblock : ∀ brace stop body close later, next = .block brace stop body close later →
      (∀ room after read lines, sequel false room after body = .ok read → body.Of lines →
        read.Reads room lines) ∧
      ∀ read lines, sequel afterBlock room after later = .ok read → later.Of lines →
        read.Reads room lines)
    (h : headed head clause afterBlock room after next combine = .ok read) :
    ∃ gap own rest a inner span o later, lines = gap ++ (own ++ rest) ∧ Gap gap ∧ head = .ok a ∧
      (∀ P : Token → List Token → Span → Prop, P first more stop →
        HeadedLines P (BlockLines (readsAll · inner) room span) first own) ∧
      later.Reads room rest ∧ sequel afterBlock room after o = .ok later ∧
      read = combine a inner span later := by
  obtain ⟨a, hhead, h⟩ := bind_eq_ok.mp h
  cases next with
  | block brace stop' body close later =>
    cases hof with
    | line hgap hopen hclose hofNext =>
      obtain ⟨hbody, hnext⟩ := hblock brace stop' body close later rfl
      obtain ⟨gap', own, rest, inner, span, last, rfl, hgap', hown, hlast, hread, rfl⟩ :=
        reads_blockThen hofNext hbody hnext h
      exact ⟨_, ⟨first :: more, stop⟩ :: (gap' ++ own), rest, a, inner, span, later, last,
        by simp, hgap, hhead, fun P hP => .intro hP hgap' hown, hlast, hread, rfl⟩
  | done => cases h
  | line => cases h
  | stray => cases h

/-- Whatever is read from the outline of some lines is read from these lines. -/
theorem reads_of_sequel {afterBranch : Bool} {o : Outline} {lines : List TokenLine}
    (h : sequel afterBranch room after o = .ok read) (hof : o.Of lines) :
    read.Reads room lines := by
  induction afterBranch, room, after, o using sequel.induct generalizing read lines with
  | case1 =>
    obtain rfl := Except.ok.inj h
    cases hof with
    | done hgap => exact .of_statements hgap.silent
  | case2 => cases h
  | case3 afterBranch room after brace stop body close next ihbody ihnext =>
    rw [sequel_block] at h
    obtain ⟨gap, own, rest, inner, span, later, rfl, hgap, hown, hlater, hread, rfl⟩ :=
      reads_blockThen hof (fun room after _ _ => ihbody room after) (fun _ _ => ihnext) h
    exact .of_statements ⟨gap, own, rest, rfl, hgap.silent, hown, hlater.statements hread⟩
  | case4 afterBranch room after first more stop next hword ih =>
    rw [sequel_if hword] at h
    obtain ⟨gap, own, rest, c, inner, span, o, later, rfl, hgap, hhead, hown, hlater, _, rfl⟩ :=
      reads_headed hof (by
        rintro brace stop body close later rfl
        exact ⟨fun room after _ _ => ih.1 room after, fun _ _ => ih.2⟩) h
    obtain ⟨chain, stmts, rfl, hchain, hstmts⟩ := hlater
    refine .of_statements ⟨gap, own ++ chain, stmts, by simp, hgap.silent, ?_, hstmts⟩
    exact ⟨first, span, later.lastBlock, own, chain, rfl, rfl, hown _ ⟨hword, hhead⟩, hchain⟩
  | case5 afterBranch room after first more stop next hword ih =>
    rw [sequel_while hword] at h
    obtain ⟨gap, own, rest, c, inner, span, o, later, rfl, hgap, hhead, hown, hlater, hread, rfl⟩ :=
      reads_headed hof (by
        rintro brace stop body close later rfl
        exact ⟨fun room after _ _ => ih.1 room after, fun _ _ => ih.2⟩) h
    refine .of_statements ⟨gap, own, rest, rfl, hgap.silent, ?_, hlater.statements hread⟩
    exact ⟨first, span, rfl, hown _ ⟨hword, hhead⟩⟩
  | case6 room after first more stop next hword ih =>
    rw [sequel_elif hword] at h
    obtain ⟨gap, own, rest, c, inner, span, o, later, rfl, hgap, hhead, hown, hlater, _, rfl⟩ :=
      reads_headed hof (by
        rintro brace stop body close later rfl
        exact ⟨fun room after _ _ => ih.1 room after, fun _ _ => ih.2⟩) h
    obtain ⟨chain, stmts, rfl, hchain, hstmts⟩ := hlater
    exact ⟨gap ++ (own ++ chain), stmts, by simp, ⟨first, span, later.lastBlock, gap, own, chain,
      rfl, rfl, hgap, hown _ ⟨hword, hhead⟩, hchain⟩, hstmts⟩
  | case7 afterBranch room after first more stop next hword hbranch =>
    rw [Bool.eq_false_of_not_eq_true hbranch, sequel_dangling (.inl hword)] at h
    cases h
  | case8 room after first more stop next hword ih =>
    rw [sequel_else hword] at h
    obtain ⟨gap, own, rest, ⟨⟩, inner, span, o, later, rfl, hgap, hhead, hown, hlater, hread,
      rfl⟩ :=
      reads_headed hof (by
        rintro brace stop body close later rfl
        exact ⟨fun room after _ _ => ih.1 room after, fun _ _ => ih.2⟩) h
    have helse : ElseLine first more stop := ⟨hword, endOfLine_eq_ok.mp hhead⟩
    exact ⟨gap ++ own, rest, by simp, ⟨first, span, gap, own, rfl, rfl, hgap, hown _ helse⟩,
      hlater.statements hread⟩
  | case9 afterBranch room after first more stop next hword hbranch =>
    rw [Bool.eq_false_of_not_eq_true hbranch, sequel_dangling (.inr hword)] at h
    cases h
  | case10 afterBranch room after first more stop next hequal hif hwhile helif helse ih =>
    have hplain : ∀ word, first.kind ≠ .keyword word := by rintro (_ | _ | _ | _) <;> assumption
    rw [sequel_plain hplain, if_pos hequal] at h
    obtain ⟨stmt, hstmt, h⟩ := bind_eq_ok.mp h
    obtain ⟨later, hlater, h⟩ := bind_eq_ok.mp h
    obtain rfl := Except.ok.inj h
    cases hof with
    | line hgap hopen hclose hnext =>
      have hstmts := (ih hlater hnext).statements hlater
      obtain ⟨target, value, span, rfl, _⟩ := assignment_reads hstmt
      exact .of_statements ⟨_, _, _, rfl, hgap.silent,
        AssignLine.intro hopen hclose hplain hequal hstmt, hstmts⟩
  | case11 afterBranch room after first more stop next hequal hif hwhile helif helse ih =>
    have hplain : ∀ word, first.kind ≠ .keyword word := by rintro (_ | _ | _ | _) <;> assumption
    rw [sequel_plain hplain, if_neg hequal] at h
    obtain ⟨later, hlater, h⟩ := bind_eq_ok.mp h
    obtain rfl := Except.ok.inj h
    cases hof with
    | @line gap rest _ _ _ _ hgap hopen hclose hnext =>
      have hstmts := (ih hlater hnext).statements hlater
      have hline : lineGlyphs (first :: more) = [] := by
        rw [lineGlyphs_of_not_brace more hopen hclose, statementGlyphs_of_not_keyword more hplain,
          if_neg hequal]
      have hsilent : Silent [⟨first :: more, stop⟩] := by simpa [Silent] using hline
      exact .of_statements (readsAll_silent hgap.silent (readsAll_silent hsilent hstmts))

end Reading

section Back

/-- A line that says nothing begins with no brace and no keyword and holds no equality sign. -/
theorem ignored_of_lineGlyphs {first : Token} {more : List Token}
    (h : lineGlyphs (first :: more) = []) :
    first.kind ≠ .leftBrace ∧ first.kind ≠ .rightBrace ∧ (∀ word, first.kind ≠ .keyword word) ∧
      ¬hasEqual (first :: more) := by
  have hopen : first.kind ≠ .leftBrace := by
    intro hkind
    rw [lineGlyphs_of_brace more (.inl hkind)] at h
    cases h
  have hclose : first.kind ≠ .rightBrace := by
    intro hkind
    rw [lineGlyphs_of_brace more (.inr hkind)] at h
    cases h
  rw [lineGlyphs_of_not_brace more hopen hclose] at h
  have hplain : ∀ word, first.kind ≠ .keyword word := by
    intro word hkind
    rw [statementGlyphs_of_keyword more hkind] at h
    cases h
  refine ⟨hopen, hclose, hplain, fun hequal => ?_⟩
  rw [statementGlyphs_of_not_keyword more hplain, if_pos hequal] at h
  cases h

/-- Lines that say nothing are read as no statement. -/
theorem isRead_of_silent {lines : List TokenLine} (h : Silent lines) :
    ∃ o : Outline, o.Of lines ∧ ∀ room after, o.IsRead room after [] := by
  induction lines with
  | nil => exact ⟨.done, .done (List.forall_mem_nil _), fun _ _ _ => rfl⟩
  | cons line lines ih =>
    obtain ⟨hline, hlines⟩ := List.forall_mem_cons.mp h
    obtain ⟨o, hof, hread⟩ := ih hlines
    obtain ⟨tokens, stop⟩ := line
    rcases tokens with _ | ⟨first, more⟩
    · have hgap : Gap [⟨[], stop⟩] := by simp [Gap]
      exact ⟨o, hof.gap hgap, hread⟩
    · obtain ⟨hopen, hclose, hplain, hequal⟩ := ignored_of_lineGlyphs hline
      refine ⟨.line first more stop o, .line (List.forall_mem_nil _) hopen hclose hof, ?_⟩
      intro room after afterBranch
      rw [sequel_plain hplain, if_neg hequal]
      exact bind_eq_ok.mpr ⟨_, hread room after false, rfl⟩

private theorem Outline.IsRead.append {o later : Outline} {room : Nat} {after : Span}
    {stmts more : List Stmt} (h : o.IsRead room after stmts)
    (hlater : later.IsRead room after more) : (o.append later).IsRead room after (stmts ++ more) :=
  fun afterBranch => (goesOn_of_sequel (h afterBranch)).append hlater

/-- Lines that are read as statements, with their outline. -/
def IsReadAs (room : Nat) (stmts : List Stmt) (lines : List TokenLine) : Prop :=
  ∃ o : Outline, o.Of lines ∧ ∀ after, o.IsRead room after stmts

/-- The lines of a block are one block of their outline. -/
theorem exists_block {room : Nat} {body : List Stmt} {span : Span} {lines : List TokenLine}
    (h : BlockLines (IsReadAs · body) room span lines) :
    ∃ brace stop o close, (∀ (next : Outline) later, next.Of later →
      (Outline.block brace stop o (some close) next).Of (lines ++ later)) ∧
      ∀ after, blockBody room after brace stop (some close)
        (fun room after => sequel false room after o) = .ok (body, span) := by
  cases h with
  | @intro room brace close stop stop' inner hbrace hclose h =>
    obtain ⟨o, hof, hread⟩ := h
    refine ⟨brace, stop, o, close, fun next later hnext => ?_, fun after => ?_⟩
    · have hblock : (Outline.block brace stop o (some close) next).Of
          ([] ++ ⟨[brace], stop⟩ :: (inner ++ ⟨[close], stop'⟩ :: later)) :=
        .block (List.forall_mem_nil _) hbrace hclose hof hnext
      simpa using hblock
    · exact bind_eq_ok.mpr ⟨_, hread close.span false, rfl⟩

/-- A line that needs a block stands before the block in the outline. -/
theorem exists_headed {P : Token → List Token → Span → Prop} {room : Nat} {body : List Stmt}
    {span : Span} {first : Token} {lines : List TokenLine} {word : Keyword}
    (hword : ∀ more stop, P first more stop → first.kind = .keyword word)
    (h : HeadedLines P (BlockLines (IsReadAs · body) room span) first lines) :
    ∃ more stop brace stop' o close, P first more stop ∧
      (∀ (next : Outline) later, next.Of later →
        (Outline.line first more stop (.block brace stop' o (some close) next)).Of
          (lines ++ later)) ∧
      ∀ after, blockBody room after brace stop' (some close)
        (fun room after => sequel false room after o) = .ok (body, span) := by
  cases h with
  | @intro more stop gap lines hhead hgap hblock =>
    obtain ⟨brace, stop', o, close, hof, hbody⟩ := exists_block hblock
    have hkind := hword more stop hhead
    refine ⟨more, stop, brace, stop', o, close, hhead, fun next later hnext => ?_, hbody⟩
    have hline : (Outline.line first more stop (.block brace stop' o (some close) next)).Of
        ([] ++ ⟨first :: more, stop⟩ :: (gap ++ (lines ++ later))) :=
      .line (List.forall_mem_nil _) (by simp [hkind]) (by simp [hkind])
        ((hof next later hnext).gap hgap)
    simpa using hline

private theorem BlockLines.imp {inside inside' : Nat → List TokenLine → Prop} {room : Nat}
    {span : Span} {lines : List TokenLine} (h : BlockLines inside room span lines)
    (himp : ∀ room lines, inside room lines → inside' room lines) :
    BlockLines inside' room span lines := by
  cases h with
  | intro hbrace hclose h => exact .intro hbrace hclose (himp _ _ h)

private theorem HeadedLines.imp {P : Token → List Token → Span → Prop}
    {block block' : List TokenLine → Prop}
    {first : Token} {lines : List TokenLine} (h : HeadedLines P block first lines)
    (himp : ∀ lines, block lines → block' lines) : HeadedLines P block' first lines := by
  cases h with
  | intro hhead hgap h => exact .intro hhead hgap (himp _ h)

mutual

/-- The lines of a statement are read as that statement. -/
theorem Stmt.isReadAs {room : Nat} : ∀ (s : Stmt) {lines : List TokenLine}, s.Reads room lines →
    IsReadAs room [s] lines
  | .assign target value span, lines, h => by
    cases h with
    | intro hopen hclose hplain hequal h =>
      refine ⟨_, .line (List.forall_mem_nil _) hopen hclose (.done (List.forall_mem_nil _)), ?_⟩
      intro after afterBranch
      rw [sequel_plain hplain, if_pos hequal]
      exact bind_eq_ok.mpr ⟨_, h, rfl⟩
  | .block body span, lines, h => by
    obtain ⟨brace, stop, o, close, hof, hbody⟩ :=
      exists_block (BlockLines.imp h fun room lines => isReadAs_readsAll body)
    have hown := hof .done [] (.done (List.forall_mem_nil _))
    rw [List.append_nil] at hown
    refine ⟨_, hown, fun after afterBranch => ?_⟩
    rw [sequel_block]
    exact bind_eq_ok.mpr ⟨_, hbody after, rfl⟩
  | .branch condition body otherwise span, lines, h => by
    obtain ⟨first, blockSpan, last, own, rest, rfl, rfl, hown, hrest⟩ := h
    obtain ⟨more, stop, brace, stop', o, close, hhead, hof, hbody⟩ :=
      exists_headed (fun _ _ => HeaderLine.kind)
        (hown.imp fun _ hblock => hblock.imp fun room lines => isReadAs_readsAll body)
    obtain ⟨next, hofNext, hnext⟩ := otherwise.exists_sequel hrest
    refine ⟨_, hof next rest hofNext, ?_⟩
    intro after afterBranch
    rw [sequel_if hhead.kind]
    refine bind_eq_ok.mpr ⟨condition, hhead.header, ?_⟩
    exact bind_eq_ok.mpr ⟨_, hbody after, bind_eq_ok.mpr ⟨_, hnext after, rfl⟩⟩
  | .loop condition body span, lines, h => by
    obtain ⟨first, blockSpan, rfl, hown⟩ := h
    obtain ⟨more, stop, brace, stop', o, close, hhead, hof, hbody⟩ :=
      exists_headed (fun _ _ => HeaderLine.kind)
        (hown.imp fun _ hblock => hblock.imp fun room lines => isReadAs_readsAll body)
    have hown := hof .done [] (.done (List.forall_mem_nil _))
    rw [List.append_nil] at hown
    refine ⟨_, hown, fun after afterBranch => ?_⟩
    rw [sequel_while hhead.kind]
    refine bind_eq_ok.mpr ⟨condition, hhead.header, ?_⟩
    exact bind_eq_ok.mpr ⟨_, hbody after, rfl⟩

/-- The lines of what a branch does otherwise are read as that. -/
theorem Chain.exists_sequel {room : Nat} : ∀ (chain : Chain) {last : Option Span}
    {lines : List TokenLine}, chain.Reads room last lines →
    ∃ o : Outline, o.Of lines ∧ ∀ after, sequel true room after o = .ok ⟨chain, last, []⟩
  | .done, last, lines, h => by
    obtain ⟨rfl, rfl⟩ := h
    exact ⟨.done, .done (List.forall_mem_nil _), fun _ => rfl⟩
  | .block body, last, lines, h => by
    obtain ⟨first, blockSpan, gap, own, rfl, rfl, hgap, hown⟩ := h
    obtain ⟨more, stop, brace, stop', o, close, hhead, hof, hbody⟩ :=
      exists_headed (fun _ _ => ElseLine.kind)
        (hown.imp fun _ hblock => hblock.imp fun room lines => isReadAs_readsAll body)
    have hown := hof .done [] (.done (List.forall_mem_nil _))
    rw [List.append_nil] at hown
    refine ⟨_, hown.gap hgap, fun after => ?_⟩
    rw [sequel_else hhead.kind]
    refine bind_eq_ok.mpr ⟨(), endOfLine_eq_ok.mpr hhead.alone, ?_⟩
    exact bind_eq_ok.mpr ⟨_, hbody after, rfl⟩
  | .branch condition body otherwise, last, lines, h => by
    obtain ⟨first, blockSpan, last', gap, own, rest, rfl, rfl, hgap, hown, hrest⟩ := h
    obtain ⟨more, stop, brace, stop', o, close, hhead, hof, hbody⟩ :=
      exists_headed (fun _ _ => HeaderLine.kind)
        (hown.imp fun _ hblock => hblock.imp fun room lines => isReadAs_readsAll body)
    obtain ⟨next, hofNext, hnext⟩ := otherwise.exists_sequel hrest
    refine ⟨_, (hof next rest hofNext).gap hgap, fun after => ?_⟩
    rw [sequel_elif hhead.kind]
    refine bind_eq_ok.mpr ⟨condition, hhead.header, ?_⟩
    exact bind_eq_ok.mpr ⟨_, hbody after, bind_eq_ok.mpr ⟨_, hnext after, rfl⟩⟩

/-- The lines of statements are read as these statements. -/
theorem isReadAs_readsAll {room : Nat} : ∀ (stmts : List Stmt) {lines : List TokenLine},
    readsAll room stmts lines → IsReadAs room stmts lines
  | [], lines, h =>
    let ⟨o, hof, hread⟩ := isRead_of_silent h
    ⟨o, hof, hread room⟩
  | stmt :: later, lines, h => by
    obtain ⟨silent, own, rest, rfl, hsilent, hown, hrest⟩ := h
    obtain ⟨o, hof, hread⟩ := isRead_of_silent hsilent
    obtain ⟨oOwn, hofOwn, hreadOwn⟩ := stmt.isReadAs hown
    obtain ⟨oRest, hofRest, hreadRest⟩ := isReadAs_readsAll later hrest
    refine ⟨_, hof.append (hofOwn.append hofRest), fun after => ?_⟩
    exact (hread room after).append ((hreadOwn after).append (hreadRest after))

end

/-- Lines from which statements are read one by one read as a script of these statements. -/
theorem readProgram_of_readsAll {limit : Nat} {lines : List TokenLine} {stmts : List Stmt}
    (h : readsAll limit stmts lines) : readProgram limit lines = .ok stmts := by
  obtain ⟨o, hof, hread⟩ := isReadAs_readsAll stmts h
  have hsequel := hread (.point 0 0) false
  rw [← hof.ofLines_eq] at hsequel
  exact readProgram_of_sequel hsequel

/-- A script is read from its lines. -/
theorem readProgram_iff {limit : Nat} {lines : List TokenLine} {stmts : List Stmt}
    (halone : ∀ line ∈ lines, BracesAlone line) :
    readProgram limit lines = .ok stmts ↔ readsAll limit stmts lines := by
  refine ⟨fun h => ?_, readProgram_of_readsAll⟩
  obtain ⟨read, hread, rfl⟩ := exists_sequel_of_readProgram h (.point 0 0)
  have hof := Outline.of_ofLines halone (goesOn_of_sequel hread).matched
  exact (reads_of_sequel hread hof).statements hread

end Back

end NumericScript
