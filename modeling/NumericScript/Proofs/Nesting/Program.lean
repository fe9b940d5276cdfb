import NumericScript.Proofs.Nesting.Line
import NumericScript.Proofs.Nesting.Outline

/-!
# Reading the lines of statements

Lines of tokens that are the lines of some statements are read as those statements if the levels of
their operands and blocks fit, and otherwise refused as too deep.
-/

namespace NumericScript

/-- What is read from some lines is what is expected, without its places. -/
def Sequel.Is (chain : Chain) (stmts : List Stmt) (read : Sequel) : Prop :=
  read.otherwise.bare = chain.bare ∧ bareOf read.statements = bareOf stmts

/-- Lines are settled as what a branch does otherwise and the statements after that. -/
def Outline.Settled (o : Outline) (afterBranch : Bool) (chain : Chain) (stmts : List Stmt) : Prop :=
  ∀ room after, Settles (Within (chain.levels ++ levelsOf stmts) room) (Sequel.Is chain stmts) .ok
    (sequel afterBranch room after o)

/-- Phrases that can be read: in the shape of precedence, and with a name to write to. -/
def Readable (phrases : List Phrase) : Prop := ∀ phrase ∈ phrases, phrase.Shaped ∧ phrase.Named

private theorem readable_append {phrases later : List Phrase} :
    Readable (phrases ++ later) ↔ Readable phrases ∧ Readable later :=
  List.forall_mem_append

/-- Phrases can be read if the first one can and the others can. -/
theorem readable_cons {phrase : Phrase} {later : List Phrase} :
    Readable (phrase :: later) ↔ (phrase.Shaped ∧ phrase.Named) ∧ Readable later :=
  List.forall_mem_cons

private theorem Outline.settled_done (afterBranch : Bool) :
    Outline.done.Settled afterBranch .done [] :=
  fun _ _ => .inl ⟨nofun, _, ⟨rfl, rfl⟩, rfl⟩

private theorem within_statement (s : Stmt) {later : List Stmt} {room : Nat} :
    Within (Chain.done.levels ++ levelsOf (s :: later)) room ↔
      Within s.levels room ∧ Within (Chain.done.levels ++ levelsOf later) room := by
  simp only [Chain.levels, levelsOf, List.nil_append, within_append]

section Headed

variable {o start next : Outline} {later : List Stmt}

private theorem settled_assign {target : Target} {value : Expr} {span : Span} {afterBranch : Bool}
    (hline : o.HasLine (assignmentLine target value) next)
    (hread : Readable [.assignment target value]) (hnext : next.Settled false .done later) :
    o.Settled afterBranch .done (.assign target value span :: later) := by
  obtain ⟨first, more, stop, rfl, hglyphs⟩ := hline
  obtain ⟨⟨⟨htarget, hvalue⟩, hnamed⟩, _⟩ := readable_cons.mp hread
  intro room after
  have hkinds : ∃ name glyphs, assignmentLine target value = .target name :: glyphs := by
    cases target <;> exact ⟨_, _, rfl⟩
  obtain ⟨name, glyphs, hname⟩ := hkinds
  obtain ⟨_, _, hcons, _, _, hkeyword, hequal, hassign⟩ :=
    lineGlyphs_eq_target (hglyphs.trans hname)
  obtain ⟨rfl, rfl⟩ := List.cons.inj hcons
  have hsequel : sequel afterBranch room after (.line first more stop next) = (do
      let stmt ← assignment room stop (first :: more)
      let later ← sequel false room after next
      .ok (later.cons stmt)) := by
    conv => lhs; unfold sequel
    dsimp only
    split
    case h_5 => rw [if_pos hequal]
    all_goals exact absurd (by assumption) (hkeyword _)
  rw [hsequel]
  refine (((settles_assignment htarget hvalue hnamed span room stop
    (hassign.trans hname.symm)).bind _).trans fun stmt hstmt => ?_).congr
    (within_statement _)
  rw [ok_bind]
  refine ((hnext room after).bind _).map (fun later => later.cons stmt) (fun later hlater => ?_)
    fun _ _ => rfl
  exact ⟨rfl, by simp only [Sequel.cons, bareOf, hstmt, hlater.2]⟩

/-- A block and what follows it are settled together. -/
theorem settles_blockThen {inner : Outline} {body : List Stmt} {afterBranch : Bool} {chain : Chain}
    (hinner : inner.Settled false .done body) (hnext : next.Settled afterBranch chain later)
    (f : List Stmt → Span → Sequel → Sequel) (room : Nat) (after stop : Span)
    (brace close : Token) :
    Settles (Within (blockLevels (levelsOf body) ++ (chain.levels ++ levelsOf later)) room)
      (fun result => ∃ inner span rest, bareOf inner = bareOf body ∧ rest.Is chain later ∧
        result = f inner span rest) .ok
      (do
        let (inner, span) ←
          blockBody room after brace stop (some close) fun room after =>
            sequel false room after inner
        let rest ← sequel afterBranch room after next
        .ok (f inner span rest)) := by
  refine (((settles_block hinner).bind _).trans fun result hresult => ?_).congr within_append
  obtain ⟨body', hbody, heq⟩ := hresult
  rw [ok_bind]
  refine ((hnext room after).bind _).map (fun rest => f result.1 result.2 rest)
    (fun rest hrest => ?_) fun _ _ => rfl
  exact ⟨result.1, result.2, rest, heq ▸ hbody.2, hrest, rfl⟩

private theorem settled_block {body : List Stmt} {span : Span} {afterBranch : Bool}
    (hblock : o.HasBlock (Outline.Settled · false .done body) next)
    (hnext : next.Settled false .done later) :
    o.Settled afterBranch .done (.block body span :: later) := by
  obtain ⟨brace, stop, inner, close, rfl, hinner⟩ := hblock
  intro room after
  rw [sequel]
  refine ((settles_blockThen hinner hnext (fun inner span rest => rest.cons (.block inner span))
    room after stop brace close).map id ?_ fun _ _ => rfl).congr ?_
  · rintro _ ⟨inner, span, rest, hbody, hrest, rfl⟩
    exact ⟨rfl, by simp only [id, Sequel.cons, bareOf, Stmt.bare, hbody, hrest.2]⟩
  · simp only [Chain.levels, levelsOf, Stmt.levels, List.nil_append, within_append]

/-- A header is settled together with its block and what follows. -/
theorem settles_headed {condition : Cond} {inner : Outline} {body : List Stmt} {afterBranch : Bool}
    {chain : Chain} {more : List Token} (hshaped : condition.Shaped)
    (hmore : more.map Token.glyph = parenthesized condition.glyphs)
    (hinner : inner.Settled false .done body) (hnext : next.Settled afterBranch chain later)
    (word : Keyword) (f : Cond → List Stmt → Span → Sequel → Sequel) (room : Nat)
    (after stop stop' : Span) (brace close : Token) :
    Settles (Within (condition.levels ++ (blockLevels (levelsOf body) ++
        (chain.levels ++ levelsOf later))) room)
      (fun result => ∃ c inner span rest, c.bare = condition.bare ∧ bareOf inner = bareOf body ∧
        rest.Is chain later ∧ result = f c inner span rest) .ok
      (do
        let c ← header word room stop more
        let (inner, span) ←
          blockBody room after brace stop' (some close) fun room after =>
            sequel false room after inner
        let rest ← sequel afterBranch room after next
        .ok (f c inner span rest)) := by
  refine (((settles_header hshaped word room stop hmore).bind _).trans fun c hc =>
    ((settles_blockThen hinner hnext (f c) room after stop' brace close).map id ?_
      fun _ _ => rfl)).congr within_append
  rintro _ ⟨inner, span, rest, hbody, hrest, rfl⟩
  exact ⟨c, inner, span, rest, hc, hbody, hrest, rfl⟩

private theorem settled_loop {condition : Cond} {body : List Stmt} {span : Span}
    {afterBranch : Bool}
    (hline : o.HasLine (headerLine .whileWord condition) start) (hshaped : condition.Shaped)
    (hblock : start.HasBlock (Outline.Settled · false .done body) next)
    (hnext : next.Settled false .done later) :
    o.Settled afterBranch .done (.loop condition body span :: later) := by
  obtain ⟨first, more, stop, rfl, hkind, hmore⟩ := hline.exists_mark
  obtain ⟨brace, stop', inner, close, rfl, hinner⟩ := hblock
  intro room after
  simp only [sequel, hkind]
  refine ((settles_headed hshaped hmore hinner hnext .whileWord
    (fun c inner span rest => rest.cons (.loop c inner (first.span.join span)))
    room after stop stop' brace close).map id ?_ fun _ _ => rfl).congr ?_
  · rintro _ ⟨c, inner, span, rest, hc, hbody, hrest, rfl⟩
    exact ⟨rfl, by simp only [id, Sequel.cons, bareOf, Stmt.bare, hc, hbody, hrest.2]⟩
  · simp only [Chain.levels, levelsOf, Stmt.levels, List.nil_append, List.append_assoc]

private theorem settled_branch {condition : Cond} {body : List Stmt} {otherwise : Chain}
    {span : Span} {afterBranch : Bool}
    (hline : o.HasLine (headerLine .ifWord condition) start) (hshaped : condition.Shaped)
    (hblock : start.HasBlock (Outline.Settled · false .done body) next)
    (hnext : next.Settled true otherwise later) :
    o.Settled afterBranch .done (.branch condition body otherwise span :: later) := by
  obtain ⟨first, more, stop, rfl, hkind, hmore⟩ := hline.exists_mark
  obtain ⟨brace, stop', inner, close, rfl, hinner⟩ := hblock
  intro room after
  simp only [sequel, hkind]
  refine ((settles_headed hshaped hmore hinner hnext .ifWord
    (fun c inner span rest => rest.cons
      (.branch c inner rest.otherwise (first.span.join (rest.lastBlock.getD span))))
    room after stop stop' brace close).map id ?_ fun _ _ => rfl).congr ?_
  · rintro _ ⟨c, inner, span, rest, hc, hbody, hrest, rfl⟩
    exact ⟨rfl, by simp only [id, Sequel.cons, bareOf, Stmt.bare, hc, hbody, hrest.1, hrest.2]⟩
  · simp only [Chain.levels, levelsOf, Stmt.levels, List.nil_append, List.append_assoc]

private theorem settled_elif {condition : Cond} {body : List Stmt} {otherwise : Chain}
    (hline : o.HasLine (headerLine .elifWord condition) start) (hshaped : condition.Shaped)
    (hblock : start.HasBlock (Outline.Settled · false .done body) next)
    (hnext : next.Settled true otherwise later) :
    o.Settled true (.branch condition body otherwise) later := by
  obtain ⟨first, more, stop, rfl, hkind, hmore⟩ := hline.exists_mark
  obtain ⟨brace, stop', inner, close, rfl, hinner⟩ := hblock
  intro room after
  simp only [sequel, hkind, if_true]
  refine ((settles_headed hshaped hmore hinner hnext .elifWord
    (fun c inner span rest =>
      ⟨.branch c inner rest.otherwise, some (rest.lastBlock.getD span), rest.statements⟩)
    room after stop stop' brace close).map id ?_ fun _ _ => rfl).congr ?_
  · rintro _ ⟨c, inner, span, rest, hc, hbody, hrest, rfl⟩
    exact ⟨by simp only [id, Chain.bare, hc, hbody, hrest.1], hrest.2⟩
  · simp only [Chain.levels, List.append_assoc]

private theorem settled_else {body : List Stmt}
    (hline : o.HasLine [.mark (.keyword .elseWord)] start)
    (hblock : start.HasBlock (Outline.Settled · false .done body) next)
    (hnext : next.Settled false .done later) : o.Settled true (.block body) later := by
  obtain ⟨first, more, stop, rfl, hkind, hmore⟩ := hline.exists_mark
  obtain ⟨brace, stop', inner, close, rfl, hinner⟩ := hblock
  obtain rfl := List.map_eq_nil_iff.mp hmore
  intro room after
  simp only [sequel, hkind, if_true, endOfLine_eq_ok.mpr rfl, ok_bind]
  refine (settles_blockThen hinner hnext (fun inner span rest =>
    ⟨.block inner, some span, rest.statements⟩) room after stop' brace close).map id ?_
    fun _ _ => rfl
  rintro _ ⟨inner, span, rest, hbody, hrest, rfl⟩
  exact ⟨by simp only [id, Chain.bare, hbody], hrest.2⟩

end Headed

private theorem Outline.HasBlock.imp {inside inside' : Outline → Prop} {o next : Outline}
    (h : o.HasBlock inside next) (himp : ∀ body, inside body → inside' body) :
    o.HasBlock inside' next := by
  obtain ⟨brace, stop, body, close, rfl, hbody⟩ := h
  exact ⟨brace, stop, body, close, rfl, himp body hbody⟩

mutual

/-- A statement is settled if the statements after it are. -/
theorem Stmt.settled (s : Stmt) {o next : Outline} {later : List Stmt} (hheads : s.Heads o next)
    (hread : Readable s.phrases) (hnext : ∀ afterBranch, next.Settled afterBranch .done later)
    (afterBranch : Bool) : o.Settled afterBranch .done (s :: later) := by
  match s with
  | .assign target value span => exact settled_assign hheads hread (hnext false)
  | .block body span =>
    have hblock := hheads.imp fun inner hinner => settled_linesOf body hinner hread false
    exact settled_block hblock (hnext false)
  | .branch condition body otherwise span =>
    obtain ⟨start, hline, after, hblock, hotherwise⟩ := hheads
    obtain ⟨⟨hshaped, _⟩, hread⟩ := readable_cons.mp hread
    obtain ⟨hbody, hchain⟩ := readable_append.mp hread
    have hblock := hblock.imp fun inner hinner => settled_linesOf body hinner hbody false
    exact settled_branch hline hshaped hblock (otherwise.settled hotherwise hchain hnext)
  | .loop condition body span =>
    obtain ⟨start, hline, hblock⟩ := hheads
    obtain ⟨⟨hshaped, _⟩, hbody⟩ := readable_cons.mp hread
    have hblock := hblock.imp fun inner hinner => settled_linesOf body hinner hbody false
    exact settled_loop hline hshaped hblock (hnext false)

/-- What a branch does otherwise is settled if the statements after it are. -/
theorem Chain.settled (chain : Chain) {o next : Outline} {later : List Stmt}
    (hheads : chain.Heads o next) (hread : Readable chain.phrases)
    (hnext : ∀ afterBranch, next.Settled afterBranch .done later) : o.Settled true chain later := by
  match chain with
  | .done =>
    obtain rfl : o = next := hheads
    exact hnext true
  | .block body =>
    obtain ⟨start, hline, hblock⟩ := hheads
    have hblock := hblock.imp fun inner hinner => settled_linesOf body hinner hread false
    exact settled_else hline hblock (hnext false)
  | .branch condition body otherwise =>
    obtain ⟨start, hline, after, hblock, hotherwise⟩ := hheads
    obtain ⟨⟨hshaped, _⟩, hread⟩ := readable_cons.mp hread
    obtain ⟨hbody, hchain⟩ := readable_append.mp hread
    have hblock := hblock.imp fun inner hinner => settled_linesOf body hinner hbody false
    exact settled_elif hline hshaped hblock (otherwise.settled hotherwise hchain hnext)

/-- Statements up to the end are settled. -/
theorem settled_linesOf (stmts : List Stmt) {o : Outline} (hheads : headsOf stmts o .done)
    (hread : Readable (phrasesOf stmts)) (afterBranch : Bool) :
    o.Settled afterBranch .done stmts := by
  match stmts with
  | [] =>
    obtain rfl : o = .done := hheads
    exact Outline.settled_done afterBranch
  | s :: later =>
    obtain ⟨start, hhead, hlater⟩ := hheads
    obtain ⟨hread, hreadLater⟩ := readable_append.mp hread
    exact s.settled hhead hread (settled_linesOf later hlater hreadLater) afterBranch

end

/-- Lines without tokens add nothing to a draft. -/
theorem Draft.foldr_add_filter (lines : List TokenLine) (draft : Draft) :
    (lines.filter (!·.tokens.isEmpty)).foldr add draft = lines.foldr add draft := by
  induction lines with
  | nil => rfl
  | cons line lines ih =>
    obtain ⟨tokens, stop⟩ := line
    cases tokens with
    | nil => simpa [add] using ih
    | cons t more => simpa using congrArg _ ih

/-- Lines of tokens that are the lines of some statements are read as these. -/
theorem settles_readProgram {stmts : List Stmt} (hread : Readable (phrasesOf stmts)) (limit : Nat)
    {lines : List TokenLine}
    (h : (lines.filter (!·.tokens.isEmpty)).map (lineGlyphs ·.tokens) = linesOf stmts) :
    Settles (Within (levelsOf stmts) limit) (bareOf · = bareOf stmts) .ok
      (readProgram limit lines) := by
  obtain ⟨o, ho, hheads⟩ := adds_linesOf stmts _ ⟨.done, []⟩ h
  rw [Draft.foldr_add_filter] at ho
  have houtline : Outline.ofLines lines = o := by
    rw [Outline.ofLines, ho]
    rfl
  rw [readProgram, houtline]
  exact ((settled_linesOf stmts hheads hread false limit _).bind _).map Sequel.statements
    (fun _ hsequel => hsequel.2) fun _ _ => rfl

/-- A text that is one line of tokens is settled as its reader settles the line. -/
theorem settles_readAlone {α : Type} {fits : Prop} {good : α → Prop} {reader : Reader α}
    (subject : Subject) {lines : List TokenLine} {line : TokenLine}
    (hline : lines.filter (!·.tokens.isEmpty) = [line])
    (h : Settles fits good (fun a => .ok (a, [])) (reader line.stop line.tokens)) :
    Settles fits good .ok (readAlone subject reader lines) := by
  rw [readAlone, hline]
  exact (h.bind _).map id (fun _ => id) fun _ _ => rfl

end NumericScript
