import Mathlib.Data.Bool.Basic
import NumericScript.Proofs.Relocation.Line

/-!
# Scripts that are moved

A script that is moved is read as the same statements, moved, or fails with the same error, moved.
What begins with a line that needs a block is read in one way: the line, the block, what follows it.
-/

namespace NumericScript

/-- Read a block and what follows it, and put both together. -/
def blockThen (afterBlock : Bool) (room : Nat) (after : Span) (brace : Token) (stop : Span)
    (body : Outline) (close : Option Token) (next : Outline)
    (combine : List Stmt → Span → Sequel → Sequel) : Except ScriptError Sequel := do
  let (inner, span) ←
    blockBody room after brace stop close fun room after => sequel false room after body
  let later ← sequel afterBlock room after next
  .ok (combine inner span later)

/-- Read a line that needs a block, then the block and what follows it. -/
def headed {α : Type} (head : Except ScriptError α) (clause : Clause) (afterBlock : Bool)
    (room : Nat) (after : Span) (next : Outline)
    (combine : α → List Stmt → Span → Sequel → Sequel) : Except ScriptError Sequel := do
  let a ← head
  match next with
  | .block brace stop body close next =>
    blockThen afterBlock room after brace stop body close next (combine a)
  | next => fail (next.firstSpan after) (.expectedBlock clause)

namespace Sequel

/-- A branch, which takes what it does otherwise from what is read after its block. -/
def branch (first : Token) (cond : Cond) (inner : List Stmt) (span : Span) (later : Sequel) :
    Sequel :=
  later.cons (.branch cond inner later.otherwise
    (first.span.join (later.lastBlock.getD span)))

/-- A branch that is what another one does otherwise. -/
def elif (cond : Cond) (inner : List Stmt) (span : Span) (later : Sequel) : Sequel :=
  ⟨.branch cond inner later.otherwise, some (later.lastBlock.getD span), later.statements⟩

end Sequel

section Equations

variable {afterBranch : Bool} {room : Nat} {after : Span} {first : Token} {more : List Token}
  {stop : Span} {next : Outline}

/-- A block is read, and the statements after it are read without a branch before them. -/
theorem sequel_block (brace : Token) (stop : Span) (body : Outline) (close : Option Token)
    (next : Outline) : sequel afterBranch room after (.block brace stop body close next) =
      blockThen false room after brace stop body close next fun inner span later =>
        later.cons (.block inner span) := by
  rfl

/-- A line that begins with `if` heads a block, which branches may follow. -/
theorem sequel_if (h : first.kind = .keyword .ifWord) :
    sequel afterBranch room after (.line first more stop next) =
      headed (header .ifWord room stop more) (.condition .ifWord) true room after next
        (Sequel.branch first) := by
  obtain ⟨kind, lexeme, span⟩ := first
  subst h
  cases next <;> rfl

/-- A line that begins with `while` heads a block, which no branch may follow. -/
theorem sequel_while (h : first.kind = .keyword .whileWord) :
    sequel afterBranch room after (.line first more stop next) =
      headed (header .whileWord room stop more) (.condition .whileWord) false room after next
        fun cond inner span later => later.cons (.loop cond inner (first.span.join span)) := by
  obtain ⟨kind, lexeme, span⟩ := first
  subst h
  cases next <;> rfl

/-- After a branch, a line that begins with `elif` heads a block, which branches may follow. -/
theorem sequel_elif (h : first.kind = .keyword .elifWord) :
    sequel true room after (.line first more stop next) =
      headed (header .elifWord room stop more) (.condition .elifWord) true room after next
        Sequel.elif := by
  obtain ⟨kind, lexeme, span⟩ := first
  subst h
  cases next <;> rfl

/-- After a branch, a line that begins with `else` heads the last block of the branches. -/
theorem sequel_else (h : first.kind = .keyword .elseWord) :
    sequel true room after (.line first more stop next) =
      headed (endOfLine .elseWord more) .elseWord false room after next
        fun _ inner span later => ⟨.block inner, some span, later.statements⟩ := by
  obtain ⟨kind, lexeme, span⟩ := first
  subst h
  cases next <;> rfl

/-- Without a branch before it, a line that begins with `elif` or `else` is refused. -/
theorem sequel_dangling (h : first.kind = .keyword .elifWord ∨ first.kind = .keyword .elseWord) :
    sequel false room after (.line first more stop next) =
      fail first.span (.danglingBranch first.lexeme) := by
  obtain ⟨kind, lexeme, span⟩ := first
  rcases h with h | h <;> subst h <;> cases next <;> rfl

/-- Any other line is an assignment if it has an equals sign, and is ignored otherwise. -/
theorem sequel_plain (h : ∀ word, first.kind ≠ .keyword word) :
    sequel afterBranch room after (.line first more stop next) =
      (if hasEqual (first :: more) then do
        let stmt ← assignment room stop (first :: more)
        let later ← sequel false room after next
        .ok (later.cons stmt)
      else do
        let later ← sequel false room after next
        .ok ⟨.done, none, later.statements⟩) := by
  obtain ⟨kind, lexeme, span⟩ := first
  cases kind with
  | keyword word => exact absurd rfl (h word)
  | _ => cases next <;> rfl

end Equations

section Statements

variable {f : Motion} {tighter : Prop}

private theorem follows_blockBody {room room' : Nat} (hle : room' ≤ room)
    (htighter : room' < room → tighter)
    (after : Span) (brace : Token) (stop : Span) (close : Option Token)
    {read read' : Nat → Span → Except ScriptError Sequel}
    (hread : ∀ {room room'}, room' ≤ room → (room' < room → tighter) → ∀ after,
      Follows f tighter (read room after) (read' room' (f.span after))) :
    Follows f tighter (blockBody room after brace stop close read)
      (blockBody room' (f.span after) (move f brace) (f.span stop) (move f close) read') := by
  cases room with
  | zero =>
    obtain rfl := Nat.le_zero.mp hle
    exact .moved
  | succ room =>
    cases room' with
    | zero => exact .tooDeep (htighter (Nat.succ_pos room)) _
    | succ room' =>
      have hread := fun after => hread (Nat.le_of_succ_le_succ hle)
        (fun hlt => htighter (Nat.succ_lt_succ hlt)) after
      cases close with
      | some close =>
        refine (hread close.span).bind fun inner => ?_
        exact .ok (congrArg (Prod.mk _) (f.span_join _ _).symm)
      | none => exact (hread after).bind fun _ => .moved

private theorem Sequel.lastBlock_move (later : Sequel) (span : Span) :
    (move f later).lastBlock.getD (f.span span) = f.span (later.lastBlock.getD span) := by
  obtain ⟨otherwise, _ | last, statements⟩ := later <;> rfl

private theorem Sequel.branch_move (first : Token) (cond : Cond) (inner : List Stmt) (span : Span)
    (later : Sequel) : Sequel.branch (move f first) (move f cond) (move f inner) (f.span span)
      (move f later) = move f (Sequel.branch first cond inner span later) := by
  unfold Sequel.branch
  rw [lastBlock_move, Token.span_move, ← f.span_join, ← moveAll_eq]
  rfl

private theorem Sequel.elif_move (cond : Cond) (inner : List Stmt) (span : Span) (later : Sequel) :
    Sequel.elif (move f cond) (move f inner) (f.span span) (move f later) =
      move f (Sequel.elif cond inner span later) := by
  unfold Sequel.elif
  rw [lastBlock_move, ← moveAll_eq]
  rfl

/-- Whatever some lines are read after, moved lines are read after that as well. -/
def ReadsSequel (f : Motion) (tighter : Prop) (afterBranch : Bool) (o : Outline) : Prop :=
  ∀ {room room' : Nat}, room' ≤ room → (room' < room → tighter) → ∀ after,
    Follows f tighter (sequel afterBranch room after o)
      (sequel afterBranch room' (f.span after) (move f o))

private theorem follows_blockThen {afterBlock : Bool} {room room' : Nat} (hle : room' ≤ room)
    (htighter : room' < room → tighter) (after : Span) (brace : Token) (stop : Span)
    (close : Option Token) {body next : Outline} (hbody : ReadsSequel f tighter false body)
    (hnext : ReadsSequel f tighter afterBlock next)
    {combine combine' : List Stmt → Span → Sequel → Sequel}
    (hcombine : ∀ inner span later,
      combine' (move f inner) (f.span span) (move f later) = move f (combine inner span later)) :
    Follows f tighter (blockThen afterBlock room after brace stop body close next combine)
      (blockThen afterBlock room' (f.span after) (move f brace) (f.span stop) (move f body)
        (move f close) (move f next) combine') := by
  refine (follows_blockBody hle htighter after brace stop close hbody).bindPair fun inner span => ?_
  refine (hnext hle htighter after).bind fun later => ?_
  exact .ok (hcombine inner span later)

private theorem follows_headed {α : Type} [Movable α] {head head' : Except ScriptError α}
    (hhead : Follows f tighter head head') (clause : Clause) {afterBlock : Bool}
    {room room' : Nat} (hle : room' ≤ room) (htighter : room' < room → tighter) (after : Span)
    {next : Outline}
    (hblock : ∀ brace stop body close later, next = .block brace stop body close later →
      ReadsSequel f tighter false body ∧ ReadsSequel f tighter afterBlock later)
    {combine combine' : α → List Stmt → Span → Sequel → Sequel}
    (hcombine : ∀ a inner span later, combine' (move f a) (move f inner) (f.span span)
      (move f later) = move f (combine a inner span later)) :
    Follows f tighter (headed head clause afterBlock room after next combine)
      (headed head' clause afterBlock room' (f.span after) (move f next) combine') := by
  refine hhead.bind fun a => ?_
  cases next with
  | block brace stop body close later =>
    obtain ⟨hbody, hlater⟩ := hblock brace stop body close later rfl
    exact follows_blockThen hle htighter after brace stop close hbody hlater (hcombine a)
  | done => exact .moved
  | line => exact .moved
  | stray => exact .moved

/-- A line without a keyword is an assignment or says nothing. -/
theorem readsSequel_plain {afterBranch : Bool} {first : Token} (more : List Token) (stop : Span)
    {next : Outline} (h : ∀ word, first.kind ≠ .keyword word)
    (hnext : ReadsSequel f tighter false next) :
    ReadsSequel f tighter afterBranch (.line first more stop next) := by
  intro room room' hle htighter after
  have h' : ∀ word, (move f first).kind ≠ .keyword word := h
  rw [Outline.move_line, sequel_plain h, sequel_plain h', ← move_cons, hasEqual_move]
  split
  · refine (follows_assignment hle htighter stop (first :: more)).bind fun stmt => ?_
    exact (hnext hle htighter after).bind fun later => .moved
  · exact (hnext hle htighter after).bind fun later => .moved

/-- What is read from a moved outline is what is read from the outline, moved. -/
theorem readsSequel (afterBranch : Bool) (room : Nat) (after : Span) (o : Outline) :
    ReadsSequel f tighter afterBranch o := by
  induction afterBranch, room, after, o using sequel.induct with
  | case1 => exact fun _ _ _ => .moved
  | case2 => exact fun _ _ _ => .moved
  | case3 afterBranch room after brace stop body close next ihbody ihnext =>
    intro room room' hle htighter after
    rw [Outline.move_block, sequel_block, sequel_block]
    refine follows_blockThen hle htighter after brace stop close (ihbody room after) ihnext ?_
    intro inner span later
    rw [← moveAll_eq]
    rfl
  | case4 afterBranch room after first more stop next hword ih =>
    intro room room' hle htighter after
    have hword' : (move f first).kind = .keyword .ifWord := hword
    rw [Outline.move_line, sequel_if hword, sequel_if hword']
    refine follows_headed (follows_header _ hle htighter stop more) _ hle htighter after ?_
      (Sequel.branch_move first)
    rintro brace stop body close later rfl
    exact ⟨ih.1 room after, ih.2⟩
  | case5 afterBranch room after first more stop next hword ih =>
    intro room room' hle htighter after
    have hword' : (move f first).kind = .keyword .whileWord := hword
    rw [Outline.move_line, sequel_while hword, sequel_while hword']
    refine follows_headed (follows_header _ hle htighter stop more) _ hle htighter after ?_
      fun cond inner span later => ?_
    · rintro brace stop body close later rfl
      exact ⟨ih.1 room after, ih.2⟩
    · rw [Token.span_move, ← f.span_join, ← moveAll_eq]
      rfl
  | case6 room after first more stop next hword ih =>
    intro room room' hle htighter after
    have hword' : (move f first).kind = .keyword .elifWord := hword
    rw [Outline.move_line, sequel_elif hword, sequel_elif hword']
    refine follows_headed (follows_header _ hle htighter stop more) _ hle htighter after ?_
      Sequel.elif_move
    rintro brace stop body close later rfl
    exact ⟨ih.1 room after, ih.2⟩
  | case7 afterBranch room after first more stop next hword hbranch =>
    intro room room' hle htighter after
    have hword' : (move f first).kind = .keyword .elifWord := hword
    rw [Bool.eq_false_of_not_eq_true hbranch]
    rw [Outline.move_line, sequel_dangling (.inl hword), sequel_dangling (.inl hword')]
    exact .moved
  | case8 room after first more stop next hword ih =>
    intro room room' hle htighter after
    have hword' : (move f first).kind = .keyword .elseWord := hword
    rw [Outline.move_line, sequel_else hword, sequel_else hword']
    refine follows_headed (follows_endOfLine _ more) _ hle htighter after ?_
      fun _ inner span later => ?_
    · rintro brace stop body close later rfl
      exact ⟨ih.1 room after, ih.2⟩
    · rw [← moveAll_eq]
      rfl
  | case9 afterBranch room after first more stop next hword hbranch =>
    intro room room' hle htighter after
    have hword' : (move f first).kind = .keyword .elseWord := hword
    rw [Bool.eq_false_of_not_eq_true hbranch]
    rw [Outline.move_line, sequel_dangling (.inr hword), sequel_dangling (.inr hword')]
    exact .moved
  | case10 afterBranch room after first more stop next hequal hif hwhile helif helse ih =>
    exact readsSequel_plain more stop (by rintro (_ | _ | _ | _) <;> assumption) ih
  | case11 afterBranch room after first more stop next hequal hif hwhile helif helse ih =>
    exact readsSequel_plain more stop (by rintro (_ | _ | _ | _) <;> assumption) ih

end Statements

end NumericScript
