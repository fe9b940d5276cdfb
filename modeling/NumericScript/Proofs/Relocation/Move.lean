import NumericScript.Grammar.Program
import NumericScript.Proofs.Nesting.Bare

/-!
# Moving a script

A motion takes every span to another one and respects joins, such as a shift along the text. A
motion of spans moves all that has spans: tokens, trees, errors and what readers give.
-/

namespace NumericScript

/-- A map of spans that respects joins. -/
structure Motion where
  span : Span → Span
  span_join : ∀ a b, span (a.join b) = (span a).join (span b)

namespace Motion

/-- All spans become the same one. -/
def forget : Motion := ⟨fun _ => default, fun _ _ => rfl⟩

/-- All spans go forward in the text by a number of characters and a number of lines. -/
def shift (chars lines : Nat) : Motion where
  span s := ⟨s.start + chars, s.stop + chars, s.line + lines⟩
  span_join a b := by
    simp only [Span.join, Nat.add_min_add_right, Nat.add_max_add_right]

end Motion

/-- What has spans, so that it can be moved. -/
class Movable (α : Type) where
  /-- Move all spans of something. -/
  move : Motion → α → α

export Movable (move)

section Instances

variable {α β : Type}

instance : Movable Unit := ⟨fun _ => id⟩

instance : Movable Span := ⟨Motion.span⟩

instance [Movable α] [Movable β] : Movable (α × β) := ⟨fun f pair => (move f pair.1, move f pair.2)⟩

instance [Movable α] : Movable (List α) := ⟨fun f => List.map (move f)⟩

instance [Movable α] : Movable (Option α) := ⟨fun f => Option.map (move f)⟩

instance : Movable Token := ⟨fun f t => { t with span := f.span t.span }⟩

instance : Movable TokenLine := ⟨fun f line => ⟨move f line.tokens, f.span line.stop⟩⟩

instance : Movable ScriptError := ⟨fun f error => { error with span := f.span error.span }⟩

instance [Movable α] : Movable (Except ScriptError α) where
  move f
    | .ok a => .ok (move f a)
    | .error error => .error (move f error)

end Instances

/-- Move an expression. -/
def Expr.move (f : Motion) : Expr → Expr
  | number value span => number value (f.span span)
  | scalar name span => scalar name (f.span span)
  | element name index span => element name (index.move f) (f.span span)
  | binary op left right span => binary op (left.move f) (right.move f) (f.span span)
  | negate operand span => negate (operand.move f) (f.span span)
  | call builtin argument span => call builtin (argument.move f) (f.span span)
  | group inner span => group (inner.move f) (f.span span)

instance : Movable Expr := ⟨Expr.move⟩

/-- Move a condition. -/
def Cond.move (f : Motion) : Cond → Cond
  | compare op left right span => compare op (left.move f) (right.move f) (f.span span)
  | logical op left right span => logical op (left.move f) (right.move f) (f.span span)

instance : Movable Cond := ⟨Cond.move⟩

/-- Move a target. -/
def Target.move (f : Motion) : Target → Target
  | scalar name span => scalar name (f.span span)
  | element name index span => element name (index.move f) (f.span span)

instance : Movable Target := ⟨Target.move⟩

mutual

/-- Move a statement. -/
def Stmt.move (f : Motion) : Stmt → Stmt
  | .assign target value span => .assign (target.move f) (value.move f) (f.span span)
  | .block body span => .block (moveAll f body) (f.span span)
  | .branch condition body otherwise span =>
    .branch (condition.move f) (moveAll f body) (otherwise.move f) (f.span span)
  | .loop condition body span => .loop (condition.move f) (moveAll f body) (f.span span)

/-- Move what a branch does otherwise. -/
def Chain.move (f : Motion) : Chain → Chain
  | .done => .done
  | .block body => .block (moveAll f body)
  | .branch condition body otherwise =>
    .branch (condition.move f) (moveAll f body) (otherwise.move f)

/-- Move statements. -/
def moveAll (f : Motion) : List Stmt → List Stmt
  | [] => []
  | stmt :: later => stmt.move f :: moveAll f later

end

instance : Movable Stmt := ⟨Stmt.move⟩

instance : Movable Chain := ⟨Chain.move⟩

instance : Movable Sequel where
  move f sequel := ⟨move f sequel.otherwise, move f sequel.lastBlock, move f sequel.statements⟩

/-- Move an outline. -/
def Outline.move (f : Motion) : Outline → Outline
  | done => done
  | line first more stop next =>
    line (Movable.move f first) (Movable.move f more) (f.span stop) (next.move f)
  | block brace stop body close next =>
    block (Movable.move f brace) (f.span stop) (body.move f) (Movable.move f close) (next.move f)
  | stray brace next => stray (Movable.move f brace) (next.move f)

instance : Movable Outline := ⟨Outline.move⟩

section Spans

variable (f : Motion)

/-- Moving a list of statements moves each of them. -/
theorem moveAll_eq (stmts : List Stmt) : moveAll f stmts = move f stmts := by
  induction stmts with
  | nil => rfl
  | cons stmt later ih => exact congrArg (stmt.move f :: ·) ih

@[simp] theorem move_nil {α : Type} [Movable α] : move f ([] : List α) = [] := rfl

@[simp] theorem move_cons {α : Type} [Movable α] (x : α) (xs : List α) :
    move f (x :: xs) = move f x :: move f xs := rfl

@[simp] theorem Token.kind_move (t : Token) : (move f t).kind = t.kind := rfl

@[simp] theorem Token.lexeme_move (t : Token) : (move f t).lexeme = t.lexeme := rfl

@[simp] theorem Token.span_move (t : Token) : (move f t).span = f.span t.span := rfl

@[simp] theorem move_append {α : Type} [Movable α] (xs ys : List α) :
    move f (xs ++ ys) = move f xs ++ move f ys := List.map_append

/-- Moving an expression moves its place. -/
@[simp] theorem Expr.span_move (e : Expr) : (Movable.move f e).span = f.span e.span := by
  cases e <;> rfl

/-- A joined span moves with what it joins. -/
theorem Expr.move_binary (op : BinaryOp) (left right : Expr) :
    Movable.move f (binary op left right (left.span.join right.span)) =
      binary op (Movable.move f left) (Movable.move f right)
        ((Movable.move f left).span.join (Movable.move f right).span) := by
  rw [span_move, span_move, ← f.span_join]
  rfl

@[simp] theorem Cond.span_move (c : Cond) : (Movable.move f c).span = f.span c.span := by
  cases c <;> rfl

/-- A joined condition is moved by moving both of its sides. -/
theorem Cond.move_join (op : LogicalOp) (left right : Cond) :
    Movable.move f (join op left right) = join op (Movable.move f left) (Movable.move f right) := by
  rw [join, join, span_move, span_move, ← f.span_join]
  rfl

@[simp] theorem Target.span_move (t : Target) : (Movable.move f t).span = f.span t.span := by
  cases t <;> rfl

/-- The next place of moved tokens is the moved one. -/
theorem nextSpan_move (stop : Span) (tokens : List Token) :
    nextSpan (f.span stop) (move f tokens) = f.span (nextSpan stop tokens) := by
  cases tokens <;> rfl

/-- A line of an outline is moved with what follows it. -/
theorem Outline.move_line (first : Token) (more : List Token) (stop : Span) (next : Outline) :
    Movable.move f (line first more stop next) =
      line (Movable.move f first) (Movable.move f more) (f.span stop) (Movable.move f next) := rfl

/-- A block of an outline is moved with what is in it and what follows it. -/
theorem Outline.move_block (brace : Token) (stop : Span) (body : Outline) (close : Option Token)
    (next : Outline) : Movable.move f (block brace stop body close next) =
      block (Movable.move f brace) (f.span stop) (Movable.move f body) (Movable.move f close)
        (Movable.move f next) := rfl

end Spans

section Bare

/-- An expression without its places is the bare one. -/
theorem Expr.move_forget (e : Expr) : Movable.move .forget e = e.bare := by
  show Expr.move _ _ = _
  induction e <;> simp_all [Expr.move, Expr.bare, Motion.forget]

/-- A condition without its places is the bare one. -/
theorem Cond.move_forget (c : Cond) : Movable.move .forget c = c.bare := by
  show Cond.move _ _ = _
  induction c with
  | compare op left right =>
    simp only [Cond.move, Cond.bare, ← Expr.move_forget]
    rfl
  | logical op left right span ihl ihr =>
    simp only [Cond.move, Cond.bare, ihl, ihr]
    rfl

private theorem Target.move_forget (t : Target) : Movable.move .forget t = t.bare := by
  cases t with
  | scalar name => rfl
  | element name index => exact congrArg (Target.element name · _) index.move_forget

mutual

private theorem Stmt.move_forget : ∀ s : Stmt, s.move .forget = s.bare
  | .assign target value _ => by
    rw [Stmt.move, Stmt.bare, ← target.move_forget, ← value.move_forget]
    rfl
  | .block body _ => by
    rw [Stmt.move, Stmt.bare, moveAll_forget body]
    rfl
  | .branch condition body otherwise _ => by
    rw [Stmt.move, Stmt.bare, moveAll_forget body, otherwise.move_forget, ← condition.move_forget]
    rfl
  | .loop condition body _ => by
    rw [Stmt.move, Stmt.bare, moveAll_forget body, ← condition.move_forget]
    rfl

private theorem Chain.move_forget : ∀ chain : Chain, chain.move .forget = chain.bare
  | .done => rfl
  | .block body => by rw [Chain.move, Chain.bare, moveAll_forget body]
  | .branch condition body otherwise => by
    rw [Chain.move, Chain.bare, moveAll_forget body, otherwise.move_forget, ← condition.move_forget]
    rfl

/-- To forget the places is to move all of them to one. -/
theorem moveAll_forget : ∀ stmts : List Stmt, moveAll .forget stmts = bareOf stmts
  | [] => rfl
  | s :: later => by rw [moveAll, bareOf, s.move_forget, moveAll_forget later]

end

end Bare

end NumericScript
