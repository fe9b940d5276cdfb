import NumericScript.Proofs.Relocation.Sequel
import NumericScript.Proofs.Glyph.Tree

/-!
# What a reading starts

Reading a script is a task that starts other ones: its lines, the blocks and headers among them, the
expressions on a line, the operands inside. Which task is started next depends on what came of those
before. To go down a level of nesting is a task as well, and it is the only one that is refused as
too deep by itself.
-/

namespace NumericScript

/-- The readers of expressions, which start each other. -/
inductive ExprReader
  | operand
  | signed
  | power
  | call
  | primary
  /-- What follows a name. -/
  | named (name : Token)
  /-- What follows an opening parenthesis. -/
  | grouped (paren : Token)
  | chain (tier : Tier)
  /-- What follows the left side of a chain. -/
  | chainRest (tier : Tier) (left : Expr)

/-- The reader of what a chain joins. -/
def Tier.link : Tier → ExprReader
  | products => .operand
  | sums => .chain .products

/-- The readers of expressions where a number of levels is free. -/
def ExprReader.run (room : Nat) : ExprReader → Reader Expr
  | operand => NumericScript.operand (ladder room)
  | signed => signedOperand (ladder room)
  | power => NumericScript.power (ladder room)
  | call => NumericScript.call (ladder room)
  | primary => NumericScript.primary (ladder room)
  | named name => NumericScript.named (ladder room) name
  | grouped paren => NumericScript.grouped (ladder room) paren
  | chain .products => product (ladder room)
  | chain .sums => sum (ladder room)
  | chainRest .products left => productRest (ladder room) left
  | chainRest .sums left => sumRest (ladder room) left

/-- The readers of conditions: of a comparison, and of chains of what an operator joins. -/
inductive CondReader
  | comparison
  | chain (op : LogicalOp)
  /-- What follows the left side of a chain. -/
  | chainRest (op : LogicalOp) (left : Cond)

/-- The reader of what `&&` or `||` joins. -/
def LogicalOp.link : LogicalOp → CondReader
  | and => .comparison
  | or => .chain .and

/-- Reading a conjunction leaves fewer tokens. -/
theorem shrinks_conjunction (room : Nat) : Shrinks (conjunction room) :=
  shrinks_chain (shrinks_comparison room)

/-- The readers of conditions where a number of levels is free. -/
def CondReader.run (room : Nat) : CondReader → Reader Cond
  | comparison => NumericScript.comparison room
  | chain .and => conjunction room
  | chain .or => NumericScript.condition room
  | chainRest .and left =>
    NumericScript.chainRest .andAnd .and (NumericScript.comparison room) (shrinks_comparison room)
      left
  | chainRest .or left =>
    NumericScript.chainRest .orOr .or (conjunction room) (shrinks_conjunction room) left

/-- The span of the end of a text and the tokens of the first line of it that has any. -/
def aloneLine (lines : List TokenLine) : TokenLine :=
  (lines.filter (!·.tokens.isEmpty)).headD ⟨[], endSpan lines⟩

/-- A part of reading a text. Each has the number of levels that are free. -/
inductive Task
  /-- To go down a level, where a token or the end of the line is next. -/
  | descent (room : Nat) (next : Span)
  | expr (reader : ExprReader) (room : Nat) (stop : Span) (tokens : List Token)
  | cond (reader : CondReader) (room : Nat) (stop : Span) (tokens : List Token)
  | target (room : Nat) (stop : Span) (tokens : List Token)
  | assignment (room : Nat) (stop : Span) (tokens : List Token)
  | header (word : Keyword) (room : Nat) (stop : Span) (tokens : List Token)
  | block (room : Nat) (after : Span) (brace : Token) (stop : Span) (body : Outline)
    (close : Option Token)
  | lines (afterBranch : Bool) (room : Nat) (after : Span) (o : Outline)
  | script (limit : Nat) (lines : List TokenLine)
  /-- To read a text that is one expression. -/
  | onlyExpr (limit : Nat) (lines : List TokenLine)
  /-- To read a text that is one condition. -/
  | onlyCond (limit : Nat) (lines : List TokenLine)

/-- A block and the lines in it, as they are read. -/
def readBlock (room : Nat) (after : Span) (brace : Token) (stop : Span) (body : Outline)
    (close : Option Token) : Except ScriptError (List Stmt × Span) :=
  blockBody room after brace stop close fun room after => sequel false room after body

/-- Whether a keyword may begin a line; `elif` and `else` only where a branch ends. -/
def Keyword.Allowed (afterBranch : Bool) (word : Keyword) : Prop :=
  word = .elifWord ∨ word = .elseWord → afterBranch = true

/-- Whether a branch ends with the block below a keyword that may go on with `elif` or `else`. -/
def Keyword.goesOn : Keyword → Bool
  | ifWord | elifWord => true
  | elseWord | whileWord => false

/-- Whether the rest of a line is read after its keyword, which is a condition except for `else`. -/
def IsHead (word : Keyword) (room : Nat) (stop : Span) (more : List Token) : Prop :=
  match word with
  | .elseWord => more = []
  | word => ∃ condition, header word room stop more = .ok condition

namespace Task

/-- The second task is started by the first one, in the course of it. -/
inductive Starts : Task → Task → Prop
  | operandDescent (room : Nat) (stop : Span) (tokens : List Token) :
    Starts (.expr .operand room stop tokens) (.descent room (nextSpan stop tokens))
  | signed (room : Nat) (stop : Span) (tokens : List Token) :
    Starts (.expr .operand (room + 1) stop tokens) (.expr .signed room stop tokens)
  | negated (room : Nat) (stop : Span) {t : Token} (rest : List Token) (ht : t.kind = .minus) :
    Starts (.expr .signed room stop (t :: rest)) (.expr .operand room stop rest)
  | power (room : Nat) (stop : Span) {tokens : List Token}
    (h : ∀ t ∈ tokens.head?, t.kind ≠ .minus) :
    Starts (.expr .signed room stop tokens) (.expr .power room stop tokens)
  | base (room : Nat) (stop : Span) (tokens : List Token) :
    Starts (.expr .power room stop tokens) (.expr .call room stop tokens)
  | exponent {room : Nat} {stop : Span} {tokens rest : List Token} {base : Expr} {t : Token}
    (h : ExprReader.call.run room stop tokens = .ok (base, t :: rest)) (ht : t.kind = .caret) :
    Starts (.expr .power room stop tokens) (.expr .operand room stop rest)
  | callDescent (room : Nat) (stop : Span) {t : Token} {f : Builtin} (rest : List Token)
    (ht : t.kind = .function f) :
    Starts (.expr .call room stop (t :: rest)) (.descent room (nextSpan stop rest))
  | argument (room : Nat) (stop : Span) {t : Token} {f : Builtin} (rest : List Token)
    (ht : t.kind = .function f) :
    Starts (.expr .call (room + 1) stop (t :: rest)) (.expr .call room stop rest)
  | primary (room : Nat) (stop : Span) {tokens : List Token}
    (h : ∀ t ∈ tokens.head?, ∀ f, t.kind ≠ .function f) :
    Starts (.expr .call room stop tokens) (.expr .primary room stop tokens)
  | named (room : Nat) (stop : Span) {t : Token} (rest : List Token) (ht : t.kind = .identifier) :
    Starts (.expr .primary room stop (t :: rest)) (.expr (.named t) room stop rest)
  | grouped (room : Nat) (stop : Span) {t : Token} (rest : List Token) (ht : t.kind = .leftParen) :
    Starts (.expr .primary room stop (t :: rest)) (.expr (.grouped t) room stop rest)
  | index (name : Token) (room : Nat) (stop : Span) {t : Token} (rest : List Token)
    (ht : t.kind = .leftBracket) :
    Starts (.expr (.named name) room stop (t :: rest)) (.expr (.chain .sums) room stop rest)
  | inner (paren : Token) (room : Nat) (stop : Span) {tokens : List Token}
    (h : ∀ t ∈ tokens.head?, t.kind ≠ .rightParen) :
    Starts (.expr (.grouped paren) room stop tokens) (.expr (.chain .sums) room stop tokens)
  | first (tier : Tier) (room : Nat) (stop : Span) (tokens : List Token) :
    Starts (.expr (.chain tier) room stop tokens) (.expr tier.link room stop tokens)
  | further {tier : Tier} {room : Nat} {stop : Span} {tokens rest : List Token} {left : Expr}
    (h : tier.link.run room stop tokens = .ok (left, rest)) :
    Starts (.expr (.chain tier) room stop tokens) (.expr (.chainRest tier left) room stop rest)
  | operatorDescent {tier : Tier} (left : Expr) (room : Nat) (stop : Span) {t : Token}
    {op : BinaryOp} (rest : List Token) (ht : tier.op? t.kind = some op) :
    Starts (.expr (.chainRest tier left) room stop (t :: rest)) (.descent room (nextSpan stop rest))
  | right {tier : Tier} (left : Expr) (room : Nat) (stop : Span) {t : Token} {op : BinaryOp}
    (rest : List Token) (ht : tier.op? t.kind = some op) :
    Starts (.expr (.chainRest tier left) (room + 1) stop (t :: rest))
      (.expr tier.link room stop rest)
  | again {tier : Tier} {left right : Expr} {room : Nat} {stop : Span} {t : Token} {op : BinaryOp}
    {rest later : List Token} (ht : tier.op? t.kind = some op)
    (h : tier.link.run room stop rest = .ok (right, later)) :
    Starts (.expr (.chainRest tier left) (room + 1) stop (t :: rest))
      (.expr (.chainRest tier (.binary op left right (left.span.join right.span))) room stop later)
  | compared (room : Nat) (stop : Span) (tokens : List Token) :
    Starts (.cond .comparison room stop tokens) (.expr (.chain .sums) room stop tokens)
  | comparedWith {room : Nat} {stop : Span} {tokens rest : List Token} {left : Expr} {t : Token}
    {op : CompareOp} (h : expression room stop tokens = .ok (left, t :: rest))
    (ht : compareOp? t.kind = some op) :
    Starts (.cond .comparison room stop tokens) (.expr (.chain .sums) room stop rest)
  | firstLink (op : LogicalOp) (room : Nat) (stop : Span) (tokens : List Token) :
    Starts (.cond (.chain op) room stop tokens) (.cond op.link room stop tokens)
  | furtherLinks {op : LogicalOp} {room : Nat} {stop : Span} {tokens rest : List Token}
    {left : Cond} (h : op.link.run room stop tokens = .ok (left, rest)) :
    Starts (.cond (.chain op) room stop tokens) (.cond (.chainRest op left) room stop rest)
  | rightLink {op : LogicalOp} (left : Cond) (room : Nat) (stop : Span) {t : Token}
    (rest : List Token) (ht : t.kind = op.kind) :
    Starts (.cond (.chainRest op left) room stop (t :: rest)) (.cond op.link room stop rest)
  | againLinks {op : LogicalOp} {left right : Cond} {room : Nat} {stop : Span} {t : Token}
    {rest later : List Token} (ht : t.kind = op.kind)
    (h : op.link.run room stop rest = .ok (right, later)) :
    Starts (.cond (.chainRest op left) room stop (t :: rest))
      (.cond (.chainRest op (.join op left right)) room stop later)
  | targetIndex (room : Nat) (stop : Span) {tokens rest : List Token} {t : Token}
    (hname : tokens.takeWhile (isNamePart ·.kind) ≠ [])
    (h : tokens.dropWhile (isNamePart ·.kind) = t :: rest) (ht : t.kind = .leftBracket) :
    Starts (.target room stop tokens) (.expr (.chain .sums) room stop rest)
  | target (room : Nat) (stop : Span) (tokens : List Token) :
    Starts (.assignment room stop tokens) (.target room stop tokens)
  | value {room : Nat} {stop : Span} {tokens rest : List Token} {written : Target} {t : Token}
    (h : NumericScript.target room stop tokens = .ok (written, t :: rest)) (ht : t.kind = .equal) :
    Starts (.assignment room stop tokens) (.expr (.chain .sums) room stop rest)
  | condition (word : Keyword) (room : Nat) (stop : Span) {t : Token} (rest : List Token)
    (ht : t.kind = .leftParen) :
    Starts (.header word room stop (t :: rest)) (.cond (.chain .or) room stop rest)
  | blockDescent (room : Nat) (after : Span) (brace : Token) (stop : Span) (body : Outline)
    (close : Option Token) : Starts (.block room after brace stop body close) (.descent room stop)
  | inside (room : Nat) (after : Span) (brace : Token) (stop : Span) (body : Outline)
    (close : Option Token) :
    Starts (.block (room + 1) after brace stop body close)
      (.lines false room ((close.map Token.span).getD after) body)
  | block (afterBranch : Bool) (room : Nat) (after : Span) (brace : Token) (stop : Span)
    (body : Outline) (close : Option Token) (next : Outline) :
    Starts (.lines afterBranch room after (.block brace stop body close next))
      (.block room after brace stop body close)
  | afterBlock (afterBranch : Bool) {room : Nat} {after : Span} {brace : Token} {stop : Span}
    {body : Outline} {close : Option Token} (next : Outline) {read : List Stmt × Span}
    (h : readBlock room after brace stop body close = .ok read) :
    Starts (.lines afterBranch room after (.block brace stop body close next))
      (.lines false room after next)
  | header {afterBranch : Bool} (room : Nat) (after : Span) {first : Token} {word : Keyword}
    (more : List Token) (stop : Span) (next : Outline) (hword : first.kind = .keyword word)
    (hallowed : word.Allowed afterBranch) (helse : word ≠ .elseWord) :
    Starts (.lines afterBranch room after (.line first more stop next))
      (.header word room stop more)
  | headedBlock {afterBranch : Bool} {room : Nat} (after : Span) {first : Token} {word : Keyword}
    {more : List Token} {stop : Span} (brace : Token) (stop' : Span) (body : Outline)
    (close : Option Token) (next : Outline) (hword : first.kind = .keyword word)
    (hallowed : word.Allowed afterBranch) (hhead : IsHead word room stop more) :
    Starts (.lines afterBranch room after
        (.line first more stop (.block brace stop' body close next)))
      (.block room after brace stop' body close)
  | afterHeaded {afterBranch : Bool} {room : Nat} {after : Span} {first : Token} {word : Keyword}
    {more : List Token} {stop : Span} {brace : Token} {stop' : Span} {body : Outline}
    {close : Option Token} (next : Outline) {read : List Stmt × Span}
    (hword : first.kind = .keyword word) (hallowed : word.Allowed afterBranch)
    (hhead : IsHead word room stop more)
    (h : readBlock room after brace stop' body close = .ok read) :
    Starts (.lines afterBranch room after
        (.line first more stop (.block brace stop' body close next)))
      (.lines word.goesOn room after next)
  | assignment (afterBranch : Bool) (room : Nat) (after : Span) {first : Token} {more : List Token}
    (stop : Span) (next : Outline) (hplain : ∀ word, first.kind ≠ .keyword word)
    (hequal : hasEqual (first :: more)) :
    Starts (.lines afterBranch room after (.line first more stop next))
      (.assignment room stop (first :: more))
  | afterAssignment (afterBranch : Bool) {room : Nat} (after : Span) {first : Token}
    {more : List Token} {stop : Span} (next : Outline) {stmt : Stmt}
    (hplain : ∀ word, first.kind ≠ .keyword word) (hequal : hasEqual (first :: more))
    (h : NumericScript.assignment room stop (first :: more) = .ok stmt) :
    Starts (.lines afterBranch room after (.line first more stop next))
      (.lines false room after next)
  | afterIgnored (afterBranch : Bool) (room : Nat) (after : Span) {first : Token}
    {more : List Token} (stop : Span) (next : Outline) (hplain : ∀ word, first.kind ≠ .keyword word)
    (hequal : ¬hasEqual (first :: more)) :
    Starts (.lines afterBranch room after (.line first more stop next))
      (.lines false room after next)
  | script (limit : Nat) (lines : List TokenLine) :
    Starts (.script limit lines) (.lines false limit (endSpan lines) (.ofLines lines))
  | onlyExpr (limit : Nat) (lines : List TokenLine) :
    Starts (.onlyExpr limit lines)
      (.expr (.chain .sums) limit (aloneLine lines).stop (aloneLine lines).tokens)
  | onlyCond (limit : Nat) (lines : List TokenLine) :
    Starts (.onlyCond limit lines)
      (.cond (.chain .or) limit (aloneLine lines).stop (aloneLine lines).tokens)

end Task

end NumericScript
