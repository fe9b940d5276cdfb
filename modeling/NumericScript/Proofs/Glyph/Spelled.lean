import NumericScript.Proofs.Glyph.Tree

/-!
# Spelling

Which tokens spell an expression or a condition, place by place: the span of a node is the span of a
token or joins the spans of tokens and nodes inside. The tokens say what the tree is read back as.
-/

namespace NumericScript

/-- The tokens that an expression with its places is made of. -/
inductive Expr.Spelled : Expr → List Token → Prop
  | number {t : Token} {value : Single} (ht : t.glyph = .number value) :
    Spelled (.number value t.span) [t]
  | scalar {t : Token} {name : String} (ht : t.glyph = .name name) :
    Spelled (.scalar name t.span) [t]
  | element {first bracket close : Token} {name : String} {index : Expr} {inner : List Token}
    (hfirst : first.glyph = .name name) (hbracket : bracket.glyph = .mark .leftBracket)
    (hindex : Spelled index inner) (hclose : close.glyph = .mark .rightBracket) :
    Spelled (.element name index (first.span.join close.span))
      (first :: bracket :: (inner ++ [close]))
  | binary {op : BinaryOp} {left right : Expr} {before after : List Token} {t : Token}
    (hleft : Spelled left before) (ht : t.glyph = .mark op.kind) (hright : Spelled right after) :
    Spelled (.binary op left right (left.span.join right.span)) (before ++ t :: after)
  | negate {t : Token} {operand : Expr} {tokens : List Token} (ht : t.glyph = .mark .minus)
    (h : Spelled operand tokens) :
    Spelled (.negate operand (t.span.join operand.span)) (t :: tokens)
  | call {t : Token} {builtin : Builtin} {argument : Expr} {tokens : List Token}
    (ht : t.glyph = .mark (.function builtin)) (h : Spelled argument tokens) :
    Spelled (.call builtin argument (t.span.join argument.span)) (t :: tokens)
  | group {paren close : Token} {inner : Expr} {tokens : List Token}
    (hparen : paren.glyph = .mark .leftParen) (h : Spelled inner tokens)
    (hclose : close.glyph = .mark .rightParen) :
    Spelled (.group inner (paren.span.join close.span)) (paren :: (tokens ++ [close]))

/-- The tokens that a condition with its places is made of. -/
inductive Cond.Spelled : Cond → List Token → Prop
  | compare {op : CompareOp} {left right : Expr} {before after : List Token} {t : Token}
    (hleft : left.Spelled before) (ht : t.glyph = .mark op.kind) (hright : right.Spelled after) :
    Spelled (.compare op left right (left.span.join right.span)) (before ++ t :: after)
  | logical {op : LogicalOp} {left right : Cond} {before after : List Token} {t : Token}
    (hleft : Spelled left before) (ht : t.glyph = .mark op.kind) (hright : Spelled right after) :
    Spelled (.join op left right) (before ++ t :: after)

/-- The span of the words of a target's name. -/
def nameSpan (part : Token) (parts : List Token) : Span :=
  parts.foldl (fun span t => span.join t.span) part.span

/-- The tokens that a target with its places is made of. -/
inductive Target.Spelled : Target → List Token → Prop
  | scalar (name : String) (part : Token) (parts : List Token) :
    Spelled (.scalar name (nameSpan part parts)) (part :: parts)
  | element (name : String) (part : Token) (parts : List Token) {bracket close : Token}
    {index : Expr} {inner : List Token} (hindex : index.Spelled inner) :
    Spelled (.element name index ((nameSpan part parts).join close.span))
      (part :: parts ++ bracket :: (inner ++ [close]))

/-- Tokens that spell an expression have its glyphs. -/
theorem Expr.Spelled.glyphs_eq {e : Expr} {tokens : List Token} (h : e.Spelled tokens) :
    tokens.map Token.glyph = e.glyphs := by
  induction h with
  | number ht | scalar ht => simp only [List.map_cons, List.map_nil, ht, glyphs]
  | element hfirst hbracket _ hclose ih =>
    simp only [List.map_cons, List.map_append, List.map_nil, hfirst, hbracket, hclose, ih, glyphs,
      bracketed]
  | binary _ ht _ ihl ihr => simp only [List.map_append, List.map_cons, ht, ihl, ihr, glyphs]
  | negate ht _ ih | call ht _ ih => simp only [List.map_cons, ht, ih, glyphs]
  | group hparen _ hclose ih =>
    simp only [List.map_cons, List.map_append, List.map_nil, hparen, hclose, ih, glyphs,
      parenthesized]

/-- Tokens that spell a condition have its glyphs. -/
theorem Cond.Spelled.glyphs_eq {c : Cond} {tokens : List Token} (h : c.Spelled tokens) :
    tokens.map Token.glyph = c.glyphs := by
  induction h with
  | compare hleft ht hright =>
    simp only [List.map_append, List.map_cons, ht, hleft.glyphs_eq, hright.glyphs_eq, glyphs]
  | logical _ ht _ ihl ihr =>
    simp only [List.map_append, List.map_cons, ht, ihl, ihr, glyphs, join]

end NumericScript
