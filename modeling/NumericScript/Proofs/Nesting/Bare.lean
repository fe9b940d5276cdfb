import NumericScript.Tree.Stmt

/-!
# Trees without places

Two texts of the same script differ in their places only. A tree without its places has the same
place at every node.
-/

namespace NumericScript

/-- An expression without its places. -/
@[simp]
def Expr.bare : Expr → Expr
  | number value _ => number value default
  | scalar name _ => scalar name default
  | element name index _ => element name index.bare default
  | binary op left right _ => binary op left.bare right.bare default
  | negate operand _ => negate operand.bare default
  | call builtin argument _ => call builtin argument.bare default
  | group inner _ => group inner.bare default

/-- An expression that is a number but for its place is a number. -/
theorem Expr.eq_number_of_bare {e : Expr} {value : Single} {place : Span}
    (h : e.bare = .number value place) : ∃ span, e = .number value span := by
  cases e with
  | number value span =>
    obtain ⟨rfl, -⟩ := number.inj h
    exact ⟨span, rfl⟩
  | _ => cases h

/-- An expression that is a scalar but for its place is a scalar. -/
theorem Expr.eq_scalar_of_bare {e : Expr} {name : String} {place : Span}
    (h : e.bare = .scalar name place) : ∃ span, e = .scalar name span := by
  cases e with
  | scalar word span =>
    obtain ⟨rfl, -⟩ := scalar.inj h
    exact ⟨span, rfl⟩
  | _ => cases h

/-- An expression that is an element but for its places is one, with the same index but for them. -/
theorem Expr.eq_element_of_bare {e : Expr} {name : String} {bare : Expr} {place : Span}
    (h : e.bare = .element name bare place) :
    ∃ index span, e = .element name index span ∧ index.bare = bare := by
  cases e with
  | element word index span =>
    obtain ⟨rfl, hindex, -⟩ := element.inj h
    exact ⟨index, span, rfl, hindex⟩
  | _ => cases h

/-- A condition without its places. -/
def Cond.bare : Cond → Cond
  | compare op left right _ => compare op left.bare right.bare default
  | logical op left right _ => logical op left.bare right.bare default

/-- A target without its places. -/
def Target.bare : Target → Target
  | scalar name _ => scalar name default
  | element name index _ => element name index.bare default

/-- A target that is a scalar but for its place is a scalar. -/
theorem Target.eq_scalar_of_bare {target : Target} {name : String} {place : Span}
    (h : target.bare = .scalar name place) : ∃ span, target = .scalar name span := by
  cases target with
  | scalar word span =>
    obtain ⟨rfl, -⟩ := scalar.inj h
    exact ⟨span, rfl⟩
  | element => cases h

/-- A target that is an element but for its places is one, with the same index but for them. -/
theorem Target.eq_element_of_bare {target : Target} {name : String} {bare : Expr} {place : Span}
    (h : target.bare = .element name bare place) :
    ∃ index span, target = .element name index span ∧ index.bare = bare := by
  cases target with
  | scalar => cases h
  | element word index span =>
    obtain ⟨rfl, hindex, -⟩ := element.inj h
    exact ⟨index, span, rfl, hindex⟩

mutual

/-- A statement without its places. -/
def Stmt.bare : Stmt → Stmt
  | .assign target value _ => .assign target.bare value.bare default
  | .block body _ => .block (bareOf body) default
  | .branch condition body otherwise _ =>
    .branch condition.bare (bareOf body) otherwise.bare default
  | .loop condition body _ => .loop condition.bare (bareOf body) default

/-- What a branch does otherwise, without its places. -/
def Chain.bare : Chain → Chain
  | .done => .done
  | .block body => .block (bareOf body)
  | .branch condition body otherwise => .branch condition.bare (bareOf body) otherwise.bare

/-- Statements without their places. -/
def bareOf : List Stmt → List Stmt
  | [] => []
  | stmt :: later => stmt.bare :: bareOf later

end

end NumericScript
