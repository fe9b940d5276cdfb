import NumericScript.Grammar.Progress

/-!
# Reading conditions

Comparisons of two expressions, joined by `&&` and, less tightly, by `||`. A chain of conditions may
have any length.
-/

namespace NumericScript

/-- The comparison that a token is. -/
def compareOp? : TokenKind → Option CompareOp
  | .less => some .less
  | .greater => some .greater
  | .equalEqual => some .equal
  | .bangEqual => some .notEqual
  | _ => none

/-- Read two expressions with a comparison between them. -/
def comparison (room : Nat) : Reader Cond := fun stop tokens => do
  let (left, rest) ← expression room stop tokens
  match rest with
  | [] => fail stop .expectedComparison
  | t :: rest =>
    match compareOp? t.kind with
    | none => fail t.span .expectedComparison
    | some op => do
      let (right, rest) ←
        orMissing t.span (.missingOperand t.lexeme .comparison) (expression room stop rest)
      .ok (.compare op left right (left.span.join right.span), rest)

/-- Reading a comparison or a condition in parentheses leaves fewer tokens. -/
theorem shrinks_comparison (room : Nat) : Shrinks (comparison room) := by
  intro stop tokens a rest h
  obtain ⟨⟨left, after⟩, hleft, h⟩ := bind_eq_ok.mp h
  have := shrinks_expression room _ _ _ _ hleft
  dsimp only at h
  split at h
  · simp [fail] at h
  · rename_i t later
    split at h
    · simp [fail] at h
    · obtain ⟨⟨right, last⟩, hright, h⟩ := bind_eq_ok.mp h
      have := shrinks_expression room _ _ _ _ (orMissing_eq_ok.mp hright)
      simp only [Except.ok.injEq, Prod.mk.injEq] at h
      simp only [List.length_cons] at *
      simp only [← h.2]
      omega

/-- Join two conditions under the least span around both. -/
def Cond.join (op : LogicalOp) (left right : Cond) : Cond :=
  .logical op left right (left.span.join right.span)

/--
Go on with a chain of conditions after its left side, as long as the sign of the operator follows.
-/
def chainRest (sign : TokenKind) (op : LogicalOp) (link : Reader Cond) (progress : Shrinks link)
    (left : Cond) (stop : Span) (tokens : List Token) :
    Except ScriptError (Cond × List Token) :=
  match tokens with
  | [] => .ok (left, [])
  | t :: rest =>
    if t.kind = sign then
      match h : link stop rest with
      | .error error => .error error
      | .ok (right, rest') =>
        have := progress _ _ _ _ h
        chainRest sign op link progress (.join op left right) stop rest'
    else
      .ok (left, t :: rest)
termination_by tokens.length
decreasing_by
  simp only [List.length_cons]
  omega

/-- At the end of a line a chain of conditions is over. -/
theorem chainRest_nil {sign : TokenKind} {op : LogicalOp} {link : Reader Cond}
    (progress : Shrinks link) (left : Cond) (stop : Span) :
    chainRest sign op link progress left stop [] = .ok (left, []) := by
  rw [chainRest]

/-- A chain goes on with a link after the sign of its operator. -/
theorem chainRest_cons {sign : TokenKind} {op : LogicalOp} {link : Reader Cond}
    (progress : Shrinks link) (left : Cond) (stop : Span) (t : Token) (rest : List Token) :
    chainRest sign op link progress left stop (t :: rest) =
      if t.kind = sign then do
        let (right, rest) ← link stop rest
        chainRest sign op link progress (.join op left right) stop rest
      else .ok (left, t :: rest) := by
  rw [chainRest]
  split
  · split
    · rename_i error hlink
      rw [hlink]
      rfl
    · rename_i right rest' hlink
      simp only [hlink]
      rfl
  · rfl

/-- Read conditions joined by an operator, from the left. -/
def chain (sign : TokenKind) (op : LogicalOp) (link : Reader Cond) (progress : Shrinks link) :
    Reader Cond := fun stop tokens => do
  let (left, rest) ← link stop tokens
  chainRest sign op link progress left stop rest

private theorem keeps_chainRest {sign : TokenKind} {op : LogicalOp} {link : Reader Cond}
    (progress : Shrinks link) (left : Cond) : Keeps (chainRest sign op link progress left) := by
  intro stop tokens a rest h
  fun_induction chainRest sign op link progress left stop tokens with
  | case1 => simp_all
  | case2 left t later hsign error hlink => simp at h
  | case3 left t later hsign right after hlink hlt ih =>
    have := ih h
    simp only [List.length_cons]
    omega
  | case4 => simp_all

/-- Reading a chain of conditions leaves fewer tokens if reading a link does. -/
theorem shrinks_chain {sign : TokenKind} {op : LogicalOp} {link : Reader Cond}
    (progress : Shrinks link) : Shrinks (chain sign op link progress) := by
  intro stop tokens a rest h
  obtain ⟨⟨left, after⟩, hleft, h⟩ := bind_eq_ok.mp h
  have := progress _ _ _ _ hleft
  have : rest.length ≤ after.length := keeps_chainRest progress left _ _ _ _ h
  omega

/-- Read comparisons joined by `&&`. -/
def conjunction (room : Nat) : Reader Cond :=
  chain .andAnd .and (comparison room) (shrinks_comparison room)

/-- Read a condition: conjunctions joined by `||`. -/
def condition (room : Nat) : Reader Cond :=
  chain .orOr .or (conjunction room) (shrinks_chain (shrinks_comparison room))

end NumericScript
