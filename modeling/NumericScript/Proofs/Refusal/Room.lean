import NumericScript.Proofs.Relocation.Program

/-!
# Less room for nesting

With less room for nesting the same lines are read in the same way, or they are refused as too deep.
All spans stay where they are.
-/

namespace NumericScript

/-- All spans stay where they are. -/
def Motion.stay : Motion := ⟨id, fun _ _ => rfl⟩

section Stay

private theorem Token.move_stay (t : Token) : Movable.move .stay t = t := rfl

private theorem map_move_stay {α : Type} [Movable α] (h : ∀ a : α, move .stay a = a) (as : List α) :
    move .stay as = as :=
  (List.map_congr_left fun a _ => h a).trans (List.map_id as)

/-- Moving an expression nowhere leaves it as it is. -/
theorem Expr.move_stay (e : Expr) : Movable.move .stay e = e := by
  show Expr.move _ _ = _
  induction e <;> simp_all [Expr.move, Motion.stay]

/-- Moving a condition nowhere leaves it as it is. -/
theorem Cond.move_stay (c : Cond) : Movable.move .stay c = c := by
  show Cond.move _ _ = _
  induction c with
  | compare op left right span =>
    exact congrArg₂ (compare op · · span) left.move_stay right.move_stay
  | logical op left right span ihl ihr => exact congrArg₂ (logical op · · span) ihl ihr

private theorem Target.move_stay (t : Target) : Movable.move .stay t = t := by
  cases t with
  | scalar name span => rfl
  | element name index span => exact congrArg (element name · span) index.move_stay

mutual

private theorem Stmt.move_stay : ∀ s : Stmt, s.move .stay = s
  | .assign target value span => congrArg₂ (Stmt.assign · · span) target.move_stay value.move_stay
  | .block body span => congrArg (Stmt.block · span) (moveAll_stay body)
  | .branch condition body otherwise span => by
    rw [Stmt.move, moveAll_stay body, otherwise.move_stay]
    exact congrArg (Stmt.branch · body otherwise span) condition.move_stay
  | .loop condition body span =>
    congrArg₂ (Stmt.loop · · span) condition.move_stay (moveAll_stay body)

private theorem Chain.move_stay : ∀ chain : Chain, chain.move .stay = chain
  | .done => rfl
  | .block body => congrArg Chain.block (moveAll_stay body)
  | .branch condition body otherwise => by
    rw [Chain.move, moveAll_stay body, otherwise.move_stay]
    exact congrArg (Chain.branch · body otherwise) condition.move_stay

private theorem moveAll_stay : ∀ stmts : List Stmt, moveAll .stay stmts = stmts
  | [] => rfl
  | stmt :: later => congrArg₂ List.cons stmt.move_stay (moveAll_stay later)

end

private theorem Outline.move_stay (o : Outline) : Movable.move .stay o = o := by
  show Outline.move _ _ = _
  induction o with
  | done => rfl
  | line first more stop next ih =>
    exact congrArg₂ (line first · stop ·) (map_move_stay Token.move_stay more) ih
  | block brace stop body close next ihbody ihnext =>
    have hclose : Movable.move .stay close = close := by cases close <;> rfl
    rw [Outline.move, ihbody, ihnext, hclose]
    rfl
  | stray brace next ih => exact congrArg (stray brace) ih

end Stay

section Results

variable {α : Type} {x y : Except ScriptError α}

/-- The second result is the first one, or it is that something is too deep. -/
def Refuses (x y : Except ScriptError α) : Prop := y = x ∨ ∃ span, y = fail span .tooDeep

private theorem Refuses.bind {β : Type} (h : Refuses x y) (k : α → Except ScriptError β) :
    Refuses (x >>= k) (y >>= k) := by
  rcases h with rfl | ⟨span, rfl⟩
  · exact .inl rfl
  · exact .inr ⟨span, rfl⟩

private theorem Follows.refuses [Movable α] (hstay : ∀ a : α, move .stay a = a)
    (h : Follows .stay True x y) : Refuses x y := by
  cases h with
  | moved =>
    cases x with
    | ok a => exact .inl (congrArg Except.ok (hstay a))
    | error error => exact .inl rfl
  | tooDeep _ span => exact .inr ⟨span, rfl⟩

end Results

variable {low high : Nat}

/-- What a reader makes of lines, it makes of them with less room, or it finds them too deep. -/
theorem refuses_readAlone {α : Type} [Movable α] (hstay : ∀ a : α, move .stay a = a)
    (subject : Subject) {reader reader' : Reader α} (h : ReadsAfter .stay True reader reader')
    (lines : List TokenLine) :
    Refuses (readAlone subject reader lines) (readAlone subject reader' lines) := by
  have hreader : ∀ stop tokens, Refuses (reader stop tokens) (reader' stop tokens) := by
    intro stop tokens
    have hmoved := h stop tokens
    rw [map_move_stay Token.move_stay] at hmoved
    exact hmoved.refuses fun (a, rest) => Prod.ext (hstay a) (map_move_stay Token.move_stay rest)
  rw [readAlone_eq, readAlone_eq]
  cases lines.filter (!·.tokens.isEmpty) with
  | nil => exact (hreader _ _).bind _
  | cons line later => exact (hreader line.stop line.tokens).bind _

/-- A lower limit reads a script in the same way or refuses it as too deep. -/
theorem refuses_readProgram (hle : low ≤ high) (lines : List TokenLine) :
    Refuses (readProgram high lines) (readProgram low lines) := by
  have hreads : ReadsSequel .stay True false (.ofLines lines) :=
    readsSequel false high (endSpan lines) _
  have hfollows := hreads hle (fun _ => trivial) (endSpan lines)
  rw [Outline.move_stay] at hfollows
  have hstay : ∀ read : Sequel, move .stay read = read := by
    rintro ⟨otherwise, lastBlock, statements⟩
    have hlast : Movable.move .stay lastBlock = lastBlock := by cases lastBlock <;> rfl
    show Sequel.mk _ _ _ = _
    rw [hlast, map_move_stay Stmt.move_stay]
    exact congrArg (Sequel.mk · _ _) otherwise.move_stay
  exact (hfollows.refuses hstay).bind _

end NumericScript
