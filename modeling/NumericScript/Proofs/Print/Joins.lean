import NumericScript.Proofs.Print.Source
import NumericScript.Proofs.ReadBack.Source

/-!
# Joined conditions

How deep the joins of a condition are nested. The reader counts no level for a join, so it is the
signs on the condition's line alone that bound them: `&&` and `||` lean to the left, and each is one
above what stands before it.
-/

namespace NumericScript

/-- The largest number of joins on a way down through a condition. -/
def Cond.joinDepth : Cond → Nat
  | compare .. => 0
  | logical _ left right _ => max left.joinDepth right.joinDepth + 1

/-- The number of `&&` in some glyphs. -/
def ands (glyphs : List Glyph) : Nat := glyphs.count (.mark .andAnd)

/-- How deep a `||` is that stands after something deep and before more glyphs. -/
def orAbove (depth : Nat) (glyphs : List Glyph) : Nat := max depth (ands glyphs) + 1

/-- How deep the joins on a line are nested: one `||` above the other, and each above its `&&`. -/
def joinsOf (glyphs : List Glyph) : Nat :=
  match glyphs.splitOn (.mark .orOr) with
  | [] => 0
  | first :: later => later.foldl orAbove (ands first)

private theorem ands_eq_zero {glyphs : List Glyph} (h : Free Glyph.isJoin glyphs) :
    ands glyphs = 0 :=
  List.count_eq_zero.mpr (h.not_mem rfl)

private theorem ands_append (glyphs more : List Glyph) :
    ands (glyphs ++ more) = ands glyphs + ands more :=
  List.count_append

/-- In a conjunction there is no `||`, and its joins are as deep as there are `&&`. -/
theorem Cond.joins_conjunction {c : Cond} (hshaped : c.Shaped) (h : 1 ≤ c.binding) :
    .mark .orOr ∉ c.glyphs ∧ ands c.glyphs = c.joinDepth := by
  induction c with
  | compare op left right span =>
    have hleft : Free Glyph.isJoin left.glyphs := left.plain.of_plain Glyph.isJoin_of_plain
    have hright : Free Glyph.isJoin right.glyphs := right.plain.of_plain Glyph.isJoin_of_plain
    have hfree : Free Glyph.isJoin (compare op left right span).glyphs :=
      hleft.append (.cons (by cases op <;> rfl) hright)
    exact ⟨hfree.not_mem rfl, ands_eq_zero hfree⟩
  | logical op left right span ihl ihr =>
    obtain ⟨hlshaped, hrshaped, hleft, hright⟩ := hshaped
    cases op with
    | or => exact absurd h (by simp [binding])
    | and =>
      obtain ⟨hlor, hlands⟩ := ihl hlshaped hleft
      obtain ⟨hror, hrands⟩ := ihr hrshaped (Nat.le_of_succ_le hright)
      have hrdepth : right.joinDepth = 0 := by
        cases right with
        | compare => rfl
        | logical op => cases op <;> simp [LogicalOp.leftBinding, binding] at hright
      refine ⟨by simp [glyphs, LogicalOp.kind, hlor, hror], ?_⟩
      rw [glyphs, ands_append, hlands, LogicalOp.kind, joinDepth, hrdepth, Nat.max_zero, ands,
        List.count_cons_self, ← ands, hrands, hrdepth]

/-- What stands around a conjunction without joins of its own is no matter. -/
theorem Cond.joins_conjunction_around {c : Cond} (hshaped : c.Shaped) (h : 1 ≤ c.binding)
    {front back : List Glyph} (hfront : Free Glyph.isJoin front) (hback : Free Glyph.isJoin back) :
    .mark .orOr ∉ front ++ c.glyphs ++ back ∧ ands (front ++ c.glyphs ++ back) = c.joinDepth := by
  obtain ⟨hor, hands⟩ := joins_conjunction hshaped h
  have hbefore : .mark .orOr ∉ front := hfront.not_mem rfl
  have hafter : .mark .orOr ∉ back := hback.not_mem rfl
  refine ⟨by simp [hbefore, hor, hafter], ?_⟩
  rw [ands_append, ands_append, hands, ands_eq_zero hfront, ands_eq_zero hback, Nat.zero_add,
    Nat.add_zero]

private theorem joinsOf_conjunction {glyphs : List Glyph} (h : .mark .orOr ∉ glyphs) :
    joinsOf glyphs = ands glyphs := by
  rw [joinsOf, List.splitOn_eq_singleton h]
  rfl

/-- The last `||` is above all joins before it. -/
theorem joinsOf_or (glyphs : List Glyph) {more : List Glyph} (h : .mark .orOr ∉ more) :
    joinsOf (glyphs ++ .mark .orOr :: more) = orAbove (joinsOf glyphs) more := by
  rw [joinsOf, List.splitOn_append_cons_self, List.splitOn_eq_singleton h, joinsOf]
  cases hsplit : glyphs.splitOn (.mark .orOr) with
  | nil => exact (List.splitOn_ne_nil _ _ hsplit).elim
  | cons first later => simp only [List.cons_append, List.foldl_append, List.foldl_cons,
      List.foldl_nil]

/-- How deep the joins of a condition are can be seen on its line. -/
theorem Cond.joinsOf_around {c : Cond} (hshaped : c.Shaped) {front back : List Glyph}
    (hfront : Free Glyph.isJoin front) (hback : Free Glyph.isJoin back) :
    joinsOf (front ++ c.glyphs ++ back) = c.joinDepth := by
  induction c generalizing back with
  | compare =>
    obtain ⟨hor, hands⟩ := joins_conjunction_around hshaped (by simp [binding]) hfront hback
    rw [joinsOf_conjunction hor, hands]
  | logical op left right span ihl =>
    cases op with
    | and =>
      obtain ⟨hor, hands⟩ := joins_conjunction_around hshaped (Nat.le_refl 1) hfront hback
      rw [joinsOf_conjunction hor, hands]
    | or =>
      obtain ⟨hlshaped, hrshaped, _, hright⟩ := hshaped
      have hleft := ihl hlshaped .nil
      obtain ⟨hror, hrands⟩ := joins_conjunction_around hrshaped hright .nil hback
      rw [List.nil_append] at hror hrands
      rw [List.append_nil] at hleft
      have hline : front ++ (logical .or left right span).glyphs ++ back =
          front ++ left.glyphs ++ .mark .orOr :: (right.glyphs ++ back) := by
        simp only [glyphs, LogicalOp.kind, List.append_assoc, List.cons_append]
      rw [hline, joinsOf_or _ hror, hleft, orAbove, hrands, joinDepth]

/-- A line without joins, or the header's line of one of some conditions. -/
def IsJoined (phrases : List Phrase) (line : List Glyph) : Prop :=
  Free Glyph.isJoin line ∨ ∃ c, .condition c ∈ phrases ∧ (Phrase.condition c).IsLine line

private theorem IsJoined.mono {phrases all : List Phrase} {line : List Glyph}
    (h : IsJoined phrases line) (hsub : phrases ⊆ all) : IsJoined all line :=
  h.imp_right fun ⟨c, hm, hline⟩ => ⟨c, hsub hm, hline⟩

private theorem isJoined_braced {phrases : List Phrase} {lines : List (List Glyph)}
    (h : ∀ line ∈ lines, IsJoined phrases line) : ∀ line ∈ braced lines, IsJoined phrases line := by
  intro line hm
  rcases List.mem_cons.mp hm with rfl | hm
  · exact .inl (Free.cons rfl .nil)
  rcases List.mem_append.mp hm with hm | hm
  · exact h line hm
  · obtain rfl := List.mem_singleton.mp hm
    exact .inl (Free.cons rfl .nil)

/-- A header with its block and the lines after it. -/
theorem isJoined_headed (word : Keyword) (c : Cond) {inner rest : List Phrase}
    {body later : List (List Glyph)} (hbody : ∀ line ∈ body, IsJoined inner line)
    (hlater : ∀ line ∈ later, IsJoined rest line) :
    ∀ line ∈ headerLine word c :: (braced body ++ later),
      IsJoined (.condition c :: (inner ++ rest)) line := by
  intro line hm
  rcases List.mem_cons.mp hm with rfl | hm
  · exact .inr ⟨c, List.mem_cons_self, word, rfl⟩
  rcases List.mem_append.mp hm with hm | hm
  · exact (isJoined_braced hbody line hm).mono
      (List.subset_cons_of_subset _ (List.subset_append_left ..))
  · exact (hlater line hm).mono (List.subset_cons_of_subset _ (List.subset_append_right ..))

mutual

private theorem Stmt.isJoined : ∀ s : Stmt, ∀ line ∈ s.lines, IsJoined s.phrases line
  | .assign target value _, line, hm => by
    obtain rfl := List.mem_singleton.mp hm
    exact .inl ((plain_assignmentLine target value).of_plain Glyph.isJoin_of_plain)
  | .block body _, line, hm => isJoined_braced (isJoined_linesOf body) line hm
  | .branch condition body otherwise _, line, hm =>
    isJoined_headed .ifWord condition (isJoined_linesOf body) otherwise.isJoined line hm
  | .loop condition body _, line, hm => by
    have hnone : ∀ line ∈ ([] : List (List Glyph)), IsJoined [] line := nofun
    have hheaded := isJoined_headed .whileWord condition (isJoined_linesOf body) hnone
    rw [List.append_nil, List.append_nil] at hheaded
    exact hheaded line hm

private theorem Chain.isJoined : ∀ chain : Chain, ∀ line ∈ chain.lines, IsJoined chain.phrases line
  | .done, _, hm => nomatch hm
  | .block body, line, hm => by
    rcases List.mem_cons.mp hm with rfl | hm
    · exact .inl (Free.cons rfl .nil)
    · exact isJoined_braced (isJoined_linesOf body) line hm
  | .branch condition body otherwise, line, hm =>
    isJoined_headed .elifWord condition (isJoined_linesOf body) otherwise.isJoined line hm

/-- The only joins in statements are in the headers of their conditions. -/
theorem isJoined_linesOf : ∀ stmts : List Stmt, ∀ line ∈ linesOf stmts,
    IsJoined (phrasesOf stmts) line
  | [], _, hm => nomatch hm
  | s :: later, line, hm => by
    rcases List.mem_append.mp hm with hm | hm
    · exact (s.isJoined line hm).mono (List.subset_append_left ..)
    · exact (isJoined_linesOf later line hm).mono (List.subset_append_right ..)

end

private theorem joinsOf_eq_zero {glyphs : List Glyph} (h : Free Glyph.isJoin glyphs) :
    joinsOf glyphs = 0 := by
  rw [joinsOf_conjunction (h.not_mem rfl), ands_eq_zero h]

/-- The joins on a header's line are those of its condition. -/
theorem joinsOf_headerLine (word : Keyword) {c : Cond} (hshaped : c.Shaped) :
    joinsOf (headerLine word c) = c.joinDepth := by
  have hfront : Free Glyph.isJoin [.mark (.keyword word), .mark .leftParen] :=
    .cons rfl (.cons rfl .nil)
  have hback : Free Glyph.isJoin [.mark .rightParen] := .cons rfl .nil
  exact Cond.joinsOf_around hshaped hfront hback

/-- Every token of an accepted condition is read back, whatever the lines that hold it. -/
theorem parseCondition_reads {source : String} {c : Cond} (h : parseCondition source = .ok c) :
    ∃ lines, scan source = .ok lines ∧ lines.flatMap (·.tokens.map Token.glyph) = c.glyphs ∧
      c.Shaped := by
  obtain ⟨lines, hscan, h⟩ := bind_eq_ok.mp h
  refine ⟨lines, hscan, ?_⟩
  have hkept : lines.flatMap (·.tokens.map Token.glyph) =
      (lines.filter (!·.tokens.isEmpty)).flatMap (·.tokens.map Token.glyph) := by
    clear hscan h
    induction lines with
    | nil => rfl
    | cons line lines ih =>
      rw [List.flatMap_cons, List.filter_cons, ih]
      split
      · rfl
      · rename_i hempty
        have htokens : line.tokens = [] := by simpa using hempty
        rw [htokens]
        rfl
  rw [hkept]
  unfold readAlone at h
  split at h
  · rename_i hlines
    obtain ⟨⟨cond, rest⟩, hread, h⟩ := bind_eq_ok.mp h
    obtain rfl := Except.ok.inj h
    obtain ⟨hglyphs, hshaped, _⟩ := readsCond_condition maxNesting _ _ _ _ hread
    obtain ⟨hnil, _⟩ := List.append_eq_nil_iff.mp hglyphs.symm
    exact ⟨by rw [hlines, hnil]; rfl, hshaped⟩
  · rename_i line later hlines
    obtain ⟨⟨cond, rest⟩, hread, h⟩ := bind_eq_ok.mp h
    obtain ⟨hglyphs, hshaped, _⟩ := readsCond_condition maxNesting _ _ _ _ hread
    dsimp only at h
    split at h
    · rename_i hrest
      obtain rfl := Except.ok.inj h
      obtain ⟨rfl, hlater⟩ := List.append_eq_nil_iff.mp hrest
      refine ⟨?_, hshaped⟩
      rw [hlines, List.flatMap_cons, hglyphs, List.map_nil, List.append_nil, ← List.map_flatMap,
        hlater, List.map_nil, List.append_nil]
    · simp [fail] at h

/-- Without its places a condition has the same joins. -/
theorem Cond.joinDepth_bare (c : Cond) : c.bare.joinDepth = c.joinDepth := by
  induction c with
  | compare => rfl
  | logical op left right span ihl ihr => simp only [bare, joinDepth, ihl, ihr]

/-- A comparison of two names. -/
def Cond.link : Cond := .compare .less (.scalar "a" default) (.scalar "b" default) default

/-- The same comparison again and again, joined by as many `&&` as a number says. -/
def Cond.chained : Nat → Cond
  | 0 => link
  | joins + 1 => .logical .and (chained joins) link default

namespace Cond

private theorem joinDepth_chained (joins : Nat) : (chained joins).joinDepth = joins := by
  induction joins with
  | zero => rfl
  | succ joins ih => rw [chained, joinDepth, ih, link, joinDepth, Nat.max_zero]

private theorem shaped_chained (joins : Nat) :
    (chained joins).Shaped ∧ 1 ≤ (chained joins).binding := by
  induction joins with
  | zero => decide
  | succ joins ih => exact ⟨⟨ih.1, by decide, ih.2, by decide⟩, Nat.le_refl 1⟩

/-- A chain of comparisons is not deep, however long it is. -/
theorem within_chained (joins : Nat) : Within (chained joins).levels maxNesting := by
  induction joins with
  | zero => decide
  | succ joins ih => exact within_append.mpr ⟨ih, by decide⟩

private theorem printable_link : ∀ glyph ∈ link.glyphs, glyph.Printable Single.text := by
  have ha : (Glyph.name "a").Printable Single.text := rfl
  have hb : (Glyph.name "b").Printable Single.text := rfl
  have hless : (Glyph.mark .less).Printable Single.text := trivial
  simp [link, glyphs, Expr.glyphs, CompareOp.kind, ha, hb, hless]

private theorem printable_chained (joins : Nat) :
    ∀ glyph ∈ (chained joins).glyphs, glyph.Printable Single.text := by
  induction joins with
  | zero => exact printable_link
  | succ joins ih =>
    intro glyph hm
    rcases List.mem_append.mp hm with hm | hm
    · exact ih glyph hm
    · rcases List.mem_cons.mp hm with rfl | hm
      · trivial
      · exact printable_link glyph hm

end Cond

/-- A chain of any length is accepted as a condition. -/
theorem parseCondition_chained (joins : Nat) :
    ∃ c, parseCondition (String.ofList (textOf Single.text (Cond.chained joins).glyphs)) = .ok c ∧
      c.joinDepth = joins := by
  have hprintable := Cond.printable_chained joins
  have hsource := filter_isBlank_ofList
    (isWhitespace_textOf hprintable (Cond.chained joins).braceless)
  have hsettles := settles_parseCondition (Cond.shaped_chained joins).1 hprintable hsource
  obtain ⟨c, hread, hbare⟩ := hsettles.cases.1 (Cond.within_chained joins)
  refine ⟨c, hread, ?_⟩
  rw [← c.joinDepth_bare, hbare, Cond.joinDepth_bare, Cond.joinDepth_chained]

/-- A loop with a condition and nothing to do. -/
def idleLoop (condition : Cond) : List Stmt := [.loop condition [] default]

private theorem condition_of_idleLoop {stmts : List Stmt} {condition : Cond}
    (h : bareOf stmts = bareOf (idleLoop condition)) :
    ∃ c, .condition c ∈ phrasesOf stmts ∧ c.bare = condition.bare := by
  match stmts with
  | [.loop c body span] =>
    refine ⟨c, List.mem_cons_self, ?_⟩
    simp only [bareOf, Stmt.bare, idleLoop, List.cons.injEq, Stmt.loop.injEq] at h
    exact h.1.1
  | [] => cases h
  | [.assign ..] => cases h
  | [.block ..] => cases h
  | [.branch ..] => cases h
  | _ :: _ :: _ =>
    simp [bareOf, idleLoop] at h

/-- A chain of any length is accepted in a script. -/
theorem parseProgram_chained (joins : Nat) :
    ∃ stmts c, parseProgram (String.ofList (linesText Single.text
        (linesOf (idleLoop (Cond.chained joins))))) = .ok stmts ∧
      .condition c ∈ phrasesOf stmts ∧ c.joinDepth = joins := by
  have hshaped : ∀ phrase ∈ phrasesOf (idleLoop (Cond.chained joins)), phrase.Shaped := by
    intro phrase hm
    obtain rfl := List.mem_singleton.mp hm
    exact (Cond.shaped_chained joins).1
  have hprintable : ∀ line ∈ linesOf (idleLoop (Cond.chained joins)), ∀ glyph ∈ line,
      glyph.Printable Single.text := by
    have hmark : ∀ kind, (Glyph.mark kind).Printable Single.text := fun _ => trivial
    simpa [idleLoop, linesOf, Stmt.lines, headerLine, parenthesized, braced, hmark, or_imp,
      forall_and] using Cond.printable_chained joins
  have hsettles := settles_parseProgram hshaped hprintable
    (filter_isBlank_ofList (isWhitespace_linesOf hprintable))
  have hlevels : Within (levelsOf (idleLoop (Cond.chained joins))) maxNesting := by
    have hblock : Within (blockLevels []) maxNesting := by decide
    simpa [idleLoop, levelsOf, Stmt.levels, hblock] using Cond.within_chained joins
  obtain ⟨stmts, hread, hbare⟩ := hsettles.cases.1 hlevels
  obtain ⟨c, hm, hcbare⟩ := condition_of_idleLoop hbare
  refine ⟨stmts, c, hread, hm, ?_⟩
  rw [← c.joinDepth_bare, hcbare, Cond.joinDepth_bare, Cond.joinDepth_chained]

/--
The signs on the lines of an accepted text decide how deep the joins of its conditions are. The
conditions keep within a bound, such as the greatest number of levels, exactly if the lines do.
-/
theorem joinDepth_le_iff (source : String) (bound : Nat) :
    (∀ c, parseCondition source = .ok c → ∃ lines, scan source = .ok lines ∧
      (c.joinDepth ≤ bound ↔ joinsOf (lines.flatMap (·.tokens.map Token.glyph)) ≤ bound)) ∧
    ∀ stmts, parseProgram source = .ok stmts → ∃ lines, scan source = .ok lines ∧
      ((∀ c, .condition c ∈ phrasesOf stmts → c.joinDepth ≤ bound) ↔
        ∀ line ∈ scriptGlyphs lines, joinsOf line ≤ bound) := by
  refine ⟨fun c h => ?_, fun stmts h => ?_⟩
  · obtain ⟨lines, hscan, hglyphs, hshaped⟩ := parseCondition_reads h
    refine ⟨lines, hscan, ?_⟩
    have hjoins := Cond.joinsOf_around hshaped .nil .nil
    rw [List.nil_append, List.append_nil] at hjoins
    rw [hglyphs, hjoins]
  · obtain ⟨lines, hscan, h⟩ := bind_eq_ok.mp h
    obtain ⟨hlines, hshaped⟩ := readProgram_reads hscan h
    refine ⟨lines, hscan, ?_⟩
    rw [← hlines]
    constructor
    · intro hconditions line hline
      rcases isJoined_linesOf stmts line hline with hfree | ⟨c, hm, word, rfl⟩
      · rw [joinsOf_eq_zero hfree]
        exact Nat.zero_le bound
      · rw [joinsOf_headerLine word (hshaped _ hm)]
        exact hconditions c hm
    · intro hbound c hm
      obtain ⟨_, hline, word, rfl⟩ := exists_line_linesOf stmts hm
      rw [← joinsOf_headerLine word (hshaped _ hm)]
      exact hbound _ hline

/-- Two chains of two conditions each, joined: no condition is inside more than two joins. -/
theorem joinDepth_le_iff_mixed :
    ∃ c lines, parseCondition "a < b && b < c || a < c && b < c" = .ok c ∧ c.joinDepth = 2 ∧
      scan "a < b && b < c || a < c && b < c" = .ok lines ∧
      joinsOf (lines.flatMap (·.tokens.map Token.glyph)) ≤ 2 := by
  have hread : (parseCondition "a < b && b < c || a < c && b < c").toOption.map Cond.joinDepth =
      some 2 := by
    decide +kernel
  obtain ⟨c, hc, hdepth⟩ := Option.map_eq_some_iff.mp hread
  have h := toOption_eq_some.mp hc
  obtain ⟨lines, hscan, hjoins⟩ := (joinDepth_le_iff _ 2).1 c h
  exact ⟨c, lines, h, hdepth, hscan, hjoins.mp (Nat.le_of_eq hdepth)⟩

/-- Comparisons `a<b` joined by as many `&&` as a number says, as they are written. -/
def chainText (joins : Nat) : List Char :=
  "a<b".toList ++ (List.replicate joins "&&a<b".toList).flatten

private theorem textOf_chained (joins : Nat) :
    textOf Single.text (Cond.chained joins).glyphs = chainText joins := by
  induction joins with
  | zero => rfl
  | succ joins ih =>
    have hlink : textOf Single.text (.mark .andAnd :: Cond.link.glyphs) = "&&a<b".toList := rfl
    rw [Cond.chained, Cond.glyphs, textOf_append, ih, LogicalOp.kind, hlink, chainText, chainText,
      List.append_assoc, List.replicate_succ', List.flatten_append, List.flatten_singleton]

private theorem linesText_idleLoop (c : Cond) :
    linesText Single.text (linesOf (idleLoop c)) =
      "while(".toList ++ textOf Single.text c.glyphs ++ ")\n\x7b\n\x7d\n".toList := by
  have hlines : linesOf (idleLoop c) = [headerLine .whileWord c, [.mark .leftBrace],
      [.mark .rightBrace]] := rfl
  have hwhile : textOf Single.text [.mark (.keyword .whileWord), .mark .leftParen] =
      "while(".toList := rfl
  have hheader : headerLine .whileWord c =
      [.mark (.keyword .whileWord), .mark .leftParen] ++ c.glyphs ++ [.mark .rightParen] := rfl
  rw [hlines, linesText, List.flatMap_cons, hheader, textOf_append, textOf_append, hwhile,
    List.append_assoc, List.append_assoc]
  rfl

/-- More than the greatest number of joins are accepted, alone and in a script. -/
theorem joinDepth_beyond_maxNesting :
    (∃ c, parseCondition (String.ofList (chainText 257)) = .ok c ∧ maxNesting < c.joinDepth) ∧
    ∃ stmts c, parseProgram (String.ofList
        ("while(".toList ++ chainText 257 ++ ")\n\x7b\n\x7d\n".toList)) = .ok stmts ∧
      .condition c ∈ phrasesOf stmts ∧ maxNesting < c.joinDepth := by
  obtain ⟨c, hread, hdepth⟩ := parseCondition_chained 257
  obtain ⟨stmts, c', hread', hm, hdepth'⟩ := parseProgram_chained 257
  rw [textOf_chained] at hread
  rw [linesText_idleLoop, textOf_chained] at hread'
  have hbeyond : maxNesting < 257 := by decide
  exact ⟨⟨c, hread, hdepth ▸ hbeyond⟩, stmts, c', hread', hm, hdepth' ▸ hbeyond⟩

end NumericScript
