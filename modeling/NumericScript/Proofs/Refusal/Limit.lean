import NumericScript.Proofs.Refusal.Origin
import NumericScript.Proofs.Refusal.Room

/-!
# The limit of nesting

The limit of nesting only rejects. A text that is read at some limit is read in the same way at
every higher one, and what is wrong with it for another reason is found at the same place. An
operator whose operand is refused says so, and not that the operand is missing.
-/

namespace NumericScript

section Message

private theorem not_prefix_append {start whole : String} (rest : String)
    (h : ¬start.toList <+: whole.toList) : ¬(start ++ rest).toList <+: whole.toList := by
  rw [String.toList_append]
  exact fun hprefix => h ((List.prefix_append _ _).trans hprefix)

/-- Every other message starts with words that it does not start with. -/
theorem Cause.message_not_prefix {cause : Cause} (h : cause ≠ .tooDeep) :
    ¬cause.message.toList <+: Cause.tooDeep.message.toList := by
  cases cause with
  | tooDeep => exact absurd rfl h
  | unmatchedBrace | unclosedBlock | expectedEqual | invalidTarget | unclosedIndex | unclosedParen
  | emptyParens | expectedComparison | lineTooShort => decide
  | expectedBlock | unclosedHeader | invalidNumber | invalidIndex =>
    exact not_prefix_append _ (by decide)
  | unexpectedCharacter | danglingBranch | expectedHeaderParen | missingOperand | missingArgument
  | expectedOperand | iterationLimit | timeLimit =>
    exact not_prefix_append _ (not_prefix_append _ (by decide))
  | notAlone | notAtEnd =>
    exact not_prefix_append _ (not_prefix_append _ (not_prefix_append _ (by decide)))

/-- No other cause has the message of nesting that is too deep, whatever lexeme it quotes. -/
theorem Cause.message_eq_tooDeep {cause : Cause} :
    cause.message = "Too deeply nested" ↔ cause = .tooDeep := by
  constructor
  · refine fun h => by_contra fun hne => message_not_prefix hne ?_
    rw [h]
    exact List.prefix_rfl
  · rintro rfl
    rfl

end Message

/--
The limit of nesting only rejects. Of two limits the lower one gives the tree or the error that the
higher one gives, or it says of a place that nesting is too deep there. Whatever part of a text is
refused in this way, the whole text is refused in the same way and at the same place. The places
where a text, or any part of it, is refused are just those where the reading comes to need a level
and all are taken. The message tells this refusal from all others.
-/
theorem limit_only_rejects {low high : Nat} (hle : low ≤ high) (scanned : List TokenLine) :
    (Refuses (readProgram high scanned) (readProgram low scanned) ∧
      Refuses (readAlone .expression (expression high) scanned)
        (readAlone .expression (expression low) scanned) ∧
      Refuses (readAlone .condition (condition high) scanned)
        (readAlone .condition (condition low) scanned)) ∧
      (∀ task place, task.Refused place →
        ((Task.script low scanned).LeadsTo task →
          readProgram low scanned = fail place .tooDeep) ∧
        ((Task.onlyExpr low scanned).LeadsTo task →
          readAlone .expression (expression low) scanned = fail place .tooDeep) ∧
        ((Task.onlyCond low scanned).LeadsTo task →
          readAlone .condition (condition low) scanned = fail place .tooDeep)) ∧
      (∀ place,
        (readProgram low scanned = fail place .tooDeep ↔
          (Task.script low scanned).LeadsTo (.descent 0 place)) ∧
        (readAlone .expression (expression low) scanned = fail place .tooDeep ↔
          (Task.onlyExpr low scanned).LeadsTo (.descent 0 place)) ∧
        (readAlone .condition (condition low) scanned = fail place .tooDeep ↔
          (Task.onlyCond low scanned).LeadsTo (.descent 0 place)) ∧
        ∀ task : Task, task.Refused place ↔ task.LeadsTo (.descent 0 place)) ∧
      ∀ cause : Cause, cause.message = "Too deeply nested" ↔ cause = .tooDeep := by
  refine ⟨⟨refuses_readProgram hle scanned, ?_, ?_⟩, fun task place hrefused => ⟨?_, ?_, ?_⟩,
    fun place => ⟨?_, ?_, ?_, Task.refused_iff_descent⟩, fun cause => Cause.message_eq_tooDeep⟩
  · exact refuses_readAlone Expr.move_stay _ (readsAfter_expression hle fun _ => trivial) scanned
  · exact refuses_readAlone Cond.move_stay _ (readsAfter_condition hle fun _ => trivial) scanned
  · exact fun h => h.refused hrefused
  · exact fun h => h.refused hrefused
  · exact fun h => h.refused hrefused
  · exact (Task.script low scanned).refused_iff_descent
  · exact (Task.onlyExpr low scanned).refused_iff_descent
  · exact (Task.onlyCond low scanned).refused_iff_descent

/-- The line `x = --1`. -/
def twoSigns : List TokenLine :=
  [⟨[⟨.identifier, "x", ⟨0, 1, 0⟩⟩, ⟨.equal, "=", ⟨2, 3, 0⟩⟩, ⟨.minus, "-", ⟨4, 5, 0⟩⟩,
    ⟨.minus, "-", ⟨5, 6, 0⟩⟩, ⟨.number, "1", ⟨6, 7, 0⟩⟩], ⟨7, 7, 0⟩⟩]

/-- Two signs need three levels: within two, the operand after the second sign is refused. -/
theorem limit_only_rejects_twoSigns :
    2 ≤ 3 ∧ (∃ stmts, readProgram 3 twoSigns = .ok stmts) ∧
      Refuses (readProgram 3 twoSigns) (readProgram 2 twoSigns) ∧
      readProgram 2 twoSigns = fail ⟨6, 7, 0⟩ .tooDeep ∧
      (Task.script 2 twoSigns).LeadsTo (.descent 0 ⟨6, 7, 0⟩) := by
  have hdeep : readProgram 2 twoSigns = fail ⟨6, 7, 0⟩ .tooDeep := rfl
  have hlimit := limit_only_rejects (show 2 ≤ 3 by decide) twoSigns
  exact ⟨by decide, ⟨_, rfl⟩, hlimit.1.1, hdeep,
    (hlimit.2.2.1 ⟨6, 7, 0⟩).1.mp hdeep⟩

end NumericScript
