import NumericScript.Proofs.Glyph.Mention
import NumericScript.Proofs.Running.Accord
import NumericScript.Proofs.Store.Access

/-!
# What a run writes

A run writes to nothing but the targets of its program, and to these only if their names are
accepted. All else is stored as it was before, and no write to it is reported.
-/

namespace NumericScript

/-- The name of a scalar or of an array. -/
def Owner.name : Owner → String
  | scalar name | array name => name

/-- The scalar or the array that a target belongs to. -/
def Target.owner : Target → Owner
  | scalar name _ => .scalar name
  | element name _ _ => .array name

/-- The address that is reported as written. -/
def DiagnosticOf.written? {α : Type} : DiagnosticOf α → Option Address
  | created address _ | updated address _ => some address
  | invalid .. | undefined _ => none

/-- Whether what a phrase assigns to, if the name is accepted, is as a predicate says. -/
def Phrase.WritesOnly (named : Owner → Prop) : Phrase → Prop
  | assignment target _ => violation? false target.owner.name = none → named target.owner
  | condition _ => True

namespace EnvironmentOf

variable {α : Type}

/--
What becomes of an environment if all that is written is as a predicate says: everything else is
stored as before, and the reports that are added tell of no other writes.
-/
structure WritesOnly (named : Owner → Prop) (env env' : EnvironmentOf α) : Prop where
  kept : ∀ address : Address, ¬named address.owner → env'.store[address]? = env.store[address]?
  reported : ∃ reports, env'.journal.toList = env.journal.toList ++ reports ∧
    ∀ report ∈ reports, ∀ address, report.written? = some address → named address.owner

variable {named : Owner → Prop} {env env' env'' : EnvironmentOf α}

namespace WritesOnly

private theorem refl (env : EnvironmentOf α) : env.WritesOnly named env :=
  ⟨fun _ _ => rfl, [], (List.append_nil _).symm, nofun⟩

private theorem trans (h : env.WritesOnly named env') (h' : env'.WritesOnly named env'') :
    env.WritesOnly named env'' := by
  obtain ⟨reports, hjournal, hreports⟩ := h.reported
  obtain ⟨later, hjournal', hlater⟩ := h'.reported
  refine ⟨fun address hnot => (h'.kept address hnot).trans (h.kept address hnot),
    reports ++ later, ?_, List.forall_mem_append.mpr ⟨hreports, hlater⟩⟩
  rw [hjournal', hjournal, List.append_assoc]

end WritesOnly

/-- A report that tells of no write comes without one. -/
theorem writesOnly_report (env : EnvironmentOf α) {diagnostic : DiagnosticOf α}
    (h : diagnostic.written? = none) : env.WritesOnly named (env.report diagnostic) := by
  refine ⟨fun _ _ => rfl, [diagnostic], Array.toList_push, List.forall_mem_singleton.mpr ?_⟩
  rw [h]
  nofun

private theorem writesOnly_reportMissing (env : EnvironmentOf α) (names : List String) :
    env.WritesOnly named (env.reportMissing names) := by
  induction names generalizing env with
  | nil => exact .refl env
  | cons name names ih => exact (env.writesOnly_report rfl).trans (ih _)

private theorem writesOnly_write (env : EnvironmentOf α) {address : Address}
    (h : named address.owner) (value : α) : env.WritesOnly named (env.write address value) := by
  refine ⟨fun other hnot => ?_, [_], Array.toList_push, List.forall_mem_singleton.mpr ?_⟩
  · rw [getElem?_write, if_neg]
    rintro rfl
    exact hnot h
  · intro other hother
    split at hother
    all_goals
      obtain rfl := Option.some.inj hother
      exact h

private theorem writesOnly_set (env : EnvironmentOf α) {name : String}
    (h : violation? false name = none → named (.scalar name)) (value : α) :
    env.WritesOnly named (env.set name value false).2 := by
  unfold set
  split
  · exact env.writesOnly_report rfl
  · rename_i haccepted
    exact env.writesOnly_write (h haccepted) value

private theorem writesOnly_setElement (env : EnvironmentOf α) {name : String}
    (h : violation? false name = none → named (.array name)) (index : UInt64) (value : α) :
    env.WritesOnly named (env.setElement name index value).2 := by
  unfold setElement
  split
  · exact env.writesOnly_report rfl
  · rename_i haccepted
    exact env.writesOnly_write (h haccepted) value

end EnvironmentOf

/-- An assignment evaluates expressions, which write nothing, and then writes to its target. -/
theorem Environment.writesOnly_assign {named : Owner → Prop} (env : Environment) {target : Target}
    {value : Expr} (h : (Phrase.assignment target value).WritesOnly named) :
    env.WritesOnly named (env.assign target value).2 := by
  have hvalue : env.WritesOnly named _ :=
    env.writesOnly_reportMissing (value.eval env.store).missing
  rw [assign, observe]
  cases (value.eval env.store).result with
  | error => exact hvalue
  | ok written =>
    cases target with
    | scalar name => exact hvalue.trans (EnvironmentOf.writesOnly_set _ h written)
    | element name index =>
      generalize env.reportMissing (value.eval env.store).missing = told at hvalue ⊢
      have hindex :=
        hvalue.trans (told.writesOnly_reportMissing (index.evalIndex told.store).missing)
      dsimp only
      rw [observe]
      cases (index.evalIndex told.store).result with
      | error => exact hindex
      | ok position => exact hindex.trans (EnvironmentOf.writesOnly_setElement _ h position written)

/-- A run writes to nothing but the targets of its phrases. -/
theorem performs_writesOnly (limits : Limits) (named : Owner → Prop) :
    Performs limits (Phrase.WritesOnly named) fun machine outcome =>
      outcome.Leaves fun after => machine.env.WritesOnly named after.env :=
  performs_leaves limits (EnvironmentOf.WritesOnly named) .refl .trans
    (fun env _ _ => env.writesOnly_reportMissing _) fun env _ _ => env.writesOnly_assign

/-- A run writes no name but those its phrases may write. -/
theorem writesOnly_runProgram {named : Owner → Prop} {program : List Stmt}
    (h : ∀ phrase ∈ phrasesOf program, phrase.WritesOnly named) (limits : Limits) (rounds : Nat)
    (env : Environment) :
    (runProgram limits rounds program env).Leaves fun machine =>
      env.WritesOnly named machine.env :=
  (performs_writesOnly limits named).execAll program h ⟨env, #[]⟩

end NumericScript
