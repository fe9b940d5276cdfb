import NumericScript.Proofs.Layout.Shown
import NumericScript.Proofs.Relocation.Run
import NumericScript.Proofs.Running.Accord

/-!
# Stores that are restored

What a run writes to elements it writes at indices that numbers stand for. So a store that a script
leaves with finite numbers only can be shown, and what is shown is a script that leaves this store.
-/

namespace NumericScript

section Indices

/-- Whether the elements that are set have indices that some number stands for. -/
def StoreOf.Indexed {α : Type} (store : StoreOf α) : Prop :=
  ∀ name index, Address.element name index ∈ store → Single.IsIndex index

private theorem Expr.isIndex_of_evalIndex {store : Store} {index : Expr} {position : UInt64}
    (h : (index.evalIndex store).result = .ok position) : Single.IsIndex position := by
  have hbind : ((index.eval store).andThen (Reading.index index.span)).result = .ok position := h
  unfold Reading.andThen at hbind
  split at hbind
  · cases hbind
  · rename_i value _
    dsimp only at hbind
    unfold Reading.index at hbind
    split at hbind
    · rename_i found hfound
      obtain rfl := Except.ok.inj hbind
      exact ⟨value, hfound⟩
    · cases hbind

namespace EnvironmentOf

variable {α : Type} {env : EnvironmentOf α}

/-- Reporting missing names leaves the store as it is. -/
theorem store_reportMissing (env : EnvironmentOf α) (names : List String) :
    (env.reportMissing names).store = env.store := by
  induction names generalizing env with
  | nil => rfl
  | cons name names ih => exact ih (env.report (.undefined name))

private theorem indexed_write (h : env.store.Indexed) {address : Address} (value : α)
    (haddress : ∀ name index, address = .element name index → Single.IsIndex index) :
    (env.write address value).store.Indexed := by
  intro name index hm
  rcases Std.ExtTreeMap.mem_insert.mp hm with heq | hm
  · exact haddress name index (Std.LawfulEqOrd.eq_of_compare heq)
  · exact h name index hm

private theorem indexed_set (h : env.store.Indexed) (name : String) (value : α) :
    (env.set name value false).2.store.Indexed := by
  unfold set
  split
  · exact h
  · exact indexed_write h value nofun

private theorem indexed_setElement (h : env.store.Indexed) (name : String) {index : UInt64}
    (hindex : Single.IsIndex index) (value : α) :
    (env.setElement name index value).2.store.Indexed := by
  unfold setElement
  split
  · exact h
  · refine indexed_write h value fun other index' heq => ?_
    obtain ⟨-, rfl⟩ := Address.element.inj heq
    exact hindex

end EnvironmentOf

/-- An assignment to an element takes the index from a number. -/
theorem Environment.indexed_assign {env : Environment} (h : env.store.Indexed) (target : Target)
    (value : Expr) : (env.assign target value).2.store.Indexed := by
  have hobserve : ∀ {α : Type} {env after : Environment} {eval : Store → Reading α}
      {result : Except ScriptError α}, env.store.Indexed → env.observe eval = (result, after) →
        after.store.Indexed := by
    intro α env after eval result henv hafter
    obtain ⟨-, rfl⟩ := Prod.mk.inj hafter
    rwa [EnvironmentOf.store_reportMissing]
  unfold assign
  split
  · rename_i hvalue
    exact hobserve h hvalue
  · rename_i written after hvalue
    have hafter := hobserve h hvalue
    cases target with
    | scalar name => exact EnvironmentOf.indexed_set hafter name written
    | element name index =>
      dsimp only
      split
      · rename_i hindex
        exact hobserve hafter hindex
      · rename_i position last hindex
        have hposition := Expr.isIndex_of_evalIndex (Prod.mk.inj hindex).1
        exact EnvironmentOf.indexed_setElement (hobserve hafter hindex) name hposition written

/-- A run keeps to indices that numbers stand for. -/
theorem performs_indexed (limits : Limits) :
    Performs limits (fun _ => True) fun machine outcome =>
      outcome.Leaves fun after => machine.env.store.Indexed → after.env.store.Indexed := by
  refine performs_leaves limits (fun env env' => env.store.Indexed → env'.store.Indexed)
    (fun _ => id) (fun h h' => h' ∘ h) ?_ ?_
  · intro env condition _ h
    rwa [Environment.observe, EnvironmentOf.store_reportMissing]
  · exact fun _ target value _ h => Environment.indexed_assign h target value

end Indices

section Writing

/-- Write numbers to their addresses one after the other. -/
def EnvironmentOf.writeAll {α : Type} (env : EnvironmentOf α) (entries : List (Address × α)) :
    EnvironmentOf α :=
  entries.foldl (fun env entry => env.write entry.1 entry.2) env

private theorem Expr.eval_literal (value : Single) (store : Store) :
    value.literal.eval store = pure value := by
  cases value with
  | nan | infinite => rfl
  | finite negative => cases negative <;> rfl

private theorem Environment.observe_eq_pure {α : Type} (env : Environment)
    {eval : Store → Reading α}
    {a : α} (h : ∀ store, eval store = pure a) : env.observe eval = (.ok a, env) := by
  rw [observe, h]
  rfl

/-- A value that can be taken as an index is read as one. -/
theorem Reading.index_eq_pure {value : Single} {index : UInt64} (h : value.toIndex? = some index)
    (span : Span) : Reading.index span value = pure index := by
  rw [Reading.index, h]
  rfl

private theorem Expr.evalIndex_number {value : Single} {index : UInt64}
    (h : value.toIndex? = some index)
    (span : Span) (store : Store) : (Expr.number value span).evalIndex store = pure index := by
  show Reading.andThen ⟨[], .ok value⟩ (Reading.index span) = _
  rw [Reading.andThen]
  simp only [Reading.index_eq_pure h]
  rfl

private theorem Environment.assign_scalar (env : Environment) {name : String}
    (hname : violation? false name = none) (value : Single) (span : Span) :
    env.assign (.scalar name span) value.literal = (.ok (), env.write (.scalar name) value) := by
  rw [assign, env.observe_eq_pure (Expr.eval_literal value)]
  simp [EnvironmentOf.set, hname]

private theorem Environment.assign_element (env : Environment) {name : String} {index : UInt64}
    (hname : violation? false name = none) {number : Single} (hindex : number.toIndex? = some index)
    (value : Single) (span : Span) :
    env.assign (.element name (.number number default) span) value.literal =
      (.ok (), env.write (.element name index) value) := by
  rw [assign, env.observe_eq_pure (Expr.eval_literal value)]
  dsimp only
  rw [env.observe_eq_pure (Expr.evalIndex_number hindex default)]
  simp [EnvironmentOf.setElement, hname]

/-- The statement of a number writes it. -/
theorem Settable.assign {entry : Address × Single} (h : Settable entry) (env : Environment) :
    env.assign entry.1.target entry.2.literal = (.ok (), env.write entry.1 entry.2) := by
  obtain ⟨address, value⟩ := entry
  cases address with
  | scalar name => exact env.assign_scalar h.accepted value default
  | element name index =>
    have hindex := (h.index name index rfl).toIndex?_ofDecimal
    exact env.assign_element h.accepted hindex value default

private theorem execAll_setting {entries : List (Address × Single)}
    (h : ∀ entry ∈ entries, Settable entry) (limits : Limits) (rounds : Nat) (machine : Machine) :
    execAll limits rounds (entries.map setting) machine =
      .finished { machine with env := machine.env.writeAll entries } := by
  induction entries generalizing machine with
  | nil => rfl
  | cons entry entries ih =>
    obtain ⟨hentry, hlater⟩ := List.forall_mem_cons.mp h
    have hexec : (setting entry).exec limits rounds machine =
        .finished { machine with env := machine.env.write entry.1 entry.2 } := by
      rw [setting, Stmt.exec, Machine.assign_eq, hentry.assign]
    rw [List.map_cons, execAll, hexec]
    exact ih hlater _

/-- Writing reports no errors. -/
theorem journal_writeAll {env : Environment} (h : ∀ d ∈ env.journal, d.isError = false)
    (entries : List (Address × Single)) :
    ∀ d ∈ (env.writeAll entries).journal, d.isError = false := by
  induction entries generalizing env with
  | nil => exact h
  | cons entry entries ih =>
    refine ih fun d hd => ?_
    rcases Array.mem_push.mp hd with hd | rfl
    · exact h d hd
    · split <;> rfl

/-- A store is made equal to another one by writing what that one has, if all addresses that are set
are set there as well. -/
theorem store_writeAll {env : Environment} {store : Store} {entries : List (Address × Single)}
    (hentries : ∀ entry ∈ entries, store[entry.1]? = some entry.2)
    (h : ∀ address, env.store[address]? = store[address]? ∨
      ∃ value, (address, value) ∈ entries) :
    (env.writeAll entries).store = store := by
  induction entries generalizing env with
  | nil =>
    refine Std.ExtTreeMap.ext_getElem? fun address => ?_
    exact (h address).resolve_right (by simp)
  | cons entry entries ih =>
    obtain ⟨hentry, hlater⟩ := List.forall_mem_cons.mp hentries
    refine ih hlater fun address => ?_
    have hstore : (env.write entry.1 entry.2).store = env.store.insert entry.1 entry.2 := rfl
    rw [hstore, Std.ExtTreeMap.getElem?_insert]
    split
    · rename_i heq
      rw [← Std.LawfulEqOrd.eq_of_compare heq, hentry]
      exact .inl rfl
    · rename_i hne
      refine (h address).imp_right fun ⟨value, hm⟩ => ⟨value, (List.mem_cons.mp hm).resolve_left ?_⟩
      rintro rfl
      exact hne Std.ReflCmp.compare_self

end Writing

section Restoring

variable {limits : Limits} {rounds : Nat}

/-- What finishes does so in whatever places its statements are. -/
theorem finished_of_bare {stmts read : List Stmt} (hbare : bareOf read = bareOf stmts)
    {machine last : Machine} (h : execAll limits rounds stmts machine = .finished last) :
    execAll limits rounds read machine = .finished last := by
  have hmove : (execAll limits rounds read machine).move .forget =
      (execAll limits rounds stmts machine).move .forget := by
    rw [← execAll_move, ← execAll_move, moveAll_forget, moveAll_forget, hbare]
  rw [h] at hmove
  generalize execAll limits rounds read machine = outcome at hmove ⊢
  cases outcome with
  | finished machine => exact hmove
  | failed error machine => cases hmove
  | unfinished => cases hmove

private theorem indexed_fresh : Environment.fresh.store.Indexed :=
  EnvironmentOf.indexed_set (EnvironmentOf.indexed_set
    (fun _ _ hm => absurd hm Std.ExtTreeMap.not_mem_empty) _ _) _ _

/-- The text that shows a store. -/
def StoreOf.shown (store : Store) : String := joinLines (dumpLines store)

private theorem steps_of_finished {program : List Stmt} {env : Environment} {machine : Machine}
    (h : runProgram limits rounds program env = .finished machine) : env.Steps machine.env := by
  have hfrom : (execAll limits rounds program ⟨env, #[]⟩).From env := from_execAll program _
  rw [runProgram] at h
  rwa [h] at hfrom

/-- What a finished script leaves can be set number by number, if the numbers are finite. -/
theorem settable_of_finished {program : List Stmt} {machine : Machine}
    (h : runProgram limits rounds program .fresh = .finished machine)
    (hfinite : ∀ (address : Address) (value : Single),
      machine.env.store[address]? = some value → value.isFinite) :
    ∀ entry ∈ machine.env.store.entries, Settable entry := by
  have hindexed : machine.env.store.Indexed := by
    have hleaves : (runProgram limits rounds program .fresh).Leaves fun last =>
        Environment.fresh.store.Indexed → last.env.store.Indexed :=
      (performs_indexed limits).execAll program (fun _ _ => trivial) _
    rw [h] at hleaves
    exact hleaves indexed_fresh
  have haccepted := EnvironmentOf.Steps.accepted
    (Environment.steps_fresh.trans (steps_of_finished h))
    fun _ hm => absurd hm Std.ExtTreeMap.not_mem_empty
  rintro ⟨address, value⟩ hm
  have hvalue := StoreOf.mem_entries.mp hm
  refine ⟨hfinite address value hvalue, haccepted address (StoreOf.mem_of_getElem? hvalue), ?_⟩
  rintro name index rfl
  exact hindexed name index (StoreOf.mem_of_getElem? hvalue)

end Restoring

/--
What is shown of a store is a script that restores it. If a script is run to its end and leaves
finite numbers only, then the text that shows the store is accepted as a script, whose run finishes
under all limits with no error reported; the store that it leaves is the same, number by number, and
is shown by the same text.
-/
theorem shown_restores {source : String} {limits : Limits} {rounds : Nat} {machine : Machine}
    (h : runScript limits rounds source = .ok (.finished machine))
    (hfinite : ∀ (address : Address) (value : Single),
      machine.env.store[address]? = some value → value.isFinite)
    (limits' : Limits) (rounds' : Nat) :
    ∃ restored, runScript limits' rounds' machine.env.store.shown = .ok (.finished restored) ∧
      (∀ d ∈ restored.env.journal, d.isError = false) ∧
      restored.env.store = machine.env.store ∧
      restored.env.store.shown = machine.env.store.shown := by
  obtain ⟨program, hrun⟩ : ∃ program,
      runProgram limits rounds program .fresh = .finished machine := by
    unfold runScript at h
    split at h
    · cases h
    · exact ⟨_, Except.ok.inj h⟩
  have hsettable := settable_of_finished hrun hfinite
  obtain ⟨read, hread, hbare⟩ := exists_read_shown hsettable
  have hstore :
      (Environment.fresh.writeAll machine.env.store.entries).store = machine.env.store := by
    refine store_writeAll (fun entry hm => StoreOf.mem_entries.mp hm) fun address => ?_
    cases hvalue : machine.env.store[address]? with
    | some value => exact .inr ⟨value, StoreOf.mem_entries.mpr hvalue⟩
    | none =>
      have habsent : address ∉ Environment.fresh.store := fun hm =>
        StoreOf.not_mem_of_getElem? hvalue ((steps_of_finished hrun).keeps address hm)
      exact .inl (Std.ExtTreeMap.getElem?_eq_none habsent)
  have hrestored := finished_of_bare hbare
    (execAll_setting hsettable limits' rounds' ⟨.fresh, #[]⟩)
  refine ⟨⟨Environment.fresh.writeAll machine.env.store.entries, #[]⟩, ?_, journal_writeAll ?_ _,
    hstore, congrArg StoreOf.shown hstore⟩
  · rw [runScript, StoreOf.shown, dumpLines_eq, hread]
    exact congrArg Except.ok hrestored
  · decide +kernel

/-- A negative zero, and elements at an index and at the largest one. -/
def signedSource : String := "z = -0; A[2.9] = z - 1.5; A[9^30] = 1 / 3"

/-- The text that shows what it leaves. -/
def signedShown : String :=
  "e = 2.7182817\npi = 3.1415927\nz = -0\nA[2] = -1.5\n" ++
    "A[18446744073709551615] = 0.33333334\n"

/-- A negative zero and the largest index are shown and restored. -/
theorem shown_restores_signed :
    ∃ machine, runScript {} 1 signedSource = .ok (.finished machine) ∧
      machine.env.store.shown = signedShown ∧
      (∀ (address : Address) (value : Single),
        machine.env.store[address]? = some value → value.isFinite) ∧
      ∃ restored, runScript {} 0 machine.env.store.shown = .ok (.finished restored) ∧
        (∀ d ∈ restored.env.journal, d.isError = false) ∧
        restored.env.store = machine.env.store ∧
        restored.env.store.shown = machine.env.store.shown := by
  have hrun : ((runScript {} 1 signedSource).toOption.bind Outcome.machine?).map (fun machine =>
      (machine.env.store.shown, machine.env.store.entries.all (·.2.isFinite))) =
        some (signedShown, true) := by
    decide +kernel
  obtain ⟨machine, hmachine, heq⟩ := Option.map_eq_some_iff.mp hrun
  obtain ⟨outcome, houtcome, hfinished⟩ := Option.bind_eq_some_iff.mp hmachine
  obtain ⟨hshown, hall⟩ := Prod.mk.inj heq
  have hscript := toOption_eq_some.mp houtcome
  cases outcome with
  | failed | unfinished => cases hfinished
  | finished last =>
    obtain rfl := Option.some.inj hfinished
    have hfinite : ∀ (address : Address) (value : Single),
        last.env.store[address]? = some value → value.isFinite := fun address value hvalue =>
      List.all_eq_true.mp hall (address, value) (StoreOf.mem_entries.mpr hvalue)
    exact ⟨last, hscript, hshown, hfinite, shown_restores hscript hfinite {} 0⟩

end NumericScript
