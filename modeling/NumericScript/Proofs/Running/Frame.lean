import NumericScript.Proofs.Glyph.Mention
import NumericScript.Proofs.Running.Accord

/-!
# What a run leaves alone

A program that names neither a scalar nor an array of some name does not see it. From two stores
that agree on everything else it goes the same way with the same reports, to stores that agree on
everything else again, and what it does not name is left as it was on either side.
-/

namespace NumericScript

variable {α : Type}

/-- Whether two stores agree on all addresses but those of one scalar or one array. -/
def StoreOf.AgreeOff (owner : Owner) (store store' : StoreOf α) : Prop :=
  ∀ address : Address, address.owner ≠ owner → store[address]? = store'[address]?

/-- Whether two stores agree on the addresses of one scalar or one array. -/
def StoreOf.AgreeAt (owner : Owner) (store store' : StoreOf α) : Prop :=
  ∀ address : Address, address.owner = owner → store[address]? = store'[address]?

private theorem StoreOf.AgreeOff.symm {owner : Owner} {store store' : StoreOf α}
    (h : store.AgreeOff owner store') : store'.AgreeOff owner store :=
  fun address hoff => (h address hoff).symm

section Reading

variable {owner : Owner} {store store' : Store}

private theorem Reading.look_congr {address : Address} (h : store[address]? = store'[address]?) :
    look store address = look store' address := by
  rw [look, look, h]

/-- What an expression does not name is not seen by it. -/
theorem Expr.eval_congr (hagree : store.AgreeOff owner store') {e : Expr}
    (hplain : Plain e.mentions) (howner : owner ∉ e.mentions) : e.eval store = e.eval store' := by
  induction e with
  | number => rfl
  | scalar name =>
    rw [eval, eval, Address.ofKey_of_not_mem (hplain name (List.mem_singleton_self _))]
    exact Reading.look_congr (hagree _ fun heq => howner (heq ▸ List.mem_singleton_self _))
  | element name index span ih =>
    obtain ⟨harray, hindex⟩ := not_or.mp (mt List.mem_cons.mpr howner)
    have hlook : ∀ position, Reading.look store (.element name position) =
        Reading.look store' (.element name position) := fun position =>
      Reading.look_congr (hagree _ (Ne.symm harray))
    simp only [eval, hlook, ih (fun name hm => hplain name (List.mem_cons_of_mem _ hm)) hindex]
  | binary op left right span ihl ihr =>
    obtain ⟨hleft, hright⟩ := not_or.mp (mt List.mem_append.mpr howner)
    rw [eval, eval, ihl (fun name hm => hplain name (List.mem_append_left _ hm)) hleft,
      ihr (fun name hm => hplain name (List.mem_append_right _ hm)) hright]
  | negate operand span ih => rw [eval, eval, ih hplain howner]
  | call builtin argument span ih => rw [eval, eval, ih hplain howner]
  | group inner span ih => rw [eval, eval, ih hplain howner]

private theorem Expr.evalIndex_congr (hagree : store.AgreeOff owner store') {index : Expr}
    (hplain : Plain index.mentions) (howner : owner ∉ index.mentions) :
    index.evalIndex store = index.evalIndex store' := by
  rw [evalIndex, evalIndex, eval_congr hagree hplain howner]

private theorem Cond.eval_congr (hagree : store.AgreeOff owner store') {c : Cond}
    (hplain : Plain c.mentions) (howner : owner ∉ c.mentions) : c.eval store = c.eval store' := by
  induction c with
  | compare op left right span =>
    obtain ⟨hleft, hright⟩ := not_or.mp (mt List.mem_append.mpr howner)
    rw [eval, eval,
      Expr.eval_congr hagree (fun name hm => hplain name (List.mem_append_left _ hm)) hleft,
      Expr.eval_congr hagree (fun name hm => hplain name (List.mem_append_right _ hm)) hright]
  | logical op left right span ihl ihr =>
    obtain ⟨hleft, hright⟩ := not_or.mp (mt List.mem_append.mpr howner)
    rw [eval, eval, ihl (fun name hm => hplain name (List.mem_append_left _ hm)) hleft,
      ihr (fun name hm => hplain name (List.mem_append_right _ hm)) hright]

end Reading

namespace EnvironmentOf

/--
Where two environments have come from two others by the same way: they agree off an owner, either is
at that owner what it was, and both journals have got the same reports.
-/
structure Parallel (owner : Owner) (start start' env env' : EnvironmentOf α) : Prop where
  agree : env.store.AgreeOff owner env'.store
  kept : env.store.AgreeAt owner start.store
  kept' : env'.store.AgreeAt owner start'.store
  reports : ∃ reports : List (DiagnosticOf α),
    env.journal.toList = start.journal.toList ++ reports ∧
    env'.journal.toList = start'.journal.toList ++ reports

namespace Parallel

variable {owner : Owner} {start start' env env' : EnvironmentOf α}

private theorem refl (h : env.store.AgreeOff owner env'.store) : Parallel owner env env' env env' :=
  ⟨h, fun _ _ => rfl, fun _ _ => rfl, [], (List.append_nil _).symm, (List.append_nil _).symm⟩

private theorem symm (h : Parallel owner start start' env env') :
    Parallel owner start' start env' env :=
  ⟨h.agree.symm, h.kept', h.kept, let ⟨reports, hl, hr⟩ := h.reports; ⟨reports, hr, hl⟩⟩

private theorem report (h : Parallel owner start start' env env') (diagnostic : DiagnosticOf α) :
    Parallel owner start start' (env.report diagnostic) (env'.report diagnostic) := by
  obtain ⟨reports, hl, hr⟩ := h.reports
  refine ⟨h.agree, h.kept, h.kept', reports ++ [diagnostic], ?_, ?_⟩
  · rw [EnvironmentOf.report, Array.toList_push, hl, List.append_assoc]
  · rw [EnvironmentOf.report, Array.toList_push, hr, List.append_assoc]

/-- A write off the owner makes the same report on both sides. -/
theorem write (h : Parallel owner start start' env env') (address : Address)
    (hoff : address.owner ≠ owner) (value : α) :
    Parallel owner start start' (env.write address value) (env'.write address value) := by
  have hcontains : env.store.contains address = env'.store.contains address := by
    rw [Std.ExtTreeMap.contains_eq_isSome_getElem?, Std.ExtTreeMap.contains_eq_isSome_getElem?,
      h.agree address hoff]
  have hother : ∀ (store : StoreOf α) {other : Address}, other.owner = owner →
      (store.insert address value)[other]? = store[other]? := by
    intro store other howner
    rw [Std.ExtTreeMap.getElem?_insert, if_neg]
    intro heq
    rw [← Std.LawfulEqOrd.eq_of_compare heq] at howner
    exact hoff howner
  obtain ⟨reports, hl, hr⟩ := h.reports
  refine ⟨fun other hother => ?_, fun other howner => ?_, fun other howner => ?_,
    reports ++ [if env.store.contains address then .updated address value
      else .created address value], ?_, ?_⟩
  · rw [EnvironmentOf.write, EnvironmentOf.write, Std.ExtTreeMap.getElem?_insert,
      Std.ExtTreeMap.getElem?_insert, h.agree other hother]
  · exact (hother _ howner).trans (h.kept other howner)
  · exact (hother _ howner).trans (h.kept' other howner)
  · rw [EnvironmentOf.write, Array.toList_push, hl, List.append_assoc]
  · rw [EnvironmentOf.write, Array.toList_push, hr, List.append_assoc, hcontains]

private theorem set (h : Parallel owner start start' env env') {name : String}
    (hoff : .scalar name ≠ owner) (value : α) :
    Parallel owner start start' (env.set name value false).2 (env'.set name value false).2 := by
  unfold EnvironmentOf.set
  split
  · exact h.report _
  · exact h.write (.scalar name) hoff value

private theorem setElement (h : Parallel owner start start' env env') {name : String}
    (hoff : .array name ≠ owner) (index : UInt64) (value : α) :
    Parallel owner start start' (env.setElement name index value).2
      (env'.setElement name index value).2 := by
  unfold EnvironmentOf.setElement
  split
  · exact h.report _
  · exact h.write (.element name index) hoff value

private theorem reportMissing (h : Parallel owner start start' env env') (names : List String) :
    Parallel owner start start' (env.reportMissing names) (env'.reportMissing names) := by
  induction names generalizing env env' with
  | nil => exact h
  | cons name names ih => exact ih (h.report _)

/-- What is seen in the same way on both sides comes to the same and makes the same reports. -/
theorem observe {start start' env env' : Environment}
    (h : Parallel owner start start' env env') (eval : Store → Reading α)
    (heval : eval env.store = eval env'.store) :
    ∃ result after after', env.observe eval = (result, after) ∧
      env'.observe eval = (result, after') ∧ Parallel owner start start' after after' := by
  rw [Environment.observe, Environment.observe, ← heval]
  exact ⟨_, _, _, rfl, rfl, h.reportMissing _⟩

/-- An assignment that does not name the owner does the same on both sides. -/
theorem assign {start start' env env' : Environment} (h : Parallel owner start start' env env')
    {target : Target} {value : Expr}
    (hplain : (Phrase.assignment target value).ReadsPlainly)
    (howner : owner ∉ (Phrase.assignment target value).mentions) :
    ∃ result after after', env.assign target value = (result, after) ∧
      env'.assign target value = (result, after') ∧ Parallel owner start start' after after' := by
  obtain ⟨hvalue, htarget⟩ := not_or.mp (mt List.mem_append.mpr howner)
  have hread : Plain value.mentions := by
    cases target with
    | scalar => exact hplain
    | element => exact hplain.1
  obtain ⟨result, after, after', hsee, hsee', hafter⟩ :=
    h.observe (fun store => value.eval store) (Expr.eval_congr h.agree hread hvalue)
  rw [Environment.assign, Environment.assign, hsee, hsee']
  cases result with
  | error error => exact ⟨_, _, _, rfl, rfl, hafter⟩
  | ok written =>
    cases target with
    | scalar name =>
      refine ⟨_, _, _, rfl, rfl, hafter.set (fun heq => htarget ?_) written⟩
      exact heq ▸ List.mem_singleton_self _
    | element name index =>
      obtain ⟨harray, hindex⟩ := not_or.mp (mt List.mem_cons.mpr htarget)
      obtain ⟨result, last, last', hsee, hsee', hlast⟩ :=
        hafter.observe (fun store => index.evalIndex store)
          (Expr.evalIndex_congr hafter.agree hplain.2 hindex)
      dsimp only
      rw [hsee, hsee']
      cases result with
      | error error => exact ⟨_, _, _, rfl, rfl, hlast⟩
      | ok position =>
        exact ⟨_, _, _, rfl, rfl, hlast.setElement (Ne.symm harray) position written⟩

end Parallel

end EnvironmentOf

/-- Two machines on the same way, with as many loop bodies started. -/
structure Machine.Parallel (owner : Owner) (start start' : Environment)
    (machine machine' : Machine) : Prop where
  env : start.Parallel owner start' machine.env machine'.env
  bodies : machine.starts.size = machine'.starts.size

/--
Two runs that end in the same way: finished, failed with the same error or left unfinished, on
machines that came the same way.
-/
inductive Outcome.Mirrors (owner : Owner) (start start' : Environment) : Outcome → Outcome → Prop
  | finished {machine machine' : Machine} (h : machine.Parallel owner start start' machine') :
    Mirrors owner start start' (.finished machine) (.finished machine')
  | failed (error : ScriptError) {machine machine' : Machine}
    (h : machine.Parallel owner start start' machine') :
    Mirrors owner start start' (.failed error machine) (.failed error machine')
  | unfinished : Mirrors owner start start' .unfinished .unfinished

section Run

variable {owner : Owner} {start start' : Environment}

private theorem Machine.Parallel.symm {machine machine' : Machine}
    (h : machine.Parallel owner start start' machine') :
    machine'.Parallel owner start' start machine := ⟨h.env.symm, h.bodies.symm⟩

private theorem Outcome.Mirrors.symm {outcome outcome' : Outcome}
    (h : outcome.Mirrors owner start start' outcome') :
    outcome'.Mirrors owner start' start outcome := by
  cases h with
  | finished h => exact .finished h.symm
  | failed error h => exact .failed error h.symm
  | unfinished => exact .unfinished

/-- A phrase that reads plainly and does not name an owner. -/
structure Phrase.Avoids (owner : Owner) (phrase : Phrase) : Prop where
  plain : phrase.ReadsPlainly
  absent : owner ∉ phrase.mentions

/-- Two runs that do not name an owner stay on the same way, as far as the one on the left goes. -/
theorem relates_parallel (limits : Limits) (owner : Owner) (start start' : Environment) :
    Relates limits limits (Phrase.Avoids owner) (Machine.Parallel owner start start')
      fun outcome outcome' =>
        outcome = .unfinished ∨ outcome.Mirrors owner start start' outcome' where
  unfinished _ := .inl rfl
  finished h := .inr (.finished h)
  assign h _ _ hadmits := by
    obtain ⟨result, after, after', hassign, hassign', hafter⟩ :=
      h.env.assign hadmits.plain hadmits.absent
    rw [Machine.assign_eq, Machine.assign_eq, hassign, hassign']
    cases result with
    | error error => exact .inr (.failed error ⟨hafter, h.bodies⟩)
    | ok => exact .inr (.finished ⟨hafter, h.bodies⟩)
  branch h condition hadmits _ _ _ _ hyes hno := by
    obtain ⟨result, after, after', hsee, hsee', hafter⟩ :=
      h.env.observe (fun store => condition.eval store)
        (Cond.eval_congr h.env.agree hadmits.plain hadmits.absent)
    rw [Machine.branch, Machine.branch, Machine.observe, Machine.observe, hsee, hsee']
    rcases result with error | holds
    · exact .inr (.failed error ⟨hafter, h.bodies⟩)
    · cases holds with
      | false => exact hno ⟨hafter, h.bodies⟩
      | true => exact hyes ⟨hafter, h.bodies⟩
  enter {machine machine'} h span next next' hnext _ := by
    have hstarts : (machine.starts.push machine.env.journal.size).size =
        (machine'.starts.push machine'.env.journal.size).size := by
      rw [Array.size_push, Array.size_push, h.bodies]
    rw [Machine.enter, Machine.enter, Machine.startBody, Machine.startBody, ← hstarts]
    cases limits.exceeded? (machine.starts.push machine.env.journal.size).size with
    | none => exact hnext ⟨h.env, hstarts⟩
    | some cause => exact .inr (.failed _ ⟨h.env, hstarts⟩)
  andThen {outcome outcome'} h next next' hnext _ := by
    rcases h with rfl | h
    · exact .inl rfl
    · cases h with
      | finished h => exact hnext h
      | failed error h => exact .inr (.failed error h)
      | unfinished => exact .inl rfl

/-- Statements that do not name an owner run in the same way from environments that agree off it. -/
theorem mirrors_execAll (limits : Limits) (rounds : Nat) {stmts : List Stmt}
    (hstmts : ∀ phrase ∈ phrasesOf stmts, phrase.Avoids owner) {machine machine' : Machine}
    (h : machine.Parallel owner start start' machine') :
    (execAll limits rounds stmts machine).Mirrors owner start start'
      (execAll limits rounds stmts machine') := by
  have hforth := (relates_parallel limits owner start start').execAll (Nat.le_refl rounds) stmts
    hstmts h
  have hback := (relates_parallel limits owner start' start).execAll (Nat.le_refl rounds) stmts
    hstmts h.symm
  rcases hforth with hnone | hmirrors
  · rcases hback with hnone' | hmirrors
    · rw [hnone, hnone']
      exact .unfinished
    · exact hmirrors.symm
  · exact hmirrors

end Run

/--
An accepted script that names neither a scalar nor an array of some name goes the same way from any
two environments that agree on everything else: it ends in the same way with the same reports, the
stores agree on everything else afterwards, and what is not named is left as it was on either side.
-/
theorem run_leaves_unmentioned {source : String} {program : List Stmt}
    (hparse : parseProgram source = .ok program) {owner : Owner}
    (howner : owner ∉ mentionsOf program) {env env' : Environment}
    (hagree : env.store.AgreeOff owner env'.store) (limits : Limits) (rounds : Nat) :
    (runProgram limits rounds program env).Mirrors owner env env'
      (runProgram limits rounds program env') := by
  refine mirrors_execAll limits rounds (fun phrase hm => ?_) ⟨.refl hagree, rfl⟩
  refine ⟨readsPlainly_of_parseProgram hparse phrase hm, fun hmention => howner ?_⟩
  exact List.mem_flatMap.mpr ⟨phrase, hm, hmention⟩

/-- A script that reads and writes elements of an array and never names the scalar of its name. -/
def arraySource : String := "i = 0; while (i < 2) \x7b A[i] = A[i + 1] + i; i = i + 1 \x7d"

/-- A script with an array leaves the scalar of the array's name alone. -/
theorem run_leaves_unmentioned_arraySource :
    ∃ program, parseProgram arraySource = .ok program ∧ .scalar "A" ∉ mentionsOf program ∧
      Environment.fresh.store.AgreeOff (.scalar "A")
        (Environment.fresh.set "A" .one false).2.store ∧
      (runProgram {} 3 program .fresh).Mirrors (.scalar "A") .fresh
        (Environment.fresh.set "A" .one false).2
        (runProgram {} 3 program (Environment.fresh.set "A" .one false).2) := by
  have hread : (parseProgram arraySource).toOption.map
      (fun program => decide (.scalar "A" ∈ mentionsOf program)) = some false := by
    decide +kernel
  obtain ⟨program, hprogram, howner⟩ := Option.map_eq_some_iff.mp hread
  have h := toOption_eq_some.mp hprogram
  have habsent := of_decide_eq_false howner
  have hagree : Environment.fresh.store.AgreeOff (.scalar "A")
      (Environment.fresh.set "A" .one false).2.store := by
    intro address hoff
    have hset : (Environment.fresh.set "A" .one false).2.store =
        Environment.fresh.store.insert (.scalar "A") .one := rfl
    rw [hset, Std.ExtTreeMap.getElem?_insert, if_neg]
    intro heq
    rw [← Std.LawfulEqOrd.eq_of_compare heq] at hoff
    exact hoff rfl
  exact ⟨program, h, habsent, hagree, run_leaves_unmentioned h habsent hagree {} 3⟩

end NumericScript
