import NumericScript.Proofs.Running.Host
import NumericScript.Proofs.Running.Index

/-!
# Names of targets

Any word but a keyword can stand as the name of a target, also one that no store accepts and one
that is cut into several tokens. The assignment is read with the whole word as the name, and
executing it does not fail for the name: what is refused is left out and reported.
-/

namespace NumericScript

section Reading

variable {name value index line : String} {e u : Expr}

private theorem parseProgram_scalar (hname : IsTargetName name) (hvalue : OneLine value)
    (h : parseExpression value = .ok e) (hline : inked line = inked (assigning name value)) :
    ∃ e' span span', parseProgram line = .ok [.assign (.scalar name span) e' span'] ∧
      e'.bare = e.bare := by
  obtain ⟨hspells, hshaped, hlevels⟩ := spells_of_parseExpression hvalue h
  have hink : ∀ c ∈ inked name, isInk c := hname.inked_eq ▸ hname.isInk
  have htexts := lineTexts_assigning hink hvalue hline
  rw [hname.inked_eq] at htexts
  exact exists_read_scalar hname htexts hspells hshaped hlevels

private theorem parseProgram_element (hname : IsTargetName name) (hvalue : OneLine value)
    (h : parseExpression value = .ok e) (hindex : OneLine index)
    (hu : parseExpression index = .ok u)
    (hline : inked line = inked (assigning (name ++ "[" ++ index ++ "]") value)) :
    ∃ u' e' span span', parseProgram line = .ok [.assign (.element name u' span) e' span'] ∧
      u'.bare = u.bare ∧ e'.bare = e.bare := by
  obtain ⟨hspells, hshaped, hlevels⟩ := spells_of_parseExpression hvalue h
  obtain ⟨hspellsIndex, hshapedIndex, hlevelsIndex⟩ := spells_of_parseExpression hindex hu
  have hink : ∀ c ∈ inked (name ++ "[" ++ index ++ "]"), isInk c := by
    rw [hname.inked_element]
    simp only [List.forall_mem_append, List.forall_mem_cons]
    exact ⟨hname.isInk, by decide, ink_inked hindex, by decide, List.forall_mem_nil _⟩
  have htexts := lineTexts_assigning hink hvalue hline
  rw [hname.inked_element, List.append_assoc, List.cons_append, List.append_assoc,
    List.singleton_append] at htexts
  obtain ⟨target, e', span', hparse, htarget, he⟩ := exists_read_assignment htexts
    (hname.spellsLine_element hspellsIndex hspells) ⟨hshapedIndex, hshaped⟩ hname.ne_empty
    (within_append.mpr ⟨hlevelsIndex, hlevels⟩)
  obtain ⟨u', span, rfl, hu'⟩ := Target.eq_element_of_bare htarget
  exact ⟨u', e', span, span', hparse, hu', he⟩

end Reading

namespace Environment

variable {env told : Environment} {source : String} {e e' : Expr} {number : Single}

/-- What a text is evaluated to, its expression is evaluated to wherever it stands. -/
theorem observe_of_evaluate (hread : parseExpression source = .ok e) (hbare : e'.bare = e.bare)
    (h : env.evaluate source = (.ok number, told)) :
    (e'.eval env.store).result = .ok number ∧
      env.reportMissing (e'.eval env.store).missing = told := by
  rw [evaluate, hread] at h
  obtain ⟨hresult, rfl⟩ := Prod.mk.inj h
  obtain ⟨hmissing, halike⟩ := Expr.eval_alike hbare.symm env.store
  refine ⟨?_, by rw [hmissing]⟩
  rcases halike with ⟨found, hfound, hfound'⟩ | ⟨_, _, herror, _⟩
  · rw [hfound', ← hfound, hresult]
  · cases hresult.symm.trans herror

private theorem store_of_evaluate (h : env.evaluate source = (.ok number, told)) :
    told.store = env.store := by
  rw [evaluate] at h
  split at h
  · cases h
  · obtain ⟨-, rfl⟩ := Prod.mk.inj h
    exact EnvironmentOf.store_reportMissing ..

end Environment

namespace EnvironmentOf

variable {α : Type} {env told : EnvironmentOf α}

/--
What an assignment to an address leaves of an environment, `told` being the environment once the
expressions of the assignment have been evaluated. Under an accepted name the number is stored.
Under a refused one nothing is stored, and there is one more report, which tells the key and why it
is refused.
-/
structure Assigned (env told : EnvironmentOf α) (address : Address) (number : α)
    (left : EnvironmentOf α) : Prop where
  accepted : violation? false address.name = none →
    left.store = env.store.insert address number ∧ left = told.write address number
  refused : ∀ reason, violation? false address.name = some reason →
    left.store = env.store ∧ left.journal = told.journal.push (.invalid address.key reason)

private theorem assigned_of_accepted (h : told.store = env.store) (address : Address)
    (hname : violation? false address.name = none) (number : α) :
    env.Assigned told address number (told.write address number) where
  accepted _ := ⟨by rw [write, h], rfl⟩
  refused reason hrefused := by cases hname.symm.trans hrefused

private theorem assigned_of_refused (h : told.store = env.store) (address : Address)
    {reason : NameViolation} (hname : violation? false address.name = some reason)
    (number : α) :
    env.Assigned told address number (told.report (.invalid address.key reason)) where
  accepted haccepted := by cases hname.symm.trans haccepted
  refused other hrefused := by
    obtain rfl := Option.some.inj (hname.symm.trans hrefused)
    exact ⟨h, rfl⟩

private theorem assigned_set (h : told.store = env.store) (name : String) (number : α) :
    env.Assigned told (.scalar name) number (told.set name number false).2 := by
  rw [set]
  cases hname : violation? false name with
  | none => exact assigned_of_accepted h (.scalar name) hname number
  | some reason => exact assigned_of_refused h (.scalar name) hname number

private theorem assigned_setElement (h : told.store = env.store) (name : String) (index : UInt64)
    (number : α) :
    env.Assigned told (.element name index) number (told.setElement name index number).2 := by
  rw [setElement]
  cases hname : violation? false name with
  | none => exact assigned_of_accepted h (.element name index) hname number
  | some reason => exact assigned_of_refused h (.element name index) hname number

end EnvironmentOf

section Running

variable {limits : Limits} {rounds : Nat} {machine : Machine} {told asked : Environment}
  {name value index : String} {e e' u u' : Expr} {number position : Single} {span span' : Span}

private theorem execAll_scalar (hread : parseExpression value = .ok e) (hbare : e'.bare = e.bare)
    (hvalue : machine.env.evaluate value = (.ok number, told)) :
    execAll limits rounds [.assign (.scalar name span) e' span'] machine =
      .finished { machine with env := (told.set name number false).2 } := by
  obtain ⟨hresult, htold⟩ := Environment.observe_of_evaluate hread hbare hvalue
  rw [execAll_assign, Machine.assign_eq, Environment.assign, Environment.observe, hresult, htold]

private theorem execAll_element (hread : parseExpression value = .ok e) (hbare : e'.bare = e.bare)
    (hvalue : machine.env.evaluate value = (.ok number, told))
    (hreadIndex : parseExpression index = .ok u) (hbareIndex : u'.bare = u.bare)
    (hindex : told.evaluate index = (.ok position, asked)) {i : UInt64}
    (hposition : position.toIndex? = some i) :
    execAll limits rounds [.assign (.element name u' span) e' span'] machine =
      .finished { machine with env := (asked.setElement name i number).2 } := by
  obtain ⟨hresult, htold⟩ := Environment.observe_of_evaluate hread hbare hvalue
  obtain ⟨hresultIndex, hasked⟩ := Environment.observe_of_evaluate hreadIndex hbareIndex hindex
  have htaken := Expr.evalIndex_taken hresultIndex hposition
  rw [execAll_assign, Machine.assign_eq, Environment.assign, Environment.observe, hresult, htold]
  dsimp only
  rw [Environment.observe, htaken, hasked]

end Running

/--
A refused name never stops a script. Take a word that is no keyword, and texts that take one line
and are accepted as expressions. However blanks are spread over it, the line that assigns one of the
texts to the word is read as one assignment to a scalar named by the word, and the line that assigns
it to an element of the word as one assignment to that element. Wherever in a run the texts can be
evaluated, the value first, and the index is one that an element can have, the assignment finishes.
It stores the number if the word is accepted as a name, and reports the refusal after what the texts
have reported otherwise.
-/
theorem refused_names_do_not_stop {word value : String} (hword : IsTargetName word)
    (hvalue : OneLine value) {e : Expr} (hread : parseExpression value = .ok e) :
    (∀ line, inked line = inked (assigning word value) →
      ∃ e' span span', parseProgram line = .ok [.assign (.scalar word span) e' span'] ∧
        e'.bare = e.bare ∧
        ∀ limits rounds machine number told,
          machine.env.evaluate value = (.ok number, told) →
            ∃ left, execAll limits rounds [.assign (.scalar word span) e' span'] machine =
                .finished { machine with env := left } ∧
              machine.env.Assigned told (.scalar word) number left) ∧
    ∀ index u, OneLine index → parseExpression index = .ok u →
      ∀ line, inked line = inked (assigning (word ++ "[" ++ index ++ "]") value) →
        ∃ u' e' span span', parseProgram line = .ok [.assign (.element word u' span) e' span'] ∧
          u'.bare = u.bare ∧ e'.bare = e.bare ∧
          ∀ limits rounds machine number told position asked i,
            machine.env.evaluate value = (.ok number, told) →
              told.evaluate index = (.ok position, asked) → position.toIndex? = some i →
                ∃ left, execAll limits rounds [.assign (.element word u' span) e' span'] machine =
                    .finished { machine with env := left } ∧
                  machine.env.Assigned asked (.element word i) number left := by
  constructor
  · intro line hline
    obtain ⟨e', span, span', hparse, hbare⟩ := parseProgram_scalar hword hvalue hread hline
    refine ⟨e', span, span', hparse, hbare, fun limits rounds machine number told htold => ?_⟩
    exact ⟨_, execAll_scalar hread hbare htold,
      EnvironmentOf.assigned_set (Environment.store_of_evaluate htold) word number⟩
  · intro index u hindex hu line hline
    obtain ⟨u', e', span, span', hparse, hbareIndex, hbare⟩ :=
      parseProgram_element hword hvalue hread hindex hu hline
    refine ⟨u', e', span, span', hparse, hbareIndex, hbare,
      fun limits rounds machine number told position asked i htold hasked hposition => ?_⟩
    have hstore : asked.store = machine.env.store :=
      (Environment.store_of_evaluate hasked).trans (Environment.store_of_evaluate htold)
    exact ⟨_, execAll_element hread hbare htold hu hbareIndex hasked hposition,
      EnvironmentOf.assigned_setElement hstore word i number⟩

/-- A word that is cut into a function's name and what is left of the word. -/
def splitWord : String := "Login"

/--
A word that is cut at a function's name is set neither as a scalar nor as an element, and both
scripts go on to their end.
-/
theorem refused_names_do_not_stop_splitWord :
    IsTargetName splitWord ∧ violation? false splitWord = some (.reserved "Log") ∧
      (∃ e span span', parseProgram "Login = 2 * x" =
          .ok [.assign (.scalar splitWord span) e span'] ∧
        ∃ left, runProgram {} 1 [.assign (.scalar splitWord span) e span'] .fresh =
            .finished ⟨left, #[]⟩ ∧ left.store = Environment.fresh.store ∧
          left.journal.toList.map DiagnosticOf.name = ["pi", "e", "x", "Login"]) ∧
      ∃ u e span span', parseProgram "Lo gin[i+1] = 2*x" =
          .ok [.assign (.element splitWord u span) e span'] ∧
        ∃ left, runProgram {} 1 [.assign (.element splitWord u span) e span'] .fresh =
            .finished ⟨left, #[]⟩ ∧ left.store = Environment.fresh.store ∧
          left.journal.toList.map DiagnosticOf.name = ["pi", "e", "x", "i", "Login$1"] := by
  have hword : IsTargetName splitWord := by
    refine ⟨by decide, List.all_eq_true.mp (by decide +kernel), ?_⟩
    rintro (_ | _ | _ | _) <;> decide
  have hrefused : violation? false splitWord = some (.reserved "Log") := by decide +kernel
  have hvalue : OneLine "2 * x" := by decide +kernel
  have hindex : OneLine "i + 1" := by decide +kernel
  have hparse : (parseExpression "2 * x").toOption.isSome := by decide +kernel
  have hparseIndex : (parseExpression "i + 1").toOption.isSome := by decide +kernel
  obtain ⟨e, he⟩ := Option.isSome_iff_exists.mp hparse
  obtain ⟨u, hu⟩ := Option.isSome_iff_exists.mp hparseIndex
  -- Neither `x` nor `i` is set, so that each of the two texts has something to report.
  have heval : (Environment.fresh.evaluate "2 * x").1.toOption.isSome := by decide +kernel
  obtain ⟨number, hnumber⟩ := Option.isSome_iff_exists.mp heval
  have htold : Environment.fresh.evaluate "2 * x" =
      (.ok number, (Environment.fresh.evaluate "2 * x").2) :=
    Prod.ext (toOption_eq_some.mp hnumber) rfl
  have hevalIndex : ((Environment.fresh.evaluate "2 * x").2.evaluate "i + 1").1.toOption.bind
      Single.toIndex? = some 1 := by decide +kernel
  obtain ⟨position, hposition, hone⟩ := Option.bind_eq_some_iff.mp hevalIndex
  have hasked : (Environment.fresh.evaluate "2 * x").2.evaluate "i + 1" =
      (.ok position, ((Environment.fresh.evaluate "2 * x").2.evaluate "i + 1").2) :=
    Prod.ext (toOption_eq_some.mp hposition) rfl
  obtain ⟨hscalar, helement⟩ := refused_names_do_not_stop hword hvalue (toOption_eq_some.mp he)
  obtain ⟨e', span, span', hread, -, hrun⟩ := hscalar "Login = 2 * x" (by decide +kernel)
  obtain ⟨left, hleft, hassigned⟩ := hrun {} 1 ⟨.fresh, #[]⟩ number _ htold
  obtain ⟨u', e'', place, place', hreadElement, -, -, hrunElement⟩ :=
    helement "i + 1" u hindex (toOption_eq_some.mp hu) "Lo gin[i+1] = 2*x" (by decide +kernel)
  obtain ⟨left', hleft', hassigned'⟩ :=
    hrunElement {} 1 ⟨.fresh, #[]⟩ number _ position _ 1 htold hasked hone
  obtain ⟨hstore, hjournal⟩ := hassigned.refused _ hrefused
  obtain ⟨hstore', hjournal'⟩ := hassigned'.refused _ hrefused
  refine ⟨hword, hrefused, ⟨e', span, span', hread, left, hleft, hstore, ?_⟩,
    u', e'', place, place', hreadElement, left', hleft', hstore', ?_⟩
  · rw [hjournal]
    decide +kernel
  · rw [hjournal']
    decide +kernel

end NumericScript
