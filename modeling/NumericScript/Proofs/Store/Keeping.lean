import NumericScript.Proofs.Journal.Operation
import NumericScript.Proofs.Store.Listing

/-!
# What a store keeps

Whatever is done with a new environment, its store has accepted names only, it keeps all that was
ever set, the constants among it, and it is listed in order.
-/

namespace NumericScript

variable {α : Type}

/--
A store in good order. The names of scalars and of arrays are accepted, no array is without
elements, the scalars and the elements that are listed are those that are set, with their values,
names ascend byte by byte and indices ascend.
-/
structure StoreOf.WellKept (store : StoreOf α) : Prop where
  scalarName : ∀ entry ∈ store.scalars, violation? false entry.1 = none
  arrayName : ∀ array ∈ store.arrays, violation? false array.1 = none
  nonempty : ∀ array ∈ store.arrays, array.2 ≠ []
  scalar : ∀ name value,
    (name, value) ∈ store.scalars ↔ store[Address.scalar name]? = some value
  element : ∀ name index value,
    (∃ elements, (name, elements) ∈ store.arrays ∧ (index, value) ∈ elements) ↔
      store[Address.element name index]? = some value
  scalarOrder : store.scalars.Pairwise fun a b => NameBefore a.1 b.1
  arrayOrder : store.arrays.Pairwise fun a b => NameBefore a.1 b.1
  indexOrder : ∀ array ∈ store.arrays, array.2.Pairwise fun a b => a.1 < b.1

/-- Whether every address that is set has an accepted name. -/
def StoreOf.Accepted (store : StoreOf α) : Prop := ∀ address ∈ store, address.Accepted

/-- An address with a value is in the store. -/
theorem StoreOf.mem_of_getElem? {store : StoreOf α} {address : Address} {value : α}
    (h : store[address]? = some value) : address ∈ store := by
  rw [Std.ExtTreeMap.mem_iff_isSome_getElem?, h]
  rfl

/-- A store with accepted names is in good order. -/
theorem StoreOf.Accepted.wellKept {store : StoreOf α} (h : store.Accepted) : store.WellKept := by
  have horder := inOrder_arrays store
  have hscalar : ∀ entry ∈ store.scalars, violation? false entry.1 = none := fun entry hm =>
    h (.scalar entry.1) (mem_of_getElem? (mem_scalars.mp hm))
  have harray : ∀ array ∈ store.arrays, violation? false array.1 = none := by
    rintro ⟨name, elements⟩ hm
    obtain ⟨⟨index, value⟩, later, rfl⟩ := List.exists_cons_of_ne_nil (horder.nonempty _ hm)
    have hlists : Lists store.arrays name index value := ⟨_, hm, List.mem_cons_self⟩
    exact h (.element name index) (mem_of_getElem? (lists_arrays.mp hlists))
  have hchars : ∀ {name : String}, violation? false name = none →
      ∀ c ∈ name.toList, isWordChar c := fun hname =>
    isWordChar_of_isScalarName (violation?_eq_none.mp hname).1
  refine ⟨hscalar, harray, horder.nonempty, fun _ _ => mem_scalars, fun _ _ _ => lists_arrays,
    ?_, ?_, horder.indices⟩
  · exact (ordered_scalars store).imp_of_mem fun ha hb =>
      nameBefore_of_lt (hchars (hscalar _ ha)) (hchars (hscalar _ hb))
  · exact horder.names.imp_of_mem fun ha hb =>
      nameBefore_of_lt (hchars (harray _ ha)) (hchars (harray _ hb))

namespace EnvironmentOf

variable {env env' : EnvironmentOf α}

private theorem Step.accepted (h : Step env env') (haccepted : env.store.Accepted) :
    env'.store.Accepted := by
  cases h with
  | write address value hwrite =>
    intro other hm
    rcases Std.ExtTreeMap.mem_insert.mp hm with heq | hm
    · rw [← Std.LawfulEqOrd.eq_of_compare heq]
      exact hwrite
    · exact haccepted other hm
  | refuse => exact haccepted
  | miss => exact haccepted

/-- A step takes nothing away. -/
theorem Step.keeps (h : Step env env') : ∀ address ∈ env.store, address ∈ env'.store := by
  cases h with
  | write address value hwrite =>
    exact fun other hm => Std.ExtTreeMap.mem_insert.mpr (.inr hm)
  | refuse => exact fun _ hm => hm
  | miss => exact fun _ hm => hm

/-- Steps keep all addresses accepted. -/
theorem Steps.accepted (h : Steps env env') (haccepted : env.store.Accepted) :
    env'.store.Accepted := by
  induction h with
  | refl => exact haccepted
  | tail _ hstep ih => exact hstep.accepted ih

/-- Steps remove no address. -/
theorem Steps.keeps (h : Steps env env') : ∀ address ∈ env.store, address ∈ env'.store := by
  induction h with
  | refl => exact fun _ hm => hm
  | tail _ hstep ih => exact fun address hm => hstep.keeps address (ih address hm)

end EnvironmentOf

/-- The constants are set in a new environment. -/
theorem Environment.mem_fresh : ∀ name ∈ ["pi", "e"], Address.scalar name ∈ fresh.store := by
  decide +kernel

namespace Operation

/-- Names are checked from the beginning on. -/
theorem accepted_performAll {operations : List Operation} {env : Environment}
    (h : performAll operations .fresh = some env) : env.store.Accepted :=
  EnvironmentOf.Steps.accepted (Environment.steps_fresh.trans (steps_performAll h))
    fun _ hm => absurd hm Std.ExtTreeMap.not_mem_empty

/--
Whatever is done with a new environment, and whatever is done with it later on, its store is in good
order, has the constants set as scalars, and has all that was set before.
-/
theorem performAll_wellKept {earlier later : List Operation} {env env' : Environment}
    (h : performAll earlier .fresh = some env) (hlater : performAll later env = some env') :
    env'.store.WellKept ∧ (∀ name ∈ ["pi", "e"], ∃ value, (name, value) ∈ env'.store.scalars) ∧
      ∀ address ∈ env.store, address ∈ env'.store := by
  have hsteps := steps_performAll h
  have hstepsLater := steps_performAll hlater
  have haccepted := EnvironmentOf.Steps.accepted hstepsLater (accepted_performAll h)
  have hkeeps := EnvironmentOf.Steps.keeps hstepsLater
  refine ⟨haccepted.wellKept, fun name hname => ?_, hkeeps⟩
  have hkept := hkeeps _ (EnvironmentOf.Steps.keeps hsteps _ (Environment.mem_fresh name hname))
  obtain ⟨value, hvalue⟩ :=
    Option.isSome_iff_exists.mp (Std.ExtTreeMap.mem_iff_isSome_getElem?.mp hkept)
  exact ⟨value, StoreOf.mem_scalars.mpr hvalue⟩

/-- An element is written by its key, and a program fails after an assignment. -/
def briefLater : List Operation :=
  [.set "A$7" .one true, .run {} 1 [.assign (.scalar "B_2" default) (.scalar "e" default) default,
    .assign (.element "A" (.scalar "B" default) default) (.scalar "B" default) default,
    .assign (.element "A" (.negate (.scalar "e" default) default) default) (.scalar "B" default)
      default]]

/-- A few operations and a run that fails, with the names and indices they leave. -/
theorem performAll_wellKept_brief :
    ∃ env env', performAll brief .fresh = some env ∧ performAll briefLater env = some env' ∧
      env'.store.scalars.map (·.1) = ["B_2", "e", "pi", "x"] ∧
      env'.store.arrays.map (fun array => (array.1, array.2.map (·.1))) = [("A", [0, 1, 7])] ∧
      env'.store.WellKept ∧ ∀ address ∈ env.store, address ∈ env'.store := by
  have hread : ((performAll brief .fresh).bind fun env =>
      (performAll briefLater env).map fun env' =>
      (env'.store.scalars.map (·.1),
        env'.store.arrays.map fun array => (array.1, array.2.map (·.1)))) =
      some (["B_2", "e", "pi", "x"], [("A", [0, 1, 7])]) := by
    decide +kernel
  obtain ⟨env, h, hread⟩ := Option.bind_eq_some_iff.mp hread
  obtain ⟨env', hlater, hlisted⟩ := Option.map_eq_some_iff.mp hread
  obtain ⟨hscalars, harrays⟩ := Prod.mk.inj hlisted
  obtain ⟨hkept, _, hkeeps⟩ := performAll_wellKept h hlater
  exact ⟨env, env', h, hlater, hscalars, harrays, hkept, hkeeps⟩

end Operation

end NumericScript
