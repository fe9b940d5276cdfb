import NumericScript.Proofs.Store.Access

/-!
# Elements by key and by index

The key of an element is as good as its name and index. What cannot be set is missed by the same
name either way, and a name is refused in a key for the reason for which it is refused alone. That
needs a name without the delimiter: the pattern of keys lets the delimiter pass anywhere.
-/

namespace NumericScript

/-- An element's key is its array's name, the delimiter and the digits of its index. -/
theorem Address.toList_key_element (array : String) (index : UInt64) :
    (element array index).key.toList =
      array.toList ++ keyDelimiter :: Nat.toDigits 10 index.toNat :=
  String.toList_ofList

namespace EnvironmentOf

variable {α : Type} {env : EnvironmentOf α} {name : String}

/-- A key is read as the element is, also where the name is none that can be set. -/
theorem get_key [Zero α] (haccepted : env.store.Accepted) (name : String) (index : UInt64) :
    env.get (Address.element name index).key = env.getElement name index := by
  rw [get, getElement, Address.ofKey_element]
  split
  · rfl
  · rename_i hname
    have helement : Address.element name index ∉ env.store := fun hm =>
      hname (haccepted _ hm).named
    have hscalar : Address.scalar (Address.element name index).key ∉ env.store := fun hm =>
      keyDelimiter_not_mem (haccepted _ hm).named (by simp [Address.name, Address.key])
    rw [read_of_not_mem helement, read_of_not_mem hscalar]
    rfl

/-- A key of a name without the delimiter is written, or refused, as the element is. -/
theorem set_key_eq_setElement (env : EnvironmentOf α) (hname : keyDelimiter ∉ name.toList)
    (index : UInt64) (value : α) :
    env.set (Address.element name index).key value true = env.setElement name index value := by
  rw [set, setElement, Address.violation?_joined (Address.toList_key_element name index) hname
    (isDecimal_toDigits index).isDigit]
  cases hviolation : violation? false name with
  | some reason => rfl
  | none =>
    have hscalar : isScalarName name.toList = true := (violation?_eq_none.mp hviolation).1
    rw [if_pos rfl, Address.ofKey_element, if_pos hscalar]

end EnvironmentOf

namespace Operation

/--
Whatever has been done with a new environment, an element's key and its name with its index come to
the same: both give the same number and leave the same store and journal, for whatever name. For a
name without the delimiter, writing to them comes to the same as well: both are accepted or both are
refused, the store and the journal are the same after that, and so are the report's reason and name.
-/
theorem performAll_keyed {operations : List Operation} {env : Environment}
    (h : performAll operations .fresh = some env) (name : String) (index : UInt64) :
    env.get (Address.element name index).key = env.getElement name index ∧
    (keyDelimiter ∉ name.toList → ∀ value,
      env.set (Address.element name index).key value true = env.setElement name index value) := by
  have haccepted := accepted_performAll h
  exact ⟨EnvironmentOf.get_key haccepted name index,
    fun hname value => env.set_key_eq_setElement hname index value⟩

/-- Keys and elements agree after a few operations, also for a name that neither may set. -/
theorem performAll_keyed_brief :
    ∃ env, performAll brief .fresh = some env ∧
      env.get (Address.element "A" 1).key = env.getElement "A" 1 ∧
      env.get (Address.element "A$1" 0).key = env.getElement "A$1" 0 ∧
      keyDelimiter ∉ "Sine".toList ∧
      env.set (Address.element "Sine" 7).key .one true = env.setElement "Sine" 7 .one ∧
      (env.setElement "Sine" 7 .one).2 =
        env.report (.invalid (Address.element "Sine" 7).key (.reserved "Sin")) := by
  have hends : (performAll brief .fresh).isSome := by decide +kernel
  obtain ⟨env, h⟩ := Option.isSome_iff_exists.mp hends
  have hname : keyDelimiter ∉ "Sine".toList := by decide
  have hreason : violation? false "Sine" = some (.reserved "Sin") := by decide
  refine ⟨env, h, (performAll_keyed h "A" 1).1, (performAll_keyed h "A$1" 0).1, hname,
    (performAll_keyed h "Sine" 7).2 hname .one, ?_⟩
  rw [EnvironmentOf.setElement, hreason]

end Operation

end NumericScript
