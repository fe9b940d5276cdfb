import NumericScript.Proofs.Store.Keyed

/-!
# Keys as a code

Elements are found by their keys, so two of them must not have the same key, and no key may be
the name of a scalar. A word is decoded at its last delimiter. It is decoded to an element if the
part before is a scalar's name and the part after is a number of 64 bits in decimal, which may have
leading zeros and a plus sign; the key is one of the words for its element.
-/

namespace NumericScript

namespace Address

/-- The key of an element tells the array from the index, whatever the array's name. -/
theorem element_key_inj {array array' : String} {index index' : UInt64} :
    (element array index).key = (element array' index').key ↔
      array = array' ∧ index = index' := by
  constructor
  · intro h
    have hplain : ∀ index : UInt64, keyDelimiter ∉ Nat.toDigits 10 index.toNat := fun index =>
      (isDecimal_toDigits index).not_mem (by decide)
    have hsplit := congrArg (fun key => splitKey? key.toList) h
    simp only [toList_key_element, splitKey?_append _ (hplain _)] at hsplit
    obtain ⟨harray, hdigits⟩ := Prod.mk.inj (Option.some.inj hsplit)
    have hindex := congrArg readWord? hdigits
    rw [readWord?_toDigits, readWord?_toDigits] at hindex
    exact ⟨String.toList_inj.mp harray, Option.some.inj hindex⟩
  · rintro ⟨rfl, rfl⟩
    rfl

/-- The key of an element has the delimiter in it, which no scalar's name has. -/
theorem element_key_ne_scalar (array : String) (index : UInt64) {name : String}
    (h : isScalarName name.toList = true) : (element array index).key ≠ name := by
  rintro rfl
  refine keyDelimiter_not_mem h ?_
  rw [toList_key_element]
  exact List.mem_append_right _ List.mem_cons_self

end Address

/--
Keys encode elements faithfully. The key of an element whose array has a scalar's name is decoded to
that element. Keys of different elements are different, and none of them is a scalar's name. A word
is decoded to an element exactly if the array has a scalar's name and the word is that name, the
delimiter, maybe a plus sign, and the index in decimal digits, at least one, leading zeros allowed.
-/
theorem keys_are_faithful :
    (∀ (array : String) (index : UInt64), isScalarName array.toList = true →
      Address.ofKey (Address.element array index).key = .element array index) ∧
    (∀ (array array' : String) (index index' : UInt64),
      (Address.element array index).key = (Address.element array' index').key →
        array = array' ∧ index = index') ∧
    (∀ (array : String) (index : UInt64) (name : String), isScalarName name.toList = true →
      (Address.element array index).key ≠ name) ∧
    ∀ (key array : String) (index : UInt64), Address.ofKey key = .element array index ↔
      isScalarName array.toList = true ∧ ∃ sign digits : List Char,
        key.toList = array.toList ++ keyDelimiter :: (sign ++ digits) ∧
        (sign = [] ∨ sign = ['+']) ∧ IsDecimal digits index := by
  refine ⟨fun array index hname => Address.ofKey_key hname,
    fun _ _ _ _ => Address.element_key_inj.mp,
    fun array index name => Address.element_key_ne_scalar array index, fun key array index => ?_⟩
  rw [Address.ofKey_eq_element]
  refine and_congr_right fun _ => ⟨?_, ?_⟩
  · rintro ⟨text, hkey, hread⟩
    obtain ⟨digits, rfl | rfl, hdigits⟩ := readWord?_iff.mp hread
    · exact ⟨[], _, hkey, .inl rfl, hdigits⟩
    · exact ⟨['+'], digits, hkey, .inr rfl, hdigits⟩
  · rintro ⟨sign, digits, hkey, rfl | rfl, hdigits⟩
    · exact ⟨digits, hkey, readWord?_iff.mpr ⟨digits, .inl rfl, hdigits⟩⟩
    · exact ⟨'+' :: digits, hkey, readWord?_iff.mpr ⟨digits, .inr rfl, hdigits⟩⟩

/-- The largest index, and a word with a plus sign and leading zeros. -/
theorem keys_are_faithful_largest :
    isScalarName "_2x".toList = true ∧
      Address.ofKey (Address.element "_2x" 18446744073709551615).key =
        .element "_2x" 18446744073709551615 ∧
      (Address.element "_2x" 18446744073709551615).key ≠ "_2x" ∧
      Address.ofKey "_2x$+007" = .element "_2x" 7 := by
  have hname : isScalarName "_2x".toList = true := by decide
  have hseven : IsDecimal ['0', '0', '7'] 7 := ⟨by decide, by simp, by decide +kernel⟩
  obtain ⟨hdecode, -, hscalar, hwords⟩ := keys_are_faithful
  refine ⟨hname, hdecode _ _ hname, hscalar _ _ _ hname, (hwords _ _ _).mpr ⟨hname, ?_⟩⟩
  exact ⟨['+'], _, rfl, .inr rfl, hseven⟩

end NumericScript
