import NumericScript.Store.Address

/-!
# Keys

There is no delimiter in a scalar's name or in an index, so the key of an element is split where it
was joined. Every address with an accepted name is what its key stands for, and the key of any other
element stands for no address with an accepted name.
-/

namespace NumericScript

/-- The delimiter of keys is in no scalar's name. -/
theorem keyDelimiter_not_mem {name : List Char} (h : isScalarName name = true) :
    keyDelimiter ∉ name := by
  intro hm
  unfold isScalarName matchesName at h
  rw [← List.takeWhile_append_dropWhile (p := fun c => c.isDigit || c = '_') (l := name)] at hm
  rcases List.mem_append.mp hm with hm | hm
  · exact absurd (List.all_eq_true.mp List.all_takeWhile _ hm) (by decide)
  · split at h
    · cases h
    · rename_i c rest hdrop
      rw [hdrop] at hm
      obtain ⟨halpha, hrest⟩ := Bool.and_eq_true_iff.mp h
      rcases List.mem_cons.mp hm with rfl | hm
      · exact absurd halpha (by decide)
      · exact absurd (List.all_eq_true.mp hrest _ hm) (by decide)

/-- A word that occurs in a text occurs in a longer one. -/
theorem occursIn_append {word text : List Char} (h : occursIn word text = true)
    (more : List Char) : occursIn word (text ++ more) = true := by
  induction text with
  | nil =>
    obtain rfl := List.isEmpty_iff.mp h
    cases more <;> rfl
  | cons c text ih =>
    rw [List.cons_append, occursIn, Bool.or_eq_true]
    rcases Bool.or_eq_true_iff.mp h with hstart | hlater
    · rw [List.isPrefixOf_iff_prefix] at hstart ⊢
      exact .inl (hstart.trans (List.prefix_append (c :: text) more))
    · exact .inr (ih hlater)

/-- In a part at the beginning of a name there is no reserved word unless there is one in it. -/
theorem reservedIn?_of_append {text more : List Char} (h : reservedIn? (text ++ more) = none) :
    reservedIn? text = none := by
  rw [reservedIn?, List.find?_eq_none] at h ⊢
  exact fun word hword hoccurs => h word hword (occursIn_append hoccurs more)

/-- A name is accepted if it follows the pattern and there is no reserved word in it. -/
theorem violation?_eq_none {asElement : Bool} {name : String} :
    violation? asElement name = none ↔
      (if asElement then isElementName name.toList else isScalarName name.toList) = true ∧
        reservedIn? name.toList = none := by
  rw [violation?]
  generalize (if asElement then isElementName name.toList else isScalarName name.toList) = follows
  cases follows <;> simp

/-- The digits of a number of 64 bits, at least one of them. There may be leading zeros. -/
structure IsDecimal (digits : List Char) (word : UInt64) : Prop where
  nonempty : digits ≠ []
  isDigit : ∀ c ∈ digits, c.isDigit
  value : Nat.ofDigitChars 10 digits 0 = word.toNat

namespace IsDecimal

variable {digits : List Char} {word : UInt64}

/-- A character that is no digit is not among digits. -/
theorem not_mem (h : IsDecimal digits word) {sign : Char} (hsign : sign.isDigit = false) :
    sign ∉ digits := by
  intro hm
  rw [h.isDigit sign hm] at hsign
  cases hsign

private theorem unsigned_eq (h : IsDecimal digits word) : unsigned digits = digits := by
  obtain ⟨c, rest, rfl⟩ := List.exists_cons_of_ne_nil h.nonempty
  refine if_neg ?_
  rintro rfl
  exact h.not_mem (by decide) List.mem_cons_self

end IsDecimal

/-- The digits of a number of 64 bits are such digits. -/
theorem isDecimal_toDigits (word : UInt64) : IsDecimal (Nat.toDigits 10 word.toNat) word where
  nonempty := Nat.toDigits_ne_nil
  isDigit _ hc := Nat.isDigit_of_mem_toDigits (by decide) (by decide) hc
  value := Nat.ofDigitChars_ten_toDigits

/-- What is read are the digits of a number, with or without a plus sign before them. -/
theorem readWord?_iff {text : List Char} {word : UInt64} :
    readWord? text = some word ↔
      ∃ digits, (text = digits ∨ text = '+' :: digits) ∧ IsDecimal digits word := by
  have hread : readWord? text = some word ↔ IsDecimal (unsigned text) word := by
    rw [readWord?]
    constructor
    · intro h
      split at h
      · rename_i hdigits
        simp only [Bool.and_eq_true, Bool.not_eq_true', List.isEmpty_eq_false_iff,
          List.all_eq_true, decide_eq_true_eq] at hdigits
        obtain ⟨⟨hne, hall⟩, hlt⟩ := hdigits
        obtain rfl := Option.some.inj h
        exact ⟨hne, hall, (UInt64.toNat_ofNat_of_lt' hlt).symm⟩
      · cases h
    · rintro ⟨hne, hall, hvalue⟩
      have hlt : Nat.ofDigitChars 10 (unsigned text) 0 < 2 ^ 64 := hvalue ▸ word.toNat_lt
      have hdigits : (!(unsigned text).isEmpty && (unsigned text).all Char.isDigit &&
          decide (Nat.ofDigitChars 10 (unsigned text) 0 < 2 ^ 64)) = true := by
        simp only [Bool.and_eq_true, Bool.not_eq_true', List.isEmpty_eq_false_iff,
          List.all_eq_true, decide_eq_true_eq]
        exact ⟨⟨hne, hall⟩, hlt⟩
      rw [if_pos hdigits, hvalue, UInt64.ofNat_toNat]
  rw [hread]
  constructor
  · intro h
    refine ⟨unsigned text, ?_, h⟩
    cases text with
    | nil => exact .inl rfl
    | cons c rest =>
      by_cases hc : c = '+'
      · exact .inr (by rw [unsigned, if_pos hc, hc])
      · exact .inl (by rw [unsigned, if_neg hc])
  · rintro ⟨digits, rfl | rfl, h⟩
    · rwa [h.unsigned_eq]
    · exact h

/-- The digits of an index are read as that index. -/
theorem readWord?_toDigits (index : UInt64) :
    readWord? (Nat.toDigits 10 index.toNat) = some index :=
  readWord?_iff.mpr ⟨_, .inl rfl, isDecimal_toDigits index⟩

namespace Address

private theorem splitKey?_eq_none {key : List Char} (h : keyDelimiter ∉ key) :
    splitKey? key = none := by
  induction key with
  | nil => rfl
  | cons c rest ih =>
    obtain ⟨hc, hrest⟩ := not_or.mp (mt List.mem_cons.mpr h)
    rw [splitKey?, ih hrest]
    exact if_neg (Ne.symm hc)

/-- A key is split at its last delimiter. -/
theorem splitKey?_append (array : List Char) {index : List Char} (h : keyDelimiter ∉ index) :
    splitKey? (array ++ keyDelimiter :: index) = some (array, index) := by
  induction array with
  | nil =>
    rw [List.nil_append, splitKey?, splitKey?_eq_none h]
    exact if_pos rfl
  | cons c array ih => rw [List.cons_append, splitKey?, ih]

/-- A split key is what stands before its delimiter and what stands after it. -/
theorem splitKey?_eq_some {key array index : List Char} (h : splitKey? key = some (array, index)) :
    key = array ++ keyDelimiter :: index := by
  induction key generalizing array with
  | nil => cases h
  | cons c rest ih =>
    rw [splitKey?] at h
    split at h
    · rename_i array' index' hrest
      obtain ⟨rfl, rfl⟩ := Prod.mk.inj (Option.some.inj h)
      rw [ih hrest, List.cons_append]
    · split at h
      · rename_i hc
        obtain ⟨rfl, rfl⟩ := Prod.mk.inj (Option.some.inj h)
        rw [hc, List.nil_append]
      · cases h

/-- Whether the name of an address is one that a scalar may have. -/
def Named (address : Address) : Prop := isScalarName address.name.toList = true

/-- Whether the name of an address is accepted: it follows the pattern without reserved words. -/
def Accepted (address : Address) : Prop := violation? false address.name = none

/-- An accepted address is one that has a name. -/
theorem Accepted.named {address : Address} (h : address.Accepted) : address.Named :=
  (violation?_eq_none.mp h).1

/-- A key without the delimiter is that of a scalar. -/
theorem ofKey_of_not_mem {key : String} (h : keyDelimiter ∉ key.toList) :
    ofKey key = scalar key := by
  rw [ofKey, splitKey?_eq_none h]

/-- A word for an element is the array's name, the delimiter and what is read as the index. -/
theorem ofKey_eq_element {key array : String} {index : UInt64} :
    ofKey key = element array index ↔ isScalarName array.toList = true ∧
      ∃ text, key.toList = array.toList ++ keyDelimiter :: text ∧ readWord? text = some index := by
  constructor
  · intro h
    unfold ofKey at h
    split at h
    · cases h
    · rename_i name text hsplit
      split at h
      · rename_i position hposition
        split at h
        · rename_i hname
          obtain ⟨rfl, rfl⟩ := element.inj h
          rw [String.toList_ofList]
          exact ⟨hname, text, splitKey?_eq_some hsplit, hposition⟩
        · cases h
      · cases h
  · rintro ⟨hname, text, hkey, hread⟩
    have hplain : keyDelimiter ∉ text := by
      obtain ⟨digits, rfl | rfl, hdigits⟩ := readWord?_iff.mp hread
      · exact hdigits.not_mem (by decide)
      · exact List.not_mem_cons_of_ne_of_not_mem (by decide) (hdigits.not_mem (by decide))
    rw [ofKey, hkey, splitKey?_append _ hplain]
    simp only [hread, hname, if_true, String.ofList_toList]

/--
An element's key leads back to it if a scalar may have the array's name, and is that of a scalar
otherwise.
-/
theorem ofKey_element (array : String) (index : UInt64) :
    ofKey (element array index).key =
      if isScalarName array.toList then element array index
      else scalar (element array index).key := by
  have hdelimiter : keyDelimiter ∉ Nat.toDigits 10 index.toNat :=
    (isDecimal_toDigits index).not_mem (by decide)
  rw [ofKey]
  simp only [key, String.toList_ofList, splitKey?_append _ hdelimiter, readWord?_toDigits,
    String.ofList_toList]

/-- An address with an accepted name is what its key stands for. -/
theorem ofKey_key {address : Address} (h : address.Named) : ofKey address.key = address := by
  cases address with
  | scalar name => exact ofKey_of_not_mem (keyDelimiter_not_mem h)
  | element array index =>
    rw [ofKey_element]
    exact if_pos h

/-- What a word stands for is a scalar of that name, or an element with an accepted name. -/
theorem ofKey_cases (key : String) :
    ofKey key = scalar key ∨
      ∃ array index, ofKey key = element array index ∧ (ofKey key).Named := by
  unfold ofKey
  split
  · exact .inl rfl
  · rename_i array digits hsplit
    split
    · rename_i index hindex
      by_cases hname : isScalarName array
      · rw [if_pos hname]
        refine .inr ⟨String.ofList array, index, rfl, ?_⟩
        simpa [Named, name] using hname
      · exact .inl (if_neg hname)
    · exact .inl rfl

/-- An element with an accepted key has an accepted name. -/
theorem accepted_of_key {key array : String} {index : UInt64} (h : violation? true key = none)
    (hkey : ofKey key = element array index) : (element array index).Accepted := by
  obtain ⟨hname, text, hjoined, -⟩ := ofKey_eq_element.mp hkey
  have hreserved := (violation?_eq_none.mp h).2
  rw [hjoined] at hreserved
  exact violation?_eq_none.mpr ⟨hname, reservedIn?_of_append hreserved⟩

/-- An address that can be read: an element, or a scalar whose name does not read as a key. -/
def Readable : Address → Prop
  | scalar name => ofKey name = scalar name
  | element .. => True

/-- Every key leads to an address that can be read. -/
theorem readable_ofKey (key : String) : (ofKey key).Readable := by
  rcases ofKey_cases key with h | ⟨array, index, h, _⟩
  · rw [h]
    exact h
  · rw [h]
    trivial

/-- The key of an address that can be read stands for that address or for one without a name. -/
theorem ofKey_key_of_readable {address : Address} (h : address.Readable) :
    ofKey address.key = address ∨ ¬(ofKey address.key).Named := by
  cases address with
  | scalar name => exact .inl h
  | element array index =>
    by_cases hname : isScalarName array.toList
    · exact .inl (ofKey_key hname)
    · right
      rw [ofKey_element, if_neg hname]
      intro hnamed
      refine keyDelimiter_not_mem hnamed ?_
      simp [name, key]

end Address

end NumericScript
