import Mathlib.Data.List.Find
import NumericScript.Proofs.Store.Keeping

/-!
# Writing where one reads

A word that reads what is set is a scalar's name, or it is an array's name, the delimiter and
digits, maybe with a plus sign before the digits. Words without the plus sign write where they read.
Keys follow a pattern that knows no plus sign, so that a word with one reads an element and cannot
write it.
-/

namespace NumericScript

section Patterns

/-- A sign that the patterns of names do not mention is in no name. -/
theorem not_mem_of_matchesName {tail : Char → Bool} {name : List Char} {sign : Char}
    (h : matchesName tail name = true) (hplain : (sign.isDigit || sign = '_') = false)
    (halpha : sign.isAlpha = false) (htail : tail sign = false) : sign ∉ name := by
  intro hm
  unfold matchesName at h
  rw [← List.takeWhile_append_dropWhile (p := fun c => c.isDigit || c = '_') (l := name)] at hm
  rcases List.mem_append.mp hm with hm | hm
  · have hfront := List.all_eq_true.mp List.all_takeWhile _ hm
    simp_all
  · split at h
    · cases h
    · rename_i first rest hdrop
      rw [hdrop] at hm
      obtain ⟨hfirst, hrest⟩ := Bool.and_eq_true_iff.mp h
      rcases List.mem_cons.mp hm with rfl | hm
      · simp_all
      · have hsign := List.all_eq_true.mp hrest _ hm
        simp_all

/-- A name without the delimiter goes on to a key with it and digits just if it is a scalar's. -/
theorem isElementName_key {array digits : List Char} (harray : keyDelimiter ∉ array)
    (hdigits : ∀ c ∈ digits, c.isDigit) :
    isElementName (array ++ keyDelimiter :: digits) = isScalarName array := by
  have htail : (keyDelimiter :: digits).all (fun c => isWordChar c || c = keyDelimiter) = true :=
    List.all_eq_true.mpr (List.forall_mem_cons.mpr ⟨by decide, fun c hc =>
      Bool.or_eq_true_iff.mpr (.inl (isWordChar_of_isDigit (hdigits c hc)))⟩)
  rw [isElementName, isScalarName, matchesName, matchesName, List.dropWhile_append]
  cases hdrop : array.dropWhile fun c => c.isDigit || c = '_' with
  | nil => rfl
  | cons first rest =>
    have hrest : keyDelimiter ∉ rest := fun hm =>
      harray ((List.dropWhile_suffix _).subset (hdrop ▸ List.mem_cons_of_mem first hm))
    have hall : rest.all (fun c => isWordChar c || c = keyDelimiter) = rest.all isWordChar := by
      rw [Bool.eq_iff_iff, List.all_eq_true, List.all_eq_true]
      exact forall₂_congr fun c hc => by simp [ne_of_mem_of_not_mem hc hrest]
    simp only [List.isEmpty_cons, Bool.false_eq_true, if_false, List.cons_append]
    rw [List.all_append, hall, htail, Bool.and_true]

/-- A word without a sign is in a text with the sign only before or after the sign. -/
theorem occursIn_of_append_cons {word before after : List Char} {sign : Char} (hsign : sign ∉ word)
    (h : occursIn word (before ++ sign :: after) = true) :
    occursIn word before = true ∨ occursIn word after = true := by
  have hprefix : ∀ front : List Char, word <+: front ++ sign :: after → word <+: front := by
    intro front hword
    have hfront : front ++ [sign] <+: front ++ sign :: after := ⟨after, by simp⟩
    rcases List.prefix_or_prefix_of_prefix hword hfront with hshort | hlong
    · rcases List.prefix_concat_iff.mp hshort with rfl | hshort
      · exact absurd (by simp) hsign
      · exact hshort
    · exact absurd (hlong.subset (by simp)) hsign
  induction before with
  | nil =>
    rcases Bool.or_eq_true_iff.mp h with hstart | hlater
    · have hnil := hprefix [] (List.isPrefixOf_iff_prefix.mp hstart)
      exact .inl (List.isEmpty_iff.mpr (List.prefix_nil.mp hnil))
    · exact .inr hlater
  | cons c before ih =>
    rcases Bool.or_eq_true_iff.mp h with hstart | hlater
    · have hshort := hprefix (c :: before) (List.isPrefixOf_iff_prefix.mp hstart)
      exact .inl (Bool.or_eq_true_iff.mpr (.inl (List.isPrefixOf_iff_prefix.mpr hshort)))
    · rcases ih hlater with hbefore | hafter
      · exact .inl (Bool.or_eq_true_iff.mpr (.inr hbefore))
      · exact .inr hafter

/-- What occurs in a text has only characters of it. -/
theorem mem_of_occursIn {word text : List Char} (h : occursIn word text = true) :
    ∀ c ∈ word, c ∈ text := by
  induction text with
  | nil =>
    obtain rfl := List.isEmpty_iff.mp h
    nofun
  | cons first rest ih =>
    intro c hc
    rcases Bool.or_eq_true_iff.mp h with hstart | hlater
    · exact (List.isPrefixOf_iff_prefix.mp hstart).subset hc
    · exact List.mem_cons_of_mem _ (ih hlater c hc)

/-- A reserved word is in a key with a decimal index exactly if it is in the array's name. -/
theorem occursIn_key {word : String} (hword : word ∈ reservedWords) (array : List Char)
    {digits : List Char} (hdigits : ∀ c ∈ digits, c.isDigit) :
    occursIn word.toList (array ++ keyDelimiter :: digits) = occursIn word.toList array := by
  have hwords : reservedWords.all (fun word =>
      !word.toList.contains keyDelimiter && word.toList.any fun c => !c.isDigit) = true := by
    decide
  have hletters := List.all_eq_true.mp hwords word hword
  simp only [Bool.and_eq_true, Bool.not_eq_true', List.contains_eq_mem, decide_eq_false_iff_not,
    List.any_eq_true] at hletters
  obtain ⟨hdelimiter, c, hc, hplain⟩ := hletters
  refine Bool.eq_iff_iff.mpr ⟨fun hoccurs => ?_, fun hoccurs => occursIn_append hoccurs _⟩
  refine (occursIn_of_append_cons hdelimiter hoccurs).resolve_right fun hafter => ?_
  rw [hdigits c (mem_of_occursIn hafter c hc)] at hplain
  cases hplain

/-- So the key of an element has the reserved words that the array's name has. -/
theorem reservedIn?_key (array : List Char) {digits : List Char}
    (hdigits : ∀ c ∈ digits, c.isDigit) :
    reservedIn? (array ++ keyDelimiter :: digits) = reservedIn? array :=
  List.find?_congr fun _ hword => occursIn_key hword array hdigits

end Patterns

section Words

variable {key array : String} {index : UInt64}

namespace Address

/-- The rule that a key in digits violates is the one that the array's name violates. -/
theorem violation?_joined {key array : String} {digits : List Char}
    (hkey : key.toList = array.toList ++ keyDelimiter :: digits)
    (harray : keyDelimiter ∉ array.toList) (hdigits : ∀ c ∈ digits, c.isDigit) :
    violation? true key = violation? false array := by
  rw [violation?, violation?, if_pos rfl, if_neg Bool.false_ne_true, hkey,
    isElementName_key harray hdigits, reservedIn?_key _ hdigits]

/-- A key is accepted if it stands for an element with an accepted name and has no plus sign. -/
theorem violation?_key (h : ofKey key = element array index)
    (haccepted : (element array index).Accepted) :
    violation? true key = if '+' ∈ key.toList then some .pattern else none := by
  obtain ⟨-, text, hkey, htext⟩ := ofKey_eq_element.mp h
  by_cases hplus : '+' ∈ key.toList
  · have hpattern : isElementName key.toList = false := Bool.eq_false_iff.mpr fun hmatches =>
      not_mem_of_matchesName hmatches (by decide) (by decide) (by decide) hplus
    rw [if_pos hplus, violation?, if_pos rfl, hpattern]
    rfl
  · have htextPlus : '+' ∉ text := fun hm => hplus (by rw [hkey]; simp [hm])
    obtain ⟨digits, rfl | rfl, hdigits⟩ := readWord?_iff.mp htext
    · rw [if_neg hplus,
        violation?_joined hkey (keyDelimiter_not_mem haccepted.named) hdigits.isDigit]
      exact haccepted
    · exact absurd List.mem_cons_self htextPlus

/-- A word for an address with an accepted name has the delimiter if that is an element. -/
theorem keyDelimiter_mem (h : (ofKey key).Accepted) :
    keyDelimiter ∈ key.toList ↔ (ofKey key).isElement = true := by
  rcases ofKey_cases key with hscalar | ⟨array, index, helement, _⟩
  · rw [hscalar] at h ⊢
    exact iff_of_false (keyDelimiter_not_mem h.named) Bool.false_ne_true
  · obtain ⟨-, text, hkey, _⟩ := ofKey_eq_element.mp helement
    rw [helement, hkey]
    exact iff_of_true (by simp) rfl

end Address

end Words

namespace EnvironmentOf

variable {α : Type} {env : EnvironmentOf α} {key : String}

private theorem write_of_mem {address : Address} (h : address ∈ env.store) (value : α) :
    env.write address value =
      ⟨env.store.insert address value, env.journal.push (.updated address value)⟩ := by
  have hcontains : env.store.contains address = true := Std.ExtTreeMap.mem_iff_contains.mp h
  simp only [write, hcontains, if_true]

private theorem get_insert [Zero α] (store : StoreOf α) (journal : Array (DiagnosticOf α))
    (value : α) : get ⟨store.insert (.ofKey key) value, journal⟩ key =
      (value, ⟨store.insert (.ofKey key) value, journal⟩) := by
  rw [get, read, Std.ExtTreeMap.getElem?_insert_self]

/-- A word that reads what is set writes there, unless there is a plus sign in it. -/
theorem set_of_contains (haccepted : env.store.Accepted) (h : env.contains key = true)
    (value : α) :
    env.set key value (decide (keyDelimiter ∈ key.toList)) =
      if '+' ∈ key.toList then (false, env.report (.invalid key .pattern))
      else (true, ⟨env.store.insert (.ofKey key) value,
        env.journal.push (.updated (.ofKey key) value)⟩) := by
  have hmem : Address.ofKey key ∈ env.store := Std.ExtTreeMap.mem_iff_contains.mpr h
  have hname := haccepted _ hmem
  have hkind := Address.keyDelimiter_mem hname
  rcases Address.ofKey_cases key with hscalar | ⟨array, index, helement, _⟩
  · rw [hscalar] at hkind hname hmem ⊢
    have hplus : '+' ∉ key.toList :=
      not_mem_of_matchesName hname.named (by decide) (by decide) (by decide)
    rw [decide_eq_false (mt hkind.mp Bool.false_ne_true), if_neg hplus, ← write_of_mem hmem]
    have haccepted : violation? false key = none := hname
    simp [set, haccepted]
  · rw [helement] at hkind hname hmem ⊢
    rw [decide_eq_true (hkind.mpr rfl), ← write_of_mem hmem, set,
      Address.violation?_key helement hname]
    by_cases hplus : '+' ∈ key.toList
    · rw [if_pos hplus, if_pos hplus]
    · simp [hplus, helement]

end EnvironmentOf

/-- The key of an address with an accepted name has no plus sign. -/
theorem Address.plus_not_mem_key {address : Address} (h : address.Named) :
    '+' ∉ address.key.toList := by
  have hname : '+' ∉ address.name.toList :=
    not_mem_of_matchesName h (by decide) (by decide) (by decide)
  cases address with
  | scalar name => exact hname
  | element array index =>
    have hdigits : '+' ∉ Nat.toDigits 10 index.toNat :=
      (isDecimal_toDigits index).not_mem (by decide)
    have hdelimiter : '+' ≠ keyDelimiter := by decide
    simp only [key, String.toList_ofList, List.mem_append, List.mem_cons, not_or]
    exact ⟨hname, hdelimiter, hdigits⟩

namespace Operation

/--
Whatever has been done with a new environment, a word that reads what is set there writes it as
well, as an element if it has the delimiter and as a scalar if not. There is one more report then,
of an update, and the word reads what was written. Only a word with a plus sign in it is refused,
and nothing is written. It stands for the same address as a word without one.
-/
theorem performAll_rewrites {operations : List Operation} {env : Environment}
    (h : performAll operations .fresh = some env) {key : String}
    (hread : env.contains key = true) (value : Single) :
    ('+' ∉ key.toList → ∃ env', env.set key value (decide (keyDelimiter ∈ key.toList)) =
        (true, env') ∧
      env'.journal = env.journal.push (.updated (.ofKey key) value) ∧
      (∀ address ≠ Address.ofKey key, env'.store[address]? = env.store[address]?) ∧
      env'.get key = (value, env')) ∧
    ('+' ∈ key.toList → env.set key value (decide (keyDelimiter ∈ key.toList)) =
        (false, env.report (.invalid key .pattern)) ∧
      ∃ plain : String, '+' ∉ plain.toList ∧ Address.ofKey plain = Address.ofKey key) := by
  have haccepted := accepted_performAll h
  have hset := EnvironmentOf.set_of_contains haccepted hread value
  refine ⟨fun hplus => ?_, fun hplus => ?_⟩
  · rw [if_neg hplus] at hset
    refine ⟨_, hset, rfl, fun address hne => ?_, EnvironmentOf.get_insert _ _ value⟩
    refine Std.ExtTreeMap.getElem?_insert.trans (if_neg fun heq => ?_)
    exact hne (Std.LawfulEqOrd.eq_of_compare heq).symm
  · rw [if_pos hplus] at hset
    have hname := (haccepted _ (Std.ExtTreeMap.mem_iff_contains.mpr hread)).named
    exact ⟨hset, _, Address.plus_not_mem_key hname, Address.ofKey_key hname⟩

/-- A key with a leading zero sets the element of its number. -/
theorem performAll_rewrites_brief :
    ∃ env, performAll brief .fresh = some env ∧ env.contains "A$01" = true ∧
      '+' ∉ "A$01".toList ∧ ∃ env', env.set "A$01" .one true = (true, env') ∧
        env'.journal = env.journal.push (.updated (.element "A" 1) .one) := by
  have hread : (performAll brief .fresh).map (·.contains "A$01") = some true := by decide +kernel
  obtain ⟨env, h, hcontains⟩ := Option.map_eq_some_iff.mp hread
  obtain ⟨env', hset, hjournal, -, -⟩ := (performAll_rewrites h hcontains .one).1 (by decide)
  exact ⟨env, h, hcontains, by decide, env', hset, hjournal⟩

/-- A word with a plus sign reads the element that was set, and cannot set it. -/
theorem plus_reads_only :
    ∃ env, performAll [.setElement "A" 3 .one] .fresh = some env ∧ env.contains "A$+3" = true ∧
      (env.get "A$+3").1 = .one ∧ (env.set "A$+3" .zero true).1 = false ∧
      ((env.set "A$+3" .zero true).2.get "A$+3").1 = .one := by
  refine ⟨_, rfl, ?_⟩
  decide +kernel

end Operation

end NumericScript
