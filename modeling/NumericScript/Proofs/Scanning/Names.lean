import NumericScript.Proofs.Journal.Key
import NumericScript.Proofs.Scanning.Tiles
import NumericScript.Proofs.Store.Listing

/-!
# Accepted names

A name that a store accepts is one token wherever no word goes on with it: there is a letter in it,
and neither a keyword nor a function's name.
-/

namespace NumericScript

private theorem occursIn_of_isPrefixOf {word text : List Char} (h : word <+: text) :
    occursIn word text := by
  cases text with
  | nil =>
    obtain rfl := List.prefix_nil.mp h
    rfl
  | cons c rest => simp [occursIn, List.isPrefixOf_iff_prefix.mpr h]

/-- The pattern of names asks for a letter. -/
theorem exists_isAlpha_of_isScalarName {name : List Char} (h : isScalarName name = true) :
    ∃ c ∈ name, c.isAlpha := by
  unfold isScalarName matchesName at h
  split at h
  · cases h
  · rename_i c rest hdrop
    refine ⟨c, ?_, (Bool.and_eq_true_iff.mp h).1⟩
    exact (List.dropWhile_sublist _).subset (hdrop ▸ List.mem_cons_self)

/-- An accepted name is the lexeme of a name. -/
theorem isName_of_accepted {name : String} (h : violation? false name = none) :
    IsName name.toList := by
  obtain ⟨hpattern, hreserved⟩ := violation?_eq_none.mp h
  obtain ⟨c, hc, halpha⟩ := exists_isAlpha_of_isScalarName hpattern
  have habsent : ∀ word ∈ reservedWords, ¬word.toList <+: name.toList := fun word hword hstarts =>
    List.find?_eq_none.mp hreserved word hword (occursIn_of_isPrefixOf hstarts)
  refine ⟨isWordChar_of_isScalarName hpattern, ⟨c, hc, .inl halpha⟩, fun k hk => ?_, fun f => ?_⟩
  · exact habsent k.text (by cases k <;> decide) (hk ▸ List.prefix_rfl)
  · exact habsent f.name (by cases f <;> decide)

/-- Before what goes on with no word an accepted name is cut off. -/
theorem munch_accepted {name : String} (h : violation? false name = none) {rest : List Char}
    (hrest : ∀ c ∈ rest.head?, isWordChar c = false) :
    ∃ c chars, name.toList = c :: chars ∧
      munch? c (chars ++ rest) = some (.identifier, chars.length + 1) := by
  have hname := isName_of_accepted h
  obtain ⟨c, hc, _⟩ := hname.letter
  obtain ⟨d, chars, htext⟩ := List.exists_cons_of_ne_nil (List.ne_nil_of_mem hc)
  have hmunch := munch_word (htext ▸ hname.word) hrest
  rw [← htext, hname.classifyWord_eq, htext] at hmunch
  exact ⟨d, chars, htext, hmunch⟩

end NumericScript
