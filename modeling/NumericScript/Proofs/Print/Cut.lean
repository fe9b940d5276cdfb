import NumericScript.Proofs.Print.Text

/-!
# Cutting printed text

A printed glyph is cut off again, whatever comes after it, as long as a word is not followed by a
character that would go on with it. A function's name needs no such care.
-/

namespace NumericScript

/-- A text that goes on with no word and no numeral before it. -/
def Loose (rest : List Char) : Prop := ∀ c ∈ rest.head?, isWordChar c = false ∧ c ≠ '.'

theorem loose_nil : Loose [] := nofun

/-- A text that begins with neither a word's character nor a point is loose. -/
theorem loose_cons {c : Char} (rest : List Char) (h : isWordChar c = false) (hpoint : c ≠ '.') :
    Loose (c :: rest) := by
  rintro _ ⟨⟩
  exact ⟨h, hpoint⟩

private theorem takeWhile_word {word rest : List Char} (hword : ∀ c ∈ word, isWordChar c)
    (h : ∀ c ∈ rest.head?, isWordChar c = false) : (word ++ rest).takeWhile isWordChar = word := by
  rw [List.takeWhile_append_of_pos hword]
  cases rest with
  | nil => simp
  | cons c rest => simp [h c rfl]

private theorem dropWhile_word {word rest : List Char} (hword : ∀ c ∈ word, isWordChar c)
    (h : ∀ c ∈ rest.head?, isWordChar c = false) : (word ++ rest).dropWhile isWordChar = rest := by
  rw [List.dropWhile_append_of_pos hword]
  cases rest with
  | nil => simp
  | cons c rest => simp [h c rfl]

/-- The munched lexeme is cut off, and the rest is cut as before. -/
theorem cut_append {c : Char} {chars rest : List Char} {kind : TokenKind} {later : List Lexeme}
    (hmunch : munch? c (chars ++ rest) = some (kind, chars.length + 1))
    (hlater : cut rest = .ok later) :
    cut (c :: chars ++ rest) = .ok (⟨kind, c :: chars⟩ :: later) := by
  rw [List.cons_append]
  refine cut_cons_eq_ok.mpr ⟨kind, chars.length + 1, later, hmunch, ?_, ?_⟩
  · rwa [Nat.add_sub_cancel, List.drop_left]
  · rw [List.take_succ_cons, List.take_left]

/-- No word goes on in a loose text. -/
theorem Loose.noWord {rest : List Char} (h : Loose rest) :
    ∀ c ∈ rest.head?, isWordChar c = false :=
  fun c hc => (h c hc).1

/-- A word that nothing goes on with is classified on its own. -/
theorem munch_word {c : Char} {chars rest : List Char} (hword : ∀ d ∈ c :: chars, isWordChar d)
    (h : ∀ c ∈ rest.head?, isWordChar c = false) :
    munch? c (chars ++ rest) = some (classifyWord (c :: chars) rest) := by
  have htail : ∀ d ∈ chars, isWordChar d := fun d hd => hword d (List.mem_cons_of_mem _ hd)
  unfold munch?
  rw [if_pos (hword c List.mem_cons_self), takeWhile_word htail h, dropWhile_word htail h]

/-- What a word with a letter is does not depend on what follows it. -/
theorem classifyWord_of_identifier {word after : List Char} {length : Nat}
    (h : classifyWord word after = (.identifier, length)) (after' : List Char) :
    length = word.length ∧ classifyWord word after' = (.identifier, word.length) := by
  unfold classifyWord at h ⊢
  split at h
  · rename_i halpha
    rw [if_pos halpha]
    split at h
    · cases h
    · rename_i hkeyword
      split at h
      · cases h
      · rename_i hfunction
        exact ⟨(Prod.mk.inj h).2.symm, rfl⟩
  · rename_i halpha
    rw [if_neg halpha]
    split at h
    · rename_i hunderscore
      exact ⟨(Prod.mk.inj h).2.symm, if_pos hunderscore⟩
    · cases h

/-- A name that is one token is a word that is classified as a name. -/
theorem word_of_cut_name {name : List Char} (h : cut name = .ok [⟨.identifier, name⟩]) :
    ∃ c chars, name = c :: chars ∧ (∀ d ∈ name, isWordChar d) ∧
      ∀ after, classifyWord name after = (.identifier, name.length) := by
  cases name with
  | nil => cases h
  | cons c chars =>
    obtain ⟨kind, length, later, hmunch, _, heq⟩ := cut_cons_eq_ok.mp h
    obtain ⟨hlexeme, _⟩ := List.cons.inj heq
    obtain ⟨rfl, htext⟩ := Lexeme.mk.inj hlexeme
    refine ⟨c, chars, rfl, ?_⟩
    unfold munch? at hmunch
    split at hmunch
    · rename_i hc
      have hclass := Option.some.inj hmunch
      obtain ⟨hlength, _⟩ := classifyWord_of_identifier hclass []
      have hwhole : chars.takeWhile isWordChar = chars := by
        refine List.takeWhile_prefix _ |>.eq_of_length_le ?_
        have := congrArg List.length htext
        simp only [List.length_cons, List.length_take] at this hlength
        omega
      rw [hwhole] at hclass
      refine ⟨?_, fun after => (classifyWord_of_identifier hclass after).2⟩
      rintro d (_ | ⟨_, hd⟩)
      · exact hc
      · rw [← hwhole] at hd
        exact List.mem_takeWhile_imp hd
    · split at hmunch
      all_goals first
        | cases hmunch
        | (split at hmunch <;> cases hmunch)

/-- A digit is a word's character. -/
theorem isWordChar_of_isDigit {c : Char} (h : c.isDigit) : isWordChar c := by
  simp [isWordChar, Char.isAlphanum, h]

/-- The letters are two ranges of code points. -/
theorem isAlpha_iff {c : Char} : c.isAlpha = true ↔
    65 ≤ c.toNat ∧ c.toNat ≤ 90 ∨ 97 ≤ c.toNat ∧ c.toNat ≤ 122 := by
  change (decide ('A'.val ≤ c.val ∧ c.val ≤ 'Z'.val) ||
    (decide ('a'.val ≤ c.val) && decide (c.val ≤ 'z'.val))) = true ↔ _
  simp only [Bool.or_eq_true, Bool.and_eq_true, decide_eq_true_eq, UInt32.le_iff_toNat_le]
  rfl

/-- A digit is no letter. -/
theorem isAlpha_of_isDigit {c : Char} (h : c.isDigit) : c.isAlpha = false := by
  simp only [Char.isDigit, Bool.and_eq_true, decide_eq_true_eq, UInt32.le_iff_toNat_le, ge_iff_le,
    Char.reduceVal, UInt32.reduceToNat] at h
  rw [Bool.eq_false_iff, ne_eq, isAlpha_iff, Char.toNat]
  omega

/-- The digits after a point belong to the fraction. -/
theorem fractionLength_point {fraction rest : List Char} (hdigits : ∀ c ∈ fraction, c.isDigit)
    (hne : fraction ≠ []) (hrest : Loose rest) :
    fractionLength ('.' :: (fraction ++ rest)) = fraction.length + 1 := by
  have hall : (fraction ++ rest).takeWhile Char.isDigit = fraction := by
    rw [List.takeWhile_append_of_pos hdigits]
    cases rest with
    | nil => simp
    | cons c rest =>
      have hdigit : ¬c.isDigit := by
        intro hdigit
        have := isWordChar_of_isDigit hdigit
        rw [(hrest c rfl).1] at this
        cases this
      simp [hdigit]
  obtain ⟨d, digits, rfl⟩ := List.exists_cons_of_ne_nil hne
  unfold fractionLength
  simp only [if_true, hall, List.length_cons]

/-- No fraction follows a numeral in front of a loose text. -/
theorem fractionLength_loose {rest : List Char} (hrest : Loose rest) : fractionLength rest = 0 := by
  cases rest with
  | nil => rfl
  | cons c rest =>
    unfold fractionLength
    exact if_neg (hrest c rfl).2

/-- Digits are a number, together with a fraction right after them. -/
theorem classifyWord_digits {digits : List Char} (h : ∀ c ∈ digits, c.isDigit)
    (after : List Char) :
    classifyWord digits after = (.number, digits.length + fractionLength after) := by
  have hletters : digits.any Char.isAlpha = false :=
    List.any_eq_false.mpr fun c hc => by simp [isAlpha_of_isDigit (h c hc)]
  have hunderscore : digits.any (· = '_') = false := by
    refine List.any_eq_false.mpr fun c hc => ?_
    rintro hunderscore
    obtain rfl := of_decide_eq_true hunderscore
    cases h _ hc
  rw [classifyWord, hletters, hunderscore]
  rfl

/-- In front of something loose a numeral is cut off whole. -/
theorem munch_numeral {text rest : List Char} (h : IsNumeral text) (hrest : Loose rest) :
    ∃ c chars, text = c :: chars ∧ munch? c (chars ++ rest) = some (.number, chars.length + 1) := by
  obtain ⟨whole, fraction, hwhole, hfraction, ⟨hne, rfl⟩ | ⟨hne, rfl⟩⟩ := h
  · obtain ⟨c, chars, rfl⟩ := List.exists_cons_of_ne_nil hne
    refine ⟨c, chars, rfl, ?_⟩
    rw [munch_word (fun d hd => isWordChar_of_isDigit (hwhole d hd)) hrest.noWord,
      classifyWord_digits hwhole, fractionLength_loose hrest]
    rfl
  · cases whole with
    | nil =>
      refine ⟨'.', fraction, rfl, ?_⟩
      have hlength := fractionLength_point hfraction hne hrest
      unfold munch?
      rw [if_neg (by decide)]
      simp only [hlength]
    | cons c chars =>
      refine ⟨c, chars ++ '.' :: fraction, rfl, ?_⟩
      have hpoint : ∀ d ∈ ('.' :: (fraction ++ rest)).head?, isWordChar d = false := by
        rintro _ ⟨⟩
        decide
      rw [List.append_assoc, List.cons_append,
        munch_word (fun d hd => isWordChar_of_isDigit (hwhole d hd)) hpoint,
        classifyWord_digits hwhole, fractionLength_point hfraction hne hrest]
      simp only [List.length_cons, List.length_append]
      congr 2
      omega

/-- Whether a kind of token is a sign and not a word. -/
def TokenKind.isSign : TokenKind → Bool
  | identifier | number | keyword _ | function _ => false
  | _ => true

/-- A sign's spelling begins with neither a word's character nor a point. -/
theorem TokenKind.spelling_of_sign {kind : TokenKind} (h : kind.isSign) :
    ∃ c chars, kind.spelling = c :: chars ∧ isWordChar c = false ∧ c ≠ '.' := by
  cases kind with
  | keyword | function | identifier | number => cases h
  | _ => exact ⟨_, _, rfl, by decide, by decide⟩

/-- Glyphs whose text is cut into lexemes that say the same, in front of a text. -/
def Cuts (numeral : Single → List Char) (glyphs : List Glyph) (rest : List Char) : Prop :=
  ∀ later, cut rest = .ok later → ∃ lexemes,
    cut (textOf numeral glyphs ++ rest) = .ok (lexemes ++ later) ∧
      lexemes.map Lexeme.glyph = glyphs

namespace Cuts

variable {numeral : Single → List Char} {glyphs more : List Glyph} {rest : List Char}

/-- Glyphs in front of others are cut if both are. -/
theorem append (h : Cuts numeral glyphs (textOf numeral more ++ rest))
    (hmore : Cuts numeral more rest) : Cuts numeral (glyphs ++ more) rest := by
  intro later hlater
  obtain ⟨after, hafter, hglyphsAfter⟩ := hmore later hlater
  obtain ⟨before, hbefore, hglyphsBefore⟩ := h _ hafter
  refine ⟨before ++ after, ?_, by rw [List.map_append, hglyphsBefore, hglyphsAfter]⟩
  rw [textOf_append, List.append_assoc, hbefore, List.append_assoc]

/-- A glyph in front of others is cut if it and they are. -/
theorem cons {glyph : Glyph} (h : Cuts numeral [glyph] (textOf numeral more ++ rest))
    (hmore : Cuts numeral more rest) : Cuts numeral (glyph :: more) rest :=
  List.singleton_append ▸ append h hmore

/-- A glyph that is one munched lexeme. -/
theorem of_munch {glyph : Glyph} {c : Char} {chars : List Char} {kind : TokenKind}
    (htext : glyph.text numeral = c :: chars)
    (hmunch : munch? c (chars ++ rest) = some (kind, chars.length + 1))
    (hglyph : Lexeme.glyph ⟨kind, c :: chars⟩ = glyph) : Cuts numeral [glyph] rest := by
  intro later hlater
  refine ⟨[⟨kind, c :: chars⟩], ?_, by rw [List.map_singleton, hglyph]⟩
  rw [textOf_cons, textOf_nil, List.append_nil, htext, cut_append hmunch hlater]
  rfl

/-- A sign is cut off in front of anything; only a bare `=` must not be followed by another. -/
theorem sign {kind : TokenKind} (hsign : kind.isSign)
    (hequal : kind = .equal → rest.head? ≠ some '=') : Cuts numeral [.mark kind] rest := by
  obtain ⟨c, chars, htext, _⟩ := TokenKind.spelling_of_sign hsign
  refine of_munch htext ?_ (Lexeme.glyph_mark (by simp [htext]) _)
  cases kind with
  | keyword | function | identifier | number => cases hsign
  | equal =>
    obtain ⟨rfl, rfl⟩ := List.cons.inj htext
    exact if_neg (hequal rfl)
  | _ =>
    obtain ⟨rfl, rfl⟩ := List.cons.inj htext
    rfl

/-- A sign other than a single equals sign is cut whatever follows it. -/
theorem sign_of_ne {kind : TokenKind} (hsign : kind.isSign)
    (hequal : kind ≠ .equal := by decide) : Cuts numeral [.mark kind] rest :=
  sign hsign fun h => absurd h hequal

/-- The name of a function is cut off in front of anything. -/
theorem function (f : Builtin) : Cuts numeral [.mark (.function f)] rest := by
  have hword : ∀ c ∈ f.name.toList, isWordChar c :=
    List.all_eq_true.mp (by cases f <;> decide)
  have hclass : ∀ more after, classifyWord (f.name.toList ++ more) after =
      (.function f, f.name.toList.length) := by
    intro more after
    have hletters : (f.name.toList ++ more).any Char.isAlpha = true := by cases f <;> rfl
    have hkeyword : Keyword.ofWord? (f.name.toList ++ more) = none := by cases f <;> rfl
    have hstart : Builtin.ofWordStart? (f.name.toList ++ more) = some f := by cases f <;> rfl
    simp only [classifyWord, hletters, if_true, hkeyword, hstart, String.length_toList]
  obtain ⟨c, chars, htext⟩ : ∃ c chars, f.name.toList = c :: chars := by
    cases f <;> exact ⟨_, _, rfl⟩
  rw [htext] at hword hclass
  refine of_munch htext ?_ (Lexeme.glyph_mark (by cases f <;> decide) _)
  have htail : ∀ d ∈ chars, isWordChar d := fun d hd => hword d (List.mem_cons_of_mem _ hd)
  unfold munch?
  rw [if_pos (hword c List.mem_cons_self), List.takeWhile_append_of_pos htail]
  exact congrArg some (hclass _ _)

/-- A keyword in front of a loose text is cut. -/
theorem keyword (word : Keyword) (h : Loose rest) : Cuts numeral [.mark (.keyword word)] rest := by
  have hword : ∀ c ∈ word.text.toList, isWordChar c :=
    List.all_eq_true.mp (by cases word <;> decide)
  have hclass : classifyWord word.text.toList rest =
      (.keyword word, word.text.toList.length) := by
    have hletters : word.text.toList.any Char.isAlpha = true := by cases word <;> decide
    simp only [classifyWord, hletters, if_true, Keyword.ofWord?_eq_some.mpr rfl]
  obtain ⟨c, chars, htext⟩ : ∃ c chars, word.text.toList = c :: chars := by
    cases word <;> exact ⟨_, _, rfl⟩
  rw [htext] at hword hclass
  exact of_munch htext ((munch_word hword h.noWord).trans (congrArg some hclass))
    (Lexeme.glyph_mark (by cases word <;> decide) _)

/-- A name in front of a loose text is cut. -/
theorem name {text : String} (h : (Glyph.name text).Printable numeral) (hrest : Loose rest) :
    Cuts numeral [.name text] rest := by
  obtain ⟨c, chars, htext, hword, hclass⟩ := word_of_cut_name h
  rw [htext] at hword hclass
  refine of_munch htext ((munch_word hword hrest.noWord).trans (congrArg some (hclass rest))) ?_
  rw [← htext, Lexeme.glyph, String.ofList_toList]
  rfl

/-- A numeral in front of a loose text is cut. -/
theorem number {value : Single} (h : (Glyph.number value).Printable numeral)
    (hrest : Loose rest) : Cuts numeral [.number value] rest := by
  obtain ⟨c, chars, htext, hmunch⟩ := munch_numeral h.1 hrest
  refine of_munch htext hmunch ?_
  rw [← htext, Lexeme.glyph, glyphOf]
  simp only [String.toList_ofList, h.2]

end Cuts

end NumericScript
