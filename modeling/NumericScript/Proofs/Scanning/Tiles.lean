import NumericScript.Proofs.Scanning.Stray

/-!
# Tilings

A text is tiled in one way at most, and that is how it is cut. So a text that is a part of another
one is cut as the other one is, as long as it begins and ends between two lexemes.
-/

namespace NumericScript

section Lexemes

variable {kind kind' : TokenKind} {text rest : List Char}

/-- A name is classified as one, in its full length. -/
theorem IsName.classifyWord_eq (h : IsName text) (after : List Char) :
    classifyWord text after = (.identifier, text.length) := by
  unfold classifyWord
  split
  · have hkeyword : Keyword.ofWord? text = none := by
      cases hfound : Keyword.ofWord? text with
      | none => rfl
      | some k => exact absurd (Keyword.ofWord?_eq_some.mp hfound) (h.keyword k)
    have hfunction : Builtin.ofWordStart? text = none := by
      cases hfound : Builtin.ofWordStart? text with
      | none => rfl
      | some f => exact absurd (Builtin.prefix_of_wordStart hfound) (h.function f)
    rw [hkeyword, hfunction]
  · rename_i halpha
    obtain ⟨c, hc, hletter | rfl⟩ := h.letter
    · exact absurd (List.any_eq_true.mpr ⟨c, hc, hletter⟩) halpha
    · rw [if_pos (List.any_eq_true.mpr ⟨_, hc, by decide⟩)]

/-- A name on its own is cut into one lexeme. -/
theorem IsName.cut_eq (h : IsName text) : cut text = .ok [⟨.identifier, text⟩] := by
  obtain ⟨c, hc, _⟩ := h.letter
  obtain ⟨d, chars, rfl⟩ := List.exists_cons_of_ne_nil (List.ne_nil_of_mem hc)
  have hmunch : munch? d (chars ++ []) = some (classifyWord (d :: chars) []) :=
    munch_word h.word nofun
  rw [h.classifyWord_eq] at hmunch
  have hcut := cut_append hmunch cut_nil
  rwa [List.append_nil] at hcut

/-- Every lexeme on its own is cut into itself. -/
theorem TokenKind.Fits.cut_eq (h : kind.Fits text) : cut text = .ok [⟨kind, text⟩] := by
  cases kind with
  | identifier => exact IsName.cut_eq h
  | number =>
    obtain ⟨c, chars, rfl, hmunch⟩ := munch_numeral h loose_nil
    have hcut := cut_append hmunch cut_nil
    rwa [List.append_nil] at hcut
  | keyword k => exact h ▸ (by cases k <;> decide)
  | function f => exact h ▸ (by cases f <;> decide)
  | _ => exact h ▸ (by decide)

private theorem TokenKind.Fits.eq (h : kind.Fits text) (h' : kind'.Fits text) : kind = kind' := by
  have heq := Except.ok.inj (h.cut_eq.symm.trans h'.cut_eq)
  exact congrArg Lexeme.kind (List.cons.inj heq).1

end Lexemes

namespace Munched

variable {text part : List Char} {lexeme lexeme' : Lexeme}

private theorem length_le (h : Munched text lexeme) (h' : Munched text lexeme') :
    lexeme'.text.length ≤ lexeme.text.length :=
  Nat.le_of_not_lt fun hlt => h.longest lexeme'.kind lexeme'.text h'.starts hlt h'.fits

/-- At the beginning of a text there is one longest lexeme at most. -/
theorem eq (h : Munched text lexeme) (h' : Munched text lexeme') : lexeme = lexeme' := by
  obtain ⟨kind, chars⟩ := lexeme
  obtain ⟨kind', chars'⟩ := lexeme'
  obtain rfl : chars = chars' :=
    (List.prefix_of_prefix_length_le h.starts h'.starts (h'.length_le h)).eq_of_length_le
      (h.length_le h')
  exact congrArg (Lexeme.mk · chars) (h.fits.eq h'.fits)

/-- A longest lexeme is the longest one of a shorter text as well. -/
theorem of_prefix (h : Munched text lexeme) (hpart : part <+: text)
    (hstarts : lexeme.text <+: part) : Munched part lexeme where
  starts := hstarts
  fits := h.fits
  longest kind longer hlonger := h.longest kind longer (hlonger.trans hpart)
  function f hf := h.function f (hf.trans hpart)
  word longer hlonger := h.word longer (hlonger.trans hpart)

end Munched

namespace Tiles

variable {text : List Char} {lexemes before after : List Lexeme}

/-- A text is tiled in one way only. -/
theorem eq {lexemes' : List Lexeme} (h : Tiles text lexemes) (h' : Tiles text lexemes') :
    lexemes = lexemes' := by
  induction h generalizing lexemes' with
  | nil =>
    cases lexemes' with
    | nil => rfl
    | cons lexeme later =>
      have hnil := h'.text_eq
      rw [List.flatMap_cons] at hnil
      exact absurd (List.append_eq_nil_iff.mp hnil).1 (h'.ne_nil lexeme List.mem_cons_self)
  | @cons lexeme rest later hfirst hlater ih =>
    generalize htext : lexeme.text ++ rest = whole at h'
    cases h' with
    | nil => exact absurd (List.append_eq_nil_iff.mp htext).1 hfirst.ne_nil
    | @cons lexeme' rest' later' hfirst' hlater' =>
      rw [htext] at hfirst
      obtain rfl := hfirst.eq hfirst'
      obtain rfl := List.append_cancel_left htext
      rw [ih hlater']

private theorem not_strays (h : Tiles text lexemes) (stray : Stray) : ¬Strays text stray := by
  induction h generalizing stray with
  | nil => exact not_strays_nil stray
  | cons hfirst _ ih =>
    intro hstray
    obtain ⟨position, _, hrest⟩ := (strays_append hfirst.fits.closed).mp hstray
    exact ih _ hrest

/-- A text that is tiled is cut into the tiles. -/
theorem cut_eq (h : Tiles text lexemes) : cut text = .ok lexemes := by
  obtain ⟨found, hfound⟩ := lawful_iff_cut.mp (lawful_iff.mpr h.not_strays)
  rw [hfound, (tiles_of_cut hfound).eq h]

/-- Between two tiles a text falls into two parts that are tiled. -/
theorem split (h : Tiles text (before ++ after)) :
    Tiles (before.flatMap Lexeme.text) before ∧ Tiles (after.flatMap Lexeme.text) after := by
  induction before generalizing text with
  | nil =>
    rw [List.nil_append] at h
    exact ⟨.nil, h.text_eq ▸ h⟩
  | cons lexeme before ih =>
    cases h with
    | cons hfirst hlater =>
      obtain ⟨hbefore, hafter⟩ := ih hlater
      have htext := hlater.text_eq
      rw [List.append_eq, List.flatMap_append] at htext
      refine ⟨.cons (hfirst.of_prefix ?_ (List.prefix_append ..)) hbefore, hafter⟩
      exact (List.prefix_append_right_inj _).mpr ⟨_, htext⟩

end Tiles

/-- Between two lexemes a text is cut into what its two parts are cut into. -/
theorem cut_split {text : List Char} {before after : List Lexeme}
    (h : cut text = .ok (before ++ after)) :
    cut (before.flatMap Lexeme.text) = .ok before ∧
      cut (after.flatMap Lexeme.text) = .ok after :=
  let ⟨hbefore, hafter⟩ := (tiles_of_cut h).split
  ⟨hbefore.cut_eq, hafter.cut_eq⟩

/-- Once the first lexeme is known, the rest of a text is cut on its own. -/
theorem cut_cons_of_munch {c : Char} {rest : List Char} {kind : TokenKind} {length : Nat}
    (h : munch? c rest = some (kind, length)) {lexemes : List Lexeme} :
    cut (c :: rest) = .ok lexemes ↔ ∃ later, cut (rest.drop (length - 1)) = .ok later ∧
      lexemes = ⟨kind, (c :: rest).take length⟩ :: later := by
  rw [cut_cons_eq_ok]
  constructor
  · rintro ⟨_, _, later, hfound, hlater, hlexemes⟩
    obtain ⟨rfl, rfl⟩ := Prod.mk.inj (Option.some.inj (h.symm.trans hfound))
    exact ⟨later, hlater, hlexemes⟩
  · rintro ⟨later, hlater, hlexemes⟩
    exact ⟨kind, length, later, h, hlater, hlexemes⟩

section Closing

/-- Whether a character closes what is in parentheses or in brackets. -/
def IsClosing (c : Char) : Prop := c = ')' ∨ c = ']'

variable {c : Char} {text rest : List Char}

private theorem IsClosing.not_mem (hc : IsClosing c) (h : ∀ d ∈ text, isWordChar d) : c ∉ text := by
  intro hm
  have hword := h c hm
  rcases hc with rfl | rfl <;> exact absurd hword (by decide)

/-- In a lexeme with such a character there is nothing else. -/
theorem TokenKind.Fits.eq_of_closing {kind : TokenKind} (h : kind.Fits text) (hc : IsClosing c)
    (hm : c ∈ text) : text = [c] := by
  cases kind with
  | identifier => exact absurd hm (hc.not_mem h.word)
  | number => exact absurd (h.char c hm) (by rcases hc with rfl | rfl <;> decide)
  | keyword k =>
    obtain rfl : text = k.text.toList := h
    exact absurd hm (hc.not_mem k.isWordChar_text)
  | function f =>
    obtain rfl : text = f.name.toList := h
    exact absurd hm (hc.not_mem f.isWordChar_name)
  | _ =>
    obtain rfl := h
    rcases hc with rfl | rfl <;> revert hm <;> decide

private theorem prefix_or_mem {longer : List Char} (h : longer <+: text ++ c :: rest) :
    longer <+: text ∨ c ∈ longer := by
  have hconcat : text ++ [c] <+: text ++ c :: rest :=
    (List.prefix_append_right_inj text).mpr ⟨rest, rfl⟩
  rcases List.prefix_or_prefix_of_prefix h hconcat with h | h
  · rcases List.prefix_concat_iff.mp h with rfl | h
    · exact .inr (by simp)
    · exact .inl h
  · exact .inr (h.subset (by simp))

/-- A closing character after a text does not go on with its lexemes. -/
theorem Munched.before_closing {lexeme : Lexeme} (h : Munched text lexeme) (hc : IsClosing c)
    (rest : List Char) : Munched (text ++ c :: rest) lexeme := by
  constructor
  · exact h.starts.trans (List.prefix_append ..)
  · exact h.fits
  · intro kind longer hlonger hlt hfits
    rcases prefix_or_mem hlonger with hlonger | hm
    · exact h.longest kind longer hlonger hlt hfits
    · rw [hfits.eq_of_closing hc hm, List.length_singleton, Nat.lt_one_iff] at hlt
      exact h.ne_nil (List.length_eq_zero_iff.mp hlt)
  · intro f hf
    rcases prefix_or_mem hf with hf | hm
    · exact h.function f hf
    · exact absurd hm (hc.not_mem f.isWordChar_name)
  · intro longer hlonger hlt hword
    rcases prefix_or_mem hlonger with hlonger | hm
    · exact h.word longer hlonger hlt hword
    · exact absurd hm (hc.not_mem hword)

private theorem Tiles.append_closing {lexemes later : List Lexeme} (h : Tiles text lexemes)
    (hc : IsClosing c) (hlater : Tiles (c :: rest) later) :
    Tiles (text ++ c :: rest) (lexemes ++ later) := by
  induction h with
  | nil => exact hlater
  | cons hfirst _ ih =>
    have hfirst := hfirst.before_closing hc rest
    rw [List.append_assoc] at hfirst ⊢
    exact .cons hfirst ih

/-- In front of a closing character a text is cut as it is cut on its own. -/
theorem cut_append_closing {lexemes later : List Lexeme} (h : cut text = .ok lexemes)
    (hc : IsClosing c) (hlater : cut (c :: rest) = .ok later) :
    cut (text ++ c :: rest) = .ok (lexemes ++ later) :=
  ((tiles_of_cut h).append_closing hc (tiles_of_cut hlater)).cut_eq

end Closing

/-- The closing parenthesis as a lexeme. -/
def closingParen : Lexeme := ⟨.rightParen, [')']⟩

/-- A closing parenthesis at the end of a text is cut off, and the rest is cut as before. -/
theorem cut_concat_iff {text : List Char} {lexemes : List Lexeme} :
    cut (text ++ [')']) = .ok lexemes ↔
      ∃ before, cut text = .ok before ∧ lexemes = before ++ [closingParen] := by
  constructor
  · intro h
    have htiles := tiles_of_cut h
    rcases List.eq_nil_or_concat lexemes with rfl | ⟨before, last, rfl⟩
    · exact absurd htiles.text_eq (by simp)
    rw [List.concat_eq_append] at htiles ⊢
    have htext := htiles.text_eq
    obtain ⟨init, c, hlast⟩ := (List.eq_nil_or_concat last.text).resolve_left
      (htiles.ne_nil last (by simp))
    rw [List.concat_eq_append] at hlast
    simp only [List.flatMap_append, List.flatMap_cons, List.flatMap_nil, List.append_nil, hlast,
      ← List.append_assoc] at htext
    obtain ⟨hinit, hc⟩ := List.append_inj' htext rfl
    obtain rfl : c = ')' := List.cons.inj hc |>.1
    have hfits := htiles.fits last (by simp)
    have hparen := hfits.eq_of_closing (.inl rfl) (hlast ▸ by simp)
    obtain rfl : init = [] := List.append_left_eq_self.mp (hlast.symm.trans hparen)
    rw [List.append_nil] at hinit
    refine ⟨before, hinit ▸ htiles.split.1.cut_eq, ?_⟩
    obtain ⟨kind, chars⟩ := last
    obtain rfl : chars = [')'] := hparen
    have hparen : TokenKind.rightParen.Fits [')'] := rfl
    obtain rfl : kind = .rightParen := hfits.eq hparen
    rfl
  · rintro ⟨before, hbefore, rfl⟩
    exact cut_append_closing hbefore (.inl rfl) rfl

end NumericScript
