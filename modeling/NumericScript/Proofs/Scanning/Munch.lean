import NumericScript.Proofs.Print.Cut

/-!
# Longest lexemes

What a lexeme of each kind may be, and that cutting always takes the longest one. A word that begins
with a function's name is no name, so the function's name is the longest lexeme there, however the
word goes on. The lexemes that a text is cut into tile it.
-/

namespace NumericScript

/--
A name: letters, digits and underscores with a letter or an underscore among them, no keyword, and
not beginning with the name of a function.
-/
structure IsName (text : List Char) : Prop where
  word : ∀ c ∈ text, isWordChar c
  letter : ∃ c ∈ text, c.isAlpha ∨ c = '_'
  keyword : ∀ k : Keyword, text ≠ k.text.toList
  function : ∀ f : Builtin, ¬f.name.toList <+: text

/-- Whether a text is a lexeme of a kind. -/
def TokenKind.Fits (kind : TokenKind) (text : List Char) : Prop :=
  match kind with
  | identifier => IsName text
  | number => IsNumeral text
  | kind => text = kind.spelling

/--
A lexeme that a text begins with: it is of its kind, and nothing longer at the text's beginning is a
lexeme of any kind. At the name of a function it is that name, and only there it may be a part of a
word that goes on.
-/
structure Munched (text : List Char) (lexeme : Lexeme) : Prop where
  starts : lexeme.text <+: text
  fits : lexeme.kind.Fits lexeme.text
  longest : ∀ (kind : TokenKind) (longer : List Char), longer <+: text →
    lexeme.text.length < longer.length → ¬kind.Fits longer
  function : ∀ f : Builtin, f.name.toList <+: text → lexeme = ⟨.function f, f.name.toList⟩
  word : ∀ longer : List Char, longer <+: text → lexeme.text.length < longer.length →
    (∀ c ∈ longer, isWordChar c) → ∃ f, lexeme.kind = .function f

/-- Lexemes that tile a text, each of them the longest at its place. -/
inductive Tiles : List Char → List Lexeme → Prop
  | nil : Tiles [] []
  | cons {lexeme : Lexeme} {rest : List Char} {later : List Lexeme}
    (hfirst : Munched (lexeme.text ++ rest) lexeme) (hlater : Tiles rest later) :
    Tiles (lexeme.text ++ rest) (lexeme :: later)

section Spelling

/-- A function's name consists of a word's characters. -/
theorem Builtin.isWordChar_name (f : Builtin) : ∀ c ∈ f.name.toList, isWordChar c :=
  List.all_eq_true.mp (by cases f <;> decide)

private theorem Builtin.isAlpha_name (f : Builtin) : ∀ c ∈ f.name.toList, c.isAlpha :=
  List.all_eq_true.mp (by cases f <;> decide)

/-- A keyword consists of a word's characters. -/
theorem Keyword.isWordChar_text (k : Keyword) : ∀ c ∈ k.text.toList, isWordChar c :=
  List.all_eq_true.mp (by cases k <;> decide)

private theorem Keyword.isAlpha_text (k : Keyword) : ∀ c ∈ k.text.toList, c.isAlpha :=
  List.all_eq_true.mp (by cases k <;> decide)

theorem Builtin.name_ne_nil (f : Builtin) : f.name.toList ≠ [] := by cases f <;> decide

/-- No function's name begins with another one's. -/
theorem Builtin.eq_of_name_isPrefixOf {f g : Builtin}
    (h : f.name.toList.isPrefixOf g.name.toList) : f = g := by
  revert h
  cases f <;> cases g <;> decide

/-- Of two function's names at the beginning of a text only one is there. -/
theorem Builtin.eq_of_starts {f g : Builtin} {text : List Char} (hf : f.name.toList <+: text)
    (hg : g.name.toList <+: text) : f = g := by
  rcases Nat.le_total f.name.toList.length g.name.toList.length with hle | hle
  · have hfg := List.prefix_of_prefix_length_le hf hg hle
    exact eq_of_name_isPrefixOf (List.isPrefixOf_iff_prefix.mpr hfg)
  · have hgf := List.prefix_of_prefix_length_le hg hf hle
    exact (eq_of_name_isPrefixOf (List.isPrefixOf_iff_prefix.mpr hgf)).symm

/-- No keyword begins with a function's name. -/
theorem Builtin.not_starts_keyword (f : Builtin) (k : Keyword) :
    ¬f.name.toList <+: k.text.toList := by
  rw [← List.isPrefixOf_iff_prefix]
  cases f <;> cases k <;> decide

/-- The signs that another sign goes on after. -/
theorem TokenKind.eq_of_spelling_isPrefixOf {kind kind' : TokenKind} (hsign : kind.isSign)
    (hsign' : kind'.isSign) (h : kind.spelling.isPrefixOf kind'.spelling)
    (hlt : kind.spelling.length < kind'.spelling.length) :
    kind = .equal ∧ kind' = .equalEqual := by
  revert hsign hsign' h hlt
  cases kind with
  | keyword | function | identifier | number => exact nofun
  | _ =>
    cases kind' with
    | keyword | function | identifier | number => exact fun _ => nofun
    | _ => decide

end Spelling

/-- A numeral has digits and points only. -/
theorem IsNumeral.char {text : List Char} (h : IsNumeral text) :
    ∀ c ∈ text, c.isDigit ∨ c = '.' := by
  obtain ⟨whole, fraction, hwhole, hfraction, ⟨_, rfl⟩ | ⟨_, rfl⟩⟩ := h
  · exact fun c hc => .inl (hwhole c hc)
  · intro c hc
    rcases List.mem_append.mp hc with hc | hc
    · exact .inl (hwhole c hc)
    · rcases List.mem_cons.mp hc with rfl | hc
      · exact .inr rfl
      · exact .inl (hfraction c hc)

private theorem IsNumeral.not_isAlpha {text : List Char} (h : IsNumeral text) {c : Char}
    (hc : c ∈ text) : c.isAlpha = false := by
  rcases h.char c hc with hdigit | rfl
  · exact isAlpha_of_isDigit hdigit
  · decide

namespace TokenKind

variable {kind : TokenKind} {text : List Char}

/-- The kinds that fit their spelling only. -/
theorem fits_iff (hname : kind ≠ .identifier) (hnumber : kind ≠ .number) :
    kind.Fits text ↔ text = kind.spelling := by
  cases kind with
  | identifier => exact absurd rfl hname
  | number => exact absurd rfl hnumber
  | _ => exact Iff.rfl

/-- A lexeme that begins with neither a word nor a point is a sign. -/
theorem Fits.sign {c : Char} (h : kind.Fits (c :: text)) (hword : isWordChar c = false)
    (hpoint : c ≠ '.') : kind.isSign ∧ kind.spelling = c :: text := by
  have hnot : ∀ word : List Char, (∀ d ∈ word, isWordChar d) → c :: text ≠ word := by
    rintro _ hall rfl
    rw [hall c List.mem_cons_self] at hword
    cases hword
  cases kind with
  | identifier => exact absurd rfl (hnot _ h.word)
  | number =>
    rcases h.char c List.mem_cons_self with hdigit | heq
    · rw [isWordChar_of_isDigit hdigit] at hword
      cases hword
    · exact absurd heq hpoint
  | keyword k => exact absurd h (hnot _ k.isWordChar_text)
  | function f => exact absurd h (hnot _ f.isWordChar_name)
  | _ => exact ⟨rfl, h.symm⟩

/-- A lexeme that begins with a word's character or a point is no sign. -/
theorem Fits.not_isSign {c : Char} (h : kind.Fits (c :: text))
    (hword : isWordChar c = true ∨ c = '.') : kind.isSign = false := by
  cases hsign : kind.isSign with
  | false => rfl
  | true =>
    obtain ⟨d, chars, hspelling, hd, hpoint⟩ := spelling_of_sign hsign
    have hname : kind ≠ .identifier := by rintro rfl; cases hsign
    have hnumber : kind ≠ .number := by rintro rfl; cases hsign
    have heq := (fits_iff hname hnumber).mp h
    rw [hspelling] at heq
    obtain ⟨rfl, _⟩ := List.cons.inj heq
    rcases hword with hword | rfl
    · rw [hword] at hd
      cases hd
    · exact absurd rfl hpoint

end TokenKind

private theorem not_isDigit_of_isAlpha {c : Char} (h : c.isAlpha) : c.isDigit = false := by
  cases hdigit : c.isDigit with
  | false => rfl
  | true =>
    rw [isAlpha_of_isDigit hdigit] at h
    cases h

private theorem not_isDigit_of_break {c : Char} (h : isWordChar c = false) : c.isDigit = false := by
  cases hdigit : c.isDigit with
  | false => rfl
  | true =>
    rw [isWordChar_of_isDigit hdigit] at h
    cases h

section Word

variable {word after : List Char}

/-- A text with a break in it is no word. -/
theorem not_word_of_break {d : Char} {more : List Char} (hd : isWordChar d = false) :
    ¬∀ c ∈ word ++ d :: more, isWordChar c := by
  intro hall
  rw [hall d (List.mem_append_right _ List.mem_cons_self)] at hd
  cases hd

/-- What is longer than the word at a text's beginning goes on with what is in no word. -/
theorem exists_break_of_longer (hafter : ∀ c ∈ after.head?, isWordChar c = false)
    {longer : List Char} (hlonger : longer <+: word ++ after)
    (hlt : word.length < longer.length) :
    ∃ d more, longer = word ++ d :: more ∧ isWordChar d = false ∧ d :: more <+: after := by
  obtain ⟨tail, rfl⟩ :=
    List.prefix_of_prefix_length_le (List.prefix_append word after) hlonger (Nat.le_of_lt hlt)
  cases tail with
  | nil => simp at hlt
  | cons d more =>
    have hrest : d :: more <+: after := (List.prefix_append_right_inj _).mp hlonger
    obtain ⟨last, rfl⟩ := hrest
    exact ⟨d, more, rfl, hafter d rfl, List.prefix_append _ _⟩

/-- Characters of words at a text's beginning belong to the word there. -/
theorem starts_word (hafter : ∀ c ∈ after.head?, isWordChar c = false) {part : List Char}
    (hpart : ∀ c ∈ part, isWordChar c) (h : part <+: word ++ after) : part <+: word := by
  by_cases hle : part.length ≤ word.length
  · exact List.prefix_of_prefix_length_le h (List.prefix_append _ _) hle
  · obtain ⟨d, more, rfl, hd, _⟩ := exists_break_of_longer hafter h (Nat.lt_of_not_le hle)
    exact absurd hpart (not_word_of_break hd)

/-- A whole word with something in it that is no digit is the longest lexeme at its place. -/
theorem munched_whole (hword : ∀ c ∈ word, isWordChar c)
    (hafter : ∀ c ∈ after.head?, isWordChar c = false) {kind : TokenKind}
    (hfits : kind.Fits word) (hother : ∃ c ∈ word, c.isDigit = false)
    (hfunction : ∀ f : Builtin, ¬f.name.toList <+: word) :
    Munched (word ++ after) ⟨kind, word⟩ := by
  obtain ⟨c, hc, hdigit⟩ := hother
  have hbreak : ∀ {longer : List Char}, longer <+: word ++ after → word.length < longer.length →
      word ⊆ longer ∧ ¬∀ c ∈ longer, isWordChar c := by
    intro longer hlonger hlt
    obtain ⟨d, more, rfl, hd, _⟩ := exists_break_of_longer hafter hlonger hlt
    exact ⟨List.subset_append_left _ _, not_word_of_break hd⟩
  refine ⟨List.prefix_append _ _, hfits, ?_, ?_, ?_⟩
  · intro kind' longer hlonger hlt hfits'
    obtain ⟨hsub, hnot⟩ := hbreak hlonger hlt
    obtain ⟨first, more, rfl⟩ := List.exists_cons_of_ne_nil (List.ne_nil_of_mem (hsub hc))
    obtain ⟨first', more', rfl⟩ := List.exists_cons_of_ne_nil (List.ne_nil_of_mem hc)
    have hfirst : first' = first := by
      obtain ⟨tail, htail⟩ := hlonger
      exact (List.cons.inj htail).1.symm
    have hsign := hfits'.not_isSign (.inl (hfirst ▸ hword first' List.mem_cons_self))
    cases kind' with
    | identifier => exact hnot hfits'.word
    | number =>
      rcases hfits'.char c (hsub hc) with hdigit' | rfl
      · rw [hdigit] at hdigit'
        cases hdigit'
      · cases hword _ hc
    | keyword k => exact hnot (hfits' ▸ k.isWordChar_text)
    | function f => exact hnot (hfits' ▸ f.isWordChar_name)
    | _ => cases hsign
  · intro f hf
    exact absurd (starts_word hafter f.isWordChar_name hf) (hfunction f)
  · intro longer hlonger hlt hall
    exact absurd hall (hbreak hlonger hlt).2

/-- The name of a function is the longest lexeme of a word that begins with it. -/
theorem munched_function {f : Builtin} (h : f.name.toList <+: word) :
    Munched (word ++ after) ⟨.function f, f.name.toList⟩ := by
  have hstarts : f.name.toList <+: word ++ after := h.trans (List.prefix_append _ _)
  refine ⟨hstarts, rfl, ?_, ?_, fun _ _ _ _ => ⟨f, rfl⟩⟩
  · intro kind longer hlonger hlt hfits
    have hname : f.name.toList <+: longer :=
      List.prefix_of_prefix_length_le hstarts hlonger (Nat.le_of_lt hlt)
    obtain ⟨c, chars, hc⟩ := List.exists_cons_of_ne_nil f.name_ne_nil
    obtain ⟨more, hmore⟩ := hname
    have hmem : c ∈ f.name.toList := hc ▸ List.mem_cons_self
    have hsign : kind.isSign = false := by
      rw [← hmore, hc] at hfits
      exact hfits.not_isSign (.inl (f.isWordChar_name c hmem))
    cases kind with
    | identifier => exact hfits.function f ⟨more, hmore⟩
    | number =>
      have halpha := hfits.not_isAlpha (hmore ▸ List.mem_append_left _ hmem)
      rw [f.isAlpha_name c hmem] at halpha
      cases halpha
    | keyword k => exact f.not_starts_keyword k ⟨more, hmore.trans hfits⟩
    | function g =>
      obtain rfl := Builtin.eq_of_starts hstarts (hfits ▸ hlonger)
      exact Nat.lt_irrefl _ (hfits ▸ hlt)
    | _ => cases hsign
  · intro g hg
    rw [Builtin.eq_of_starts hstarts hg]

end Word

/-- A fraction is a point with digits after it. -/
theorem take_fractionLength (text : List Char) :
    fractionLength text = 0 ∨ ∃ fraction, fraction ≠ [] ∧ (∀ c ∈ fraction, c.isDigit) ∧
      fractionLength text = fraction.length + 1 ∧ '.' :: fraction <+: text := by
  cases text with
  | nil => exact .inl rfl
  | cons c rest =>
    by_cases hpoint : c = '.'
    · subst hpoint
      cases hdigits : rest.takeWhile Char.isDigit with
      | nil => exact .inl (by simp [fractionLength, hdigits])
      | cons d digits =>
        refine .inr ⟨d :: digits, List.cons_ne_nil _ _, ?_, by simp [fractionLength, hdigits], ?_⟩
        · rw [← hdigits]
          exact List.all_eq_true.mp List.all_takeWhile
        · rw [← hdigits]
          exact List.cons_prefix_cons.mpr ⟨rfl, List.takeWhile_prefix _⟩
    · exact .inl (by simp [fractionLength, hpoint])

/-- No point with digits after it is longer than the fraction. -/
theorem le_fractionLength {fraction text : List Char} (hne : fraction ≠ [])
    (hdigits : ∀ c ∈ fraction, c.isDigit) (h : '.' :: fraction <+: text) :
    fraction.length + 1 ≤ fractionLength text := by
  obtain ⟨rest, rfl⟩ := h
  have hle : fraction.length ≤ ((fraction ++ rest).takeWhile Char.isDigit).length := by
    rw [List.takeWhile_append_of_pos hdigits, List.length_append]
    omega
  have hpos := List.length_pos_iff.mpr hne
  rw [List.cons_append, fractionLength, if_pos rfl]
  split <;> omega

/-- A numeral that goes on after some digits goes on with a point and digits. -/
theorem IsNumeral.fraction {digits more : List Char} {c : Char}
    (h : IsNumeral (digits ++ c :: more)) (hdigits : ∀ d ∈ digits, d.isDigit)
    (hc : c.isDigit = false) : c = '.' ∧ more ≠ [] ∧ ∀ d ∈ more, d.isDigit := by
  obtain ⟨whole, fraction, hwhole, hfraction, ⟨_, heq⟩ | ⟨hne, heq⟩⟩ := h
  · have hmem : c ∈ whole := heq ▸ List.mem_append_right _ List.mem_cons_self
    rw [hwhole c hmem] at hc
    cases hc
  · have hsame : digits = whole := by
      have htake := congrArg (List.takeWhile Char.isDigit) heq
      rw [List.takeWhile_append_of_pos hdigits, List.takeWhile_append_of_pos hwhole,
        List.takeWhile_cons_of_neg (by simp [hc]),
        List.takeWhile_cons_of_neg (by decide)] at htake
      simpa using htake
    subst hsame
    obtain ⟨rfl, rfl⟩ := List.cons.inj (List.append_cancel_left heq)
    exact ⟨rfl, hne, hfraction⟩

/-- Digits with a fraction after them, if there is one, are a numeral. -/
theorem isNumeral_fraction {digits after : List Char}
    (hne : digits ≠ [] ∨ fractionLength after ≠ 0) (hdigits : ∀ c ∈ digits, c.isDigit) :
    IsNumeral (digits ++ after.take (fractionLength after)) := by
  rcases take_fractionLength after with hzero | ⟨fraction, hfraction, hall, hlength, hstarts⟩
  · rw [hzero, List.take_zero, List.append_nil]
    exact ⟨digits, [], hdigits, nofun, .inl ⟨hne.resolve_right (absurd hzero), rfl⟩⟩
  · obtain ⟨rest, rfl⟩ := hstarts
    rw [hlength, ← List.length_cons, List.take_left]
    exact ⟨digits, fraction, hdigits, hall, .inr ⟨hfraction, rfl⟩⟩

/-- No numeral is longer than digits with the fraction after them. -/
theorem not_isNumeral_of_longer {digits after more : List Char} {d : Char}
    (hdigits : ∀ c ∈ digits, c.isDigit) (hd : isWordChar d = false) (hstarts : d :: more <+: after)
    (hlt : fractionLength after < more.length + 1) : ¬IsNumeral (digits ++ d :: more) := by
  intro h
  obtain ⟨rfl, hmore, hall⟩ := h.fraction hdigits (not_isDigit_of_break hd)
  have hle := le_fractionLength hmore hall hstarts
  omega

/-- What is longer than digits, or than a fraction without any, begins like no sign. -/
theorem Fits.not_isSign_of_digits {digits after more : List Char} {d : Char} {kind : TokenKind}
    (h : kind.Fits (digits ++ d :: more)) (hne : digits ≠ [] ∨ fractionLength after ≠ 0)
    (hdigits : ∀ c ∈ digits, c.isDigit) (hstarts : d :: more <+: after) :
    kind.isSign = false := by
  cases digits with
  | nil =>
    rcases take_fractionLength after with hzero | ⟨fraction, _, _, _, hpoint⟩
    · exact absurd hzero (hne.resolve_left (absurd rfl))
    · obtain ⟨rest, rfl⟩ := hpoint
      obtain ⟨last, hlast⟩ := hstarts
      exact h.not_isSign (.inr (List.cons.inj hlast).1)
  | cons first others =>
    exact h.not_isSign (.inl (isWordChar_of_isDigit (hdigits first List.mem_cons_self)))

private theorem not_starts_digits {digits : List Char} (hdigits : ∀ c ∈ digits, c.isDigit)
    (f : Builtin) : ¬f.name.toList <+: digits := by
  intro hf
  obtain ⟨c, chars, hc⟩ := List.exists_cons_of_ne_nil f.name_ne_nil
  have hmem : c ∈ f.name.toList := hc ▸ List.mem_cons_self
  have halpha := f.isAlpha_name c hmem
  rw [isAlpha_of_isDigit (hdigits c (hf.subset hmem))] at halpha
  cases halpha

/-- Digits, if any, are a longest lexeme together with a fraction right after them. -/
theorem munched_number {digits after : List Char} (hne : digits ≠ [] ∨ fractionLength after ≠ 0)
    (hdigits : ∀ c ∈ digits, c.isDigit) (hafter : ∀ c ∈ after.head?, isWordChar c = false) :
    Munched (digits ++ after)
      ⟨.number, (digits ++ after).take (digits.length + fractionLength after)⟩ := by
  rw [List.take_length_add_append]
  have hbeyond : ∀ {longer : List Char}, longer <+: digits ++ after →
      (digits ++ after.take (fractionLength after)).length < longer.length →
      ∃ d more, longer = digits ++ d :: more ∧ isWordChar d = false ∧ d :: more <+: after ∧
        fractionLength after < more.length + 1 := by
    intro longer hlonger hlt
    have hless : digits.length < longer.length := by
      rw [List.length_append] at hlt
      omega
    obtain ⟨d, more, rfl, hd, hstarts⟩ := exists_break_of_longer hafter hlonger hless
    have hlength := hstarts.length_le
    simp only [List.length_append, List.length_take, List.length_cons] at hlt hlength
    exact ⟨d, more, rfl, hd, hstarts, by omega⟩
  have htake : after.take (fractionLength after) <+: after := List.take_prefix _ _
  refine ⟨(List.prefix_append_right_inj _).mpr htake, isNumeral_fraction hne hdigits, ?_, ?_, ?_⟩
  · intro kind longer hlonger hlt hfits
    obtain ⟨d, more, rfl, hd, hstarts, hlength⟩ := hbeyond hlonger hlt
    have hnot : ¬∀ c ∈ digits ++ d :: more, isWordChar c := not_word_of_break hd
    have hsign := Fits.not_isSign_of_digits hfits hne hdigits hstarts
    cases kind with
    | identifier => exact hnot hfits.word
    | number => exact not_isNumeral_of_longer hdigits hd hstarts hlength hfits
    | keyword k => exact hnot (hfits ▸ k.isWordChar_text)
    | function f => exact hnot (hfits ▸ f.isWordChar_name)
    | _ => cases hsign
  · intro f hf
    exact absurd (starts_word hafter f.isWordChar_name hf) (not_starts_digits hdigits f)
  · intro longer hlonger hlt hall
    obtain ⟨d, more, rfl, hd, _⟩ := hbeyond hlonger hlt
    exact absurd hall (not_word_of_break hd)

section Classified

variable {word after : List Char} (hword : ∀ c ∈ word, isWordChar c)
  (hafter : ∀ c ∈ after.head?, isWordChar c = false)

/-- Letters that a word begins with are letters in it. -/
theorem any_isAlpha_of_starts {text : List Char} (htext : text ≠ [])
    (halpha : ∀ c ∈ text, c.isAlpha) (h : text <+: word) : word.any Char.isAlpha = true := by
  obtain ⟨c, chars, rfl⟩ := List.exists_cons_of_ne_nil htext
  exact List.any_eq_true.mpr ⟨c, h.subset List.mem_cons_self, halpha c List.mem_cons_self⟩

include hword hafter

/-- A word with a letter is a keyword, begins with the name of a function, or is a name. -/
theorem munched_lettered (halpha : word.any Char.isAlpha) {kind : TokenKind} {length : Nat}
    (h : classifyWord word after = (kind, length)) :
    Munched (word ++ after) ⟨kind, (word ++ after).take length⟩ := by
  obtain ⟨letter, hmem, hletter⟩ := List.any_eq_true.mp halpha
  have hother : ∃ c ∈ word, c.isDigit = false := ⟨letter, hmem, not_isDigit_of_isAlpha hletter⟩
  rw [classifyWord, if_pos halpha] at h
  split at h
  · rename_i k hk
    obtain ⟨rfl, rfl⟩ := Prod.mk.inj h
    have heq := Keyword.ofWord?_eq_some.mp hk
    rw [List.take_left]
    exact munched_whole hword hafter heq hother fun f hf => f.not_starts_keyword k (heq ▸ hf)
  · rename_i hkeyword
    split at h
    · rename_i f hf
      obtain ⟨rfl, rfl⟩ := Prod.mk.inj h
      have hstarts := Builtin.prefix_of_wordStart hf
      obtain ⟨more, hmore⟩ := hstarts.trans (List.prefix_append word after)
      rw [← hmore, ← String.length_toList, List.take_left, hmore]
      exact munched_function hstarts
    · rename_i hfunction
      obtain ⟨rfl, rfl⟩ := Prod.mk.inj h
      have hnone : ∀ f : Builtin, ¬f.name.toList <+: word := by
        intro f hf
        have hfind := List.find?_eq_none.mp hfunction f (by cases f <;> decide)
        exact hfind (List.isPrefixOf_iff_prefix.mpr hf)
      have hname : IsName word := by
        refine ⟨hword, ⟨letter, hmem, .inl hletter⟩, fun k hk => ?_, hnone⟩
        rw [Keyword.ofWord?_eq_some.mpr hk] at hkeyword
        cases hkeyword
      rw [List.take_left]
      exact munched_whole hword hafter hname hother hnone

/-- A word without letters is a name if there is an underscore in it, and digits otherwise. -/
theorem munched_letterless (hne : word ≠ []) (halpha : ¬word.any Char.isAlpha) {kind : TokenKind}
    {length : Nat} (h : classifyWord word after = (kind, length)) :
    Munched (word ++ after) ⟨kind, (word ++ after).take length⟩ := by
  have hnone : ∀ f : Builtin, ¬f.name.toList <+: word := fun f hf =>
    halpha (any_isAlpha_of_starts f.name_ne_nil f.isAlpha_name hf)
  rw [classifyWord, if_neg halpha] at h
  split at h
  · rename_i hunderscore
    obtain ⟨rfl, rfl⟩ := Prod.mk.inj h
    obtain ⟨underscore, hmem, heq⟩ := List.any_eq_true.mp hunderscore
    obtain rfl := of_decide_eq_true heq
    have hname : IsName word := by
      refine ⟨hword, ⟨'_', hmem, .inr rfl⟩, fun k hk => ?_, hnone⟩
      have htext : k.text.toList ≠ [] := by cases k <;> decide
      exact halpha (any_isAlpha_of_starts htext k.isAlpha_text (hk ▸ List.prefix_rfl))
    rw [List.take_left]
    exact munched_whole hword hafter hname ⟨'_', hmem, by decide⟩ hnone
  · rename_i hunderscore
    obtain ⟨rfl, rfl⟩ := Prod.mk.inj h
    refine munched_number (.inl hne) (fun c hc => ?_) hafter
    have hchar := hword c hc
    have hnotAlpha : c.isAlpha = false := by
      cases hc' : c.isAlpha with
      | false => rfl
      | true => exact absurd (List.any_eq_true.mpr ⟨c, hc, hc'⟩) halpha
    have hnotUnderscore : c ≠ '_' := by
      rintro rfl
      exact hunderscore (List.any_eq_true.mpr ⟨'_', hc, by decide⟩)
    simpa [isWordChar, Char.isAlphanum, hnotAlpha, hnotUnderscore] using hchar

/-- What a word is classified as is the longest lexeme at its place. -/
theorem munched_classifyWord (hne : word ≠ []) {kind : TokenKind} {length : Nat}
    (h : classifyWord word after = (kind, length)) :
    Munched (word ++ after) ⟨kind, (word ++ after).take length⟩ := by
  by_cases halpha : word.any Char.isAlpha
  · exact munched_lettered hword hafter halpha h
  · exact munched_letterless hword hafter hne halpha h

end Classified

/-- A sign is the longest lexeme at its place, if a bare `=` is not followed by another. -/
theorem munched_sign {kind : TokenKind} (hsign : kind.isSign) {text : List Char}
    (hstarts : kind.spelling <+: text) (hequal : kind = .equal → ¬['=', '='] <+: text) :
    Munched text ⟨kind, kind.spelling⟩ := by
  obtain ⟨c, chars, hspelling, hword, hpoint⟩ := TokenKind.spelling_of_sign hsign
  obtain ⟨rest, rfl⟩ : ∃ rest, text = c :: rest := by
    obtain ⟨more, rfl⟩ := hstarts
    exact ⟨chars ++ more, by rw [hspelling, List.cons_append]⟩
  have hnot : ∀ {longer : List Char}, longer ≠ [] → longer <+: c :: rest →
      ¬∀ d ∈ longer, isWordChar d := by
    intro longer hne hlonger hall
    obtain ⟨d, more, rfl⟩ := List.exists_cons_of_ne_nil hne
    obtain ⟨rfl, _⟩ := List.cons_prefix_cons.mp hlonger
    rw [hall d List.mem_cons_self] at hword
    cases hword
  have hpositive : ∀ {longer : List Char}, kind.spelling.length < longer.length → longer ≠ [] := by
    rintro _ hlt rfl
    exact Nat.not_lt_zero _ hlt
  refine ⟨hstarts, ?_, ?_, ?_, ?_⟩
  · cases kind with
    | identifier | number => cases hsign
    | _ => rfl
  · intro kind' longer hlonger hlt hfits
    obtain ⟨d, more, rfl⟩ := List.exists_cons_of_ne_nil (hpositive hlt)
    obtain ⟨rfl, _⟩ := List.cons_prefix_cons.mp hlonger
    obtain ⟨hsign', hspelling'⟩ := hfits.sign hword hpoint
    rw [← hspelling'] at hlonger hlt
    have hpart := List.prefix_of_prefix_length_le hstarts hlonger (Nat.le_of_lt hlt)
    obtain ⟨rfl, rfl⟩ := TokenKind.eq_of_spelling_isPrefixOf hsign hsign'
      (List.isPrefixOf_iff_prefix.mpr hpart) hlt
    exact hequal rfl hlonger
  · intro f hf
    exact absurd f.isWordChar_name (hnot f.name_ne_nil hf)
  · intro longer hlonger hlt hall
    exact absurd hall (hnot (hpositive hlt) hlonger)

/-- What is munched at a text's beginning is the longest lexeme there. -/
theorem munched_of_munch {c : Char} {rest : List Char} {kind : TokenKind} {length : Nat}
    (h : munch? c rest = some (kind, length)) :
    Munched (c :: rest) ⟨kind, (c :: rest).take length⟩ := by
  have hsplit : c :: rest = c :: rest.takeWhile isWordChar ++ rest.dropWhile isWordChar := by
    rw [List.cons_append, List.takeWhile_append_dropWhile]
  unfold munch? at h
  split at h
  · rename_i hc
    have hword : ∀ d ∈ c :: rest.takeWhile isWordChar, isWordChar d :=
      List.forall_mem_cons.mpr ⟨hc, List.all_eq_true.mp List.all_takeWhile⟩
    have hafter : ∀ d ∈ (rest.dropWhile isWordChar).head?, isWordChar d = false := by
      intro d hd
      have hhead := List.head?_dropWhile_not isWordChar rest
      rw [Option.mem_def.mp hd] at hhead
      simpa using hhead
    have hmunched := munched_classifyWord hword hafter (List.cons_ne_nil _ _) (Option.some.inj h)
    rwa [← hsplit] at hmunched
  · split at h
    case h_14 =>
      split at h <;> cases h
      · rename_i hnext
        obtain ⟨more, rfl⟩ := List.head?_eq_some_iff.mp hnext
        exact munched_sign rfl ⟨more, rfl⟩ nofun
      · rename_i hnext
        refine munched_sign rfl ⟨rest, rfl⟩ fun _ hstarts => hnext ?_
        obtain ⟨more, hmore⟩ := hstarts
        rw [← (List.cons.inj hmore).2]
        rfl
    case h_15 | h_16 | h_17 =>
      split at h <;> cases h
      rename_i hnext
      obtain ⟨more, rfl⟩ := List.head?_eq_some_iff.mp hnext
      exact munched_sign rfl ⟨more, rfl⟩ nofun
    case h_18 =>
      split at h
      · cases h
      · rename_i hlength
        cases h
        have hpoint : ∀ d ∈ ('.' :: rest).head?, isWordChar d = false := by
          rintro _ ⟨⟩
          decide
        have hmunched := @munched_number [] ('.' :: rest) (.inr hlength) nofun hpoint
        rwa [List.nil_append, List.length_nil, Nat.zero_add] at hmunched
    all_goals
      cases h
      try exact munched_sign rfl ⟨rest, rfl⟩ nofun

/-- A longest lexeme has at least one character. -/
theorem Munched.ne_nil {text : List Char} {lexeme : Lexeme} (h : Munched text lexeme) :
    lexeme.text ≠ [] := by
  obtain ⟨kind, chars⟩ := lexeme
  rintro rfl
  have hfits := h.fits
  cases kind with
  | identifier =>
    obtain ⟨c, hc, _⟩ := hfits.letter
    cases hc
  | number =>
    obtain ⟨whole, fraction, _, _, ⟨hne, hnil⟩ | ⟨_, hnil⟩⟩ := hfits
    · exact hne hnil.symm
    · exact List.append_ne_nil_of_right_ne_nil _ (List.cons_ne_nil _ _) hnil.symm
  | keyword k => cases k <;> cases hfits
  | function f => exact f.name_ne_nil hfits.symm
  | _ => cases hfits

/-- The lexemes that a text is cut into tile the text. -/
theorem tiles_of_cut {text : List Char} {lexemes : List Lexeme} (h : cut text = .ok lexemes) :
    Tiles text lexemes := by
  induction lexemes generalizing text with
  | nil =>
    cases text with
    | nil => exact .nil
    | cons c rest =>
      obtain ⟨_, _, _, _, _, heq⟩ := cut_cons_eq_ok.mp h
      cases heq
  | cons lexeme later ih =>
    cases text with
    | nil => cases h
    | cons c rest =>
      obtain ⟨kind, length, later', hmunch, hlater, heq⟩ := cut_cons_eq_ok.mp h
      obtain ⟨rfl, rfl⟩ := List.cons.inj heq
      have hmunched := munched_of_munch hmunch
      have hpositive : length ≠ 0 := by
        rintro rfl
        exact hmunched.ne_nil rfl
      have hdrop : rest.drop (length - 1) = (c :: rest).drop length := by
        obtain ⟨length, rfl⟩ := Nat.exists_eq_succ_of_ne_zero hpositive
        rw [List.drop_succ_cons, Nat.succ_sub_one]
      rw [hdrop] at hlater
      have hwhole := List.take_append_drop length (c :: rest)
      have hfirst : Munched ((c :: rest).take length ++ (c :: rest).drop length)
          ⟨kind, (c :: rest).take length⟩ := by
        rwa [hwhole]
      have htiles := @Tiles.cons ⟨kind, (c :: rest).take length⟩ _ _ hfirst (ih hlater)
      rwa [hwhole] at htiles

namespace Tiles

variable {text : List Char} {lexemes : List Lexeme}

/-- Tiles put together are the text. -/
theorem text_eq (h : Tiles text lexemes) : lexemes.flatMap Lexeme.text = text := by
  induction h with
  | nil => rfl
  | cons _ _ ih => rw [List.flatMap_cons, ih]

/-- No tile is empty. -/
theorem ne_nil (h : Tiles text lexemes) : ∀ lexeme ∈ lexemes, lexeme.text ≠ [] := by
  induction h with
  | nil => nofun
  | cons hfirst _ ih => exact List.forall_mem_cons.mpr ⟨hfirst.ne_nil, ih⟩

/-- Every tile is a lexeme of its kind. -/
theorem fits (h : Tiles text lexemes) : ∀ lexeme ∈ lexemes, lexeme.kind.Fits lexeme.text := by
  induction h with
  | nil => nofun
  | cons hfirst _ ih => exact List.forall_mem_cons.mpr ⟨hfirst.fits, ih⟩

/-- One character is tiled by one lexeme. -/
theorem exists_eq_singleton {c : Char} (h : Tiles [c] lexemes) : ∃ lexeme, lexemes = [lexeme] := by
  have htext := h.text_eq
  have hne := h.ne_nil
  match lexemes with
  | [] => cases htext
  | [lexeme] => exact ⟨lexeme, rfl⟩
  | first :: second :: later =>
    rw [List.flatMap_cons, List.flatMap_cons] at htext
    have hfirst := List.length_pos_of_ne_nil (hne first (by simp))
    have hsecond := List.length_pos_of_ne_nil (hne second (by simp))
    have hlength := congrArg List.length htext
    simp only [List.length_append, List.length_singleton] at hlength
    omega

end Tiles

end NumericScript
