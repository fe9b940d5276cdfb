import NumericScript.Proofs.Glyph.Free
import NumericScript.Proofs.Print.Layout
import NumericScript.Proofs.Print.Line

/-!
# Scanning printed lines

The text of printed lines is scanned as the tokens of these lines, with empty lines between them.
-/

namespace NumericScript

/-- A word's character is a digit, a letter or an underscore. -/
theorem toNat_of_isWordChar {c : Char} (h : isWordChar c) :
    48 ≤ c.toNat ∧ c.toNat ≤ 57 ∨ 65 ≤ c.toNat ∧ c.toNat ≤ 90 ∨
      97 ≤ c.toNat ∧ c.toNat ≤ 122 ∨ c.toNat = 95 := by
  simp only [isWordChar, Char.isAlphanum, Char.isDigit, Bool.and_eq_true, Bool.or_eq_true,
    isAlpha_iff, decide_eq_true_eq, UInt32.le_iff_toNat_le, ge_iff_le] at h
  rcases h with ((h | h) | h) | rfl
  · exact .inr (.inl h)
  · exact .inr (.inr (.inl h))
  · exact .inl h
  · decide

/-- A word's character is ink. -/
theorem isInk_of_isWordChar {c : Char} (h : isWordChar c) : isInk c := by
  have hrange := toNat_of_isWordChar h
  have hspace : isWhitespace c = false := by
    simp only [isWhitespace, whitespaceRanges, List.any_cons, List.any_nil, Bool.or_eq_false_iff,
      Bool.and_eq_false_iff, decide_eq_false_iff_not, and_true, Nat.not_le]
    omega
  have hother : isBreak c = false ∧ isBrace c = false := by
    simp only [isBreak, isBrace, Bool.or_eq_false_iff, decide_eq_false_iff_not]
    refine ⟨⟨⟨?_, ?_⟩, ?_⟩, ?_, ?_⟩ <;> rintro rfl <;> revert hrange <;> decide
  simp only [isInk, hspace, hother.1, hother.2]
  rfl

/-- The spelling of every kind but the braces is ink. -/
theorem TokenKind.ink_spelling {kind : TokenKind} (h : (Glyph.mark kind).isBrace = false) :
    ∀ c ∈ kind.spelling, isInk c := by
  refine List.all_eq_true.mp ?_
  cases kind with
  | leftBrace | rightBrace => cases h
  | keyword word => cases word <;> decide
  | function f => cases f <;> decide
  | _ => decide

section

variable {numeral : Single → List Char}

/-- What is printed is ink, but for braces. -/
theorem Glyph.Printable.ink {glyph : Glyph} (h : glyph.Printable numeral)
    (hbrace : glyph.isBrace = false) : ∀ c ∈ glyph.text numeral, isInk c := by
  cases glyph with
  | mark kind => exact TokenKind.ink_spelling hbrace
  | name text =>
    obtain ⟨_, _, _, hword, _⟩ := word_of_cut_name h
    exact fun c hc => isInk_of_isWordChar (hword c hc)
  | number value =>
    have hdigit : ∀ c : Char, c.isDigit → isInk c := fun c hc =>
      isInk_of_isWordChar (isWordChar_of_isDigit hc)
    obtain ⟨whole, fraction, hwhole, hfraction, ⟨_, htext⟩ | ⟨_, htext⟩⟩ := h.1
    · intro c hc
      exact hdigit c (hwhole c (htext ▸ hc))
    · intro c hc
      rw [Glyph.text, htext] at hc
      rcases List.mem_append.mp hc with hc | hc
      · exact hdigit c (hwhole c hc)
      · rcases List.mem_cons.mp hc with rfl | hc
        · decide
        · exact hdigit c (hfraction c hc)
  | target word => exact fun c hc => isInk_of_isWordChar (h.2.1 c hc)

/-- A condition has no braces. -/
theorem Cond.braceless (c : Cond) : Free Glyph.isBrace c.glyphs := by
  induction c with
  | compare op left right =>
    have hleft : Free Glyph.isBrace left.glyphs := left.plain.of_plain Glyph.isBrace_of_plain
    have hright : Free Glyph.isBrace right.glyphs := right.plain.of_plain Glyph.isBrace_of_plain
    exact hleft.append (.cons (by cases op <;> rfl) hright)
  | logical op left right span ihl ihr => exact ihl.append (.cons (by cases op <;> rfl) ihr)

/-- The text of glyphs that are no braces is ink. -/
theorem ink_textOf {glyphs : List Glyph} (h : ∀ glyph ∈ glyphs, glyph.Printable numeral)
    (hbraceless : Free Glyph.isBrace glyphs) : ∀ c ∈ textOf numeral glyphs, isInk c := by
  intro c hc
  obtain ⟨glyph, hm, hc⟩ := List.mem_flatMap.mp hc
  exact (h glyph hm).ink (hbraceless glyph hm) c hc

/-- Something is printed for what is read back as something. -/
theorem ReadsAs.text_ne_nil {read : List Token → List Glyph} {line : List Glyph}
    (h : ReadsAs numeral read line) (hne : line ≠ read []) : textOf numeral line ≠ [] := by
  intro hnil
  obtain ⟨lexemes, hcut, hread⟩ := h
  rw [hnil] at hcut
  obtain rfl := Except.ok.inj hcut
  exact hne (hread [] rfl).symm

/-- A printed line is a line in any layout. -/
theorem IsLine.isLineText {line : List Glyph} (hline : IsLine line)
    (h : ∀ glyph ∈ line, glyph.Printable numeral) : IsLineText (textOf numeral line) := by
  refine ⟨(hline.readsAs h).text_ne_nil ?_, ?_⟩
  · cases hline with
    | assignment target => cases target <;> nofun
    | _ => nofun
  · cases hline with
    | assignment target value =>
      have hplain := plain_assignmentLine target value
      exact .inl (ink_textOf h (hplain.of_plain Glyph.isBrace_of_plain))
    | header word condition =>
      exact .inl (ink_textOf h (.cons rfl (condition.braceless.enclosed rfl rfl)))
    | otherwise => exact .inl (ink_textOf h (.cons rfl .nil))
    | opening => exact .inr ⟨'\x7b', rfl, rfl⟩
    | closing => exact .inr ⟨'\x7d', rfl, rfl⟩

/-- Only an empty text is cut into nothing. -/
theorem cut_eq_nil {text : List Char} (h : cut text = .ok []) : text = [] := by
  cases text with
  | nil => rfl
  | cons c rest =>
    obtain ⟨_, _, _, _, _, heq⟩ := cut_cons_eq_ok.mp h
    cases heq

/-- A list on all of whose members a function has results has a list of results. -/
theorem exists_mapM_eq_ok {ε α β : Type} {f : α → Except ε β} {xs : List α}
    (h : ∀ x ∈ xs, ∃ y, f x = .ok y) : ∃ ys, xs.mapM f = .ok ys := by
  induction xs with
  | nil => exact ⟨[], rfl⟩
  | cons x xs ih =>
    obtain ⟨⟨y, hy⟩, hxs⟩ := List.forall_mem_cons.mp h
    obtain ⟨ys, hys⟩ := ih hxs
    exact ⟨y :: ys, mapM_eq_ok.mpr (.cons hy (mapM_eq_ok.mp hys))⟩

/-- Logical lines with the texts of some lines are scanned as these lines and empty ones. -/
theorem scan_reads (numeral : Single → List Char) {read : List Token → List Glyph}
    {source : String} {lines : List (List Glyph)}
    (htexts : ((logicalLines source).map Line.text).filter (!·.isEmpty) =
      lines.map (textOf numeral))
    (hreads : ∀ line ∈ lines, ReadsAs numeral read line) :
    ∃ scanned, scan source = .ok scanned ∧
      (scanned.filter (!·.tokens.isEmpty)).map (read ·.tokens) = lines := by
  have hcut : ∀ line ∈ logicalLines source, ∃ scanned, line.tokenLine = .ok scanned := by
    intro line hm
    by_cases hempty : line.text = []
    · exact Line.tokenLine_of_cut (hempty ▸ cut_nil)
    · have hkept : line.text ∈ lines.map (textOf numeral) := by
        rw [← htexts]
        exact List.mem_filter.mpr ⟨List.mem_map_of_mem hm, by simpa using hempty⟩
      obtain ⟨glyphs, hglyphs, htext⟩ := List.mem_map.mp hkept
      obtain ⟨lexemes, hcut, _⟩ := hreads glyphs hglyphs
      exact Line.tokenLine_of_cut (htext ▸ hcut)
  obtain ⟨scanned, hscan⟩ := exists_mapM_eq_ok hcut
  refine ⟨scanned, hscan, ?_⟩
  have hall := mapM_eq_ok.mp hscan
  clear hcut hscan
  generalize logicalLines source = all at htexts hall
  induction hall generalizing lines with
  | nil => exact (List.map_eq_nil_iff.mp htexts.symm).symm
  | @cons line tokens all scanned hhead _ ih =>
    have hcut := Line.cut_of_tokenLine hhead
    by_cases hempty : line.text = []
    · rw [hempty] at hcut
      have hnil : tokens.tokens = [] := List.map_eq_nil_iff.mp (Except.ok.inj hcut).symm
      rw [List.map_cons, List.filter_cons_of_neg (by simp [hempty])] at htexts
      rw [List.filter_cons_of_neg (by simp [hnil])]
      exact ih hreads htexts
    · rw [List.map_cons, List.filter_cons_of_pos (by simpa using hempty)] at htexts
      obtain ⟨glyphs, lines, rfl, htext, hlines⟩ := List.map_eq_cons_iff.mp htexts.symm
      obtain ⟨hglyphs, hreads⟩ := List.forall_mem_cons.mp hreads
      obtain ⟨lexemes, hcut', hread⟩ := hglyphs
      rw [← htext, hcut'] at hcut
      have hne : tokens.tokens ≠ [] := by
        intro hnil
        rw [hnil] at hcut
        obtain rfl := Except.ok.inj hcut
        exact hempty (cut_eq_nil (htext ▸ hcut'))
      rw [List.filter_cons_of_pos (by simpa using hne), List.map_cons,
        hread tokens.tokens (Except.ok.inj hcut).symm, ih hreads hlines.symm]

end

end NumericScript
