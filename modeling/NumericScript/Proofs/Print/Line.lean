import NumericScript.Proofs.Nesting.Expr
import NumericScript.Proofs.Print.Cut

/-!
# Cutting printed lines

The text of a printed line is cut into tokens that are the glyphs of the line. A target's name may
be cut into several tokens: they are put together again.
-/

namespace NumericScript

section

variable {numeral : Single → List Char} {rest : List Char}

/-- A sign goes on with no word before it. -/
theorem loose_sign {kind : TokenKind} (h : kind.isSign) (more : List Glyph) :
    Loose (textOf numeral (.mark kind :: more) ++ rest) := by
  obtain ⟨c, chars, htext, hword, hpoint⟩ := TokenKind.spelling_of_sign h
  rw [textOf_cons, Glyph.text, htext]
  exact loose_cons _ hword hpoint

/-- An expression's text is cut into its glyphs. -/
theorem Expr.cuts (e : Expr) (h : ∀ glyph ∈ e.glyphs, glyph.Printable numeral)
    (hrest : Loose rest) : Cuts numeral e.glyphs rest := by
  induction e generalizing rest with
  | number value => exact .number (h _ List.mem_cons_self) hrest
  | scalar name => exact .name (h _ List.mem_cons_self) hrest
  | element name index span ih =>
    have hindex : ∀ glyph ∈ index.glyphs, glyph.Printable numeral := fun glyph hm =>
      h glyph (by simp [glyphs, bracketed, hm])
    refine .cons (.name (h _ List.mem_cons_self) (loose_sign rfl _)) ?_
    refine .cons (.sign_of_ne rfl) ?_
    exact .append (ih hindex (loose_sign rfl _)) (.sign_of_ne rfl)
  | binary op left right span ihl ihr =>
    obtain ⟨hleft, hright⟩ := List.forall_mem_append.mp h
    have hsign : op.kind.isSign := by cases op <;> rfl
    refine .append (ihl hleft (loose_sign hsign _)) (.cons (.sign_of_ne hsign ?_) ?_)
    · cases op <;> decide
    · exact ihr (List.forall_mem_cons.mp hright).2 hrest
  | negate operand span ih =>
    exact .cons (.sign_of_ne rfl) (ih (List.forall_mem_cons.mp h).2 hrest)
  | call f argument span ih => exact .cons (.function f) (ih (List.forall_mem_cons.mp h).2 hrest)
  | group inner span ih =>
    have hinner : ∀ glyph ∈ inner.glyphs, glyph.Printable numeral := fun glyph hm =>
      h glyph (by simp [glyphs, parenthesized, hm])
    refine .cons (.sign_of_ne rfl) ?_
    exact .append (ih hinner (loose_sign rfl _)) (.sign_of_ne rfl)

/-- A condition's text is cut into its glyphs. -/
theorem Cond.cuts (c : Cond) (h : ∀ glyph ∈ c.glyphs, glyph.Printable numeral)
    (hrest : Loose rest) : Cuts numeral c.glyphs rest := by
  induction c generalizing rest with
  | compare op left right span =>
    obtain ⟨hleft, hright⟩ := List.forall_mem_append.mp h
    have hsign : op.kind.isSign := by cases op <;> rfl
    refine .append (left.cuts hleft (loose_sign hsign _)) (.cons (.sign_of_ne hsign ?_) ?_)
    · cases op <;> decide
    · exact right.cuts (List.forall_mem_cons.mp hright).2 hrest
  | logical op left right span ihl ihr =>
    obtain ⟨hleft, hright⟩ := List.forall_mem_append.mp h
    have hsign : op.kind.isSign := by cases op <;> rfl
    refine .append (ihl hleft (loose_sign hsign _)) (.cons (.sign_of_ne hsign ?_) ?_)
    · cases op <;> decide
    · exact ihr (List.forall_mem_cons.mp hright).2 hrest

/-- What is printed for a name, a number or a target begins with a word or with a point. -/
theorem Glyph.Printable.head {glyph : Glyph} (h : glyph.Printable numeral)
    (hmark : ∀ kind, glyph ≠ .mark kind) :
    ∃ c chars, glyph.text numeral = c :: chars ∧ (isWordChar c ∨ c = '.') := by
  cases glyph with
  | mark kind => exact absurd rfl (hmark kind)
  | name text =>
    obtain ⟨c, chars, htext, hword, _⟩ := word_of_cut_name h
    exact ⟨c, chars, htext, .inl (hword c (htext ▸ List.mem_cons_self))⟩
  | number value =>
    obtain ⟨whole, fraction, hwhole, _, ⟨hne, htext⟩ | ⟨_, htext⟩⟩ := h.1
    · obtain ⟨c, chars, rfl⟩ := List.exists_cons_of_ne_nil hne
      exact ⟨c, chars, htext, .inl (isWordChar_of_isDigit (hwhole c List.mem_cons_self))⟩
    · cases whole with
      | nil => exact ⟨'.', fraction, htext, .inr rfl⟩
      | cons c chars =>
        exact ⟨c, _, htext, .inl (isWordChar_of_isDigit (hwhole c List.mem_cons_self))⟩
  | target word =>
    obtain ⟨hne, hword, _⟩ := h
    obtain ⟨c, chars, htext⟩ :=
      List.exists_cons_of_ne_nil (fun hnil => hne (String.toList_eq_nil_iff.mp hnil))
    exact ⟨c, chars, htext, .inl (hword c (htext ▸ List.mem_cons_self))⟩

/-- No expression's text begins with an equality sign. -/
theorem Expr.head_text (e : Expr) (h : ∀ glyph ∈ e.glyphs, glyph.Printable numeral) :
    (textOf numeral e.glyphs ++ rest).head? ≠ some '=' := by
  obtain ⟨glyph, more, hglyphs, hkind⟩ := e.glyphs_head
  have htext : ∃ c chars, glyph.text numeral = c :: chars ∧ c ≠ '=' := by
    by_cases hmark : ∃ kind, glyph = .mark kind
    · obtain ⟨kind, rfl⟩ := hmark
      rcases hkind kind rfl with rfl | rfl | ⟨f, rfl⟩
      · exact ⟨'-', [], rfl, by decide⟩
      · exact ⟨'(', [], rfl, by decide⟩
      · cases f <;> exact ⟨_, _, rfl, by decide⟩
    · have hprintable := h glyph (hglyphs ▸ List.mem_cons_self)
      obtain ⟨c, chars, htext, hc⟩ := hprintable.head fun kind heq => hmark ⟨kind, heq⟩
      refine ⟨c, chars, htext, ?_⟩
      rintro rfl
      revert hc
      decide
  obtain ⟨c, chars, htext, hne⟩ := htext
  rw [hglyphs, textOf_cons, htext]
  simpa using hne

/-- A word is classified as something that a target's name can be made of. -/
theorem classifyWord_part {word : List Char} (hne : word ≠ []) (hrest : Loose rest)
    {kind : TokenKind} {length : Nat} (h : classifyWord word rest = (kind, length)) :
    isNamePart kind ∧ 0 < length ∧ length ≤ word.length ∧
      (Keyword.ofWord? word = none → ∀ k, kind ≠ .keyword k) := by
  have hpos := List.length_pos_iff.mpr hne
  unfold classifyWord at h
  split at h
  · split at h
    · rename_i k hk
      obtain ⟨rfl, rfl⟩ := Prod.mk.inj h
      exact ⟨rfl, hpos, Nat.le_refl _, fun hnone => by simp [hnone] at hk⟩
    · split at h
      · rename_i f hf
        obtain ⟨rfl, rfl⟩ := Prod.mk.inj h
        have hlength := (Builtin.prefix_of_wordStart hf).length_le
        rw [String.length_toList] at hlength
        exact ⟨rfl, by cases f <;> decide, hlength, fun _ => nofun⟩
      · obtain ⟨rfl, rfl⟩ := Prod.mk.inj h
        exact ⟨rfl, hpos, Nat.le_refl _, fun _ => nofun⟩
  · split at h
    · obtain ⟨rfl, rfl⟩ := Prod.mk.inj h
      exact ⟨rfl, hpos, Nat.le_refl _, fun _ => nofun⟩
    · obtain ⟨rfl, rfl⟩ := Prod.mk.inj h
      rw [fractionLength_loose hrest]
      exact ⟨rfl, hpos, Nat.le_refl _, fun _ => nofun⟩

/-- A word is cut into tokens that a target's name can have, and together they are the word. -/
theorem cut_word (hrest : Loose rest) {later : List Lexeme} (hlater : cut rest = .ok later)
    (word : List Char) (hword : ∀ c ∈ word, isWordChar c) :
    ∃ parts, cut (word ++ rest) = .ok (parts ++ later) ∧
      (∀ part ∈ parts, isNamePart part.kind) ∧ parts.flatMap Lexeme.text = word ∧
      (Keyword.ofWord? word = none → ∀ part ∈ parts.head?, ∀ k, part.kind ≠ .keyword k) := by
  match word, hword with
  | [], _ => exact ⟨[], hlater, nofun, rfl, fun _ => nofun⟩
  | c :: chars, hword =>
    obtain ⟨kind, length, hclass⟩ :
        ∃ kind length, classifyWord (c :: chars) rest = (kind, length) :=
      ⟨_, _, rfl⟩
    obtain ⟨hpart, hpos, hle, hkeyword⟩ := classifyWord_part (List.cons_ne_nil _ _) hrest hclass
    obtain ⟨length, rfl⟩ := Nat.exists_eq_succ_of_ne_zero (Nat.ne_of_gt hpos)
    have htail : length ≤ chars.length := by simpa using hle
    obtain ⟨parts, hparts, hall, htext, _⟩ := cut_word hrest hlater (chars.drop length)
      fun d hd => hword d (List.mem_cons_of_mem _ (List.mem_of_mem_drop hd))
    refine ⟨⟨kind, c :: chars.take length⟩ :: parts, ?_, ?_, ?_, ?_⟩
    · refine cut_cons_eq_ok.mpr ⟨kind, length + 1, parts ++ later, ?_, ?_, ?_⟩
      · exact (munch_word hword hrest.noWord).trans (congrArg some hclass)
      · rwa [Nat.add_sub_cancel, List.append_eq, List.drop_append_of_le_length htail]
      · rw [List.take_succ_cons, List.append_eq, List.take_append_of_le_length htail]
        rfl
    · exact List.forall_mem_cons.mpr ⟨hpart, hall⟩
    · rw [List.flatMap_cons, htext, List.cons_append, List.take_append_drop]
    · rintro hnone _ ⟨⟩
      exact hkeyword hnone
termination_by word.length
decreasing_by
  exact Nat.lt_succ_of_le (List.drop_sublist length chars).length_le

/-- A line whose text is cut into tokens that are read back as the line, in some way. -/
def ReadsAs (numeral : Single → List Char) (read : List Token → List Glyph)
    (line : List Glyph) : Prop :=
  ∃ lexemes, cut (textOf numeral line) = .ok lexemes ∧
    ∀ tokens : List Token, tokens.map Token.bare = lexemes → read tokens = line

/-- Tokens that are bare as some lexemes have their glyphs. -/
theorem map_glyph_of_bare {tokens : List Token} {lexemes : List Lexeme}
    (h : tokens.map Token.bare = lexemes) : tokens.map Token.glyph = lexemes.map Lexeme.glyph := by
  rw [← h, List.map_map]
  exact List.map_congr_left fun t _ => t.glyph_eq_bare

/-- Glyphs that are cut up to the end of a text are read as themselves. -/
theorem Cuts.readsAs {glyphs : List Glyph} (h : Cuts numeral glyphs []) :
    ReadsAs numeral (List.map Token.glyph) glyphs := by
  obtain ⟨lexemes, hcut, hglyphs⟩ := h [] cut_nil
  rw [List.append_nil, List.append_nil] at hcut
  exact ⟨lexemes, hcut, fun tokens htokens => (map_glyph_of_bare htokens).trans hglyphs⟩

/-- Lines that begin with a keyword or a brace are read back as they are cut. -/
theorem readsAs_of_cuts {kind : TokenKind} {glyphs : List Glyph}
    (h : Cuts numeral (.mark kind :: glyphs) [])
    (hkind : kind = .leftBrace ∨ kind = .rightBrace ∨ ∃ word, kind = .keyword word) :
    ReadsAs numeral lineGlyphs (.mark kind :: glyphs) := by
  obtain ⟨lexemes, hcut, hread⟩ := h.readsAs
  refine ⟨lexemes, hcut, fun tokens htokens => ?_⟩
  have hmap := hread tokens htokens
  obtain ⟨t, more, rfl, ht, hmore⟩ := List.map_eq_cons_iff.mp hmap
  have := Token.kind_of_glyph ht
  rcases hkind with rfl | rfl | ⟨word, rfl⟩
  all_goals simpa only [lineGlyphs, statementGlyphs, this] using hmap

/-- The joined text of some tokens is that of their lexemes. -/
theorem toList_joinedLexemes (tokens : List Token) :
    (joinedLexemes tokens).toList = (tokens.map Token.bare).flatMap Lexeme.text := by
  induction tokens with
  | nil => rfl
  | cons t later ih =>
    rw [List.map_cons, List.flatMap_cons, ← ih]
    exact String.toList_append

/--
A name's tokens in front of a sign are put together as the target of an assignment, if the first of
them is no keyword.
-/
theorem lineGlyphs_append {name more : List Token} {t : Token} (hne : name ≠ [])
    (hname : ∀ part ∈ name, isNamePart part.kind) (hsign : isNamePart t.kind = false)
    (hkeyword : ∀ part ∈ name.head?, ∀ word, part.kind ≠ .keyword word)
    (hequal : hasEqual (t :: more)) :
    lineGlyphs (name ++ t :: more) =
      .target (joinedLexemes name) :: (t :: more).map Token.glyph := by
  obtain ⟨first, parts, rfl⟩ := List.exists_cons_of_ne_nil hne
  have hfirst := hname first List.mem_cons_self
  have hany : hasEqual (first :: parts ++ t :: more) := by
    unfold hasEqual at hequal ⊢
    rw [List.any_append, hequal, Bool.or_true]
  have htake : (first :: parts ++ t :: more).takeWhile (isNamePart ·.kind) = first :: parts := by
    rw [List.takeWhile_append_of_pos hname]
    simp [hsign]
  have hdrop : (first :: parts ++ t :: more).dropWhile (isNamePart ·.kind) = t :: more := by
    rw [List.dropWhile_append_of_pos hname]
    simp [hsign]
  have hassign : assignmentGlyphs (first :: parts ++ t :: more) =
      .target (joinedLexemes (first :: parts)) :: (t :: more).map Token.glyph := by
    rw [assignmentGlyphs, htake, hdrop]
  rw [← hassign]
  unfold lineGlyphs
  dsimp only [List.cons_append]
  split
  · rename_i hkind
    simp [hkind, isNamePart] at hfirst
  · rename_i hkind
    simp [hkind, isNamePart] at hfirst
  · rw [statementGlyphs_of_not_keyword _ (hkeyword first rfl)]
    exact if_pos hany

/-- A name that an assignment's target can have, whether a store accepts it or not: a word that is
no keyword. -/
structure IsTargetName (name : String) : Prop where
  ne_empty : name ≠ ""
  word : ∀ c ∈ name.toList, isWordChar c
  keyword : ∀ k : Keyword, name ≠ k.text

private theorem isTargetName_iff {name : String} :
    IsTargetName name ↔ (Glyph.target name).Printable numeral := by
  refine ⟨fun ⟨hne, hword, hkeyword⟩ => ⟨hne, hword, ?_⟩,
    fun ⟨hne, hword, hnone⟩ => ⟨hne, hword, ?_⟩⟩
  · cases hfound : Keyword.ofWord? name.toList with
    | none => rfl
    | some k => exact absurd (String.toList_inj.mp (Keyword.ofWord?_eq_some.mp hfound)) (hkeyword k)
  · rintro k rfl
    rw [Keyword.ofWord?_eq_some.mpr rfl] at hnone
    cases hnone

/-- However a target's name is cut, in front of a sign it is put together again. -/
theorem exists_cut_target {name : String} (hname : IsTargetName name) (hrest : Loose rest)
    {sign : Lexeme} {lexemes : List Lexeme} (hcut : cut rest = .ok (sign :: lexemes))
    (hsign : isNamePart sign.kind = false)
    (hequal : ∃ lexeme ∈ sign :: lexemes, lexeme.kind = .equal) :
    ∃ all, cut (name.toList ++ rest) = .ok all ∧
      ∀ tokens : List Token, tokens.map Token.bare = all →
        lineGlyphs tokens = .target name :: (sign :: lexemes).map Lexeme.glyph := by
  obtain ⟨hne, hword, hkeyword⟩ : (Glyph.target name).Printable Single.text :=
    isTargetName_iff.mp hname
  obtain ⟨parts, hparts, hall, htext, hfirst⟩ := cut_word hrest hcut name.toList hword
  refine ⟨_, hparts, fun tokens htokens => ?_⟩
  obtain ⟨words, more, rfl, rfl, hmore⟩ := List.map_eq_append_iff.mp htokens
  obtain ⟨t, later, rfl, ht, -⟩ := List.map_eq_cons_iff.mp hmore
  have hjoined : joinedLexemes words = name := by
    rw [← String.toList_inj, toList_joinedLexemes, htext]
  have hwords : words ≠ [] := by
    rintro rfl
    exact hne hjoined.symm
  have hkinds : ∀ part ∈ words, isNamePart part.kind := fun part hm =>
    hall part.bare (List.mem_map_of_mem hm)
  have hhead : ∀ part ∈ words.head?, ∀ word, part.kind ≠ .keyword word := fun part hm =>
    hfirst hkeyword part.bare (by rw [List.head?_map, Option.mem_def.mp hm]; rfl)
  have hany : hasEqual (t :: later) := by
    obtain ⟨lexeme, hm, hkind⟩ := hequal
    rw [← hmore] at hm
    obtain ⟨equal, hequal, rfl⟩ := List.mem_map.mp hm
    exact List.any_eq_true.mpr ⟨equal, hequal, decide_eq_true hkind⟩
  have htkind : t.kind = sign.kind := congrArg Lexeme.kind ht
  rw [← htkind] at hsign
  rw [lineGlyphs_append hwords hkinds hsign hhead hany, hjoined, map_glyph_of_bare hmore]

/-- What follows a target's name in an assignment's line. -/
theorem assignmentLine_eq (target : Target) (value : Expr) :
    ∃ name kind more, assignmentLine target value = .target name :: .mark kind :: more ∧
      (kind = .equal ∨ kind = .leftBracket) ∧ Glyph.mark .equal ∈ .mark kind :: more := by
  cases target with
  | scalar name => exact ⟨name, .equal, value.glyphs, rfl, .inl rfl, List.mem_cons_self⟩
  | element name index =>
    refine ⟨name, .leftBracket, _, rfl, .inr rfl, ?_⟩
    simp

private theorem cuts_afterTarget {target : Target} {value : Expr}
    (h : ∀ glyph ∈ assignmentLine target value, glyph.Printable numeral) :
    Cuts numeral (assignmentLine target value).tail [] := by
  cases target with
  | scalar name span =>
    have hvalue : ∀ glyph ∈ value.glyphs, glyph.Printable numeral := fun glyph hm =>
      h glyph (by simp [assignmentLine, hm])
    exact .cons (.sign rfl fun _ => value.head_text hvalue) (value.cuts hvalue loose_nil)
  | element name index span =>
    have hvalue : ∀ glyph ∈ value.glyphs, glyph.Printable numeral := fun glyph hm =>
      h glyph (by simp [assignmentLine, hm])
    have hindex : ∀ glyph ∈ index.glyphs, glyph.Printable numeral := fun glyph hm =>
      h glyph (by simp [assignmentLine, Target.glyphs, bracketed, hm])
    refine .append (.cons (.sign_of_ne rfl)
      (.append (index.cuts hindex (loose_sign rfl _)) (.sign_of_ne rfl))) ?_
    exact .cons (.sign rfl fun _ => value.head_text hvalue) (value.cuts hvalue loose_nil)

/-- An assignment's line is read back with the name of its target put together. -/
theorem readsAs_assignment {target : Target} {value : Expr}
    (h : ∀ glyph ∈ assignmentLine target value, glyph.Printable numeral) :
    ReadsAs numeral lineGlyphs (assignmentLine target value) := by
  obtain ⟨later, hlater, hglyphs⟩ := cuts_afterTarget h [] cut_nil
  obtain ⟨name, kind, more, hline, hkind, hequal⟩ := assignmentLine_eq target value
  have hsign : kind.isSign ∧ isNamePart kind = false := by
    rcases hkind with rfl | rfl <;> exact ⟨rfl, rfl⟩
  have hname : IsTargetName name := isTargetName_iff.mpr (h _ (hline ▸ List.mem_cons_self))
  rw [hline, List.tail_cons] at hlater hglyphs
  rw [List.append_nil, List.append_nil] at hlater
  have hloose : Loose (textOf numeral (.mark kind :: more)) := by
    have hempty : Loose (textOf numeral (.mark kind :: more) ++ []) := loose_sign hsign.1 more
    rwa [List.append_nil] at hempty
  obtain ⟨sign, lexemes, rfl, hmark, -⟩ := List.map_eq_cons_iff.mp hglyphs
  have hmark : sign.kind = kind := glyphOf_eq_mark hmark
  have hlexeme : ∃ lexeme ∈ sign :: lexemes, lexeme.kind = .equal := by
    rw [← hglyphs] at hequal
    obtain ⟨lexeme, hm, hglyph⟩ := List.mem_map.mp hequal
    exact ⟨lexeme, hm, glyphOf_eq_mark hglyph⟩
  obtain ⟨all, hall, hread⟩ :=
    exists_cut_target hname hloose hlater (hmark ▸ hsign.2) hlexeme
  rw [hglyphs, ← hline] at hread
  exact ⟨all, by rw [hline]; exact hall, hread⟩

end

/-- The lines that statements are printed as. -/
inductive IsLine : List Glyph → Prop
  | assignment (target : Target) (value : Expr) : IsLine (assignmentLine target value)
  | header (word : Keyword) (condition : Cond) : IsLine (headerLine word condition)
  | otherwise : IsLine [.mark (.keyword .elseWord)]
  | opening : IsLine [.mark .leftBrace]
  | closing : IsLine [.mark .rightBrace]

private theorem isLine_braced {inner : List (List Glyph)} (h : ∀ line ∈ inner, IsLine line) :
    ∀ line ∈ braced inner, IsLine line := by
  intro line hm
  rcases List.mem_cons.mp hm with rfl | hm
  · exact .opening
  · rcases List.mem_append.mp hm with hm | hm
    · exact h line hm
    · obtain rfl := List.mem_singleton.mp hm
      exact .closing

private theorem isLine_append {lines later : List (List Glyph)} (h : ∀ line ∈ lines, IsLine line)
    (hlater : ∀ line ∈ later, IsLine line) : ∀ line ∈ lines ++ later, IsLine line :=
  List.forall_mem_append.mpr ⟨h, hlater⟩

private theorem isLine_cons {first : List Glyph} {later : List (List Glyph)} (h : IsLine first)
    (hlater : ∀ line ∈ later, IsLine line) : ∀ line ∈ first :: later, IsLine line :=
  List.forall_mem_cons.mpr ⟨h, hlater⟩

mutual

private theorem Stmt.isLine : ∀ s : Stmt, ∀ line ∈ s.lines, IsLine line
  | .assign target value _ => isLine_cons (.assignment target value) nofun
  | .block body _ => isLine_braced (isLine_linesOf body)
  | .branch condition body otherwise _ =>
    isLine_cons (.header .ifWord condition)
      (isLine_append (isLine_braced (isLine_linesOf body)) otherwise.isLine)
  | .loop condition body _ =>
    isLine_cons (.header .whileWord condition) (isLine_braced (isLine_linesOf body))

private theorem Chain.isLine : ∀ chain : Chain, ∀ line ∈ chain.lines, IsLine line
  | .done => nofun
  | .block body => isLine_cons .otherwise (isLine_braced (isLine_linesOf body))
  | .branch condition body otherwise =>
    isLine_cons (.header .elifWord condition)
      (isLine_append (isLine_braced (isLine_linesOf body)) otherwise.isLine)

/-- Statements are printed as assignments, headers, `else` and braces. -/
theorem isLine_linesOf : ∀ stmts : List Stmt, ∀ line ∈ linesOf stmts, IsLine line
  | [] => nofun
  | s :: later => isLine_append s.isLine (isLine_linesOf later)

end

/-- A printed line is read back. -/
theorem IsLine.readsAs {numeral : Single → List Char} {line : List Glyph} (hline : IsLine line)
    (h : ∀ glyph ∈ line, glyph.Printable numeral) : ReadsAs numeral lineGlyphs line := by
  cases hline with
  | assignment target value => exact readsAs_assignment h
  | header word condition =>
    have hcond : ∀ glyph ∈ condition.glyphs, glyph.Printable numeral := fun glyph hm =>
      h glyph (by simp [headerLine, parenthesized, hm])
    refine readsAs_of_cuts (.cons (.keyword word (loose_sign rfl _)) ?_) (.inr (.inr ⟨word, rfl⟩))
    exact .cons (.sign_of_ne rfl)
      (.append (condition.cuts hcond (loose_sign rfl _)) (.sign_of_ne rfl))
  | otherwise => exact readsAs_of_cuts (.keyword .elseWord loose_nil) (.inr (.inr ⟨_, rfl⟩))
  | opening => exact readsAs_of_cuts (.sign_of_ne rfl) (.inl rfl)
  | closing => exact readsAs_of_cuts (.sign_of_ne rfl) (.inr (.inl rfl))

end NumericScript
