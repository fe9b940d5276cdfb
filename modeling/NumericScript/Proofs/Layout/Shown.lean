import NumericScript.CommandLine.Response
import NumericScript.Proofs.Layout.OneLine
import NumericScript.Proofs.Single.ReadBack
import NumericScript.Proofs.Store.Keeping

/-!
# Stores that are shown

A store is shown line by line, a line for each number that is set. If the numbers are finite, the
names accepted and the indices such that numbers stand for them, each line is an assignment to an
address, and all of them together are a script.
-/

namespace NumericScript

section Entries

/-- The numbers of a store with their addresses, in the order in which they are shown. -/
def StoreOf.entries (store : Store) : List (Address × Single) :=
  store.scalars.map (fun (name, value) => (.scalar name, value)) ++
    store.arrays.flatMap fun (name, elements) =>
      elements.map fun (index, value) => (.element name index, value)

/-- The entries of a store are its addresses with their values. -/
theorem StoreOf.mem_entries {store : Store} {address : Address} {value : Single} :
    (address, value) ∈ store.entries ↔ store[address]? = some value := by
  cases address with
  | scalar name =>
    rw [← mem_scalars]
    simp [entries]
  | element name index =>
    rw [← lists_arrays]
    simp [entries, Lists]

/-- The text that an address is shown as. -/
def Address.shown : Address → String
  | scalar name => name
  | element name index => name ++ "[" ++ toString index.toNat ++ "]"

/-- The line that a number is shown as. -/
def entryLine (entry : Address × Single) : String := entry.1.shown ++ " = " ++ toString entry.2

/-- A dump has one line for each entry of the store. -/
theorem dumpLines_eq (store : Store) : dumpLines store = store.entries.map entryLine := by
  have hclose : ∀ before after : String,
      before ++ "] = " ++ after = before ++ "]" ++ " = " ++ after := fun before after => by
    rw [show "] = " = "]" ++ " = " from rfl, ← String.append_assoc]
  simp [dumpLines, StoreOf.entries, entryLine, Address.shown, List.map_flatMap, Function.comp_def,
    hclose]

end Entries

section Setting

/-- The expression that a finite number is written as: a numeral, behind a minus if it is negative.
-/
def Single.literal : Single → Expr
  | finite true units h => .negate (.number (.finite false units h) default) default
  | value => .number value default

/-- The target that an address is written as. -/
def Address.target : Address → Target
  | scalar name => .scalar name default
  | element name index => .element name (.number (.ofDecimal index.toNat 0) default) default

/-- The statement that writes a number to an address. -/
def setting (entry : Address × Single) : Stmt :=
  .assign entry.1.target entry.2.literal default

/-- What can be set by its line: a finite number, an accepted name and, for an element, an index
that some number stands for. -/
structure Settable (entry : Address × Single) : Prop where
  finite : entry.2.isFinite
  accepted : entry.1.Accepted
  index : ∀ name index, entry.1 = .element name index → Single.IsIndex index

end Setting

section Spelling

variable {value : Single} {name : String} {index : UInt64}

private theorem spells_of_cuts {numeral : Single → List Char} {glyphs : List Glyph}
    (h : Cuts numeral glyphs []) : Spells (textOf numeral glyphs) glyphs := by
  obtain ⟨lexemes, hcut, hglyphs⟩ := h [] cut_nil
  rw [List.append_nil, List.append_nil] at hcut
  exact ⟨lexemes, hcut, hglyphs⟩

private theorem text_literal (h : value.isFinite) :
    textOf Single.text value.literal.glyphs = value.text := by
  cases value with
  | nan | infinite => cases h
  | finite negative units hgrid =>
    cases negative with
    | false =>
      have hglyphs : (Single.finite false units hgrid).literal.glyphs =
          [.number (.finite false units hgrid)] := rfl
      rw [hglyphs, textOf_cons, textOf_nil, Glyph.text, List.append_nil]
    | true =>
      rw [Single.literal, Expr.glyphs, Expr.glyphs, textOf_cons, textOf_cons, textOf_nil,
        Glyph.text, Glyph.text, List.append_nil, Single.text_negative]
      rfl

/-- A finite number is written as a numeral that reads as its magnitude. -/
theorem printable_literal (h : value.isFinite) :
    ∀ glyph ∈ value.literal.glyphs, glyph.Printable Single.text := by
  have hnumber : ∀ units hgrid,
      (Glyph.number (.finite false units hgrid)).Printable Single.text := fun units hgrid =>
    ⟨Single.text_positive hgrid ▸ Single.isNumeral_decimalText _,
      Single.text_positive hgrid ▸ Single.ofNumeral?_shortest hgrid⟩
  cases value with
  | nan | infinite => cases h
  | finite negative units hgrid =>
    cases negative with
    | false => exact List.forall_mem_singleton.mpr (hnumber units hgrid)
    | true =>
      exact List.forall_mem_cons.mpr ⟨trivial, List.forall_mem_singleton.mpr (hnumber units hgrid)⟩

private theorem spells_literal (h : value.isFinite) : Spells value.text value.literal.glyphs := by
  rw [← text_literal h]
  exact spells_of_cuts (value.literal.cuts (printable_literal h) loose_nil)

/-- The text of a finite number is ink. -/
theorem ink_text (h : value.isFinite) : ∀ c ∈ value.text, isInk c := by
  rw [← text_literal h]
  exact ink_textOf (printable_literal h)
    (value.literal.plain.of_plain Glyph.isBrace_of_plain)

/-- The digits of an index spell a number. -/
theorem spells_digits (index : UInt64) : Spells (Nat.toDigits 10 index.toNat)
    (Expr.number (.ofDecimal index.toNat 0) default).glyphs := by
  have hdigits : ∀ c ∈ Nat.toDigits 10 index.toNat, c.isDigit := fun c hc =>
    Single.isDigit_of_mem_toDigits hc
  have hread := ofNumeral?_whole hdigits Nat.toDigits_ne_nil
  rw [Single.digitsValue_toDigits] at hread
  let numeral : Single → List Char := fun _ => Nat.toDigits 10 index.toNat
  have hnumber : (Glyph.number (.ofDecimal index.toNat 0)).Printable numeral :=
    ⟨⟨_, [], hdigits, nofun, .inl ⟨Nat.toDigits_ne_nil, rfl⟩⟩, hread⟩
  have hspells : Spells (textOf numeral [.number (.ofDecimal index.toNat 0)]) _ :=
    spells_of_cuts (.number hnumber loose_nil)
  rwa [textOf_cons, textOf_nil, List.append_nil] at hspells

private theorem inked_toString (h : value.isFinite) : inked (toString value) = value.text := by
  have htext : (toString value).toList = value.text := String.toList_ofList
  rw [inked_of_ink (htext ▸ ink_text h), htext]

/-- On its line a number stands behind an equality sign. -/
theorem inked_entryLine {entry : Address × Single} (h : entry.2.isFinite) :
    inked (entryLine entry) = inked entry.1.shown ++ '=' :: entry.2.text := by
  have htext := inked_toString h
  have hsign : inked " = " = ['='] := by decide
  unfold entryLine
  -- Without its text, which no step may try to compute.
  generalize toString entry.2 = shown at htext ⊢
  rw [inked_append, inked_append, htext, hsign, List.append_assoc, List.singleton_append]

/-- Decimal digits are ink. -/
theorem ink_toDigits (n : Nat) : ∀ c ∈ Nat.toDigits 10 n, isInk c := fun _ hc =>
  isInk_of_isWordChar (isWordChar_of_isDigit (Single.isDigit_of_mem_toDigits hc))

/-- An element is shown as its array's name, the brackets and the digits of its index. -/
theorem inked_shown_element (hname : IsTargetName name) :
    inked (Address.element name index).shown =
      name.toList ++ '[' :: (Nat.toDigits 10 index.toNat ++ [']']) := by
  have hdigits : inked (toString index.toNat) = Nat.toDigits 10 index.toNat := by
    have htext : (toString index.toNat).toList = Nat.toDigits 10 index.toNat := by
      rw [Nat.toString_eq_ofList_toDigits, String.toList_ofList]
    rw [inked_of_ink, htext]
    exact htext ▸ ink_toDigits index.toNat
  rw [Address.shown, hname.inked_element, hdigits]

/-- The line of a number spells the assignment of it to its address. -/
theorem Settable.spellsLine {entry : Address × Single} (h : Settable entry) :
    SpellsLine (inked (entryLine entry)) (assignmentLine entry.1.target entry.2.literal) := by
  rw [inked_entryLine h.finite]
  obtain ⟨address, value⟩ := entry
  have hspells : Spells value.text value.literal.glyphs := spells_literal h.finite
  cases address with
  | scalar name =>
    have hname : IsTargetName name := isTargetName_of_accepted h.accepted
    rw [Address.shown, hname.inked_eq]
    exact hname.spellsLine_scalar hspells
  | element name index =>
    have hname : IsTargetName name := isTargetName_of_accepted h.accepted
    rw [inked_shown_element hname, List.append_assoc, List.cons_append, List.append_assoc,
      List.singleton_append]
    exact hname.spellsLine_element (spells_digits index) hspells

/-- There is ink on the line of a number and nothing else but blanks. -/
theorem Settable.ink {entry : Address × Single} (h : Settable entry) :
    (∀ c ∈ inked (entryLine entry), isInk c) ∧ inked (entryLine entry) ≠ [] := by
  rw [inked_entryLine h.finite]
  have htext : ∀ c ∈ '=' :: entry.2.text, isInk c :=
    List.forall_mem_cons.mpr ⟨by decide, ink_text h.finite⟩
  refine ⟨List.forall_mem_append.mpr ⟨?_, htext⟩,
    List.append_ne_nil_of_right_ne_nil _ (List.cons_ne_nil _ _)⟩
  obtain ⟨address, value⟩ := entry
  cases address with
  | scalar name =>
    have hname : IsTargetName name := isTargetName_of_accepted h.accepted
    rw [Address.shown, hname.inked_eq]
    exact hname.isInk
  | element name index =>
    have hname : IsTargetName name := isTargetName_of_accepted h.accepted
    rw [inked_shown_element hname]
    simp only [List.forall_mem_append, List.forall_mem_cons]
    exact ⟨hname.isInk, by decide, ink_toDigits _, by decide, List.forall_mem_nil _⟩

end Spelling

section Lines

private theorem toList_joinLines (lines : List String) :
    (joinLines lines).toList = lines.flatMap fun line => line.toList ++ ['\n'] := by
  have hfold : ∀ (lines : List String) (text : String),
      (lines.foldl (fun text line => text ++ line ++ "\n") text).toList =
        text.toList ++ lines.flatMap fun line => line.toList ++ ['\n'] := by
    intro lines
    induction lines with
    | nil => simp
    | cons line lines ih =>
      intro text
      rw [List.foldl_cons, ih]
      simp
  exact hfold lines ""

/-- Lines that are joined are the lines of the text. -/
theorem lineTexts_joinLines {lines : List String}
    (h : ∀ line ∈ lines, (∀ c ∈ inked line, isInk c) ∧ inked line ≠ []) :
    lineTexts (joinLines lines) = lines.map inked := by
  rw [lineTexts_eq, toList_joinLines]
  induction lines with
  | nil => rfl
  | cons line lines ih =>
    obtain ⟨⟨hink, hne⟩, hlater⟩ := List.forall_mem_cons.mp h
    rw [List.flatMap_cons, List.append_assoc, List.singleton_append, textsOf_break rfl,
      ih hlater, ← lineTexts_eq, lineTexts_of_ink hink hne]
    rfl

private theorem Settable.readable {entry : Address × Single} (h : Settable entry) :
    (Phrase.assignment entry.1.target entry.2.literal).Shaped ∧
      (Phrase.assignment entry.1.target entry.2.literal).Named := by
  obtain ⟨address, value⟩ := entry
  obtain ⟨hfinite, haccepted, -⟩ := h
  have hvalue : value.literal.Shaped := by
    cases value with
    | nan | infinite => cases hfinite
    | finite negative => cases negative <;> simp [Single.literal, Expr.Shaped, Expr.binding]
  have hname : address.name ≠ "" := by
    intro hempty
    rw [Address.Accepted, hempty] at haccepted
    exact absurd haccepted (by decide)
  cases address with
  | scalar name => exact ⟨⟨trivial, hvalue⟩, hname⟩
  | element name index => exact ⟨⟨trivial, hvalue⟩, hname⟩

private theorem Settable.within {entry : Address × Single} (h : Settable entry) :
    Within (setting entry).levels maxNesting := by
  obtain ⟨address, value⟩ := entry
  have hvalue : Within value.literal.levels maxNesting := by
    cases value with
    | nan | infinite => cases h.finite
    | finite negative => cases negative <;> simp [Single.literal, Expr.levels, Within, maxNesting]
  refine within_append.mpr ⟨?_, hvalue⟩
  cases address with
  | scalar name => exact within_nil _
  | element name index => simp [Address.target, Target.levels, Expr.levels, Within, maxNesting]

private theorem readable_setting {entries : List (Address × Single)}
    (h : ∀ entry ∈ entries, Settable entry) :
    Readable (phrasesOf (entries.map setting)) ∧
      Within (levelsOf (entries.map setting)) maxNesting ∧
      List.Forall₂ SpellsLine (entries.map fun entry => inked (entryLine entry))
        (linesOf (entries.map setting)) := by
  induction entries with
  | nil => exact ⟨nofun, nofun, .nil⟩
  | cons entry entries ih =>
    obtain ⟨hentry, hlater⟩ := List.forall_mem_cons.mp h
    obtain ⟨hread, hlevels, hlines⟩ := ih hlater
    exact ⟨readable_cons.mpr ⟨hentry.readable, hread⟩, within_append.mpr ⟨hentry.within, hlevels⟩,
      .cons hentry.spellsLine hlines⟩

/-- The lines of numbers that can be set are read as the statements that set them. -/
theorem exists_read_shown {entries : List (Address × Single)}
    (h : ∀ entry ∈ entries, Settable entry) :
    ∃ read, parseProgram (joinLines (entries.map entryLine)) = .ok read ∧
      bareOf read = bareOf (entries.map setting) := by
  obtain ⟨hread, hlevels, hlines⟩ := readable_setting h
  refine (settles_spelled_program hread ?_).exists_ok hlevels
  rw [lineTexts_joinLines, List.map_map]
  · exact hlines
  · exact List.forall_mem_map.mpr fun entry hm => (h entry hm).ink

end Lines

end NumericScript
