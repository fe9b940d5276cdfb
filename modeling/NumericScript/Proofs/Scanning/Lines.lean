import Mathlib.Data.List.Forall2
import NumericScript.Grammar.Progress
import NumericScript.Proofs.Scanning.Cut

/-!
# Lines of tokens

Scanning keeps the lines apart: each logical line is cut on its own, and the tokens of the line are
its lexemes in their places. A brace is alone on its line.
-/

namespace NumericScript

/-- A token without its place. -/
def Token.bare (t : Token) : Lexeme := ⟨t.kind, t.lexeme.toList⟩

/-- Places do not change lexemes. -/
@[simp] theorem place_bare (line : Nat) (chars : List Placed) (lexemes : List Lexeme) :
    (place line chars lexemes).map Token.bare = lexemes := by
  induction lexemes generalizing chars with
  | nil => rfl
  | cons lexeme later ih => simp only [place, List.map_cons, ih, Token.bare, String.toList_ofList]

/-- A scanned line has the lexemes that its text is cut into. -/
theorem Line.cut_of_tokenLine {line : Line} {scanned : TokenLine}
    (h : line.tokenLine = .ok scanned) :
    cut line.text = .ok (scanned.tokens.map Token.bare) := by
  unfold Line.tokenLine Line.tokens at h
  cases hcut : cut line.text with
  | ok lexemes =>
    rw [hcut] at h
    obtain rfl := Except.ok.inj h
    exact congrArg Except.ok (place_bare ..).symm
  | error stray =>
    rw [hcut] at h
    cases h

/-- A line is scanned as soon as its text is cut. -/
theorem Line.tokenLine_of_cut {line : Line} {lexemes : List Lexeme}
    (h : cut line.text = .ok lexemes) : ∃ scanned, line.tokenLine = .ok scanned := by
  unfold Line.tokenLine Line.tokens
  rw [h]
  exact ⟨_, rfl⟩

/-- A function has results on all of a list if it has them on its members, one by one. -/
theorem mapM_eq_ok {ε α β : Type} {f : α → Except ε β} {xs : List α} {ys : List β} :
    xs.mapM f = .ok ys ↔ List.Forall₂ (fun x y => f x = .ok y) xs ys := by
  induction xs generalizing ys with
  | nil => simp [pure, Except.pure, eq_comm]
  | cons x xs ih =>
    rw [List.mapM_cons, List.forall₂_cons_left_iff]
    constructor
    · intro h
      obtain ⟨y, hy, h⟩ := bind_eq_ok.mp h
      obtain ⟨later, hlater, h⟩ := bind_eq_ok.mp h
      exact ⟨y, later, hy, ih.mp hlater, (Except.ok.inj h).symm⟩
    · rintro ⟨y, later, hy, hlater, rfl⟩
      exact bind_eq_ok.mpr ⟨y, hy, bind_eq_ok.mpr ⟨later, ih.mpr hlater, rfl⟩⟩

/-- Every scanned line comes from a logical line. -/
theorem scan_mem {source : String} {lines : List TokenLine} (h : scan source = .ok lines)
    {scanned : TokenLine} (hm : scanned ∈ lines) :
    ∃ line ∈ logicalLines source, line.tokenLine = .ok scanned := by
  rw [scan, mapM_eq_ok] at h
  generalize logicalLines source = all at h
  induction h with
  | nil => cases hm
  | cons hhead _ ih =>
    rcases List.mem_cons.mp hm with rfl | hm
    · exact ⟨_, List.mem_cons_self, hhead⟩
    · obtain ⟨line, hline, hscanned⟩ := ih hm
      exact ⟨line, List.mem_cons_of_mem _ hline, hscanned⟩

/-- The tokens that are neither names nor numbers are spelled as their kinds. -/
theorem spelling_of_cut {text : List Char} {lexemes : List Lexeme} (h : cut text = .ok lexemes)
    {lexeme : Lexeme} (hm : lexeme ∈ lexemes) (hname : lexeme.kind ≠ .identifier)
    (hnumber : lexeme.kind ≠ .number) : lexeme.text = lexeme.kind.spelling := by
  induction lexemes generalizing text with
  | nil => cases hm
  | cons head later ih =>
    cases text with
    | nil => cases h
    | cons c rest =>
      obtain ⟨kind, length, later', hmunch, hcut, heq⟩ := cut_cons_eq_ok.mp h
      obtain ⟨rfl, rfl⟩ := List.cons.inj heq
      rcases List.mem_cons.mp hm with rfl | hm
      · exact take_munch hmunch hname hnumber
      · exact ih hcut hm

/-- If there is a brace among some characters, there is nothing else. -/
def BraceAlone (chars : List Placed) : Prop := ∀ p ∈ chars, isBrace p.char → chars = [p]

private theorem BraceAlone.sublist {chars kept : List Placed} (h : BraceAlone chars)
    (hkept : kept.Sublist chars) : BraceAlone kept := by
  intro p hm hbrace
  have hchars := h p (hkept.mem hm) hbrace
  subst hchars
  rcases List.sublist_singleton.mp hkept with rfl | rfl
  · cases hm
  · rfl

private theorem braceAlone_of_none {chars : List Placed} (h : ∀ p ∈ chars, isBrace p.char = false) :
    BraceAlone chars := by
  intro p hm hbrace
  rw [h p hm] at hbrace
  cases hbrace

/-- The piece that a text begins with has no brace, and in the others a brace is alone. -/
theorem splitFrom_braceAlone (afterReturn : Bool) (pos : Nat) (text : List Char) :
    (∀ p ∈ (splitFrom afterReturn pos text).1.chars, isBrace p.char = false) ∧
      ∀ piece ∈ (splitFrom afterReturn pos text).2, BraceAlone piece.chars := by
  induction text generalizing afterReturn pos with
  | nil => simp [splitFrom]
  | cons c rest ih =>
    obtain ⟨hfirst, hlater⟩ := ih (c = '\r') (pos + 1)
    have hall : ∀ piece ∈ (splitFrom (decide (c = '\r')) (pos + 1) rest).1 ::
        (splitFrom (decide (c = '\r')) (pos + 1) rest).2, BraceAlone piece.chars := by
      rintro piece (_ | ⟨_, hm⟩)
      · exact braceAlone_of_none hfirst
      · exact hlater piece hm
    simp only [splitFrom]
    split
    · exact ⟨hfirst, hlater⟩
    · split
      · exact ⟨nofun, hall⟩
      · split
        · refine ⟨nofun, ?_⟩
          rintro piece (_ | ⟨_, hm⟩)
          · simp [BraceAlone]
          · exact hall piece hm
        · rename_i hbrace
          refine ⟨?_, hlater⟩
          rintro p (_ | ⟨_, hm⟩)
          · simpa using hbrace
          · exact hfirst p hm

private theorem trimEnd_sublist (chars : List Placed) : (trimEnd chars).Sublist chars := by
  induction chars with
  | nil => exact .slnil
  | cons p rest ih =>
    unfold trimEnd
    split
    · split
      · exact List.nil_sublist _
      · exact List.singleton_sublist.mpr List.mem_cons_self
    · rename_i kept hkept
      exact ih.cons_cons p

private theorem trim_sublist (chars : List Placed) : (trim chars).Sublist chars :=
  (trimEnd_sublist _).trans (List.dropWhile_sublist _)

/-- In a logical line a brace is alone. -/
theorem logicalLines_braceAlone {source : String} {line : Line}
    (h : line ∈ logicalLines source) : BraceAlone line.chars := by
  obtain ⟨hfirst, hlater⟩ := splitFrom_braceAlone false 0 source.toList
  obtain ⟨i, hi, rfl⟩ := List.mem_mapIdx.mp h
  refine BraceAlone.sublist ?_ (trim_sublist _)
  rcases List.mem_cons.mp (List.getElem_mem hi) with hm | hm
  · rw [hm]
    exact braceAlone_of_none hfirst
  · exact hlater _ hm

end NumericScript
