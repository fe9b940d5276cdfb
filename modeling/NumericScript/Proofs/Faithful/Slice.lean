import NumericScript.Proofs.Composition.Lines
import NumericScript.Proofs.Print.Scan

/-!
# Slices of a text

A slice of a text that begins at a character of one piece and ends at a character of another falls
into the pieces in between, of which the first one and the last one are cut off. Where the slice
begins or ends at a brace there is one more piece, and it is empty.
-/

namespace NumericScript

/-- Pieces without characters. -/
def Hollow (pieces : List Piece) : Prop := ∀ piece ∈ pieces, piece.chars = []

/-- From a character on, a text falls into some pieces, with empty ones before them. -/
def LeftFrom (pos : Nat) (text : List Char) (p : Placed) (pieces : List Piece) (bound : Nat) :
    Prop :=
  ∃ before after front, text = before ++ after ∧ p.offset = pos + before.length ∧
    piecesFrom p.offset after = front ++ pieces ∧ Hollow front ∧ front.length ≤ bound

/-- Up to a character, a text falls into some pieces and one more that ends with the character,
with empty ones after them. -/
def UpTo (afterReturn : Bool) (pos : Nat) (text : List Char) (q : Placed) (pieces : List Piece)
    (chars : List Placed) : Prop :=
  ∃ before after piece later stop back, text = before ++ after ∧
    q.offset + 1 = pos + before.length ∧ Splits afterReturn pos before piece later ∧
    piece :: later = pieces ++ ⟨chars ++ [q], stop⟩ :: back ∧ Hollow back

private theorem Piece.ne_of_chars {piece : Piece} {x y : List Placed} {p : Placed}
    (h : piece.chars = x ++ p :: y) (offset : Nat) : (⟨[], offset⟩ : Piece) ≠ piece := by
  rintro rfl
  simp at h

private theorem ne_feed_of_not_isBreak {c : Char} (h : isBreak c = false) :
    decide (c = '\n') = false := by
  refine decide_eq_false ?_
  rintro rfl
  cases h

private theorem LeftFrom.cons {pos : Nat} {rest : List Char} {p : Placed} {pieces : List Piece}
    {bound bound' : Nat} (c : Char) (h : LeftFrom (pos + 1) rest p pieces bound)
    (hle : bound ≤ bound') : LeftFrom pos (c :: rest) p pieces bound' := by
  obtain ⟨before, after, front, rfl, hoffset, hpieces, hfront, hbound⟩ := h
  refine ⟨c :: before, after, front, rfl, ?_, hpieces, hfront, hbound.trans hle⟩
  rw [hoffset, List.length_cons]
  omega

/-- One more character at the beginning changes the pieces before the character and the piece that
it ends in the same way. -/
theorem UpTo.cons {afterReturn afterReturn' : Bool} {pos : Nat} {rest : List Char} {q : Placed}
    {pieces pieces' : List Piece} {chars chars' : List Placed} (c : Char)
    (h : UpTo afterReturn (pos + 1) rest q pieces chars)
    (hstep : ∀ {before piece later}, Splits afterReturn (pos + 1) before piece later →
      ∃ piece' later', Splits afterReturn' pos (c :: before) piece' later' ∧
        ∀ stop back, piece :: later = pieces ++ ⟨chars ++ [q], stop⟩ :: back →
          piece' :: later' = pieces' ++ ⟨chars' ++ [q], stop⟩ :: back) :
    UpTo afterReturn' pos (c :: rest) q pieces' chars' := by
  obtain ⟨before, after, piece, later, stop, back, rfl, hoffset, hsplits, hpieces, hback⟩ := h
  obtain ⟨piece', later', hsplits', hmore⟩ := hstep hsplits
  refine ⟨c :: before, after, piece', later', stop, back, rfl, ?_, hsplits',
    hmore stop back hpieces, hback⟩
  rw [hoffset, List.length_cons]
  omega

namespace Splits

variable {afterReturn : Bool} {pos : Nat} {text : List Char} {piece P : Piece}
  {later A B : List Piece} {x y : List Placed}

private theorem eq (h : Splits afterReturn pos text piece later) :
    splitFrom afterReturn pos text = (piece, later) := by
  induction h with
  | nil => rfl
  | blank hblank _ ih =>
    simp only [splitFrom, ne_return_of_isBlank hblank, ih, hblank, Bool.true_or, if_true]
  | feed _ ih =>
    have hreturn : decide ('\n' = '\r') = false := rfl
    simp only [splitFrom, hreturn, ih, decide_true, Bool.and_self, Bool.or_true, if_true]
  | ends hblank hfeed hbreak _ ih =>
    simp only [splitFrom, ih, hblank, hfeed, hbreak, Bool.or_self, Bool.false_eq_true, if_false,
      if_true]
  | brace hblank hbreak hbrace _ ih =>
    simp only [splitFrom, ne_return_of_not_isBreak hbreak, ne_feed_of_not_isBreak hbreak, ih,
      hblank, hbreak, hbrace, Bool.and_false, Bool.or_self, Bool.false_eq_true, if_false, if_true]
  | keep hblank hbreak hbrace _ ih =>
    simp only [splitFrom, ne_return_of_not_isBreak hbreak, ne_feed_of_not_isBreak hbreak, ih,
      hblank, hbreak, hbrace, Bool.and_false, Bool.or_self, Bool.false_eq_true, if_false]

/-- A text that splits after a piece is cut into that piece and the others. -/
theorem piecesFrom_eq (h : Splits false pos text piece later) :
    piecesFrom pos text = piece :: later := by
  rw [piecesFrom, h.eq]

/-- From one of its characters on, a text falls into what is left of the character's piece and the
pieces after it. -/
theorem leftFrom {p : Placed} (h : Splits afterReturn pos text piece later)
    (hpieces : piece :: later = A ++ P :: B) (hchars : P.chars = x ++ p :: y) :
    LeftFrom pos text p (⟨p :: y, P.breakOffset⟩ :: B) A.length := by
  induction h generalizing A x P with
  | nil =>
    cases A with
    | nil => exact absurd (List.cons.inj hpieces).1 (Piece.ne_of_chars hchars _)
    | cons a A => simp at hpieces
  | blank hblank _ ih => exact (ih hpieces hchars).cons _ (Nat.le_refl _)
  | feed _ ih => exact (ih hpieces hchars).cons _ (Nat.le_refl _)
  | ends hblank hfeed hbreak _ ih =>
    cases A with
    | nil => exact absurd (List.cons.inj hpieces).1 (Piece.ne_of_chars hchars _)
    | cons a A => exact (ih (List.cons.inj hpieces).2 hchars).cons _ (Nat.le_succ _)
  | @brace _ pos c rest piece later hblank hbreak hbrace h ih =>
    cases A with
    | nil => exact absurd (List.cons.inj hpieces).1 (Piece.ne_of_chars hchars _)
    | cons a A =>
      obtain ⟨rfl, hmore⟩ := List.cons.inj hpieces
      cases A with
      | nil =>
        obtain ⟨rfl, rfl⟩ := List.cons.inj hmore
        obtain ⟨rfl, rfl, rfl⟩ : [] = x ∧ ⟨c, pos⟩ = p ∧ [] = y := by
          cases x with
          | nil => simpa using hchars
          | cons => simp at hchars
        refine ⟨[], c :: rest, [⟨[], pos⟩], rfl, rfl, ?_, by simp [Hollow], Nat.le_refl _⟩
        exact (brace hblank hbreak hbrace h).piecesFrom_eq
      | cons a' A =>
        have hle : A.length ≤ (⟨[], pos⟩ :: a' :: A).length := by
          simp only [List.length_cons]
          omega
        exact (ih (List.cons.inj hmore).2 hchars).cons _ hle
  | @keep _ pos c rest piece later hblank hbreak hbrace h ih =>
    cases A with
    | nil =>
      obtain ⟨rfl, rfl⟩ := List.cons.inj hpieces
      cases x with
      | nil =>
        obtain ⟨rfl, rfl⟩ := List.cons.inj hchars
        refine ⟨[], c :: rest, [], rfl, rfl, ?_, List.forall_mem_nil _, Nat.le_refl _⟩
        exact (keep hblank hbreak hbrace h).piecesFrom_eq
      | cons x' x =>
        have hrest := ih (A := []) rfl (List.cons.inj hchars).2
        exact hrest.cons c (Nat.le_refl _)
    | cons a A =>
      obtain ⟨rfl, rfl⟩ := List.cons.inj hpieces
      have hle : (piece :: A).length ≤
          (⟨⟨c, pos⟩ :: piece.chars, piece.breakOffset⟩ :: A).length := by simp
      exact (ih (A := piece :: A) rfl hchars).cons _ hle

/-- Up to one of its characters, a text falls into the pieces before the character's piece and what
the piece has up to the character. -/
theorem upTo {q : Placed} (h : Splits afterReturn pos text piece later)
    (hpieces : piece :: later = A ++ P :: B) (hchars : P.chars = x ++ q :: y) :
    UpTo afterReturn pos text q A x := by
  induction h generalizing A x P with
  | nil =>
    cases A with
    | nil => exact absurd (List.cons.inj hpieces).1 (Piece.ne_of_chars hchars _)
    | cons a A => simp at hpieces
  | blank hblank _ ih =>
    exact (ih hpieces hchars).cons _ fun hsplits => ⟨_, _, .blank hblank hsplits, fun _ _ => id⟩
  | feed _ ih =>
    exact (ih hpieces hchars).cons _ fun hsplits => ⟨_, _, .feed hsplits, fun _ _ => id⟩
  | ends hblank hfeed hbreak _ ih =>
    cases A with
    | nil => exact absurd (List.cons.inj hpieces).1 (Piece.ne_of_chars hchars _)
    | cons a A =>
      obtain ⟨rfl, hmore⟩ := List.cons.inj hpieces
      exact (ih hmore hchars).cons _ fun hsplits =>
        ⟨_, _, .ends hblank hfeed hbreak hsplits, fun _ _ => congrArg (_ :: ·)⟩
  | @brace _ pos c rest piece later hblank hbreak hbrace h ih =>
    cases A with
    | nil => exact absurd (List.cons.inj hpieces).1 (Piece.ne_of_chars hchars _)
    | cons a A =>
      obtain ⟨rfl, hmore⟩ := List.cons.inj hpieces
      cases A with
      | nil =>
        obtain ⟨rfl, rfl⟩ := List.cons.inj hmore
        obtain ⟨rfl, rfl, rfl⟩ : [] = x ∧ ⟨c, pos⟩ = q ∧ [] = y := by
          cases x with
          | nil => simpa using hchars
          | cons => simp at hchars
        exact ⟨[c], rest, _, _, pos + 1, [⟨[], pos + 1⟩], rfl, rfl,
          .brace hblank hbreak hbrace (.nil false (pos + 1)), rfl, by simp [Hollow]⟩
      | cons a' A =>
        obtain ⟨rfl, hlast⟩ := List.cons.inj hmore
        exact (ih hlast hchars).cons c fun hsplits =>
          ⟨_, _, .brace hblank hbreak hbrace hsplits, fun _ _ => congrArg (_ :: _ :: ·)⟩
  | @keep _ pos c rest piece later hblank hbreak hbrace h ih =>
    cases A with
    | nil =>
      obtain ⟨rfl, rfl⟩ := List.cons.inj hpieces
      cases x with
      | nil =>
        obtain ⟨rfl, rfl⟩ := List.cons.inj hchars
        exact ⟨[c], rest, _, _, pos + 1, [], rfl, rfl,
          .keep hblank hbreak hbrace (.nil false (pos + 1)), rfl, List.forall_mem_nil _⟩
      | cons x' x =>
        obtain ⟨rfl, hmore⟩ := List.cons.inj hchars
        refine (ih (A := []) rfl hmore).cons c fun hsplits =>
          ⟨_, _, .keep hblank hbreak hbrace hsplits, fun stop back hpiece => ?_⟩
        obtain ⟨rfl, rfl⟩ := List.cons.inj hpiece
        rfl
    | cons a A =>
      obtain ⟨rfl, rfl⟩ := List.cons.inj hpieces
      refine (ih (A := piece :: A) rfl hchars).cons c fun hsplits =>
        ⟨_, _, .keep hblank hbreak hbrace hsplits, fun stop back hpiece => ?_⟩
      obtain ⟨rfl, rfl⟩ := List.cons.inj hpiece
      rfl

end Splits

end NumericScript
