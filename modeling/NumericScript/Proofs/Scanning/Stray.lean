import Mathlib.Algebra.Ring.Parity
import NumericScript.Proofs.Scanning.Stream

/-!
# Stray characters

Which texts can be cut, said of their characters alone. Every character has to be one that tokens
are made of, a point stands before a digit, an exclamation mark before an equality sign, and `&` and
`|` come in pairs. What breaks one of these rules is stray, and cutting fails at the first stray
character of a text.
-/

namespace NumericScript

/-- The signs that tokens are made of. -/
def signChars : List Char :=
  ['(', ')', '\x7b', '\x7d', '[', ']', '-', '+', '*', '/', '^', '<', '>', '=', '!', '&', '|', '.']

/-- A character of a word or a sign. -/
def isTokenChar (c : Char) : Bool := isWordChar c || signChars.contains c

/-- The signs that stand for something only if there are two of them. -/
def isPaired (c : Char) : Bool := c = '&' || c = '|'

/-- A text has a character a number of times in a row, with no more of it right around. -/
structure IsRun (c : Char) (length : Nat) (before after text : List Char) : Prop where
  text_eq : text = before ++ (List.replicate length c ++ after)
  before : before.getLast? ≠ some c
  after : after.head? ≠ some c

/-- The rules for the characters of a line. -/
structure Lawful (text : List Char) : Prop where
  char : ∀ c ∈ text, isTokenChar c
  point : ∀ before after, text = before ++ '.' :: after → ∃ d ∈ after.head?, d.isDigit
  bang : ∀ before after, text = before ++ '!' :: after → after.head? = some '='
  run : ∀ c, isPaired c → ∀ length before after, IsRun c length before after text → Even length

/-- The characters that break a rule; of an odd run it is the last one. -/
inductive Strays (text : List Char) : Stray → Prop
  | foreign {before after : List Char} {c : Char} (htext : text = before ++ c :: after)
    (hc : isTokenChar c = false) : Strays text ⟨c, before.length⟩
  | point {before after : List Char} (htext : text = before ++ '.' :: after)
    (hafter : ∀ d ∈ after.head?, d.isDigit = false) : Strays text ⟨'.', before.length⟩
  | bang {before after : List Char} (htext : text = before ++ '!' :: after)
    (hafter : after.head? ≠ some '=') : Strays text ⟨'!', before.length⟩
  | run {before after : List Char} {c : Char} {length : Nat} (hc : isPaired c)
    (hrun : IsRun c length before after text) (hodd : Odd length) :
    Strays text ⟨c, before.length + length - 1⟩

/-- The rules hold if no character breaks one. -/
theorem lawful_iff {text : List Char} : Lawful text ↔ ∀ stray, ¬Strays text stray := by
  constructor
  · rintro h _ (⟨htext, hc⟩ | ⟨htext, hafter⟩ | ⟨htext, hafter⟩ | ⟨hc, hrun, hodd⟩)
    · have hchar := h.char _ (htext ▸ List.mem_append_right _ List.mem_cons_self)
      rw [hc] at hchar
      cases hchar
    · obtain ⟨d, hd, hdigit⟩ := h.point _ _ htext
      rw [hafter d hd] at hdigit
      cases hdigit
    · exact hafter (h.bang _ _ htext)
    · exact Nat.not_even_iff_odd.mpr hodd (h.run _ hc _ _ _ hrun)
  · intro h
    refine ⟨fun c hm => ?_, fun before after htext => ?_, fun before after htext => ?_,
      fun c hc length before after hrun => ?_⟩
    · obtain ⟨before, after, htext⟩ := List.append_of_mem hm
      by_contra hc
      exact h _ (.foreign htext (Bool.eq_false_iff.mpr hc))
    · by_contra hnone
      refine h _ (.point htext fun d hd => Bool.eq_false_iff.mpr fun hdigit => hnone ?_)
      exact ⟨d, hd, hdigit⟩
    · by_contra hafter
      exact h _ (.bang htext hafter)
    · by_contra heven
      exact h _ (.run hc hrun (Nat.not_even_iff_odd.mp heven))

section Local

/-- How many times in a row a text ends with a character. -/
def trailing (c : Char) (text : List Char) : Nat := (text.reverse.takeWhile (· = c)).length

/-- A character breaks a rule between what stands before it and what stands after it. -/
def StrayAt (c : Char) (before after : List Char) : Prop :=
  isTokenChar c = false ∨ (c = '.' ∧ ∀ d ∈ after.head?, d.isDigit = false) ∨
    (c = '!' ∧ after.head? ≠ some '=') ∨
    (isPaired c ∧ Even (trailing c before) ∧ after.head? ≠ some c)

variable {c : Char} {before after text : List Char}

private theorem trailing_replicate (n : Nat) (h : before.getLast? ≠ some c) :
    trailing c (before ++ List.replicate n c) = n := by
  have hbefore : before.reverse.takeWhile (· = c) = [] := by
    rw [← List.head?_reverse] at h
    cases hreverse : before.reverse with
    | nil => rfl
    | cons d more =>
      rw [hreverse] at h
      exact List.takeWhile_cons_of_neg (by simpa using fun heq => h (congrArg some heq))
  rw [trailing, List.reverse_append, List.reverse_replicate,
    List.takeWhile_append_of_pos (by simp), hbefore, List.append_nil, List.length_replicate]

/-- A text falls into the last run of a character, which may be empty, and what is before it. -/
theorem exists_trailing (c : Char) (text : List Char) :
    ∃ before, text = before ++ List.replicate (trailing c text) c ∧ before.getLast? ≠ some c := by
  refine ⟨(text.reverse.dropWhile (· = c)).reverse, ?_, ?_⟩
  · have hrun : text.reverse.takeWhile (· = c) = List.replicate (trailing c text) c :=
      List.eq_replicate_iff.mpr ⟨rfl, fun d hd => by
        simpa using List.all_eq_true.mp List.all_takeWhile d hd⟩
    rw [← List.reverse_replicate, ← hrun, ← List.reverse_append, List.takeWhile_append_dropWhile,
      List.reverse_reverse]
  · rw [List.getLast?_reverse]
    intro hhead
    have hnot := List.head?_dropWhile_not (fun d => decide (d = c)) text.reverse
    rw [hhead] at hnot
    simp at hnot

/-- The last character of an odd run comes after an even number of the same. -/
theorem strays_iff {stray : Stray} : Strays text stray ↔ ∃ before after,
    text = before ++ stray.char :: after ∧ before.length = stray.position ∧
      StrayAt stray.char before after := by
  constructor
  · rintro (⟨htext, hc⟩ | ⟨htext, hafter⟩ | ⟨htext, hafter⟩ | @⟨before, after, c, length, hc, hrun,
      hodd⟩)
    · exact ⟨_, _, htext, rfl, .inl hc⟩
    · exact ⟨_, _, htext, rfl, .inr (.inl ⟨rfl, hafter⟩)⟩
    · exact ⟨_, _, htext, rfl, .inr (.inr (.inl ⟨rfl, hafter⟩))⟩
    · obtain ⟨n, rfl⟩ := hodd
      refine ⟨before ++ List.replicate (2 * n) c, after, ?_, ?_, .inr (.inr (.inr ⟨hc, ?_, ?_⟩))⟩
      · rw [hrun.text_eq, List.replicate_succ', List.append_assoc, List.append_assoc]
        rfl
      · simp only [List.length_append, List.length_replicate]
        omega
      · rw [trailing_replicate _ hrun.before]
        exact even_two_mul n
      · exact hrun.after
  · obtain ⟨c, position⟩ := stray
    rintro ⟨before, after, htext, rfl, hc | ⟨rfl, hafter⟩ | ⟨rfl, hafter⟩ | ⟨hc, heven, hafter⟩⟩
    · exact .foreign htext hc
    · exact .point htext hafter
    · exact .bang htext hafter
    · obtain ⟨init, hinit, hlast⟩ := exists_trailing c before
      have hrun : IsRun c (trailing c before + 1) init after text := by
        refine ⟨?_, hlast, hafter⟩
        rw [htext, List.replicate_succ', List.append_assoc, ← List.append_assoc, ← hinit]
        rfl
      have hposition : init.length + (trailing c before + 1) - 1 = before.length := by
        conv_rhs => rw [hinit]
        simp only [List.length_append, List.length_replicate]
        omega
      rw [← hposition]
      exact .run hc hrun heven.add_one

end Local

section Lexeme

/-- No character of a part of a text is stray, whatever stands around the part, and what comes after
the part does not see how it ends. -/
structure Closed (part : List Char) : Prop where
  within : ∀ before c after rest, part = before ++ c :: after → ¬StrayAt c before (after ++ rest)
  even : ∀ c, isPaired c → Even (trailing c part)

/-- A character that stands for something on its own. -/
def isFree (c : Char) : Bool := isTokenChar c && c != '.' && c != '!' && !isPaired c

variable {part rest text : List Char} {c : Char}

private theorem isFree_of_isWordChar (h : isWordChar c) : isFree c := by
  have hne : ∀ d, isWordChar d = false → c ≠ d := by
    rintro d hd rfl
    rw [h] at hd
    cases hd
  simp [isFree, isTokenChar, isPaired, h, hne '.' (by decide), hne '!' (by decide),
    hne '&' (by decide), hne '|' (by decide)]

private theorem not_strayAt_of_free (h : isFree c) (before after : List Char) :
    ¬StrayAt c before after := by
  simp only [isFree, Bool.and_eq_true, bne_iff_ne, Bool.not_eq_true'] at h
  obtain ⟨⟨⟨hchar, hpoint⟩, hbang⟩, hpaired⟩ := h
  rintro (hforeign | ⟨heq, _⟩ | ⟨heq, _⟩ | ⟨heq, _⟩)
  · rw [hchar] at hforeign
    cases hforeign
  · exact hpoint heq
  · exact hbang heq
  · rw [heq] at hpaired
    cases hpaired

private theorem trailing_eq_zero (h : c ∉ text) : trailing c text = 0 := by
  obtain ⟨before, htext, _⟩ := exists_trailing c text
  by_contra hne
  refine h ?_
  rw [htext]
  exact List.mem_append_right _ (List.mem_replicate.mpr ⟨hne, rfl⟩)

private theorem even_trailing (hc : isPaired c) (h : ∀ d ∈ part, isPaired d = false) :
    Even (trailing c part) := by
  rw [trailing_eq_zero]
  · exact Even.zero
  · intro hm
    rw [h c hm] at hc
    cases hc

private theorem closed_of_free (h : ∀ c ∈ part, isFree c) : Closed part := by
  refine ⟨fun before c after rest hpart => ?_, fun c hc => even_trailing hc fun d hd => ?_⟩
  · exact not_strayAt_of_free (h c (hpart ▸ List.mem_append_right _ List.mem_cons_self)) _ _
  · have hd := h d hd
    simp only [isFree, Bool.and_eq_true, Bool.not_eq_true'] at hd
    exact hd.2

private theorem closed_of_word (h : ∀ c ∈ part, isWordChar c) : Closed part :=
  closed_of_free fun c hc => isFree_of_isWordChar (h c hc)

private theorem not_isPaired_of_isFree (h : isFree c) : isPaired c = false := by
  simp only [isFree, Bool.and_eq_true, Bool.not_eq_true'] at h
  exact h.2

/-- In a numeral a point stands before a digit. -/
theorem IsNumeral.point {before after : List Char} (h : IsNumeral (before ++ '.' :: after)) :
    ∃ d ∈ after.head?, d.isDigit := by
  have hbefore : ∀ d ∈ before, d.isDigit := by
    obtain ⟨whole, fraction, hwhole, hfraction, ⟨_, heq⟩ | ⟨_, heq⟩⟩ := h
    · have hpoint := hwhole '.' (heq ▸ List.mem_append_right _ List.mem_cons_self)
      exact absurd hpoint (by decide)
    · intro d hd
      rcases List.append_eq_append_iff.mp heq with ⟨more, rfl, _⟩ | ⟨more, rfl, hmore⟩
      · exact hwhole d (List.mem_append_left _ hd)
      · rcases more with _ | ⟨point, more⟩
        · exact hwhole d (by simpa using hd)
        · obtain ⟨_, rfl⟩ := List.cons.inj hmore
          have hpoint := hfraction '.' (List.mem_append_right _ List.mem_cons_self)
          exact absurd hpoint (by decide)
  obtain ⟨_, hne, hdigits⟩ := h.fraction hbefore (by decide)
  obtain ⟨d, more, rfl⟩ := List.exists_cons_of_ne_nil hne
  exact ⟨d, rfl, hdigits d List.mem_cons_self⟩

private theorem closed_of_numeral (h : IsNumeral part) : Closed part := by
  refine ⟨fun before c after rest hpart => ?_, fun c hc => even_trailing hc fun d hd => ?_⟩
  · rcases h.char c (hpart ▸ List.mem_append_right _ List.mem_cons_self) with hdigit | rfl
    · exact not_strayAt_of_free (isFree_of_isWordChar (isWordChar_of_isDigit hdigit)) _ _
    · subst hpart
      obtain ⟨d, hd, hdigit⟩ := h.point
      obtain ⟨more, rfl⟩ := List.head?_eq_some_iff.mp hd
      rintro (hforeign | ⟨_, hafter⟩ | ⟨heq, _⟩ | ⟨heq, _⟩)
      · cases hforeign
      · rw [hafter d rfl] at hdigit
        cases hdigit
      · cases heq
      · cases heq
  · rcases h.char d hd with hdigit | rfl
    · exact not_isPaired_of_isFree (isFree_of_isWordChar (isWordChar_of_isDigit hdigit))
    · rfl

/-- In two characters there are two places for one. -/
theorem pair_eq_append {a b : Char} {before after : List Char}
    (h : [a, b] = before ++ c :: after) :
    (before = [] ∧ c = a ∧ after = [b]) ∨ (before = [a] ∧ c = b ∧ after = []) := by
  rcases before with _ | ⟨d, _ | ⟨d', before⟩⟩ <;> simp_all

private theorem closed_bangEqual : Closed ['!', '='] := by
  have hpaired : ∀ d ∈ ['!', '='], isPaired d = false := by simp [isPaired]
  refine ⟨fun before c after rest hpart => ?_, fun c hc => even_trailing hc hpaired⟩
  rcases pair_eq_append hpart with ⟨rfl, rfl, rfl⟩ | ⟨rfl, rfl, rfl⟩
  · rintro (hforeign | ⟨heq, _⟩ | ⟨_, hafter⟩ | ⟨heq, _⟩)
    · cases hforeign
    · cases heq
    · exact hafter rfl
    · cases heq
  · exact not_strayAt_of_free rfl _ _

/-- After one of a pair the other one is not stray. -/
theorem closed_pair (h : isPaired c) : Closed [c, c] := by
  obtain ⟨hchar, hpoint, hbang⟩ : isTokenChar c = true ∧ c ≠ '.' ∧ c ≠ '!' := by
    rcases Bool.or_eq_true_iff.mp h with h | h
    all_goals
      obtain rfl := of_decide_eq_true h
      decide
  refine ⟨fun before d after rest hpart => ?_, fun d hd => ?_⟩
  · have hd : d = c := by
      rcases pair_eq_append hpart with ⟨_, hd, _⟩ | ⟨_, hd, _⟩ <;> exact hd
    subst hd
    rintro (hforeign | ⟨heq, _⟩ | ⟨heq, _⟩ | ⟨_, heven, hafter⟩)
    · rw [hchar] at hforeign
      cases hforeign
    · exact hpoint heq
    · exact hbang heq
    · rcases pair_eq_append hpart with ⟨_, _, rfl⟩ | ⟨rfl, _, _⟩
      · exact hafter rfl
      · have hone : trailing d [d] = 1 := by simp [trailing]
        rw [hone] at heven
        exact absurd heven (by decide)
  · by_cases hdc : d = c
    · subst hdc
      have htwo : trailing d [d, d] = 2 := by simp [trailing]
      rw [htwo]
      exact even_two
    · rw [trailing_eq_zero (by simpa using hdc)]
      exact Even.zero

/-- The characters of a lexeme are not stray, whatever comes after it. -/
theorem TokenKind.Fits.closed {kind : TokenKind} (h : kind.Fits part) : Closed part := by
  cases kind with
  | identifier => exact closed_of_word h.word
  | number => exact closed_of_numeral h
  | keyword k => exact closed_of_word (h ▸ k.isWordChar_text)
  | function f => exact closed_of_word (h ▸ f.isWordChar_name)
  | bangEqual => exact h ▸ closed_bangEqual
  | andAnd => exact h ▸ closed_pair rfl
  | orOr => exact h ▸ closed_pair rfl
  | _ => exact h ▸ closed_of_free (List.all_eq_true.mp (by decide))

/-- A character that no lexeme begins with is stray. -/
theorem strayAt_of_munch {rest : List Char} (h : munch? c rest = none) : StrayAt c [] rest := by
  unfold munch? at h
  split at h
  · cases h
  · rename_i hword
    split at h
    case h_14 => split at h <;> cases h
    case h_15 =>
      split at h
      · cases h
      · rename_i hnext
        exact .inr (.inr (.inl ⟨rfl, hnext⟩))
    case h_16 | h_17 =>
      split at h
      · cases h
      · rename_i hnext
        exact .inr (.inr (.inr ⟨rfl, Even.zero, hnext⟩))
    case h_18 =>
      split at h
      · rename_i hfraction
        refine .inr (.inl ⟨rfl, fun d hd => Bool.eq_false_iff.mpr fun hdigit => ?_⟩)
        obtain ⟨more, rfl⟩ := List.head?_eq_some_iff.mp hd
        have hle := @le_fractionLength [d] ('.' :: d :: more) (List.cons_ne_nil _ _)
          (by simpa using hdigit) ⟨more, rfl⟩
        rw [hfraction] at hle
        simp at hle
      · cases h
    case h_19 =>
      refine .inl ?_
      simp_all [isTokenChar, signChars]
    all_goals cases h

end Lexeme

section Cut

variable {part rest text : List Char} {c : Char}

/-- An even number of the same before a text does not count for its runs. -/
theorem even_trailing_append (h : Even (trailing c part)) (more : List Char) :
    Even (trailing c (part ++ more)) ↔ Even (trailing c more) := by
  rw [trailing, List.reverse_append, List.takeWhile_append]
  split
  · rename_i hall
    rw [List.length_append, ← hall]
    exact Nat.even_add.trans (iff_true_right h)
  · rfl

/-- Past a part of a text without stray characters those of the rest are stray. -/
theorem strays_append (h : Closed part) {position : Nat} :
    Strays (part ++ rest) ⟨c, position⟩ ↔
      ∃ later, position = part.length + later ∧ Strays rest ⟨c, later⟩ := by
  have hpast : ∀ more after, StrayAt c (part ++ more) after ↔ StrayAt c more after := by
    intro more after
    by_cases hc : isPaired c
    · rw [StrayAt, StrayAt, even_trailing_append (h.even c hc)]
    · simp [StrayAt, hc]
  simp only [strays_iff]
  constructor
  · rintro ⟨before, after, htext, rfl, hstray⟩
    rcases List.append_eq_append_iff.mp htext with ⟨more, rfl, rfl⟩ | ⟨more, rfl, hmore⟩
    · exact ⟨more.length, List.length_append, more, after, rfl, rfl, (hpast _ _).mp hstray⟩
    · rcases more with _ | ⟨d, more⟩
      · refine ⟨0, by simp, [], after, hmore.symm, rfl, (hpast [] after).mp ?_⟩
        simpa using hstray
      · obtain ⟨rfl, rfl⟩ := List.cons.inj hmore
        exact absurd hstray (h.within _ _ _ _ rfl)
  · rintro ⟨_, rfl, before, after, rfl, rfl, hstray⟩
    exact ⟨part ++ before, after, (List.append_assoc ..).symm, List.length_append,
      (hpast _ _).mpr hstray⟩

/-- Characters that still belong to the lexeme before count for the positions of the others. -/
theorem cutFrom_eq_error {pending : Nat} {stray : Stray} :
    cutFrom pending text = .error stray ↔
      ∃ later, cut (text.drop pending) = .error later ∧
        stray = ⟨later.char, later.position + pending⟩ := by
  induction text generalizing pending stray with
  | nil => cases pending <;> simp [cut, cutFrom]
  | cons d rest ih =>
    cases pending with
    | zero =>
      constructor
      · intro h
        exact ⟨stray, h, rfl⟩
      · rintro ⟨later, h, rfl⟩
        exact h
    | succ pending =>
      rw [cutFrom, List.drop_succ_cons]
      split
      · rename_i lexemes hlexemes
        rw [cutFrom_eq_ok.mp hlexemes]
        simp
      · rename_i found hfound
        obtain ⟨later, hlater, rfl⟩ := ih.mp hfound
        rw [hlater]
        constructor
        · intro h
          exact ⟨later, rfl, (Except.error.inj h).symm⟩
        · rintro ⟨_, heq, rfl⟩
          rw [← Except.error.inj heq]
          rfl

/-- Cutting fails at the beginning of a text, or past its first lexeme. -/
theorem cut_cons_eq_error {stray : Stray} :
    cut (c :: rest) = .error stray ↔ (munch? c rest = none ∧ stray = ⟨c, 0⟩) ∨
      ∃ kind length later, munch? c rest = some (kind, length) ∧
        cut (rest.drop (length - 1)) = .error later ∧
        stray = ⟨later.char, later.position + (length - 1) + 1⟩ := by
  rw [cut, cutFrom]
  cases hmunch : munch? c rest with
  | none => simp [eq_comm]
  | some found =>
    obtain ⟨kind, length⟩ := found
    dsimp only
    constructor
    · intro h
      split at h
      · cases h
      · rename_i found hfound
        obtain ⟨later, hlater, rfl⟩ := cutFrom_eq_error.mp hfound
        exact .inr ⟨kind, length, later, rfl, hlater, (Except.error.inj h).symm⟩
    · rintro (⟨hnone, _⟩ | ⟨_, _, later, ⟨rfl, rfl⟩, hlater, rfl⟩)
      · cases hnone
      · rw [cutFrom_eq_error.mpr ⟨later, hlater, rfl⟩]

/-- What is munched is closed, and the rest of the text comes right after it. -/
theorem exists_closed_of_munch {kind : TokenKind} {length : Nat}
    (h : munch? c rest = some (kind, length)) :
    ∃ part, Closed part ∧ c :: rest = part ++ rest.drop (length - 1) ∧
      (rest.drop (length - 1) ≠ [] → part.length = length - 1 + 1) := by
  have hmunched := munched_of_munch h
  have hdrop : (c :: rest).drop length = rest.drop (length - 1) := by
    cases length with
    | zero => exact absurd rfl hmunched.ne_nil
    | succ length => rfl
  have hclosed : Closed ((c :: rest).take length) := hmunched.fits.closed
  refine ⟨_, hclosed, ?_, fun hne => ?_⟩
  · rw [← hdrop, List.take_append_drop]
  · have hpos : length ≠ 0 := by
      rintro rfl
      exact hmunched.ne_nil rfl
    have hlt : length - 1 < rest.length := by
      by_contra hle
      exact hne (List.drop_eq_nil_of_le (Nat.le_of_not_lt hle))
    rw [List.length_take, List.length_cons]
    omega

/-- Nothing in an empty text goes astray. -/
theorem not_strays_nil (stray : Stray) : ¬Strays [] stray := by
  rw [strays_iff]
  rintro ⟨before, after, htext, _⟩
  exact List.append_ne_nil_of_right_ne_nil _ (List.cons_ne_nil _ _) htext.symm

/-- No character of a text that is cut is stray. -/
theorem not_strays_of_cut {lexemes : List Lexeme} (h : cut text = .ok lexemes) (stray : Stray) :
    ¬Strays text stray := by
  induction lexemes generalizing text stray with
  | nil =>
    cases text with
    | nil => exact not_strays_nil stray
    | cons c rest =>
      obtain ⟨_, _, _, _, _, heq⟩ := cut_cons_eq_ok.mp h
      cases heq
  | cons lexeme later ih =>
    cases text with
    | nil => exact not_strays_nil stray
    | cons c rest =>
      obtain ⟨kind, length, later', hmunch, hlater, heq⟩ := cut_cons_eq_ok.mp h
      obtain ⟨_, rfl⟩ := List.cons.inj heq
      obtain ⟨part, hclosed, htext, _⟩ := exists_closed_of_munch hmunch
      rw [htext]
      intro hstray
      obtain ⟨position, _, hrest⟩ := (strays_append hclosed).mp hstray
      exact ih hlater _ hrest

/-- Cutting fails at the first stray character. -/
theorem first_stray_of_cut {stray : Stray} (h : cut text = .error stray) :
    Strays text stray ∧ ∀ other, Strays text other → stray.position ≤ other.position := by
  induction hlength : text.length using Nat.strong_induction_on generalizing text stray with
  | _ n ih =>
    cases text with
    | nil => cases h
    | cons c rest =>
      rcases cut_cons_eq_error.mp h with ⟨hmunch, rfl⟩ | ⟨kind, length, later, hmunch, hlater, rfl⟩
      · refine ⟨strays_iff.mpr ⟨[], rest, rfl, rfl, strayAt_of_munch hmunch⟩, ?_⟩
        exact fun other _ => Nat.zero_le _
      · obtain ⟨part, hclosed, htext, hpart⟩ := exists_closed_of_munch hmunch
        have hne : rest.drop (length - 1) ≠ [] := by
          intro hnil
          rw [hnil] at hlater
          cases hlater
        have hshorter : (rest.drop (length - 1)).length < n := by
          rw [← hlength, List.length_drop, List.length_cons]
          omega
        obtain ⟨hstray, hfirst⟩ := ih _ hshorter hlater rfl
        have hposition : later.position + (length - 1) + 1 = part.length + later.position := by
          rw [hpart hne]
          omega
        rw [htext, hposition]
        refine ⟨(strays_append hclosed).mpr ⟨_, rfl, hstray⟩, fun other hother => ?_⟩
        obtain ⟨position, hother', hrest⟩ := (strays_append hclosed).mp hother
        have hle := hfirst _ hrest
        dsimp only at hle ⊢
        omega

/-- A text is cut if it keeps the rules for characters, and only then. -/
theorem lawful_iff_cut : Lawful text ↔ ∃ lexemes, cut text = .ok lexemes := by
  rw [lawful_iff]
  constructor
  · intro h
    cases hcut : cut text with
    | ok lexemes => exact ⟨lexemes, rfl⟩
    | error stray => exact absurd (first_stray_of_cut hcut).1 (h stray)
  · rintro ⟨lexemes, hcut⟩
    exact not_strays_of_cut hcut

end Cut

section Scan

/-- A list fails to be mapped at the first element that has no value. -/
theorem mapM_eq_error {ε α β : Type} {f : α → Except ε β} {xs : List α} {e : ε} :
    xs.mapM f = .error e ↔ ∃ before x after, xs = before ++ x :: after ∧
      (∀ y ∈ before, ∃ b, f y = .ok b) ∧ f x = .error e := by
  induction xs with
  | nil => simp [pure, Except.pure]
  | cons x xs ih =>
    rw [List.mapM_cons]
    cases hx : f x with
    | error found =>
      constructor
      · intro h
        exact ⟨[], x, xs, rfl, nofun, hx.trans (congrArg _ (Except.error.inj h))⟩
      · rintro ⟨_ | ⟨y, before⟩, z, after, heq, hbefore, hz⟩
        · obtain ⟨rfl, rfl⟩ := List.cons.inj heq
          rw [hx] at hz
          exact congrArg _ (Except.error.inj hz)
        · obtain ⟨rfl, rfl⟩ := List.cons.inj heq
          obtain ⟨b, hb⟩ := hbefore x List.mem_cons_self
          rw [hx] at hb
          cases hb
    | ok b =>
      have hlater : (do let later ← xs.mapM f; pure (b :: later)) = Except.error e ↔
          xs.mapM f = .error e := by
        cases xs.mapM f with
        | ok later => exact ⟨nofun, nofun⟩
        | error found => exact ⟨fun h => congrArg _ (Except.error.inj h),
            fun h => congrArg _ (Except.error.inj h)⟩
      refine hlater.trans (ih.trans ⟨?_, ?_⟩)
      · rintro ⟨before, z, after, rfl, hbefore, hz⟩
        exact ⟨x :: before, z, after, rfl, List.forall_mem_cons.mpr ⟨⟨b, hx⟩, hbefore⟩, hz⟩
      · rintro ⟨_ | ⟨y, before⟩, z, after, heq, hbefore, hz⟩
        · obtain ⟨rfl, rfl⟩ := List.cons.inj heq
          rw [hx] at hz
          cases hz
        · obtain ⟨rfl, rfl⟩ := List.cons.inj heq
          exact ⟨before, z, after, rfl, (List.forall_mem_cons.mp hbefore).2, hz⟩

/-- Where a kept character stands in the text. -/
theorem getElem?_of_mem_keptFrom {pos : Nat} {text : List Char} {p : Placed}
    (h : p ∈ keptFrom pos text) : text[p.offset - pos]? = some p.char := by
  induction text generalizing pos with
  | nil => cases h
  | cons c rest ih =>
    have hlater : p ∈ keptFrom (pos + 1) rest → (c :: rest)[p.offset - pos]? = some p.char := by
      intro hm
      have hbounds := offset_keptFrom hm
      rw [show p.offset - pos = p.offset - (pos + 1) + 1 by omega, List.getElem?_cons_succ]
      exact ih hm
    rw [keptFrom] at h
    split at h
    · exact hlater h
    · rcases List.mem_cons.mp h with rfl | hm
      · simp
      · exact hlater hm

variable {source : String} {line : Line} {stray : Stray}

/-- A stray character of a line is one of its characters. -/
theorem Strays.exists_placed (h : Strays line.text stray) :
    ∃ hlt : stray.position < line.chars.length,
      line.chars[stray.position].char = stray.char ∧
        line.offset stray.position = line.chars[stray.position].offset := by
  obtain ⟨before, after, htext, hposition, _⟩ := strays_iff.mp h
  have hchar : line.text[stray.position]? = some stray.char := by
    rw [htext, ← hposition, List.getElem?_append_right (Nat.le_refl _), Nat.sub_self]
    rfl
  rw [Line.text, List.getElem?_map] at hchar
  obtain ⟨p, hp, hpchar⟩ := Option.map_eq_some_iff.mp hchar
  obtain ⟨hlt, rfl⟩ := List.getElem?_eq_some_iff.mp hp
  refine ⟨hlt, hpchar, ?_⟩
  rw [Line.offset, hp]
  rfl

/-- Scanning a line fails at its first stray character. -/
theorem tokenLine_eq_error {error : ScriptError} (h : line.tokenLine = .error error) :
    ∃ stray, Strays line.text stray ∧
      (∀ other, Strays line.text other → stray.position ≤ other.position) ∧
      error =
        ⟨.point (line.offset stray.position) line.index, .unexpectedCharacter stray.char⟩ := by
  unfold Line.tokenLine Line.tokens at h
  cases hcut : cut line.text with
  | ok lexemes =>
    rw [hcut] at h
    cases h
  | error stray =>
    rw [hcut] at h
    obtain ⟨hstray, hfirst⟩ := first_stray_of_cut hcut
    exact ⟨stray, hstray, hfirst, (Except.error.inj h).symm⟩

/-- A line is scanned if its characters keep the rules, and only then. -/
theorem tokenLine_eq_ok_iff : (∃ scanned, line.tokenLine = .ok scanned) ↔ Lawful line.text := by
  rw [lawful_iff_cut]
  constructor
  · rintro ⟨scanned, h⟩
    exact ⟨_, Line.cut_of_tokenLine h⟩
  · rintro ⟨lexemes, h⟩
    exact Line.tokenLine_of_cut h

/-- Of two stray characters of lines the one further up stands earlier in the text. -/
theorem offset_le_of_position_le {other : Stray} (hline : line ∈ logicalLines source)
    (h : Strays line.text stray) (hother : Strays line.text other)
    (hle : stray.position ≤ other.position) :
    line.offset stray.position ≤ line.offset other.position := by
  obtain ⟨hlt, _, hoffset⟩ := h.exists_placed
  obtain ⟨hlt', _, hoffset'⟩ := hother.exists_placed
  rw [hoffset, hoffset']
  rcases Nat.eq_or_lt_of_le hle with heq | hless
  · simp only [heq, Nat.le_refl]
  · have hascending := List.pairwise_iff_getElem.mp (ascending_chars hline)
    exact Nat.le_of_lt (hascending _ _ hlt hlt' hless)

/--
A text is scanned if the characters of every logical line keep the rules, and only then. Otherwise
the error is a lexical one at the first stray character of the text: it names that character, points
at the place where it was written, and has the index of its line.
-/
theorem scan_blames_first (source : String) :
    ((∃ lines, scan source = .ok lines) ↔ ∀ line ∈ logicalLines source, Lawful line.text) ∧
      ∀ error, scan source = .error error →
        ∃ line ∈ logicalLines source, ∃ stray, Strays line.text stray ∧
          (∀ other ∈ logicalLines source, ∀ stray', Strays other.text stray' →
            line.offset stray.position ≤ other.offset stray'.position) ∧
          source.toList[line.offset stray.position]? = some stray.char ∧
          error.span = .point (line.offset stray.position) line.index ∧
          error.cause.kind = .lexical ∧
          error.cause.message =
            "Unexpected character: '" ++ String.singleton stray.char ++ "'" := by
  constructor
  · simp only [← tokenLine_eq_ok_iff]
    constructor
    · rintro ⟨lines, hscan⟩ line hline
      obtain ⟨i, hi, rfl⟩ := List.getElem_of_mem hline
      have hall := mapM_eq_ok.mp hscan
      exact ⟨_, hall.get hi (hall.length_eq ▸ hi)⟩
    · intro hall
      cases hscan : scan source with
      | ok lines => exact ⟨lines, rfl⟩
      | error error =>
        obtain ⟨before, line, after, hlines, _, herror⟩ := mapM_eq_error.mp hscan
        obtain ⟨scanned, hscanned⟩ := hall line (by simp [hlines])
        rw [hscanned] at herror
        cases herror
  · intro error hscan
    obtain ⟨before, line, after, hlines, hbefore, herror⟩ := mapM_eq_error.mp hscan
    obtain ⟨stray, hstray, hfirst, rfl⟩ := tokenLine_eq_error herror
    have hline : line ∈ logicalLines source := by simp [hlines]
    obtain ⟨hlt, hchar, hoffset⟩ := hstray.exists_placed
    refine ⟨line, hline, stray, hstray, fun other hother stray' hstray' => ?_, ?_, rfl, rfl, rfl⟩
    · have hordered := ordered_logicalLines source
      rw [hlines] at hother hordered
      rcases List.mem_append.mp hother with hother | hother
      · exact absurd hstray' (lawful_iff.mp (tokenLine_eq_ok_iff.mp (hbefore other hother)) stray')
      rcases List.mem_cons.mp hother with rfl | hother
      · exact offset_le_of_position_le hline hstray hstray' (hfirst stray' hstray')
      · have hlater := (List.pairwise_cons.mp (List.pairwise_append.mp hordered).2.1).1 other hother
        obtain ⟨hlt', _, hoffset'⟩ := hstray'.exists_placed
        have hstop := offset_lt_stop hline (List.getElem_mem hlt)
        have hafter := hlater.2 _ (List.getElem_mem hlt')
        omega
    · have hkept := (within_keptFrom hline).subset (List.getElem_mem hlt)
      rw [hoffset, ← hchar]
      exact getElem?_of_mem_keptFrom hkept

/-- A text with an odd run in its second line and another stray character after it. -/
def strayRunSource : String := "x = 1.5; a &&\t& b ! c"

/--
The first of two stray characters is blamed, where an ampersand stands by itself after a pair.
-/
theorem scan_blames_first_strayRun :
    ∃ error, scan strayRunSource = .error error ∧ error.span = ⟨14, 15, 1⟩ ∧
      error.cause.message = "Unexpected character: '&'" ∧
      ∃ line ∈ logicalLines strayRunSource, ∃ stray, Strays line.text stray ∧
        error.span = .point (line.offset stray.position) line.index := by
  have hread : (match scan strayRunSource with | .error error => some error | .ok _ => none) =
      some ⟨⟨14, 15, 1⟩, .unexpectedCharacter '&'⟩ := by
    decide +kernel
  have hscan : scan strayRunSource = .error ⟨⟨14, 15, 1⟩, .unexpectedCharacter '&'⟩ := by
    split at hread
    · rename_i error herror
      rw [herror, Option.some.inj hread]
    · cases hread
  obtain ⟨line, hline, stray, hstray, _, _, hspan, _⟩ :=
    (scan_blames_first strayRunSource).2 _ hscan
  exact ⟨_, hscan, rfl, rfl, line, hline, stray, hstray, hspan⟩

end Scan

end NumericScript
