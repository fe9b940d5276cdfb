import Mathlib.Data.List.DropRight
import NumericScript.Proofs.Print.Text
import NumericScript.Run.Reading
import NumericScript.Single.Decimal

/-!
# Numbers that are read back

Rounding depends on the exact value only and leaves what is on the grid. So the shortest decimal of
a number reads as the number, and so does the text that it is written as. An index that comes from
a number comes from its own digits as well.
-/

namespace NumericScript

section Rounding

variable {units : Nat}

/-- Amounts on the grid are finite. -/
theorem OnGrid.lt_overflow (h : OnGrid units) : units < overflow := by
  obtain ⟨m, e, hm, he, rfl⟩ := h
  calc m * 2 ^ e < 2 ^ 24 * 2 ^ e := Nat.mul_lt_mul_of_pos_right hm (Nat.two_pow_pos e)
    _ ≤ overflow := Nat.mul_le_mul_left _ (Nat.pow_le_pow_right (by decide) he)

/-- A count on the grid is a whole number of steps at its own exponent. -/
theorem OnGrid.dvd (h : OnGrid units) : 2 ^ gridExponent units ∣ units := by
  obtain ⟨m, e, hm, -, rfl⟩ := h
  rcases Nat.eq_zero_or_pos m with rfl | hpos
  · exact ⟨0, by simp⟩
  · have hne : m * 2 ^ e ≠ 0 := Nat.mul_ne_zero (Nat.ne_of_gt hpos) (Nat.two_pow_pos e).ne'
    have hlog : (m * 2 ^ e).log2 < 24 + e := by
      rw [Nat.log2_lt hne, Nat.pow_add]
      exact Nat.mul_lt_mul_of_pos_right hm (Nat.two_pow_pos e)
    refine Nat.dvd_mul_left_of_dvd (Nat.pow_dvd_pow 2 ?_) m
    unfold gridExponent
    omega

private theorem roundHalfEven_of_dvd {n d : Nat} (hpos : 0 < d) (h : d ∣ n) :
    roundHalfEven n d = n / d := by
  unfold roundHalfEven
  simp only [Nat.mod_eq_zero_of_dvd h, Nat.mul_zero, hpos, if_true]

/-- Only the quotient matters for rounding. -/
theorem roundHalfEven_mul {k : Nat} (hpos : 0 < k) (n d : Nat) :
    roundHalfEven (k * n) (k * d) = roundHalfEven n d := by
  unfold roundHalfEven
  simp only [Nat.mul_div_mul_left _ _ hpos, Nat.mul_mod_mul_left, Nat.mul_left_comm 2 k,
    Nat.mul_lt_mul_left hpos]

private theorem roundToGrid_mul {k : Nat} (hpos : 0 < k) (n d : Nat) :
    roundToGrid (k * n) (k * d) = roundToGrid n d := by
  unfold roundToGrid
  simp only [Nat.mul_div_mul_left _ _ hpos, Nat.mul_assoc k, roundHalfEven_mul hpos]

/-- Equal quotients are rounded alike. -/
theorem roundToGrid_congr {n d n' d' : Nat} (hd : 0 < d) (hd' : 0 < d') (h : n * d' = n' * d) :
    roundToGrid n d = roundToGrid n' d' := by
  calc roundToGrid n d = roundToGrid (d' * n) (d' * d) := (roundToGrid_mul hd' n d).symm
    _ = roundToGrid (d * n') (d * d') := by
      rw [Nat.mul_comm d' n, h, Nat.mul_comm n' d, Nat.mul_comm d' d]
    _ = roundToGrid n' d' := roundToGrid_mul hd n' d'

/-- What is on the grid is not rounded. -/
theorem OnGrid.roundToGrid_one (h : OnGrid units) : roundToGrid units 1 = units := by
  unfold roundToGrid
  simp only [Nat.div_one, Nat.one_mul]
  rw [roundHalfEven_of_dvd (Nat.two_pow_pos _) h.dvd, Nat.div_mul_cancel h.dvd]

private theorem OnGrid.roundToGrid_mul (h : OnGrid units) {d : Nat} (hd : 0 < d) :
    roundToGrid (units * d) d = units := by
  rw [roundToGrid_congr hd Nat.one_pos (Nat.mul_one _), h.roundToGrid_one]

end Rounding

namespace Single

section Shortest

variable {units : Nat}

private theorem readsAs_iff {decimal : Nat} :
    readsAs units decimal ↔ roundToGrid decimal (5 ^ decimalPlaces) = units :=
  decide_eq_true_iff

private theorem readsAs_of_neighbour {exact step decimal : Nat}
    (h : neighbour? units exact step = some decimal) : readsAs units decimal := by
  unfold neighbour? at h
  dsimp only at h
  split at h
  case h_1 => cases h
  case h_2 hbelow _ =>
    obtain rfl := Option.some.inj h
    exact hbelow
  case h_3 _ habove =>
    obtain rfl := Option.some.inj h
    exact habove
  case h_4 hbelow habove =>
    split at h
    · obtain rfl := Option.some.inj h
      exact hbelow
    · obtain rfl := Option.some.inj h
      exact habove

-- The equations that Lean derives for the search take it too long to find; this one is immediate.
private theorem shortestFrom_succ (exact zeros : Nat) :
    shortestFrom units exact (zeros + 1) =
      match neighbour? units exact (10 ^ (zeros + 1)) with
      | some decimal => decimal
      | none => shortestFrom units exact zeros := by
  exact Eq.refl _

private theorem readsAs_shortestFrom {exact : Nat} (h : readsAs units exact) (zeros : Nat) :
    readsAs units (shortestFrom units exact zeros) := by
  induction zeros with
  | zero => exact h
  | succ zeros ih =>
    rw [shortestFrom_succ]
    split
    · rename_i decimal hneighbour
      exact readsAs_of_neighbour hneighbour
    · exact ih

/-- The shortest decimal of a number reads as the number. -/
theorem roundToGrid_shortestDecimal (h : OnGrid units) :
    roundToGrid (shortestDecimal units) (5 ^ decimalPlaces) = units := by
  have hexact : readsAs units (exactDecimal units) :=
    readsAs_iff.mpr (h.roundToGrid_mul (Nat.pow_pos (by decide)))
  exact readsAs_iff.mp (readsAs_shortestFrom hexact _)

end Shortest

section Digits

private theorem digitsValue_append (digits later : List Char) :
    digitsValue (digits ++ later) = digitsValue digits * 10 ^ later.length + digitsValue later := by
  rw [digitsValue, Nat.ofDigitChars_append, Nat.ofDigitChars_eq_ofDigitChars_zero, Nat.mul_comm]
  rfl

/-- The digits of a number have its value. -/
@[simp] theorem digitsValue_toDigits (n : Nat) : digitsValue (Nat.toDigits 10 n) = n :=
  Nat.ofDigitChars_ten_toDigits

@[simp] private theorem digitsValue_zeros (n : Nat) : digitsValue (List.replicate n '0') = 0 := by
  rw [digitsValue, Nat.ofDigitChars_replicate_zero, Nat.mul_zero]

theorem isDigit_of_mem_toDigits {n : Nat} {c : Char} (h : c ∈ Nat.toDigits 10 n) : c.isDigit :=
  Nat.isDigit_of_mem_toDigits (by decide) (by decide) h

/-- The digits after the point are the decimal places without the zeros at their end. -/
theorem exists_fractionDigits (decimal : Nat) :
    ∃ zeros, (fractionDigits decimal).length + zeros = decimalPlaces ∧
      digitsValue (fractionDigits decimal) * 10 ^ zeros = decimal % 10 ^ decimalPlaces ∧
      ∀ c ∈ fractionDigits decimal, c.isDigit := by
  let digits := Nat.toDigits 10 (decimal % 10 ^ decimalPlaces)
  let padded := List.replicate (decimalPlaces - digits.length) '0' ++ digits
  have hlength : digits.length ≤ decimalPlaces :=
    (Nat.length_toDigits_le_iff (by decide) (by decide)).mpr
      (Nat.mod_lt _ (Nat.pow_pos (by decide)))
  have hpadded : padded.length = decimalPlaces := by
    simp only [padded, List.length_append, List.length_replicate]
    omega
  have hvalue : digitsValue padded = decimal % 10 ^ decimalPlaces := by
    simp only [padded, digits, digitsValue_append, digitsValue_zeros, digitsValue_toDigits]
    omega
  have hdigit : ∀ c ∈ padded, c.isDigit := by
    refine List.forall_mem_append.mpr ⟨fun c hc => ?_, fun c hc => isDigit_of_mem_toDigits hc⟩
    obtain ⟨-, rfl⟩ := List.mem_replicate.mp hc
    decide
  have hzeros : ∀ c ∈ padded.rtakeWhile (· = '0'), c = '0' := fun c hc => by
    simpa using List.mem_rtakeWhile_imp hc
  obtain ⟨zeros, hsplit⟩ : ∃ zeros, padded = fractionDigits decimal ++ List.replicate zeros '0' :=
    ⟨_, (List.eq_replicate_of_mem hzeros ▸ List.rdropWhile_append_rtakeWhile.symm)⟩
  refine ⟨zeros, ?_, ?_, fun c hc => hdigit c ?_⟩
  · rw [← hpadded, hsplit, List.length_append, List.length_replicate]
  · rw [← hvalue, hsplit, digitsValue_append, digitsValue_zeros, List.length_replicate,
      Nat.add_zero]
  · rw [hsplit]
    exact List.mem_append_left _ hc

private theorem fractionDigits_isDigit {decimal : Nat} : ∀ c ∈ fractionDigits decimal, c.isDigit :=
  (exists_fractionDigits decimal).choose_spec.2.2

end Digits

section Text

variable {negative : Bool} {units : Nat}

private theorem ofRatio_congr {n d n' d' : Nat} (hd : 0 < d) (hd' : 0 < d') (h : n * d' = n' * d) :
    ofRatio negative n d = ofRatio negative n' d' := by
  unfold ofRatio
  simp only [roundToGrid_congr hd hd' h]

/-- What is rounded to a count on the grid is the number with that count. -/
theorem ofRatio_of_onGrid {n d : Nat} (h : OnGrid units) (hround : roundToGrid n d = units) :
    ofRatio negative n d = .finite negative units h := by
  subst hround
  exact dif_pos h.lt_overflow

-- The texts of numbers are only rewritten: a step that tried to compute one would not end.
/-- A positive amount is shown as its shortest decimal. -/
theorem text_positive (h : OnGrid units) :
    (finite false units h).text = decimalText (shortestDecimal units) := by
  rw [text, if_neg Bool.false_ne_true, List.nil_append]

/-- A negative amount is shown as the positive one with a sign in front. -/
theorem text_negative (h : OnGrid units) :
    (finite true units h).text = '-' :: (finite false units h).text := by
  rw [text_positive, text, if_pos rfl, List.singleton_append]

private theorem decimalText_cases (decimal : Nat) :
    fractionDigits decimal = [] ∧
        decimalText decimal = Nat.toDigits 10 (decimal / 10 ^ decimalPlaces) ∨
      fractionDigits decimal ≠ [] ∧ decimalText decimal =
        Nat.toDigits 10 (decimal / 10 ^ decimalPlaces) ++ '.' :: fractionDigits decimal := by
  rw [decimalText]
  cases fractionDigits decimal with
  | nil => exact .inl ⟨rfl, rfl⟩
  | cons c rest => exact .inr ⟨List.cons_ne_nil _ _, rfl⟩

/-- A decimal is shown as a numeral. -/
theorem isNumeral_decimalText (decimal : Nat) : IsNumeral (decimalText decimal) := by
  refine ⟨Nat.toDigits 10 (decimal / 10 ^ decimalPlaces), fractionDigits decimal,
    fun c hc => isDigit_of_mem_toDigits hc, fractionDigits_isDigit, ?_⟩
  rcases decimalText_cases decimal with ⟨-, htext⟩ | ⟨hne, htext⟩
  · exact .inl ⟨Nat.toDigits_ne_nil, htext⟩
  · exact .inr ⟨hne, htext⟩

/-- The text of a decimal is read as the number nearest to the decimal. -/
theorem ofNumeral?_decimalText (decimal : Nat) :
    ofNumeral? (decimalText decimal) = some (ofRatio false decimal (5 ^ decimalPlaces)) := by
  obtain ⟨zeros, hlength, hvalue, hdigits⟩ := exists_fractionDigits decimal
  let whole := Nat.toDigits 10 (decimal / 10 ^ decimalPlaces)
  have hwhole : ∀ c ∈ whole, c.isDigit := fun c hc => isDigit_of_mem_toDigits hc
  have hread : ofNumeral? (decimalText decimal) = some
      (ofDecimal (digitsValue (whole ++ fractionDigits decimal))
        (fractionDigits decimal).length) := by
    rcases decimalText_cases decimal with ⟨hnil, htext⟩ | ⟨hne, htext⟩
    · rw [htext, hnil, List.append_nil]
      exact ofNumeral?_whole hwhole Nat.toDigits_ne_nil
    · rw [htext]
      exact ofNumeral?_point hwhole hdigits hne
  have hexact : digitsValue (whole ++ fractionDigits decimal) * 10 ^ zeros = decimal := by
    rw [digitsValue_append, digitsValue_toDigits, Nat.add_mul, hvalue, Nat.mul_assoc,
      ← Nat.pow_add, hlength, Nat.mul_comm]
    exact Nat.div_add_mod decimal (10 ^ decimalPlaces)
  rw [hread]
  refine congrArg some (ofRatio_congr (Nat.pow_pos (by decide)) (Nat.pow_pos (by decide)) ?_)
  calc digitsValue (whole ++ fractionDigits decimal) * unitsPerOne * 5 ^ decimalPlaces
      = digitsValue (whole ++ fractionDigits decimal) * 10 ^ decimalPlaces := by
        rw [Nat.mul_assoc, show (10 : Nat) = 2 * 5 from rfl, Nat.mul_pow]
        rfl
    _ = digitsValue (whole ++ fractionDigits decimal) *
          (10 ^ (fractionDigits decimal).length * 10 ^ zeros) := by rw [← Nat.pow_add, hlength]
    _ = decimal * 10 ^ (fractionDigits decimal).length := by
        rw [Nat.mul_left_comm, hexact, Nat.mul_comm]

/-- The text of a magnitude is read as it. -/
theorem ofNumeral?_shortest (h : OnGrid units) :
    ofNumeral? (decimalText (shortestDecimal units)) = some (.finite false units h) := by
  rw [ofNumeral?_decimalText, ofRatio_of_onGrid h (roundToGrid_shortestDecimal h)]

end Text

section Index

/-- Whether an index is one that some number stands for. -/
def IsIndex (index : UInt64) : Prop := ∃ value : Single, value.toIndex? = some index

/-- The largest index is read as the next number, which is too large for an index. -/
theorem ofDecimal_largest :
    ∃ h, ofDecimal (2 ^ 64 - 1) 0 = .finite false (2 ^ 64 * unitsPerOne) h := by
  have hgrid : OnGrid (2 ^ 64 * unitsPerOne) := ⟨1, 213, by decide, by decide, by decide +kernel⟩
  exact ⟨hgrid, ofRatio_of_onGrid hgrid (by decide +kernel)⟩

/-- The whole part of a number on the grid is on the grid. -/
theorem onGrid_whole {units : Nat} (h : OnGrid units) :
    OnGrid (units / unitsPerOne * unitsPerOne) := by
  obtain ⟨m, e, hm, he, rfl⟩ := h
  rcases Nat.lt_or_ge e 149 with hsmall | hlarge
  · have hone : unitsPerOne = 2 ^ (149 - e) * 2 ^ e := by
      rw [← Nat.pow_add, Nat.sub_add_cancel hsmall.le]
      rfl
    have hwhole : m * 2 ^ e / unitsPerOne = m / 2 ^ (149 - e) := by
      rw [hone, Nat.mul_div_mul_right _ _ (Nat.two_pow_pos e)]
    rw [hwhole]
    exact ⟨_, 149, (Nat.div_le_self _ _).trans_lt hm, by decide, rfl⟩
  · have hdvd : unitsPerOne ∣ m * 2 ^ e := Nat.dvd_mul_left_of_dvd (Nat.pow_dvd_pow 2 hlarge) m
    rw [Nat.div_mul_cancel hdvd]
    exact ⟨m, e, hm, he, rfl⟩

/-- An index that some number stands for is what its own value stands for. -/
theorem IsIndex.toIndex?_ofDecimal {index : UInt64} (h : IsIndex index) :
    (ofDecimal index.toNat 0).toIndex? = some index := by
  obtain ⟨value, hvalue⟩ := h
  cases value with
  | nan | infinite => cases hvalue
  | finite negative units hgrid =>
    rw [toIndex?] at hvalue
    split at hvalue
    · cases hvalue
    · obtain rfl := Option.some.inj hvalue
      generalize hwhole : units / unitsPerOne = whole
      rcases Nat.lt_or_ge whole (2 ^ 64) with hsmall | hlarge
      · have hmin : min whole (2 ^ 64 - 1) = whole := by omega
        have hindex : (UInt64.ofNat whole).toNat = whole := Nat.mod_eq_of_lt hsmall
        have hgrid := hwhole ▸ onGrid_whole hgrid
        have hnumber : ofDecimal whole 0 = .finite false (whole * unitsPerOne) hgrid :=
          ofRatio_of_onGrid hgrid hgrid.roundToGrid_one
        have hback : whole * unitsPerOne / unitsPerOne = whole :=
          Nat.mul_div_cancel _ (Nat.two_pow_pos 149)
        rw [hmin, hindex, hnumber, toIndex?, hback, hmin]
        rfl
      · have hmin : min whole (2 ^ 64 - 1) = 2 ^ 64 - 1 := by omega
        obtain ⟨hgrid, hnumber⟩ := ofDecimal_largest
        rw [hmin, show (UInt64.ofNat (2 ^ 64 - 1)).toNat = 2 ^ 64 - 1 from rfl, hnumber]
        rfl

end Index

end Single

end NumericScript
