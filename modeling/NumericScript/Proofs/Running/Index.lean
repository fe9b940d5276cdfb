import NumericScript.Proofs.Running.Restoring

/-!
# Indices

An index is a number cut to a whole one, toward zero. Reading an element and assigning it refuse the
same numbers and go to the same place. All whole numbers from `2 ^ 64` on share the largest index,
so that elements so far out are not kept apart; below they are.
-/

namespace NumericScript

namespace Single

/-- The whole number that a finite number is cut to, toward zero. -/
def truncated? : Single → Option Int
  | finite negative units _ => some ((signed negative units).tdiv unitsPerOne)
  | _ => none

/-- A number without an index: one without an end or a value, or one cut to less than zero. -/
def Unusable (value : Single) : Prop :=
  value = .nan ∨ (∃ negative, value = .infinite negative) ∨
    ∃ whole < 0, value.truncated? = some whole

/-- The index of a whole number, the largest one for whatever is too large. -/
def clamped (whole : Int) : UInt64 := UInt64.ofNat (min whole.toNat (2 ^ 64 - 1))

private theorem toNat_clamped (whole : Int) :
    (clamped whole).toNat = min whole.toNat (2 ^ 64 - 1) :=
  Nat.mod_eq_of_lt (by omega)

/-- A sign does not change where a number is cut. -/
theorem signed_tdiv (negative : Bool) (units : Nat) :
    (signed negative units).tdiv unitsPerOne = signed negative (units / unitsPerOne) := by
  cases negative with
  | false => exact (Int.ofNat_tdiv units unitsPerOne).symm
  | true =>
    rw [signed, signed, if_pos rfl, if_pos rfl, Int.neg_tdiv]
    exact congrArg Neg.neg (Int.ofNat_tdiv units unitsPerOne).symm

private theorem toIndex?_of_truncated {value : Single} {whole : Int}
    (h : value.truncated? = some whole) :
    value.toIndex? = if whole < 0 then none else some (clamped whole) := by
  cases value with
  | nan | infinite => cases h
  | finite negative units hgrid =>
    rw [truncated?, signed_tdiv] at h
    obtain rfl := Option.some.inj h
    generalize hwhole : units / unitsPerOne = n
    simp only [toIndex?, hwhole, signed, clamped]
    cases negative with
    | false => simp
    | true =>
      rcases Nat.eq_zero_or_pos n with rfl | hpos
      · rfl
      · simp [hpos.ne']

private theorem toIndex?_eq_none {value : Single} : value.toIndex? = none ↔ value.Unusable := by
  cases hwhole : value.truncated? with
  | none =>
    cases value with
    | nan => exact iff_of_true rfl (.inl rfl)
    | infinite negative => exact iff_of_true rfl (.inr (.inl ⟨negative, rfl⟩))
    | finite => cases hwhole
  | some whole =>
    have hfinite : value ≠ .nan ∧ ∀ negative, value ≠ .infinite negative := by
      constructor
      · rintro rfl
        cases hwhole
      · rintro negative rfl
        cases hwhole
    rw [toIndex?_of_truncated hwhole, Unusable, hwhole]
    simp [hfinite]

/-- The largest index is no whole part: it has more significant bits than a number can hold. -/
theorem truncated?_ne_largest (value : Single) : value.truncated? ≠ some (2 ^ 64 - 1) := by
  cases value with
  | nan | infinite => nofun
  | finite negative units hgrid =>
    intro h
    rw [truncated?, signed_tdiv] at h
    have hmagnitude : ∀ n : Nat, signed negative n = 2 ^ 64 - 1 → n = 2 ^ 64 - 1 := by
      intro n hn
      cases negative <;> simp [signed] at hn <;> omega
    have hwhole := hmagnitude _ (Option.some.inj h)
    obtain ⟨m, e, hm, -, heq⟩ := hwhole ▸ onGrid_whole hgrid
    rcases Nat.lt_or_ge 149 e with hlarge | hsmall
    · have hpow : 2 ^ e = 2 * 2 ^ (e - 150) * unitsPerOne := by
        rw [unitsPerOne, ← Nat.pow_succ', ← Nat.pow_add]
        congr 1
        omega
      rw [hpow, ← Nat.mul_assoc] at heq
      have hodd := Nat.eq_of_mul_eq_mul_right (Nat.two_pow_pos 149) heq
      rw [Nat.mul_left_comm] at hodd
      omega
    · have hpow : unitsPerOne = 2 ^ (149 - e) * 2 ^ e := by
        rw [← Nat.pow_add, Nat.sub_add_cancel hsmall]
        rfl
      rw [hpow, ← Nat.mul_assoc] at heq
      have := Nat.eq_of_mul_eq_mul_right (Nat.two_pow_pos e) heq
      have := Nat.le_mul_of_pos_right (2 ^ 64 - 1) (Nat.two_pow_pos (149 - e))
      omega

/-- Different whole parts have different indices, unless both are too large for an index. -/
theorem clamped_eq_iff {value other : Single} {whole otherWhole : Int}
    (h : value.truncated? = some whole) (hother : other.truncated? = some otherWhole)
    (hle : 0 ≤ whole) (hotherLe : 0 ≤ otherWhole) :
    clamped whole = clamped otherWhole ↔
      whole = otherWhole ∨ 2 ^ 64 ≤ whole ∧ 2 ^ 64 ≤ otherWhole := by
  have hne : whole ≠ 2 ^ 64 - 1 := fun heq => truncated?_ne_largest value (heq ▸ h)
  have hotherNe : otherWhole ≠ 2 ^ 64 - 1 := fun heq => truncated?_ne_largest other (heq ▸ hother)
  rw [← UInt64.toNat_inj, toNat_clamped, toNat_clamped]
  omega

end Single

section Elements

/-- A reading after one with a result adds its missing names to those of the first. -/
theorem Reading.bind_of_ok {α β : Type} {reading : Reading α} {a : α} (h : reading.result = .ok a)
    (next : α → Reading β) :
    reading >>= next = ⟨reading.missing ++ (next a).missing, (next a).result⟩ := by
  show reading.andThen next = _
  rw [andThen, h]

variable {store : Store} {name : String} {index value : Expr} {v written : Single}

private theorem Expr.evalIndex_refused (h : (index.eval store).result = .ok v)
    (hnone : v.toIndex? = none) :
    index.evalIndex store = ⟨(index.eval store).missing, .error ⟨index.span, .invalidIndex v⟩⟩ := by
  rw [evalIndex, Reading.bind_of_ok h, Reading.index, hnone]
  simp

/-- An index whose value can be taken is that position. -/
theorem Expr.evalIndex_taken {position : UInt64} (h : (index.eval store).result = .ok v)
    (hsome : v.toIndex? = some position) :
    index.evalIndex store = ⟨(index.eval store).missing, .ok position⟩ := by
  rw [evalIndex, Reading.bind_of_ok h, Reading.index, hsome]
  simp

private theorem Expr.eval_element_refused (h : (index.eval store).result = .ok v)
    (hnone : v.toIndex? = none) (span : Span) :
    ((element name index span).eval store).result = .error ⟨index.span, .invalidIndex v⟩ := by
  rw [eval, Reading.bind_of_ok h, Reading.index, hnone]
  rfl

private theorem Reading.look_ok (store : Store) (address : Address) :
    ∃ value, (look store address).result = .ok value := by
  rw [look]
  split <;> exact ⟨_, rfl⟩

private theorem Expr.eval_element_read {position : UInt64} (h : (index.eval store).result = .ok v)
    (hsome : v.toIndex? = some position) (span : Span) :
    ((element name index span).eval store).result =
      (Reading.look store (.element name position)).result := by
  rw [eval, Reading.bind_of_ok h, Reading.index, hsome]
  rfl

variable {machine : Machine}

/-- The index of an assignment is evaluated where its value has been, from the same numbers. -/
theorem Machine.assign_element (hvalue : (value.eval machine.env.store).result = .ok written)
    (place : Span) :
    machine.assign (.element name index place) value =
      match (index.evalIndex machine.env.store).result with
      | .error error => .failed error { machine with
          env := (machine.env.reportMissing (value.eval machine.env.store).missing).reportMissing
            (index.evalIndex machine.env.store).missing }
      | .ok position => .finished { machine with
          env := (((machine.env.reportMissing (value.eval machine.env.store).missing).reportMissing
            (index.evalIndex machine.env.store).missing).setElement name position written).2 } := by
  rw [assign_eq, Environment.assign, Environment.observe, hvalue]
  simp only [Environment.observe, EnvironmentOf.store_reportMissing]
  cases (index.evalIndex machine.env.store).result <;> rfl

/--
Indices are cut toward zero. If an index expression has a value, then reading the element and
assigning it fail, with the same error, exactly if that value is not a number, has no end or is cut
to less than zero. Otherwise both go to the element at the whole number that the value is cut to or,
from `2 ^ 64` on, at the largest index. So values that are cut to different whole numbers go to
different elements, unless both are that large.
-/
theorem index_cut_and_clamped (machine : Machine) (name : String) {index value : Expr}
    {v written : Single} (hindex : (index.eval machine.env.store).result = .ok v)
    (hvalue : (value.eval machine.env.store).result = .ok written) (span place : Span) :
    (((Expr.element name index span).eval machine.env.store).result =
        .error ⟨index.span, .invalidIndex v⟩ ↔ v.Unusable) ∧
      ((∃ after, machine.assign (.element name index place) value =
        .failed ⟨index.span, .invalidIndex v⟩ after) ↔ v.Unusable) ∧
      (∀ whole, v.truncated? = some whole → 0 ≤ whole →
        ((Expr.element name index span).eval machine.env.store).result =
            (Reading.look machine.env.store (.element name (Single.clamped whole))).result ∧
          machine.assign (.element name index place) value = .finished { machine with
            env := (((machine.env.reportMissing
              (value.eval machine.env.store).missing).reportMissing
                (index.eval machine.env.store).missing).setElement name (Single.clamped whole)
                  written).2 } ∧
          ((Single.clamped whole).toNat : Int) = min whole (2 ^ 64 - 1)) ∧
      ∀ (other : Single) (whole otherWhole : Int), v.truncated? = some whole →
        other.truncated? = some otherWhole →
        0 ≤ whole → 0 ≤ otherWhole →
        (Address.element name (Single.clamped whole) = .element name (Single.clamped otherWhole) ↔
          whole = otherWhole ∨ 2 ^ 64 ≤ whole ∧ 2 ^ 64 ≤ otherWhole) := by
  have hread : ((Expr.element name index span).eval machine.env.store).result =
      .error ⟨index.span, .invalidIndex v⟩ ↔ v.toIndex? = none := by
    refine ⟨fun h => ?_, fun h => Expr.eval_element_refused hindex h span⟩
    cases hposition : v.toIndex? with
    | none => rfl
    | some position =>
      obtain ⟨number, hnumber⟩ := Reading.look_ok machine.env.store (.element name position)
      rw [Expr.eval_element_read hindex hposition, hnumber] at h
      cases h
  have hassign : (∃ after, machine.assign (.element name index place) value =
      .failed ⟨index.span, .invalidIndex v⟩ after) ↔ v.toIndex? = none := by
    rw [Machine.assign_element hvalue]
    cases hposition : v.toIndex? with
    | none =>
      rw [Expr.evalIndex_refused hindex hposition]
      exact iff_of_true ⟨_, rfl⟩ rfl
    | some position =>
      rw [Expr.evalIndex_taken hindex hposition]
      exact iff_of_false (fun ⟨_, h⟩ => by cases h) (by simp)
  refine ⟨hread.trans Single.toIndex?_eq_none, hassign.trans Single.toIndex?_eq_none,
    fun whole hwhole hle => ?_, fun other whole otherWhole hwhole hother hle hle' => ?_⟩
  · have hposition : v.toIndex? = some (Single.clamped whole) := by
      rw [Single.toIndex?_of_truncated hwhole, if_neg hle.not_gt]
    refine ⟨Expr.eval_element_read hindex hposition span, ?_, ?_⟩
    · rw [Machine.assign_element hvalue, Expr.evalIndex_taken hindex hposition]
    · rw [Single.toNat_clamped]
      omega
  · rw [Address.element.injEq, Single.clamped_eq_iff hwhole hother hle hle']
    exact and_iff_right rfl

/-- An index that is cut to two. -/
def fractionalIndex : Expr := .number (.ofDecimal 25 1) ⟨2, 5, 0⟩

/-- An index of two and a half addresses the element at two. -/
theorem index_cut_and_clamped_fractional :
    (Single.ofDecimal 25 1).truncated? = some 2 ∧
      ∃ env, Machine.assign ⟨.fresh, #[]⟩ (.element "A" fractionalIndex ⟨0, 6, 0⟩)
          (.number .one ⟨7, 8, 0⟩) = .finished ⟨env, #[]⟩ ∧
        env.store[Address.element "A" 2]? = some .one := by
  have hcut := index_cut_and_clamped ⟨.fresh, #[]⟩ "A"
    (show (fractionalIndex.eval Environment.fresh.store).result = .ok (.ofDecimal 25 1) from rfl)
    (show ((Expr.number .one ⟨7, 8, 0⟩).eval Environment.fresh.store).result = .ok .one from rfl)
    ⟨0, 6, 0⟩ ⟨0, 6, 0⟩
  have hwhole : (Single.ofDecimal 25 1).truncated? = some 2 := by decide +kernel
  obtain ⟨-, hassign, -⟩ := hcut.2.2.1 2 hwhole (by decide)
  refine ⟨hwhole, _, hassign, ?_⟩
  decide +kernel

/-- A script that sets one array at `2 ^ 64` and at `2 ^ 65`. -/
def farSource : String := "A[18446744073709551616]=1\nA[36893488147419103232]=2"

/-- Elements that are too far out meet. -/
theorem far_elements_meet :
    (Single.ofNumeral? "18446744073709551616".toList).bind Single.truncated? = some (2 ^ 64) ∧
      (Single.ofNumeral? "36893488147419103232".toList).bind Single.truncated? = some (2 ^ 65) ∧
      ∃ machine, runScript {} 1 farSource = .ok (.finished machine) ∧
        machine.env.store.arrays = [("A", [(18446744073709551615, .ofDecimal 2 0)])] := by
  have hrun : ((runScript {} 1 farSource).toOption.bind Outcome.machine?).map
      (·.env.store.arrays) = some [("A", [(18446744073709551615, .ofDecimal 2 0)])] := by
    decide +kernel
  refine ⟨by decide +kernel, by decide +kernel, ?_⟩
  obtain ⟨machine, hmachine, harrays⟩ := Option.map_eq_some_iff.mp hrun
  obtain ⟨outcome, houtcome, hfinished⟩ := Option.bind_eq_some_iff.mp hmachine
  cases outcome with
  | failed | unfinished => cases hfinished
  | finished last =>
    obtain rfl := Option.some.inj hfinished
    exact ⟨last, toOption_eq_some.mp houtcome, harrays⟩

end Elements

end NumericScript
