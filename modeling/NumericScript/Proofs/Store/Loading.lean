import NumericScript.Proofs.Store.Access

/-!
# Loading arrays

To load an array is to write its elements one after the other, from the first on. With an accepted
name each value is stored at its position, all else is stored as it was, and each write reports
whether the element was set before the load. With a refused name nothing is stored, and the name is
refused once for each value. An index has 64 bits, so that there are no more than `2⁶⁴` values, each
of which has an element of its own.
-/

namespace NumericScript

/-- The element at a position is the one with that index, if the position is an index. -/
theorem Address.element_eq_ofNat_iff {name : String} {index : UInt64} {position : Nat}
    (h : position < 2 ^ 64) :
    element name index = element name (.ofNat position) ↔ index.toNat = position := by
  rw [element.injEq, ← UInt64.toNat_inj, UInt64.toNat_ofNat_of_lt' h]
  exact and_iff_right rfl

/-- The key of the element at a position. -/
theorem Address.key_element_ofNat (name : String) {position : Nat} (h : position < 2 ^ 64) :
    (element name (.ofNat position)).key = name ++ "$" ++ toString position := by
  apply String.toList_inj.mp
  rw [key, UInt64.toNat_ofNat_of_lt' h, Nat.toString_eq_ofList_toDigits]
  simp [keyDelimiter]

namespace EnvironmentOf

variable {α : Type}

/-- What is reported when a value is written to an address. -/
def writeReport (env : EnvironmentOf α) (address : Address) (value : α) : DiagnosticOf α :=
  if address ∈ env.store then .updated address value else .created address value

variable (env : EnvironmentOf α) {name : String}

private theorem journal_write (address : Address) (value : α) :
    (env.write address value).journal.toList =
      env.journal.toList ++ [env.writeReport address value] := by
  simp only [write, writeReport, Array.toList_push, Std.ExtTreeMap.mem_iff_contains]

/-- A write elsewhere does not count for what a later write reports. -/
theorem writeReport_write {address other : Address} (h : other ≠ address) (value later : α) :
    (env.write address value).writeReport other later = env.writeReport other later := by
  have hmem : other ∈ (env.write address value).store ↔ other ∈ env.store := by
    rw [Std.ExtTreeMap.mem_iff_isSome_getElem?, getElem?_write, if_neg h,
      Std.ExtTreeMap.mem_iff_isSome_getElem?]
  exact if_congr hmem rfl rfl

/-- The first value is written to its position, and the others are loaded after it. -/
theorem loadArrayFrom_cons (start : Nat) (value : α) (values : List α) :
    loadArrayFrom name (.ofNat start) (value :: values) env =
      loadArrayFrom name (.ofNat (start + 1)) values
        (env.setElement name (.ofNat start) value).2 := by
  rw [loadArrayFrom, UInt64.ofNat_add]
  rfl

section Accepted

variable (haccepted : violation? false name = none)

include haccepted

private theorem loadArrayFrom_cons_of_accepted (start : Nat) (value : α) (values : List α) :
    loadArrayFrom name (.ofNat start) (value :: values) env =
      loadArrayFrom name (.ofNat (start + 1)) values
        (env.write (.element name (.ofNat start)) value) := by
  rw [loadArrayFrom_cons, setElement, haccepted]

/-- The elements from a position on have the values that are loaded there, if there are any. -/
theorem getElem?_element_loadArrayFrom (start : Nat) (values : List α)
    (hlength : start + values.length ≤ 2 ^ 64) (index : UInt64) :
    (loadArrayFrom name (.ofNat start) values env).store[Address.element name index]? =
      if start ≤ index.toNat then
        values[index.toNat - start]?.or env.store[Address.element name index]?
      else env.store[Address.element name index]? := by
  induction values generalizing start env with
  | nil => simp [loadArrayFrom]
  | cons value values ih =>
    rw [List.length_cons] at hlength
    rw [loadArrayFrom_cons_of_accepted env haccepted, ih _ (start + 1) (by omega), getElem?_write]
    simp only [Address.element_eq_ofNat_iff (show start < 2 ^ 64 by omega)]
    -- The first value is written at `start`; the others are further on and leave it there.
    rcases Nat.lt_trichotomy index.toNat start with hlt | heq | hgt
    · rw [if_neg (by omega), if_neg (by omega), if_neg (by omega)]
    · rw [if_neg (by omega), if_pos heq, if_pos (by omega), heq, Nat.sub_self]
      rfl
    · obtain ⟨more, hmore⟩ := Nat.exists_eq_add_of_lt hgt
      rw [if_pos (by omega), if_neg (by omega), if_pos (by omega), hmore]
      rw [show start + more + 1 - (start + 1) = more by omega,
        show start + more + 1 - start = more + 1 by omega, List.getElem?_cons_succ]

/-- Scalars and other arrays are left as they are. -/
theorem getElem?_loadArrayFrom_of_ne (start : Nat) (values : List α) {address : Address}
    (h : ∀ index, address ≠ .element name index) :
    (loadArrayFrom name (.ofNat start) values env).store[address]? = env.store[address]? := by
  induction values generalizing start env with
  | nil => rfl
  | cons value values ih =>
    rw [loadArrayFrom_cons_of_accepted env haccepted, ih, getElem?_write, if_neg (h _)]

/-- The writes are reported in order. None of them sets an element that a later one writes to. -/
theorem journal_loadArrayFrom (start : Nat) (values : List α)
    (hlength : start + values.length ≤ 2 ^ 64) :
    (loadArrayFrom name (.ofNat start) values env).journal.toList =
      env.journal.toList ++ values.mapIdx fun i value =>
        env.writeReport (.element name (.ofNat (start + i))) value := by
  induction values generalizing start env with
  | nil => exact (List.append_nil _).symm
  | cons value values ih =>
    rw [List.length_cons] at hlength
    rw [loadArrayFrom_cons_of_accepted env haccepted, ih _ (start + 1) (by omega),
      journal_write, List.append_assoc, List.mapIdx_cons]
    refine congrArg _ (congrArg _ (List.mapIdx_eq_mapIdx_iff.mpr fun i hi => ?_))
    have hlater : start + (i + 1) < 2 ^ 64 := by omega
    rw [show start + 1 + i = start + (i + 1) by omega]
    refine writeReport_write env (fun heq => ?_) value values[i]
    rw [Address.element_eq_ofNat_iff (by omega), UInt64.toNat_ofNat_of_lt' hlater] at heq
    omega

end Accepted

/-- A refused name is refused for each value, and nothing is stored. -/
theorem loadArrayFrom_of_refused {reason : NameViolation} (h : violation? false name = some reason)
    (start : Nat) (values : List α) (hlength : start + values.length ≤ 2 ^ 64) :
    (loadArrayFrom name (.ofNat start) values env).store = env.store ∧
    (loadArrayFrom name (.ofNat start) values env).journal.toList = env.journal.toList ++
      values.mapIdx fun i _ =>
        DiagnosticOf.invalid (name ++ "$" ++ toString (start + i)) reason := by
  induction values generalizing start env with
  | nil => exact ⟨rfl, (List.append_nil _).symm⟩
  | cons value values ih =>
    rw [List.length_cons] at hlength
    have hfirst : (env.setElement name (.ofNat start) value).2 =
        env.report (.invalid (name ++ "$" ++ toString start) reason) := by
      rw [setElement, h, Address.key_element_ofNat name (by omega)]
    obtain ⟨hstore, hjournal⟩ :=
      ih (env.setElement name (.ofNat start) value).2 (start + 1) (by omega)
    rw [loadArrayFrom_cons, hstore, hjournal, hfirst, List.mapIdx_cons]
    refine ⟨rfl, ?_⟩
    rw [report, Array.toList_push, List.append_assoc]
    refine congrArg _ (congrArg _ (List.mapIdx_eq_mapIdx_iff.mpr fun i _ => ?_))
    rw [show start + 1 + i = start + (i + 1) by omega]

end EnvironmentOf

/--
To load an array writes its elements and touches nothing else, for as many values as there can be
indices, of whatever kind they are. Under an accepted name the element with an index is afterwards
the value at that position, and from the number of values on it is what it was; the other arrays and
the scalars are as they were; and there is one report for each value, in order, of an update if that
element was set before the load and of a creation if not. Under a refused name the store is as it
was, and there is one report for each value, in order, that refuses its key.
-/
theorem loading_writes_elements {α : Type} (env : EnvironmentOf α) (name : String) {values : List α}
    (hlength : values.length ≤ 2 ^ 64) :
    (violation? false name = none →
      (∀ index : UInt64, (env.loadArray name values).store[Address.element name index]? =
        values[index.toNat]?.or env.store[Address.element name index]?) ∧
      (∀ address : Address, (∀ index, address ≠ .element name index) →
        (env.loadArray name values).store[address]? = env.store[address]?) ∧
      (env.loadArray name values).journal.toList = env.journal.toList ++
        values.mapIdx fun i value =>
          if .element name (.ofNat i) ∈ env.store then
            DiagnosticOf.updated (.element name (.ofNat i)) value
          else DiagnosticOf.created (.element name (.ofNat i)) value) ∧
    ∀ reason, violation? false name = some reason →
      (env.loadArray name values).store = env.store ∧
      (env.loadArray name values).journal.toList = env.journal.toList ++
        values.mapIdx fun i _ => DiagnosticOf.invalid (name ++ "$" ++ toString i) reason := by
  have hfits : 0 + values.length ≤ 2 ^ 64 := by rwa [Nat.zero_add]
  refine ⟨fun haccepted => ⟨fun index => ?_, fun address hother => ?_, ?_⟩,
    fun reason hrefused => ?_⟩
  · have helement := EnvironmentOf.getElem?_element_loadArrayFrom env haccepted 0 values hfits index
    rwa [if_pos (Nat.zero_le _)] at helement
  · exact EnvironmentOf.getElem?_loadArrayFrom_of_ne env haccepted 0 values hother
  · have hjournal := EnvironmentOf.journal_loadArrayFrom env haccepted 0 values hfits
    simp only [Nat.zero_add] at hjournal
    exact hjournal
  · have hrefuse := EnvironmentOf.loadArrayFrom_of_refused env hrefused 0 values hfits
    simp only [Nat.zero_add] at hrefuse
    exact hrefuse

/-- An environment with two elements of an array. -/
def twoElements : Environment :=
  ((Environment.fresh.setElement "A" 1 .one).2.setElement "A" 5 .one).2

/-- Values loaded over one element and next to another one, and under a keyword. -/
theorem loading_writes_elements_overlap :
    [Single.zero, .pi].length ≤ 2 ^ 64 ∧ violation? false "A" = none ∧
      (twoElements.loadArray "A" [.zero, .pi]).store[Address.element "A" 1]? = some .pi ∧
      (twoElements.loadArray "A" [.zero, .pi]).store[Address.element "A" 5]? = some .one ∧
      (twoElements.loadArray "A" [.zero, .pi]).journal.toList = twoElements.journal.toList ++
        [DiagnosticOf.created (.element "A" 0) .zero, DiagnosticOf.updated (.element "A" 1) .pi] ∧
      violation? false "if" = some (.reserved "if") ∧
      (twoElements.loadArray "if" [.zero, .pi]).journal.toList = twoElements.journal.toList ++
        [DiagnosticOf.invalid "if$0" (.reserved "if"),
          DiagnosticOf.invalid "if$1" (.reserved "if")] := by
  have hlength : [Single.zero, .pi].length ≤ 2 ^ 64 := by decide
  have haccepted : violation? false "A" = none := by decide
  have hrefused : violation? false "if" = some (.reserved "if") := by decide
  obtain ⟨helements, -, hjournal⟩ := (loading_writes_elements twoElements "A" hlength).1 haccepted
  obtain ⟨-, hrefusals⟩ := (loading_writes_elements twoElements "if" hlength).2 _ hrefused
  have hnew : Address.element "A" 0 ∉ twoElements.store := by decide +kernel
  have hold : Address.element "A" 1 ∈ twoElements.store := by decide +kernel
  have hfar : twoElements.store[Address.element "A" 5]? = some .one := by decide +kernel
  refine ⟨hlength, haccepted, helements 1, (helements 5).trans hfar, ?_, hrefused, hrefusals⟩
  rw [hjournal]
  simp [hnew, hold]

end NumericScript
