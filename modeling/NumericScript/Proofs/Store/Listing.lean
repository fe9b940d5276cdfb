import Mathlib.Data.String.Basic
import NumericScript.Proofs.Print.Scan
import NumericScript.Store.Basic

/-!
# Listing a store

The entries of a store come in the order of their addresses. So the listed scalars are in the order
of their names, the listed arrays as well, and the elements of an array in the order of their
indices. Whatever is set is listed once, with its value. Accepted names are in the same order as
their bytes.
-/

namespace NumericScript

section Names

/-- The bytes of a name. -/
def nameBytes (name : String) : List UInt8 := name.toUTF8.data.toList

/-- A name comes before another one, byte by byte. -/
def NameBefore (a b : String) : Prop := List.Lex (· < ·) (nameBytes a) (nameBytes b)

/-- The characters of a scalar's name are those of words. -/
theorem isWordChar_of_isScalarName {name : List Char} (h : isScalarName name = true) :
    ∀ c ∈ name, isWordChar c := by
  unfold isScalarName matchesName at h
  split at h
  · cases h
  · rename_i first rest hdrop
    obtain ⟨halpha, hrest⟩ := Bool.and_eq_true_iff.mp h
    have hname := List.takeWhile_append_dropWhile (p := fun c => c.isDigit || c = '_') (l := name)
    rw [hdrop] at hname
    intro c hc
    rw [← hname] at hc
    rcases List.mem_append.mp hc with hc | hc
    · have hfront := List.all_eq_true.mp List.all_takeWhile c hc
      simp only [Bool.or_eq_true, decide_eq_true_eq] at hfront
      rcases hfront with hdigit | rfl
      · exact isWordChar_of_isDigit hdigit
      · decide
    · rcases List.mem_cons.mp hc with rfl | hc
      · simp [isWordChar, Char.isAlphanum, halpha]
      · exact List.all_eq_true.mp hrest c hc

private theorem utf8EncodeChar_of_isWordChar {c : Char} (h : isWordChar c) :
    String.utf8EncodeChar c = [UInt8.ofNat c.toNat] := by
  have hle : c.val.toNat ≤ 127 := by
    have hrange := toNat_of_isWordChar h
    unfold Char.toNat at hrange
    omega
  unfold String.utf8EncodeChar
  exact if_pos hle

private theorem flatMap_utf8EncodeChar {text : List Char} (h : ∀ c ∈ text, isWordChar c) :
    text.flatMap String.utf8EncodeChar = text.map fun c => UInt8.ofNat c.toNat := by
  induction text with
  | nil => rfl
  | cons c rest ih =>
    obtain ⟨hc, hrest⟩ := List.forall_mem_cons.mp h
    rw [List.flatMap_cons, utf8EncodeChar_of_isWordChar hc, ih hrest]
    rfl

private theorem nameBytes_eq {name : String} (h : ∀ c ∈ name.toList, isWordChar c) :
    nameBytes name = name.toList.map fun c => UInt8.ofNat c.toNat := by
  rw [nameBytes, String.toUTF8, ← String.utf8Encode_toList, List.utf8Encode, List.data_toByteArray,
    flatMap_utf8EncodeChar h]

private theorem ofNat_lt_of_lt {c d : Char} (hc : isWordChar c) (hd : isWordChar d) (h : c < d) :
    UInt8.ofNat c.toNat < UInt8.ofNat d.toNat := by
  have hrange := toNat_of_isWordChar hc
  have hrange' := toNat_of_isWordChar hd
  have hlt : c.toNat < d.toNat := UInt32.lt_iff_toNat_lt.mp h
  rw [UInt8.lt_iff_toNat_lt, UInt8.toNat_ofNat', UInt8.toNat_ofNat']
  omega

/-- Names of words' characters that are in order as strings are in the order of their bytes. -/
theorem nameBefore_of_lt {a b : String} (ha : ∀ c ∈ a.toList, isWordChar c)
    (hb : ∀ c ∈ b.toList, isWordChar c) (h : a < b) : NameBefore a b := by
  rw [NameBefore, nameBytes_eq ha, nameBytes_eq hb]
  have hlex : List.Lex (· < ·) a.toList b.toList := h
  generalize a.toList = xs at ha hlex
  generalize b.toList = ys at hb hlex
  induction hlex with
  | nil => exact .nil
  | rel hlt => exact .rel (ofNat_lt_of_lt (ha _ List.mem_cons_self) (hb _ List.mem_cons_self) hlt)
  | cons _ ih =>
    have ha := fun c hc => ha c (List.mem_cons_of_mem _ hc)
    have hb := fun c hc => hb c (List.mem_cons_of_mem _ hc)
    exact .cons (ih ha hb)

end Names

section Listing

variable {name other : String} {index index' : UInt64}

private theorem Address.compare_scalar :
    compare (scalar name) (scalar other) = .lt ↔ name < other := by
  rw [compare_eq]
  simp only [isElement, Address.name, Address.index, Std.ReflOrd.compare_self, Ordering.eq_then,
    Ordering.then_eq]
  exact compareOfLessAndEq_eq_lt

private theorem Address.compare_element :
    compare (element name index) (element other index') = .lt ↔
      name < other ∨ name = other ∧ index < index' := by
  rw [compare_eq]
  simp only [isElement, Address.name, Address.index, Std.ReflOrd.compare_self, Ordering.eq_then,
    Ordering.then_eq_lt, Std.LawfulEqOrd.compare_eq_iff_eq]
  exact or_congr compareOfLessAndEq_eq_lt (and_congr_right fun _ => compareOfLessAndEq_eq_lt)

namespace StoreOf

variable {α : Type} {store : StoreOf α} {value : α}

/-- A scalar is listed with the value that it has. -/
theorem mem_scalars : (name, value) ∈ store.scalars ↔ store[Address.scalar name]? = some value := by
  rw [scalars, List.mem_filterMap, ← Std.ExtTreeMap.mem_toList_iff_getElem?_eq_some]
  constructor
  · rintro ⟨⟨address, value'⟩, hm, heq⟩
    cases address with
    | scalar name' =>
      obtain ⟨rfl, rfl⟩ := Prod.mk.inj (Option.some.inj heq)
      exact hm
    | element => cases heq
  · exact fun hm => ⟨_, hm, rfl⟩

/-- The scalars are listed in the order of their names. -/
theorem ordered_scalars (store : StoreOf α) : store.scalars.Pairwise fun a b => a.1 < b.1 := by
  rw [scalars, List.pairwise_filterMap]
  refine Std.ExtTreeMap.ordered_keys_toList.imp ?_
  rintro ⟨address, _⟩ ⟨address', _⟩ hlt entry hentry entry' hentry'
  cases address with
  | element => cases hentry
  | scalar name =>
    cases address' with
    | element => cases hentry'
    | scalar name' =>
      obtain rfl := Option.some.inj hentry
      obtain rfl := Option.some.inj hentry'
      exact Address.compare_scalar.mp hlt

/-- Arrays in order: their names ascend, none is empty, and their indices ascend. -/
structure InOrder (arrays : List (String × List (UInt64 × α))) : Prop where
  names : arrays.Pairwise fun a b => a.1 < b.1
  nonempty : ∀ array ∈ arrays, array.2 ≠ []
  indices : ∀ array ∈ arrays, array.2.Pairwise fun a b => a.1 < b.1

/-- Whether an element is listed with a value. -/
def Lists (arrays : List (String × List (UInt64 × α))) (name : String) (index : UInt64)
    (value : α) : Prop :=
  ∃ elements, (name, elements) ∈ arrays ∧ (index, value) ∈ elements

private theorem lists_consElement {arrays : List (String × List (UInt64 × α))} {value' : α} :
    Lists (consElement name index value arrays) other index' value' ↔
      (other = name ∧ index' = index ∧ value' = value) ∨ Lists arrays other index' value' := by
  rcases arrays with _ | ⟨⟨first, elements⟩, later⟩
  · simp [consElement, Lists]
  · rw [consElement]
    split
    · rename_i hfirst
      subst hfirst
      simp only [Lists, List.mem_cons, Prod.mk.injEq]
      constructor
      · rintro ⟨_, ⟨rfl, rfl⟩ | hm, hmem⟩
        · rcases List.mem_cons.mp hmem with heq | hmem
          · exact .inl ⟨rfl, Prod.mk.inj heq⟩
          · exact .inr ⟨elements, .inl ⟨rfl, rfl⟩, hmem⟩
        · exact .inr ⟨_, .inr hm, hmem⟩
      · rintro (⟨rfl, rfl, rfl⟩ | ⟨found, ⟨rfl, rfl⟩ | hm, hmem⟩)
        · exact ⟨_, .inl ⟨rfl, rfl⟩, List.mem_cons_self⟩
        · exact ⟨_, .inl ⟨rfl, rfl⟩, List.mem_cons_of_mem _ hmem⟩
        · exact ⟨found, .inr hm, hmem⟩
    · simp only [Lists, List.mem_cons, Prod.mk.injEq, or_and_right, exists_or, and_assoc]
      simp

/-- An element before those of arrays in order is put in its place. -/
theorem InOrder.consElement {arrays : List (String × List (UInt64 × α))} (h : InOrder arrays)
    (hbefore : ∀ other index' value', Lists arrays other index' value' →
      name < other ∨ name = other ∧ index < index') :
    InOrder (consElement name index value arrays) := by
  rcases arrays with _ | ⟨⟨first, elements⟩, later⟩
  · refine ⟨List.pairwise_singleton _ _, ?_, ?_⟩
    all_goals
      intro array hm
      obtain rfl := List.mem_singleton.mp hm
      simp
  · obtain ⟨hfirst, hlater⟩ := List.pairwise_cons.mp h.names
    obtain ⟨hnonempty, hnonemptyLater⟩ := List.forall_mem_cons.mp h.nonempty
    obtain ⟨hindices, hindicesLater⟩ := List.forall_mem_cons.mp h.indices
    rw [StoreOf.consElement]
    split
    · rename_i heq
      subst heq
      refine ⟨.cons hfirst hlater, List.forall_mem_cons.mpr ⟨List.cons_ne_nil _ _, hnonemptyLater⟩,
        List.forall_mem_cons.mpr ⟨.cons (fun entry hentry => ?_) hindices, hindicesLater⟩⟩
      rcases hbefore name entry.1 entry.2 ⟨elements, List.mem_cons_self, hentry⟩ with hlt | ⟨_, hlt⟩
      · exact absurd hlt (lt_irrefl name)
      · exact hlt
    · rename_i hne
      -- The first array has an element, which comes after the new one but is not in its array.
      obtain ⟨entry, rest, hentry⟩ := List.exists_cons_of_ne_nil hnonempty
      have hlt : name < first := by
        have hlists : Lists ((first, elements) :: later) first entry.1 entry.2 :=
          ⟨elements, List.mem_cons_self, by simp_all⟩
        exact (hbefore first entry.1 entry.2 hlists).resolve_right fun heq => hne heq.1
      refine ⟨.cons ?_ h.names, List.forall_mem_cons.mpr ⟨List.cons_ne_nil _ _, h.nonempty⟩,
        List.forall_mem_cons.mpr ⟨List.pairwise_singleton _ _, h.indices⟩⟩
      rintro array (_ | ⟨_, hm⟩)
      · exact hlt
      · exact lt_trans hlt (hfirst array hm)

/-- The arrays of some entries. -/
def arraysOf (entries : List (Address × α)) : List (String × List (UInt64 × α)) :=
  entries.foldr
    (fun
      | (.scalar _, _), later => later
      | (.element name index, value), later => StoreOf.consElement name index value later)
    []

private theorem lists_arraysOf {entries : List (Address × α)} :
    Lists (arraysOf entries) name index value ↔ (.element name index, value) ∈ entries := by
  induction entries with
  | nil => simp [arraysOf, Lists]
  | cons entry entries ih =>
    obtain ⟨address, found⟩ := entry
    cases address with
    | scalar => simpa [arraysOf] using ih
    | element =>
      rw [List.mem_cons, ← ih]
      refine lists_consElement.trans (or_congr_left ?_)
      simp [and_assoc]

private theorem inOrder_arraysOf {entries : List (Address × α)}
    (h : entries.Pairwise fun a b => compare a.1 b.1 = .lt) : InOrder (arraysOf entries) := by
  induction entries with
  | nil => exact ⟨.nil, nofun, nofun⟩
  | cons entry entries ih =>
    obtain ⟨hfirst, hlater⟩ := List.pairwise_cons.mp h
    obtain ⟨address, value⟩ := entry
    cases address with
    | scalar => exact ih hlater
    | element name index =>
      refine (ih hlater).consElement fun other index' value' hlists => ?_
      exact Address.compare_element.mp (hfirst _ (lists_arraysOf.mp hlists))

/-- An element is listed with the value that it has. -/
theorem lists_arrays :
    Lists store.arrays name index value ↔ store[Address.element name index]? = some value := by
  rw [← Std.ExtTreeMap.mem_toList_iff_getElem?_eq_some]
  exact lists_arraysOf

/-- The arrays are listed in order. -/
theorem inOrder_arrays (store : StoreOf α) : InOrder store.arrays :=
  inOrder_arraysOf Std.ExtTreeMap.ordered_keys_toList

end StoreOf

end Listing

end NumericScript
