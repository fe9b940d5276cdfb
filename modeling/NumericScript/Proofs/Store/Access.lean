import NumericScript.Proofs.Store.Rewriting

/-!
# Reads and writes by address

There are several ways to say what is read or written: a scalar's name, a key, or an array's name
and an index. Each of them stands for one address, and only the address counts. What is accepted at
an address is read back there in every way and is read nowhere else; what is refused changes
nothing, and neither does a read.
-/

namespace NumericScript

/-- What is read: a word, which is a scalar's name or a key, or an array's element. -/
inductive Lookup
  | word (key : String)
  | element (array : String) (index : UInt64)

/-- What is written: a scalar by its name, an element by a key, or an array's element. -/
inductive Entry
  | scalar (name : String)
  | key (word : String)
  | element (array : String) (index : UInt64)

/-- The address that is read. -/
def Lookup.address : Lookup → Address
  | word key => .ofKey key
  | element array index => .element array index

namespace Entry

/-- The address that is written. -/
def address : Entry → Address
  | scalar name => .scalar name
  | key word => .ofKey word
  | element array index => .element array index

/-- The word that is reported if the entry is refused. -/
def word : Entry → String
  | scalar name => name
  | key word => word
  | element array index => (Address.element array index).key

/--
The entries that are accepted: those with an accepted name. A key has to stand for an element, and
there may be no plus sign in it.
-/
def Admitted : Entry → Prop
  | scalar name => (Address.scalar name).Accepted
  | key word => (∃ array index, Address.ofKey word = .element array index) ∧
      (Address.ofKey word).Accepted ∧ '+' ∉ word.toList
  | element array index => (Address.element array index).Accepted

end Entry

namespace EnvironmentOf

variable {α : Type}

/-- Read in one of the ways. -/
def lookUp [Zero α] (env : EnvironmentOf α) : Lookup → α × EnvironmentOf α
  | .word key => env.get key
  | .element array index => env.getElement array index

/-- The environment after reads, one after the other. -/
def lookUpAll [Zero α] (env : EnvironmentOf α) (lookups : List Lookup) : EnvironmentOf α :=
  lookups.foldl (fun env lookup => (env.lookUp lookup).2) env

/-- Write in one of the ways. -/
def enter (env : EnvironmentOf α) (entry : Entry) (value : α) : Bool × EnvironmentOf α :=
  match entry with
  | .scalar name => env.set name value false
  | .key word => env.set word value true
  | .element array index => env.setElement array index value

variable {env : EnvironmentOf α}

section Reads

variable [Zero α]

private theorem lookUp_eq (env : EnvironmentOf α) (lookup : Lookup) :
    env.lookUp lookup = env.read lookup.address := by
  cases lookup <;> rfl

private theorem read_of_getElem? {address : Address} {value : α}
    (h : env.store[address]? = some value) : env.read address = (value, env) := by
  rw [read, h]

/-- Reading an address that is not set gives zero and reports its key. -/
theorem read_of_not_mem {address : Address} (h : address ∉ env.store) :
    env.read address = (0, env.report (.undefined address.key)) := by
  rw [read, Std.ExtTreeMap.getElem?_eq_none h]

/-- The value that is read depends on what is stored at the address. -/
theorem read_value (env : EnvironmentOf α) (address : Address) :
    (env.read address).1 = env.store[address]?.getD 0 := by
  unfold read
  split
  · rename_i value hvalue
    rw [hvalue, Option.getD_some]
  · rename_i hnone
    rw [hnone, Option.getD_none]

private theorem store_read (env : EnvironmentOf α) (address : Address) :
    (env.read address).2.store = env.store := by
  unfold read
  split <;> rfl

private theorem store_lookUpAll (env : EnvironmentOf α) (lookups : List Lookup) :
    (env.lookUpAll lookups).store = env.store := by
  induction lookups generalizing env with
  | nil => rfl
  | cons lookup lookups ih =>
    have hfirst : (env.lookUp lookup).2.store = env.store := by rw [lookUp_eq, store_read]
    exact (ih _).trans hfirst

end Reads

section Writes

variable {entry : Entry} {value : α}

/-- An accepted key stands for an element with an accepted name, and it has no plus sign. -/
theorem set_key (env : EnvironmentOf α) (word : String) (value : α) :
    (∃ array index, Address.ofKey word = .element array index ∧
        (Address.element array index).Accepted ∧ '+' ∉ word.toList ∧
        env.set word value true = (true, env.write (.element array index) value)) ∨
      ¬(Entry.key word).Admitted ∧
        ∃ reason, env.set word value true = (false, env.report (.invalid word reason)) := by
  rw [set]
  cases hviolation : violation? true word with
  | some reason =>
    refine .inr ⟨?_, reason, rfl⟩
    rintro ⟨⟨array, index, hkey⟩, haccepted, hplus⟩
    rw [hkey] at haccepted
    rw [Address.violation?_key hkey haccepted, if_neg hplus] at hviolation
    cases hviolation
  | none =>
    cases hkey : Address.ofKey word with
    | scalar name =>
      refine .inr ⟨?_, .pattern, rfl⟩
      rintro ⟨⟨array, index, helement⟩, _⟩
      cases hkey.symm.trans helement
    | element array index =>
      have haccepted := Address.accepted_of_key hviolation hkey
      have hplus : '+' ∉ word.toList := fun hplus => by
        rw [Address.violation?_key hkey haccepted, if_pos hplus] at hviolation
        cases hviolation
      exact .inl ⟨array, index, rfl, haccepted, hplus, rfl⟩

/-- An entry that is admitted is written at its address, and any other is refused with a report. -/
theorem enter_cases (env : EnvironmentOf α) (entry : Entry) (value : α) :
    entry.Admitted ∧ env.enter entry value = (true, env.write entry.address value) ∨
      ¬entry.Admitted ∧
        ∃ reason, env.enter entry value = (false, env.report (.invalid entry.word reason)) := by
  cases entry with
  | scalar name =>
    rw [enter, set]
    cases hname : violation? false name with
    | none => exact .inl ⟨hname, rfl⟩
    | some reason =>
      refine .inr ⟨fun haccepted => ?_, reason, rfl⟩
      cases hname.symm.trans haccepted
  | key word =>
    rcases env.set_key word value with ⟨array, index, hkey, haccepted, hplus, hset⟩ | hrefused
    · refine .inl ⟨⟨⟨array, index, hkey⟩, hkey ▸ haccepted, hplus⟩, ?_⟩
      rw [enter, hset, Entry.address, hkey]
    · exact .inr hrefused
  | element array index =>
    rw [enter, setElement]
    cases hname : violation? false array with
    | none => exact .inl ⟨hname, rfl⟩
    | some reason =>
      refine .inr ⟨fun haccepted => ?_, reason, rfl⟩
      cases hname.symm.trans haccepted

/-- What is written at an address is stored there, and all else is stored as before. -/
theorem getElem?_write (env : EnvironmentOf α) (address other : Address) (value : α) :
    (env.write address value).store[other]? =
      if other = address then some value else env.store[other]? := by
  refine Std.ExtTreeMap.getElem?_insert.trans (if_congr ?_ rfl rfl)
  rw [Std.LawfulEqOrd.compare_eq_iff_eq, eq_comm]

/-- Reads that come after a write give what is written, or what they gave before the write. -/
theorem lookUp_write [Zero α] (env : EnvironmentOf α) {address : Address} (value : α)
    (earlier : List Lookup) (lookup : Lookup) :
    (lookup.address = address →
      (((env.write address value).lookUpAll earlier).lookUp lookup) =
        (value, (env.write address value).lookUpAll earlier)) ∧
    (lookup.address ≠ address →
      (((env.write address value).lookUpAll earlier).lookUp lookup).1 = (env.lookUp lookup).1) := by
  have hstore := store_lookUpAll (env.write address value) earlier
  rw [lookUp_eq, lookUp_eq]
  refine ⟨fun heq => read_of_getElem? ?_, fun hne => ?_⟩
  · rw [hstore, getElem?_write, if_pos heq]
  · rw [read_value, read_value, hstore, getElem?_write, if_neg hne]

/-- A word is set after a write if it was set before or stands for the address that is written. -/
theorem contains_write [Zero α] (env : EnvironmentOf α) {address : Address} (value : α)
    (earlier : List Lookup) (key : String) :
    ((env.write address value).lookUpAll earlier).contains key =
      (decide (.ofKey key = address) || env.contains key) := by
  rw [contains, contains, store_lookUpAll, Bool.eq_iff_iff, Bool.or_eq_true, decide_eq_true_iff,
    ← Std.ExtTreeMap.mem_iff_contains, ← Std.ExtTreeMap.mem_iff_contains]
  refine Std.ExtTreeMap.mem_insert.trans (or_congr_left ?_)
  rw [Std.LawfulEqOrd.compare_eq_iff_eq, eq_comm]

end Writes

end EnvironmentOf

/-- An admitted entry has an accepted name, so that the key of its address stands for it. -/
theorem Entry.Admitted.ofKey_key {entry : Entry} (h : entry.Admitted) :
    Address.ofKey entry.address.key = entry.address := by
  refine Address.ofKey_key (Address.Accepted.named ?_)
  cases entry with
  | scalar => exact h
  | key => exact h.2.1
  | element => exact h

/--
The store follows the laws of reading and writing, whatever was done with the environment and of
whatever kind its values are.
An entry is accepted exactly if it is admitted. From then on all that is read at its address, in any
way and however often, is the value that was written, without a report; there is a word that reads
it; and whatever else is read, or found to be set or not, is as it was before. A refused entry
leaves the store alone and is reported once. A read leaves the store alone. It gives what is stored,
without a report, or it gives zero and is reported once, if nothing is stored at the address, which
for a word is when the word is not set.
-/
theorem reads_follow_writes {α : Type} [Zero α] (env : EnvironmentOf α) :
    (∀ (entry : Entry) (value : α), (env.enter entry value).1 = true ↔ entry.Admitted) ∧
    (∀ (entry : Entry) (value : α) (after : EnvironmentOf α),
      env.enter entry value = (true, after) →
        (Lookup.word entry.address.key).address = entry.address ∧
        ∀ earlier : List Lookup,
          (∀ lookup : Lookup,
            (lookup.address = entry.address → (after.lookUpAll earlier).lookUp lookup =
              (value, after.lookUpAll earlier)) ∧
            (lookup.address ≠ entry.address →
              ((after.lookUpAll earlier).lookUp lookup).1 = (env.lookUp lookup).1)) ∧
          ∀ key, (after.lookUpAll earlier).contains key =
            (decide (.ofKey key = entry.address) || env.contains key)) ∧
    (∀ (entry : Entry) (value : α) (after : EnvironmentOf α),
      env.enter entry value = (false, after) → after.store = env.store ∧
        ∃ reason, after.journal = env.journal.push (.invalid entry.word reason)) ∧
    (∀ (lookup : Lookup) (value : α) (after : EnvironmentOf α),
      env.lookUp lookup = (value, after) → after.store = env.store ∧
        (lookup.address ∈ env.store →
          env.store[lookup.address]? = some value ∧ after.journal = env.journal) ∧
        (lookup.address ∉ env.store →
          value = 0 ∧ after.journal = env.journal.push (.undefined lookup.address.key))) ∧
    ∀ key, env.contains key = false ↔ (Lookup.word key).address ∉ env.store := by
  refine ⟨fun entry value => ?_, fun entry value after henter => ?_,
    fun entry value after henter => ?_, fun lookup value after hread => ?_, fun key => ?_⟩
  · rcases env.enter_cases entry value with ⟨hadmitted, henter⟩ | ⟨hnot, reason, henter⟩
    · rw [henter]
      exact iff_of_true rfl hadmitted
    · rw [henter]
      exact iff_of_false Bool.false_ne_true hnot
  · rcases env.enter_cases entry value with ⟨hadmitted, hwrite⟩ | ⟨_, reason, hrefuse⟩
    · obtain rfl := (Prod.mk.inj (hwrite.symm.trans henter)).2
      exact ⟨hadmitted.ofKey_key, fun earlier =>
        ⟨env.lookUp_write value earlier, env.contains_write value earlier⟩⟩
    · cases hrefuse.symm.trans henter
  · rcases env.enter_cases entry value with ⟨_, hwrite⟩ | ⟨_, reason, hrefuse⟩
    · cases hwrite.symm.trans henter
    · obtain rfl := (Prod.mk.inj (hrefuse.symm.trans henter)).2
      exact ⟨rfl, reason, rfl⟩
  · rw [EnvironmentOf.lookUp_eq] at hread
    refine ⟨?_, fun hmem => ?_, fun hnot => ?_⟩
    · rw [← env.store_read lookup.address, hread]
    · obtain ⟨stored, hstored⟩ :=
        Option.isSome_iff_exists.mp (Std.ExtTreeMap.mem_iff_isSome_getElem?.mp hmem)
      rw [EnvironmentOf.read_of_getElem? hstored] at hread
      obtain ⟨rfl, rfl⟩ := Prod.mk.inj hread
      exact ⟨hstored, rfl⟩
    · rw [EnvironmentOf.read_of_not_mem hnot] at hread
      obtain ⟨rfl, rfl⟩ := Prod.mk.inj hread
      exact ⟨rfl, rfl⟩
  · rw [← Bool.not_eq_true]
    exact not_congr Std.ExtTreeMap.mem_iff_contains.symm

/-- An element is written by its index and read by keys with and without leading zeros. -/
theorem reads_follow_writes_zeros :
    ∃ after, Environment.fresh.enter (.element "A" 7) .one = (true, after) ∧
      (after.lookUp (.word "A$07")) = (.one, after) ∧
      ((after.lookUpAll [.word "A$8", .word "pi"]).lookUp (.word "A$7")).1 = .one ∧
      (after.lookUp (.word "pi")).1 = (Environment.fresh.lookUp (.word "pi")).1 ∧
      ∃ refused, after.enter (.key "A$+7") .zero = (false, refused) ∧
        refused.store = after.store := by
  have hwritten : (Environment.fresh.enter (.element "A" 7) .one).1 = true := by decide +kernel
  obtain ⟨after, henter⟩ : ∃ after, Environment.fresh.enter (.element "A" 7) .one = (true, after) :=
    ⟨_, Prod.ext hwritten rfl⟩
  obtain ⟨-, hread, -⟩ := reads_follow_writes Environment.fresh
  obtain ⟨haccepts, -, hrefused, -⟩ := reads_follow_writes after
  obtain ⟨-, hreads⟩ := hread _ _ _ henter
  have hplus : ¬(Entry.key "A$+7").Admitted := fun h => h.2.2 (by decide)
  have hfalse : (after.enter (.key "A$+7") .zero).1 = false :=
    Bool.eq_false_iff.mpr (mt (haccepts _ _).mp hplus)
  have hrefuse : after.enter (.key "A$+7") .zero = (false, (after.enter (.key "A$+7") .zero).2) :=
    Prod.ext hfalse rfl
  refine ⟨after, henter, ((hreads []).1 (.word "A$07")).1 (by decide), ?_,
    ((hreads []).1 (.word "pi")).2 (by decide), _, hrefuse, (hrefused _ _ _ hrefuse).1⟩
  rw [((hreads [.word "A$8", .word "pi"]).1 (.word "A$7")).1 (by decide)]

end NumericScript
