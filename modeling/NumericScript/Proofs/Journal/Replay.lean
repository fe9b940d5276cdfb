import NumericScript.Proofs.Journal.Step

/-!
# Replay

A journal is replayed by the names and values that it reports, from a store with nothing in it. A
journal tells the story of a store if replaying it gives the store and each report fits the store
that the reports before it give.
-/

namespace NumericScript

variable {α : Type}

namespace DiagnosticOf

/-- The address that is reported as set for the first time, as its name says. -/
def created? (d : DiagnosticOf α) : Option Address :=
  match d with
  | created .. => some (.ofKey d.name)
  | updated .. | invalid .. | undefined _ => none

/-- The address that is reported as set again, as its name says. -/
def updated? (d : DiagnosticOf α) : Option Address :=
  match d with
  | updated .. => some (.ofKey d.name)
  | created .. | invalid .. | undefined _ => none

/-- A store after a report, as the reported name and value say. -/
def replay (store : StoreOf α) (d : DiagnosticOf α) : StoreOf α :=
  match d with
  | created _ value | updated _ value => store.insert (.ofKey d.name) value
  | invalid .. | undefined _ => store

/-- What a report says of the store as it was before. -/
def Fits (d : DiagnosticOf α) (store : StoreOf α) : Prop :=
  match d with
  | created .. | undefined _ => .ofKey d.name ∉ store
  | updated .. => .ofKey d.name ∈ store
  | invalid .. => True

end DiagnosticOf

/-- The store that a journal reports. -/
def replay (journal : List (DiagnosticOf α)) : StoreOf α := journal.foldl DiagnosticOf.replay ∅

/-- A journal tells how a store came to be, with every report fitting the store before it. -/
inductive Tells : List (DiagnosticOf α) → StoreOf α → Prop
  | nil : Tells [] ∅
  | report {journal : List (DiagnosticOf α)} {store : StoreOf α} (d : DiagnosticOf α)
    (h : Tells journal store) (hfits : d.Fits store) : Tells (journal ++ [d]) (d.replay store)

private theorem mem_replay {d : DiagnosticOf α} {store : StoreOf α} {address : Address} :
    address ∈ d.replay store ↔
      d.created? = some address ∨ d.updated? = some address ∨ address ∈ store := by
  cases d <;>
    simp [DiagnosticOf.replay, DiagnosticOf.created?, DiagnosticOf.updated?,
      Std.ExtTreeMap.mem_insert]

private theorem DiagnosticOf.Fits.not_mem {d : DiagnosticOf α} {store : StoreOf α}
    {address : Address}
    (h : d.Fits store) (hcreated : d.created? = some address) : address ∉ store := by
  cases d with
  | created => exact Option.some.inj hcreated ▸ h
  | updated | invalid | undefined => cases hcreated

private theorem DiagnosticOf.Fits.mem {d : DiagnosticOf α} {store : StoreOf α} {address : Address}
    (h : d.Fits store) (hupdated : d.updated? = some address) : address ∈ store := by
  cases d with
  | updated => exact Option.some.inj hupdated ▸ h
  | created | invalid | undefined => cases hupdated

namespace Tells

variable {journal : List (DiagnosticOf α)} {store : StoreOf α}

/-- A journal that tells a store is replayed to it. -/
theorem replay_eq (h : Tells journal store) : replay journal = store := by
  induction h with
  | nil => rfl
  | report d h hfits ih => rw [replay, List.foldl_append, ← replay, ih]; rfl

/-- Every report fits the store that the reports before it give. -/
theorem fits (h : Tells journal store) {before after : List (DiagnosticOf α)} {d : DiagnosticOf α}
    (hsplit : journal = before ++ d :: after) : d.Fits (replay before) := by
  induction h generalizing after with
  | nil => exact absurd hsplit (by simp)
  | report last h hfits ih =>
    rcases List.eq_nil_or_concat after with rfl | ⟨after, last', rfl⟩
    · obtain ⟨rfl, hlast⟩ := List.append_inj' hsplit rfl
      obtain rfl := List.singleton_inj.mp hlast
      rw [h.replay_eq]
      exact hfits
    · rw [List.concat_eq_append, ← List.cons_append, ← List.append_assoc] at hsplit
      exact ih (List.append_inj' hsplit rfl).1

/-- What is not set was never reported as written. -/
theorem not_written (h : Tells journal store) {address : Address} (habsent : address ∉ store) :
    ∀ d ∈ journal, d.created? ≠ some address ∧ d.updated? ≠ some address := by
  induction h with
  | nil => nofun
  | report last h hfits ih =>
    rw [mem_replay, not_or, not_or] at habsent
    obtain ⟨hcreated, hupdated, habsent⟩ := habsent
    intro d hm
    rcases List.mem_append.mp hm with hm | hm
    · exact ih habsent d hm
    · obtain rfl := List.mem_singleton.mp hm
      exact ⟨hcreated, hupdated⟩

/-- What is set was created by one report, before all that update it. -/
theorem created_once (h : Tells journal store) {address : Address} (hmem : address ∈ store) :
    ∃ before d after, journal = before ++ d :: after ∧ d.created? = some address ∧
      (∀ e ∈ before, e.created? ≠ some address ∧ e.updated? ≠ some address) ∧
      ∀ e ∈ after, e.created? ≠ some address := by
  induction h with
  | nil => exact absurd hmem Std.ExtTreeMap.not_mem_empty
  | @report journal store last h hfits ih =>
    by_cases hold : address ∈ store
    · obtain ⟨before, d, after, rfl, hcreated, hbefore, hafter⟩ := ih hold
      refine ⟨before, d, after ++ [last], by simp, hcreated, hbefore, fun e hm => ?_⟩
      rcases List.mem_append.mp hm with hm | hm
      · exact hafter e hm
      · obtain rfl := List.mem_singleton.mp hm
        exact fun hlast => hfits.not_mem hlast hold
    · rcases mem_replay.mp hmem with hlast | hlast | hstore
      · exact ⟨journal, last, [], rfl, hlast, h.not_written hold, nofun⟩
      · exact absurd (hfits.mem hlast) hold
      · exact absurd hstore hold

end Tells

namespace EnvironmentOf

/-- Only accepted names are set, and the journal tells how the store came to be. -/
structure Sound (env : EnvironmentOf α) : Prop where
  named : ∀ address ∈ env.store, address.Named
  tells : Tells env.journal.toList env.store

/-- An empty environment is sound. -/
theorem sound_empty : Sound (⟨∅, #[]⟩ : EnvironmentOf α) :=
  ⟨fun _ hm => absurd hm Std.ExtTreeMap.not_mem_empty, .nil⟩

variable {env env' : EnvironmentOf α}

/-- The key of what can be read and is not set stands for nothing that is set. -/
theorem Sound.ofKey_not_mem (h : env.Sound) {address : Address} (hreadable : address.Readable)
    (habsent : address ∉ env.store) : .ofKey address.key ∉ env.store := by
  rcases Address.ofKey_key_of_readable hreadable with hkey | hkey
  · rwa [hkey]
  · exact fun hm => hkey (h.named _ hm)

/-- A step adds one report, which fits the store before and says what becomes of it. -/
theorem Step.reports (h : Step env env') (hsound : env.Sound) :
    ∃ d : DiagnosticOf α, env'.journal = env.journal.push d ∧ env'.store = d.replay env.store ∧
      d.Fits env.store := by
  cases h with
  | write address value haccepted =>
    have hkey := Address.ofKey_key haccepted.named
    by_cases hm : env.store.contains address
    · refine ⟨.updated address value, ?_, ?_, ?_⟩
      · rw [EnvironmentOf.write, if_pos hm]
      · rw [EnvironmentOf.write, DiagnosticOf.replay, DiagnosticOf.name, hkey]
      · rwa [DiagnosticOf.Fits, DiagnosticOf.name, hkey]
    · refine ⟨.created address value, ?_, ?_, ?_⟩
      · rw [EnvironmentOf.write, if_neg hm]
      · rw [EnvironmentOf.write, DiagnosticOf.replay, DiagnosticOf.name, hkey]
      · rwa [DiagnosticOf.Fits, DiagnosticOf.name, hkey]
  | refuse name reason => exact ⟨.invalid name reason, rfl, rfl, trivial⟩
  | miss address hreadable habsent =>
    exact ⟨.undefined address.key, rfl, rfl, hsound.ofKey_not_mem hreadable habsent⟩

private theorem Step.sound (h : Step env env') (hsound : env.Sound) : env'.Sound := by
  obtain ⟨d, hjournal, hstore, hfits⟩ := h.reports hsound
  refine ⟨?_, ?_⟩
  · cases h with
    | write address value haccepted =>
      intro other hm
      rcases Std.ExtTreeMap.mem_insert.mp hm with heq | hm
      · rw [← Std.LawfulEqOrd.eq_of_compare heq]
        exact haccepted.named
      · exact hsound.named other hm
    | refuse => exact hsound.named
    | miss => exact hsound.named
  · rw [hjournal, hstore, Array.toList_push]
    exact .report d hsound.tells hfits

/-- Steps only add to the journal, and what they add says what becomes of the store. -/
theorem Steps.reports (h : Steps env env') (hsound : env.Sound) :
    env'.Sound ∧ ∃ more, env'.journal.toList = env.journal.toList ++ more ∧
      env'.store = more.foldl DiagnosticOf.replay env.store := by
  induction h with
  | refl => exact ⟨hsound, [], (List.append_nil _).symm, rfl⟩
  | tail _ hstep ih =>
    obtain ⟨hbetween, more, hjournal, hstore⟩ := ih
    obtain ⟨d, hpush, hreplay, _⟩ := hstep.reports hbetween
    refine ⟨hstep.sound hbetween, more ++ [d], ?_, ?_⟩
    · rw [hpush, Array.toList_push, hjournal, List.append_assoc]
    · rw [hreplay, hstore, List.foldl_append, List.foldl_cons, List.foldl_nil]

end EnvironmentOf

end NumericScript
