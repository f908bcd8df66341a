import Kairos.Library.SortedMap

/-!
# Maps with an index

A map of all entries, and beside it a map for each group, which should hold the entries of that
group (`Agree`). An entry is put into both, and removed from both, each with a key of its own.
-/

namespace Kairos

open Function (update update_self update_of_ne)

structure IndexedMap (G K V : Type) [LinearOrder K] where
  all : SortedMap K V
  of : G → SortedMap K V

namespace IndexedMap

variable {G K V : Type} [LinearOrder K]

def empty : IndexedMap G K V := ⟨.empty, fun _ => .empty⟩

def Agree (group : V → G) (m : IndexedMap G K V) : Prop :=
  ∀ g k v, (m.of g).get k = some v ↔ m.all.get k = some v ∧ group v = g

variable {group : V → G} {m : IndexedMap G K V} {g : G} {k : K} {v : V}

theorem agree_empty : Agree group (empty : IndexedMap G K V) := by
  intro g k v
  simp [empty]

variable [DecidableEq G]

def insert (m : IndexedMap G K V) (g : G) (k : K) (v : V) : IndexedMap G K V :=
  ⟨m.all.put k v, update m.of g ((m.of g).put k v)⟩

def remove (m : IndexedMap G K V) (g : G) (kg k : K) : IndexedMap G K V :=
  ⟨m.all.erase k, update m.of g ((m.of g).erase kg)⟩

def drop (m : IndexedMap G K V) (g : G) : IndexedMap G K V :=
  ⟨m.all, update m.of g .empty⟩

theorem of_insert (m : IndexedMap G K V) (g : G) (k : K) (v : V) (g' : G) (k' : K) :
    ((m.insert g k v).of g').get k' = if g = g' ∧ k = k' then some v else (m.of g').get k' := by
  by_cases hg : g = g'
  · subst hg
    simp only [insert, update_self, SortedMap.get_put, true_and]
  · simp only [insert, update_of_ne (Ne.symm hg), hg, false_and, if_false]

theorem of_remove (m : IndexedMap G K V) (g : G) (kg k : K) (g' : G) (k' : K) :
    ((m.remove g kg k).of g').get k' = if g = g' ∧ kg = k' then none else (m.of g').get k' := by
  by_cases hg : g = g'
  · subst hg
    simp only [remove, update_self, SortedMap.get_erase, true_and]
  · simp only [remove, update_of_ne (Ne.symm hg), hg, false_and, if_false]

/-- An entry may replace one of its group only. -/
theorem agree_insert (h : Agree group m) :
    Agree group (m.insert (group v) k v) ↔ ∀ v', m.all.get k = some v' → group v' = group v := by
  constructor
  · intro hinsert v' hv'
    by_contra hne
    -- the entry that was replaced is still in the map of its group
    have hold : ((m.insert (group v) k v).of (group v')).get k = some v' := by
      rw [of_insert, if_neg fun hc => hne hc.1.symm]
      exact (h _ _ _).mpr ⟨hv', rfl⟩
    have hall := ((hinsert _ _ _).mp hold).1
    simp only [insert, SortedMap.get_put_self] at hall
    exact hne (congrArg group (Option.some.inj hall)).symm
  · intro hsame g k' v'
    rw [of_insert]
    simp only [insert, SortedMap.get_put]
    by_cases hk : k = k'
    · subst hk
      by_cases hg : group v = g
      · simp only [hg, and_self, if_true, Option.some.injEq]
        exact ⟨fun hv => ⟨hv, hv ▸ hg⟩, And.left⟩
      · simp only [hg, false_and, if_false, if_true, Option.some.injEq]
        constructor
        · intro hv'
          obtain ⟨hall, hg'⟩ := (h _ _ _).mp hv'
          exact absurd ((hsame v' hall).symm.trans hg') hg
        · rintro ⟨rfl, hg'⟩
          exact absurd hg' hg
    · simp only [hk, and_false, if_false]
      exact h g k' v'

variable {kg : K}

/-- An entry is to be removed from both maps under one key. -/
theorem agree_remove (h : Agree group m) (hv : m.all.get k = some v) :
    Agree group (m.remove (group v) kg k) ↔ kg = k := by
  constructor
  · intro hremove
    by_contra hne
    have hold : ((m.remove (group v) kg k).of (group v)).get k = some v := by
      rw [of_remove, if_neg fun hc => hne hc.2]
      exact (h _ _ _).mpr ⟨hv, rfl⟩
    have hall := ((hremove _ _ _).mp hold).1
    simp only [remove, SortedMap.get_erase_self] at hall
    cases hall
  · rintro rfl g k' v'
    rw [of_remove]
    simp only [remove, SortedMap.get_erase]
    by_cases hk : kg = k'
    · subst hk
      by_cases hg : group v = g
      · simp [hg]
      · simp only [hg, false_and, if_false, if_true]
        constructor
        · intro hv'
          obtain ⟨hall, hg'⟩ := (h _ _ _).mp hv'
          rw [hv] at hall
          exact absurd (Option.some.inj hall ▸ hg') hg
        · rintro ⟨hnone, -⟩
          cases hnone
    · simp only [hk, and_false, if_false]
      exact h g k' v'

/-! ## Removing a group

A group is removed key by key, with one key that is removed from the map of the group each time. -/

def Lists (group : V → G) (m : IndexedMap G K V) (g : G) : Prop :=
  ∀ k, k ∈ (m.of g).keys ↔ ∃ v, m.all.get k = some v ∧ group v = g

omit [DecidableEq G] in
theorem Agree.lists (h : Agree group m) (g : G) : Lists group m g := by
  intro k
  rw [SortedMap.mem_keys_iff]
  exact exists_congr fun v => h g k v

omit [DecidableEq G] in
theorem lists_iff : Lists group m g ↔ (∀ k ∈ (m.of g).keys, ∃ v ∈ m.all.get k, group v = g) ∧
      ∀ e ∈ m.all.entries, group e.2 = g → e.1 ∈ (m.of g).keys := by
  constructor
  · intro h
    refine ⟨fun k hk => (h k).mp hk, fun e he hgroup => ?_⟩
    exact (h e.1).mpr ⟨e.2, SortedMap.mem_entries_iff.mp he, hgroup⟩
  · rintro ⟨hkeys, hentries⟩ k
    refine ⟨hkeys k, ?_⟩
    rintro ⟨v, hv, hgroup⟩
    exact hentries (k, v) (SortedMap.mem_entries_iff.mpr hv) hgroup

instance (group : V → G) (m : IndexedMap G K V) (g : G) : Decidable (Lists group m g) :=
  decidable_of_iff _ lists_iff.symm

structure Removed (g : G) (kg : K) (m₀ : IndexedMap G K V) (P : K → Prop)
    (m : IndexedMap G K V) : Prop where
  gone : ∀ k, P k → m.all.get k = none
  kept : ∀ k, ¬ P k → m.all.get k = m₀.all.get k
  others : ∀ g', g' ≠ g → m.of g' = m₀.of g'
  keys : ∀ k, k ≠ kg → (m.of g).get k = (m₀.of g).get k

omit [DecidableEq G] in
theorem Removed.refl (g : G) (kg : K) (m : IndexedMap G K V) :
    Removed g kg m (fun _ => False) m where
  gone := fun _ h => h.elim
  kept := fun _ _ => rfl
  others := fun _ _ => rfl
  keys := fun _ _ => rfl

omit [DecidableEq G] in

variable {m₀ : IndexedMap G K V} {P : K → Prop}

omit [DecidableEq G] in
theorem Removed.congr {Q : K → Prop}
    (h : Removed g kg m₀ P m) (hPQ : ∀ k, P k ↔ Q k) : Removed g kg m₀ Q m where
  gone := fun k hk => h.gone k ((hPQ k).mpr hk)
  kept := fun k hk => h.kept k fun hP => hk ((hPQ k).mp hP)
  others := h.others
  keys := h.keys

theorem Removed.remove (h : Removed g kg m₀ P m)
    (k : K) : Removed g kg m₀ (fun k' => P k' ∨ k' = k) (m.remove g kg k) where
  gone := by
    intro k' hk'
    simp only [IndexedMap.remove, SortedMap.get_erase]
    split
    · rfl
    · rename_i hne
      exact h.gone k' (hk'.resolve_right fun heq => hne heq.symm)
  kept := by
    intro k' hk'
    rw [not_or] at hk'
    simp only [IndexedMap.remove, SortedMap.get_erase_of_ne _ (Ne.symm hk'.2)]
    exact h.kept k' hk'.1
  others := by
    intro g' hg'
    simp only [IndexedMap.remove, update_of_ne hg']
    exact h.others g' hg'
  keys := by
    intro k' hk'
    simp only [IndexedMap.remove, update_self, SortedMap.get_erase_of_ne _ (Ne.symm hk')]
    exact h.keys k' hk'

omit [DecidableEq G] in
/-- When the keys of the group's map are gone, the other entries are left. -/
theorem Removed.get_iff (hlists : Lists group m₀ g)
    (h : Removed g kg m₀ (· ∈ (m₀.of g).keys) m) (k : K) (v : V) :
    m.all.get k = some v ↔ m₀.all.get k = some v ∧ group v ≠ g := by
  by_cases hk : k ∈ (m₀.of g).keys
  · obtain ⟨v', hv', hgroup⟩ := (hlists k).mp hk
    rw [h.gone k hk, hv']
    constructor
    · intro hnone
      cases hnone
    · rintro ⟨heq, hne⟩
      exact absurd (Option.some.inj heq ▸ hgroup) hne
  · rw [h.kept k hk]
    constructor
    · intro hv
      exact ⟨hv, fun hgroup => hk ((hlists k).mpr ⟨v, hv, hgroup⟩)⟩
    · exact And.left

/-- The index agrees after a group and its map are gone. -/
theorem Removed.agree_drop (hagree : Agree group m₀)
    (h : Removed g kg m₀ (· ∈ (m₀.of g).keys) m) : Agree group (m.drop g) := by
  intro g' k v
  have hlists := hagree.lists g k
  by_cases hg : g' = g
  · subst hg
    simp only [drop, update_self, SortedMap.get_empty]
    constructor
    · intro hnone
      cases hnone
    · rintro ⟨hget, hgroup⟩
      by_cases hk : k ∈ (m₀.of g').keys
      · rw [h.gone k hk] at hget
        cases hget
      · exact absurd (hlists.mpr ⟨v, h.kept k hk ▸ hget, hgroup⟩) hk
  · simp only [drop, update_of_ne hg, h.others g' hg]
    rw [hagree g' k v]
    by_cases hk : k ∈ (m₀.of g).keys
    · obtain ⟨v', hv', hgroup'⟩ := hlists.mp hk
      rw [h.gone k hk, hv']
      constructor
      · rintro ⟨heq, hgroup⟩
        cases heq
        exact absurd (hgroup.symm.trans hgroup') hg
      · rintro ⟨hnone, -⟩
        cases hnone
    · rw [h.kept k hk]

end IndexedMap

end Kairos
