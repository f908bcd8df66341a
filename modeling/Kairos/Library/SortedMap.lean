import Mathlib.Order.Lattice
import Mathlib.Data.List.Basic
import Mathlib.Data.List.Pairwise

/-!
# Finite maps as sorted lists

A map from a linearly ordered type is a list of entries with increasing keys.
-/

namespace Kairos

open List

variable {K V : Type} [LinearOrder K]

structure SortedMap (K V : Type) [LinearOrder K] where
  entries : List (K × V)
  sorted : entries.Pairwise fun a b => a.1 < b.1

namespace SortedMap

def find (k : K) : List (K × V) → Option V
  | [] => none
  | (k', v) :: l => if k' = k then some v else find k l

def insert (k : K) (v : V) : List (K × V) → List (K × V)
  | [] => [(k, v)]
  | (k', v') :: l =>
    if k < k' then (k, v) :: (k', v') :: l
    else if k' = k then (k, v) :: l
    else (k', v') :: insert k v l

variable {k : K} {v : V} {l : List (K × V)} {e : K × V}

theorem mem_insert (h : e ∈ insert k v l) : e = (k, v) ∨ e ∈ l := by
  induction l with
  | nil => exact .inl (mem_singleton.mp h)
  | cons e' l ih =>
    unfold insert at h
    split at h
    · exact mem_cons.mp h
    · split at h
      · exact (mem_cons.mp h).imp_right (mem_cons_of_mem _)
      · rcases mem_cons.mp h with rfl | h
        · exact .inr mem_cons_self
        · exact (ih h).imp_right (mem_cons_of_mem _)

theorem pairwise_insert (k : K) (v : V)
    (h : l.Pairwise fun a b => a.1 < b.1) : (insert k v l).Pairwise fun a b => a.1 < b.1 := by
  induction l with
  | nil => exact pairwise_singleton _ _
  | cons e l ih =>
    obtain ⟨hhead, htail⟩ := pairwise_cons.mp h
    unfold insert
    split
    · rename_i hlt
      refine pairwise_cons.mpr ⟨fun b hb => ?_, h⟩
      rcases mem_cons.mp hb with rfl | hb
      · exact hlt
      · exact lt_trans hlt (hhead b hb)
    · rename_i hge
      split
      · rename_i heq
        exact pairwise_cons.mpr ⟨fun b hb => heq ▸ hhead b hb, htail⟩
      · rename_i hne
        refine pairwise_cons.mpr ⟨fun b hb => ?_, ih htail⟩
        rcases mem_insert hb with rfl | hb
        · exact lt_of_le_of_ne (not_lt.mp hge) hne
        · exact hhead b hb

def empty : SortedMap K V := ⟨[], List.Pairwise.nil⟩

def get (m : SortedMap K V) (k : K) : Option V := find k m.entries

def put (m : SortedMap K V) (k : K) (v : V) : SortedMap K V :=
  ⟨insert k v m.entries, pairwise_insert k v m.sorted⟩

def erase (m : SortedMap K V) (k : K) : SortedMap K V :=
  ⟨m.entries.filter (·.1 ≠ k), m.sorted.filter _⟩

def keys (m : SortedMap K V) : List K := m.entries.map Prod.fst

/-! ## Lookups -/

theorem find_insert (k : K) (v : V) (l : List (K × V)) (k' : K) :
    find k' (insert k v l) = if k = k' then some v else find k' l := by
  induction l with
  | nil => rfl
  | cons e l ih =>
    unfold insert
    split
    · rfl
    · split
      · rename_i heq
        by_cases hk : k = k'
        · simp [find, hk]
        · simp [find, hk, heq]
      · rename_i hne
        by_cases hk : k = k'
        · subst hk
          simpa [find, hne] using ih
        · simp [find, ih, hk]

theorem find_filter (k : K) (l : List (K × V)) (k' : K) :
    find k' (l.filter (·.1 ≠ k)) = if k = k' then none else find k' l := by
  induction l with
  | nil => simp [find]
  | cons e l ih =>
    by_cases he : e.1 = k
    · by_cases hk : k = k'
      · simpa [he, hk] using ih
      · simpa [find, he, hk] using ih
    · by_cases hk : k = k'
      · subst hk
        simpa [find, he] using ih
      · simp only [he, ne_eq, not_false_eq_true, decide_true, filter_cons_of_pos, find, ih, hk,
          if_false]

@[simp] theorem get_empty (k : K) : (empty : SortedMap K V).get k = none := rfl

theorem get_put (m : SortedMap K V) (k : K) (v : V) (k' : K) :
    (m.put k v).get k' = if k = k' then some v else m.get k' :=
  find_insert k v m.entries k'

theorem get_erase (m : SortedMap K V) (k k' : K) :
    (m.erase k).get k' = if k = k' then none else m.get k' :=
  find_filter k m.entries k'

@[simp] theorem get_put_self (m : SortedMap K V) (k : K) (v : V) : (m.put k v).get k = some v := by
  rw [get_put, if_pos rfl]

@[simp] theorem get_erase_self (m : SortedMap K V) (k : K) : (m.erase k).get k = none := by
  rw [get_erase, if_pos rfl]

theorem get_erase_of_ne (m : SortedMap K V) {k' : K} (h : k ≠ k') :
    (m.erase k).get k' = m.get k' := by
  rw [get_erase, if_neg h]

theorem find_eq_some_of_mem (hl : l.Pairwise fun a b => a.1 < b.1) (h : (k, v) ∈ l) :
    find k l = some v := by
  induction l with
  | nil => cases h
  | cons e l ih =>
    obtain ⟨hhead, htail⟩ := pairwise_cons.mp hl
    rcases mem_cons.mp h with rfl | h
    · exact if_pos rfl
    · exact (if_neg (ne_of_lt (hhead _ h))).trans (ih htail h)

theorem mem_of_find_eq_some (h : find k l = some v) : (k, v) ∈ l := by
  induction l with
  | nil => cases h
  | cons e l ih =>
    unfold find at h
    split at h
    · rename_i heq
      cases h
      exact heq ▸ mem_cons_self
    · exact mem_cons_of_mem _ (ih h)

variable {m : SortedMap K V}

theorem mem_entries_iff : (k, v) ∈ m.entries ↔ m.get k = some v :=
  ⟨find_eq_some_of_mem m.sorted, mem_of_find_eq_some⟩

theorem mem_keys_iff : k ∈ m.keys ↔ ∃ v, m.get k = some v := by
  simp only [keys, mem_map, Prod.exists, ← mem_entries_iff]
  constructor
  · rintro ⟨k', v, hmem, rfl⟩
    exact ⟨v, hmem⟩
  · rintro ⟨v, hmem⟩
    exact ⟨k, v, hmem, rfl⟩

theorem pairwise_keys (m : SortedMap K V) : m.keys.Pairwise (· < ·) :=
  pairwise_map.mpr m.sorted

theorem nodup_keys (m : SortedMap K V) : m.keys.Nodup :=
  m.pairwise_keys.imp fun h => ne_of_lt h

theorem insert_of_forall_lt (v : V) (h : ∀ e ∈ l, e.1 < k) : insert k v l = l ++ [(k, v)] := by
  induction l with
  | nil => rfl
  | cons e l ih =>
    have he : e.1 < k := h e mem_cons_self
    unfold insert
    rw [if_neg (lt_asymm he), if_neg (ne_of_lt he),
      ih fun e' he' => h e' (mem_cons_of_mem _ he')]
    rfl

theorem entries_erase_first (h : m.entries = e :: l) : (m.erase e.1).entries = l := by
  have hhead := (pairwise_cons.mp (h ▸ m.sorted)).1
  calc (m.erase e.1).entries = (e :: l).filter (·.1 ≠ e.1) := congrArg _ h
    _ = l.filter (·.1 ≠ e.1) := filter_cons_of_neg (by simp)
    _ = l := filter_eq_self.mpr fun b hb => by simpa using ne_of_gt (hhead b hb)

end SortedMap

end Kairos
