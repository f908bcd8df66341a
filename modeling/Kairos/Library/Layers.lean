import Mathlib.Data.List.Basic

/-!
# Nested scopes as layers of partial functions

A stack of scopes, innermost first, each seen through what it has for a key. A lookup takes the
first layer that has the key, and setting a key changes every layer that has it.
-/

namespace Kairos

open List Option

abbrev Layers (K V : Type*) := List (K → Option V)

namespace Layers

variable {K V : Type*}

def lookup (ls : Layers K V) (k : K) : Option V := ls.findSome? fun f => f k

theorem lookup_cons (f : K → Option V) (ls : Layers K V) (k : K) :
    lookup (f :: ls) k = (f k).or (lookup ls k) := by
  unfold lookup
  rw [findSome?_cons]
  cases f k with
  | none | some _ => rfl

theorem isSome_of_take {ls : Layers K V} {k : K} {n : ℕ}
    (h : (lookup (ls.take n) k).isSome) : (ls.lookup k).isSome := by
  induction ls generalizing n with
  | nil => simpa using h
  | cons f ls ih =>
    cases n with
    | zero => simp [lookup] at h
    | succ n =>
      rw [take_succ_cons, lookup_cons] at h
      rw [lookup_cons]
      cases hf : f k with
      | some _ => rfl
      | none =>
        rw [hf, none_or] at h
        rw [none_or]
        exact ih h

variable [DecidableEq K]

def assign (k : K) (v : V) (f : K → Option V) : K → Option V :=
  if (f k).isSome then Function.update f k (some v) else f

def set (ls : Layers K V) (k : K) (v : V) : Option (Layers K V) :=
  if (ls.lookup k).isSome then some (ls.map (assign k v))
  else match ls with
    | [] => none
    | f :: outer => some (Function.update f k (some v) :: outer)

variable {ls ls' : Layers K V} {k k' : K} {v : V}

theorem assign_self (f : K → Option V) : assign k v f k = (f k).map fun _ => v := by
  unfold assign
  cases h : f k with
  | none => simpa using h
  | some _ => simp

theorem assign_of_ne (hk : k' ≠ k) (f : K → Option V) : assign k v f k' = f k' := by
  unfold assign
  split_ifs
  · exact Function.update_of_ne hk _ f
  · rfl

theorem lookup_map_assign_self (ls : Layers K V) :
    lookup (ls.map (assign k v)) k = (lookup ls k).map fun _ => v := by
  induction ls with
  | nil => rfl
  | cons f ls ih =>
    rw [map_cons, lookup_cons, lookup_cons, assign_self, ih]
    cases f k with
    | none | some _ => rfl

theorem lookup_map_assign_of_ne (hk : k' ≠ k) (ls : Layers K V) :
    lookup (ls.map (assign k v)) k' = lookup ls k' := by
  induction ls with
  | nil => rfl
  | cons f ls ih => rw [map_cons, lookup_cons, lookup_cons, assign_of_ne hk, ih]

variable (hset : ls.set k v = some ls')
include hset

theorem eq_map_of_set (hk : (ls.lookup k).isSome) : ls' = ls.map (assign k v) := by
  unfold set at hset
  rw [if_pos hk] at hset
  exact (some.inj hset).symm

theorem eq_update_of_set (hk : ¬ (ls.lookup k).isSome) :
    ∃ f outer, ls = f :: outer ∧ ls' = Function.update f k (some v) :: outer := by
  unfold set at hset
  rw [if_neg hk] at hset
  cases ls with
  | nil => cases hset
  | cons f outer => exact ⟨f, outer, rfl, (some.inj hset).symm⟩

theorem lookup_set_self : ls'.lookup k = some v := by
  by_cases hk : (ls.lookup k).isSome
  · rw [eq_map_of_set hset hk, lookup_map_assign_self]
    obtain ⟨w, hw⟩ := isSome_iff_exists.mp hk
    rw [hw, Option.map_some]
  · obtain ⟨f, outer, -, rfl⟩ := eq_update_of_set hset hk
    rw [lookup_cons, Function.update_self, some_or]

theorem lookup_set_of_ne (hk' : k' ≠ k) (n : ℕ) :
    lookup (ls'.drop n) k' = lookup (ls.drop n) k' := by
  by_cases hk : (ls.lookup k).isSome
  · rw [eq_map_of_set hset hk, ← map_drop, lookup_map_assign_of_ne hk']
  · obtain ⟨f, outer, rfl, rfl⟩ := eq_update_of_set hset hk
    cases n with
    | zero => rw [drop_zero, drop_zero, lookup_cons, lookup_cons,
        Function.update_of_ne hk']
    | succ n => rfl

/-- Below layers that have the key, setting it is not seen exactly if the new value was seen there
before. -/
theorem lookup_drop_set_iff {n : ℕ} (h : (lookup (ls.take n) k).isSome) :
    (∀ k', lookup (ls'.drop n) k' = lookup (ls.drop n) k') ↔
      ∀ w, lookup (ls.drop n) k = some w → w = v := by
  have hself : lookup (ls'.drop n) k = (lookup (ls.drop n) k).map fun _ => v := by
    rw [eq_map_of_set hset (isSome_of_take h), ← map_drop, lookup_map_assign_self]
  constructor
  · intro hall w hw
    have heq := hall k
    rw [hself, hw, Option.map_some] at heq
    exact (some.inj heq).symm
  · intro hv k'
    by_cases hk' : k' = k
    · subst hk'
      rw [hself]
      cases hw : lookup (ls.drop n) k' with
      | none => rfl
      | some w => rw [hv w hw, Option.map_some]
    · exact lookup_set_of_ne hset hk' n

end Layers

end Kairos
