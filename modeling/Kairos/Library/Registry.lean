import Mathlib.Data.List.Nodup

/-!
# Tables of registered jobs

A table registers jobs with their schedules, under numbers that are never given twice. A job's entry
is removed by the number that is found for it, so that one entry is taken out however many there
are.
-/

namespace Kairos.Registry

open List

structure Table (J S : Type*) where
  entries : List (ℕ × J × S)
  last : ℕ

inductive Ask (J S : Type*) where
  | put (job : J) (schedule : S)
  | drop (job : J)
  | nothing

/-- No job is registered twice, one that is put has its schedule, one that is dropped is gone, and a
call that fails leaves everything as it was. -/
structure Right {J S : Type*} (ask : Ask J S) (failed : Bool) (before after : J → List (ℕ × S)) :
    Prop where
  once : ∀ j, (after j).length ≤ 1
  put : ∀ job schedule, ask = .put job schedule → failed = false →
    ∃ n, after job = [(n, schedule)]
  drop : ∀ job, ask = .drop job → after job = []
  undone : failed → after = before

namespace Table

variable {J S : Type*}

def empty : Table J S := ⟨[], 0⟩

def add (job : J) (schedule : S) (t : Table J S) : Table J S :=
  ⟨t.entries ++ [(t.last + 1, job, schedule)], t.last + 1⟩

def remove (n : ℕ) (t : Table J S) : Table J S := { t with entries := t.entries.filter (·.1 ≠ n) }

structure Numbered (t : Table J S) : Prop where
  nodup : (t.entries.map Prod.fst).Nodup
  le : ∀ e ∈ t.entries, e.1 ≤ t.last

theorem numbered_empty : (empty : Table J S).Numbered := ⟨.nil, by simp [empty]⟩

variable {t : Table J S}

theorem Numbered.add (h : t.Numbered) (job : J) (schedule : S) : (t.add job schedule).Numbered := by
  constructor
  · simp only [Table.add, map_append, map_cons, map_nil]
    refine nodup_append.2 ⟨h.nodup, nodup_singleton _, fun a ha b hb heq => ?_⟩
    obtain ⟨e, he, rfl⟩ := mem_map.1 ha
    have hle := h.le e he
    rw [heq, mem_singleton.1 hb] at hle
    omega
  · intro e he
    simp only [Table.add, mem_append, mem_singleton] at he ⊢
    rcases he with he | rfl
    · exact Nat.le_succ_of_le (h.le e he)
    · exact Nat.le_refl _

theorem Numbered.remove (h : t.Numbered) (n : ℕ) : (t.remove n).Numbered :=
  ⟨h.nodup.sublist (filter_sublist.map Prod.fst),
    fun e he => h.le e (mem_of_mem_filter he)⟩

variable [DecidableEq J]

def registered (t : Table J S) (job : J) : List (ℕ × S) :=
  (t.entries.filter (·.2.1 = job)).map fun e => (e.1, e.2.2)

def find (job : J) (t : Table J S) : Option (ℕ × J × S) := t.entries.find? (·.2.1 = job)

def removeJob (job : J) (t : Table J S) : Table J S :=
  match t.find job with
  | some e => t.remove e.1
  | none => t

@[simp] theorem registered_empty (job : J) : (empty : Table J S).registered job = [] := rfl

theorem registered_add (t : Table J S) (job j : J) (schedule : S) :
    (t.add job schedule).registered j =
      t.registered j ++ if job = j then [(t.last + 1, schedule)] else [] := by
  by_cases h : job = j
  · simp [registered, add, h]
  · simp [registered, add, h]

theorem Numbered.removeJob (h : t.Numbered) (job : J) : (t.removeJob job).Numbered := by
  unfold Table.removeJob
  cases t.find job with
  | none => exact h
  | some e => exact h.remove e.1

@[simp] theorem removeJob_last (job : J) (t : Table J S) : (t.removeJob job).last = t.last := by
  unfold removeJob
  cases t.find job <;> rfl

variable {job : J}

theorem Numbered.registered_removeJob_of_ne (h : t.Numbered) {j : J}
    (hne : j ≠ job) : (t.removeJob job).registered j = t.registered j := by
  unfold Table.removeJob
  cases hfind : t.find job with
  | none => rfl
  | some e =>
    have hjob : e.2.1 = job := by simpa using find?_some hfind
    have hmem : e ∈ t.entries := mem_of_find?_eq_some hfind
    refine congrArg (List.map _) ?_
    simp only [Table.remove, filter_filter]
    refine filter_congr fun x hx => ?_
    by_cases hxj : x.2.1 = j
    · -- an entry with the same number would be the one that is taken out
      have hnum : x.1 ≠ e.1 := by
        intro heq
        have hxe := inj_on_of_nodup_map h.nodup hx hmem heq
        exact hne (by rw [← hxj, hxe, hjob])
      simp [hxj, hnum]
    · simp [hxj]

/-- The entry of a job that has no more than one is gone. -/
theorem registered_removeJob_self
    (hone : (t.registered job).length ≤ 1) : (t.removeJob job).registered job = [] := by
  unfold Table.removeJob
  cases hfind : t.find job with
  | none =>
    have hnone : t.entries.filter (·.2.1 = job) = [] := by
      rw [filter_eq_nil_iff]
      exact find?_eq_none.1 hfind
    simp [registered, hnone]
  | some e =>
    have hjob : e.2.1 = job := by simpa using find?_some hfind
    have hmem : e ∈ t.entries.filter (·.2.1 = job) :=
      mem_filter.2 ⟨mem_of_find?_eq_some hfind, by simp [hjob]⟩
    rw [registered, length_map] at hone
    have hall : ∀ x ∈ t.entries, x.2.1 = job → x = e := by
      intro x hx hxjob
      have hx' : x ∈ t.entries.filter (·.2.1 = job) := mem_filter.2 ⟨hx, by simp [hxjob]⟩
      obtain ⟨y, hy⟩ := length_eq_one_iff.1
        (Nat.le_antisymm hone (length_pos_of_mem hmem))
      rw [hy, mem_singleton] at hmem hx'
      rw [hx', hmem]
    rw [registered, map_eq_nil_iff, filter_eq_nil_iff]
    intro x hx hxjob
    obtain ⟨hx, hnum⟩ := mem_filter.1 hx
    simp [hall x hx (by simpa using hxjob)] at hnum

end Table

end Kairos.Registry
