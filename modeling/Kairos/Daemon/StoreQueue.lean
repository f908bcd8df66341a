import Kairos.Daemon.Store
import Kairos.Library.Transitions

/-!
# The queues of the daemon's store

`SetQueue` puts a value into the bucket of a queue under the time, in decimal digits, and `GetQueue`
takes the value under the first key, in the order of bytes.
-/

namespace Kairos.Daemon

open List
open Transitions (Meets run)
open Strings

def setQueueTx (now : ℤ) (k v : GoString) (db : DB) : Except StoreErr (Unit × DB) :=
  if k = [] then .error .bucketNameRequired
  else do
    let bucket ← putValue (db.queue k) (itoa now) (byteLength v) v
    .ok ((), { db with queue := Function.update db.queue k bucket })

def setQueue (fault : Option Fault) (now : ℤ) (k v : GoString) (db : DB) :
    Except StoreErr Unit × DB :=
  update fault (setQueueTx now k v) db

/-- `GetQueue`: the result, the database, and whether the transaction is left open, as it is where a
bucket cannot be created. -/
def getQueue (fault : Option Fault) (k : GoString) (db : DB) :
    Except StoreErr GoString × DB × Bool :=
  match fault with
  | some (.begin err) => (.error err, db, false)
  | some (.commit err) =>
    if k = [] then (.error .bucketNameRequired, db, true) else (.error err, db, false)
  | none =>
    if k = [] then (.error .bucketNameRequired, db, true)
    else
      match (db.queue k).entries with
      | [] => (.ok [], db, false)
      | (t, v) :: _ =>
        (.ok v, { db with queue := Function.update db.queue k ((db.queue k).erase t) }, false)

inductive QueueOp where
  | setQueue (fault : Option Fault) (now : ℤ) (k v : GoString)
  | getQueue (fault : Option Fault) (k : GoString)

structure QueueRun where
  db : DB
  locked : Bool
  /-- What has been stored in a queue and not yet taken, with its times, in the order of the calls.
  -/
  pending : GoString → List (ℤ × GoString)

def QueueRun.start : QueueRun := ⟨.empty, false, fun _ => []⟩

def QueueRun.next (s : QueueRun) (op : QueueOp) : Option QueueRun :=
  if s.locked then none
  else
    match op with
    | .setQueue fault now k v =>
      match Daemon.setQueue fault now k v s.db with
      | (.ok _, db) =>
        some { s with
          db := db
          pending := Function.update s.pending k (s.pending k ++ [(now, v)]) }
      | (.error _, db) => some { s with db := db }
    | .getQueue fault k =>
      match Daemon.getQueue fault k s.db with
      | (.ok _, db, locked) =>
        some ⟨db, locked, Function.update s.pending k (s.pending k).tail⟩
      | (.error _, db, locked) => some { s with db := db, locked := locked }

/-- A `GetQueue` whose transaction does not fail returns the next value, and the empty text exactly
where there is none. -/
def QueueRun.GetsNext (s : QueueRun) (k : GoString) : Prop :=
  s.locked = false ∧
    (Daemon.getQueue none k s.db).1 = .ok (((s.pending k).head?.map Prod.snd).getD []) ∧
    ((Daemon.getQueue none k s.db).1 = .ok [] ↔ s.pending k = [])

/-- A value is not empty, and is put later than those in the queue, with as many digits. A queue
that is read has a name. -/
def QueueRun.Later (s : QueueRun) : QueueOp → Prop
  | .setQueue _ now k v => v ≠ [] ∧ ∀ e ∈ s.pending k,
    0 ≤ e.1 ∧ e.1 < now ∧ (itoa e.1).length = (itoa now).length
  | .getQueue _ k => k ≠ []

/-! ## The order of the keys -/

variable {now : ℤ}

theorem itoa_lt {t : ℤ} (hzero : 0 ≤ t) (hlt : t < now)
    (hlength : (itoa t).length = (itoa now).length) : itoa t < itoa now := by
  obtain ⟨m, rfl⟩ := Int.eq_ofNat_of_zero_le hzero
  obtain ⟨n, rfl⟩ := Int.eq_ofNat_of_zero_le (hzero.trans hlt.le)
  exact natDigits_lt (Int.ofNat_lt.mp hlt) hlength

structure QueueInv (s : QueueRun) : Prop where
  locked : s.locked = false
  entries : ∀ k, (s.db.queue k).entries = (s.pending k).map fun e => (itoa e.1, e.2)
  values : ∀ k, ∀ e ∈ s.pending k, e.2 ≠ []

theorem QueueInv.start : QueueInv .start where
  locked := rfl
  entries := fun _ => rfl
  values := fun _ _ h => by cases h

variable {s s' : QueueRun} {k : GoString} {fault : Option Fault}

theorem QueueInv.setQueue (h : QueueInv s) {v : GoString}
    (hlater : s.Later (.setQueue fault now k v))
    (hnext : s.next (.setQueue fault now k v) = some s') : QueueInv s' := by
  obtain ⟨hv, hnow⟩ := hlater
  rw [QueueRun.next, if_neg (by simp [h.locked])] at hnext
  simp only [Daemon.setQueue] at hnext
  rcases update_cases fault (setQueueTx now k v) s.db with
    ⟨err, hupdate⟩ | ⟨a, db', -, hf, hupdate⟩
  · rw [hupdate] at hnext
    cases hnext
    exact h
  · rw [hupdate] at hnext
    cases hnext
    unfold setQueueTx at hf
    split at hf
    · cases hf
    · obtain ⟨bucket, hput, hlast⟩ := bind_eq_ok.mp hf
      obtain rfl := (Prod.mk.inj (Except.ok.inj hlast)).2
      obtain ⟨rfl, -⟩ := putValue_ok hput
      -- the new key is beyond all others
      have hkeys : ∀ e ∈ (s.db.queue k).entries, e.1 < itoa now := by
        rw [h.entries k]
        intro e he
        obtain ⟨p, hp, rfl⟩ := mem_map.mp he
        obtain ⟨hzero, hlt, hlength⟩ := hnow p hp
        exact itoa_lt hzero hlt hlength
      refine ⟨h.locked, fun k' => ?_, fun k' e he => ?_⟩
      · by_cases hk : k' = k
        · subst hk
          simp only [Function.update_self, SortedMap.put]
          rw [SortedMap.insert_of_forall_lt v hkeys, h.entries k', map_append]
          rfl
        · simp only [Function.update_of_ne hk]
          exact h.entries k'
      · by_cases hk : k' = k
        · subst hk
          simp only [Function.update_self] at he
          exact forall_mem_append.mpr ⟨h.values k', forall_mem_singleton.mpr hv⟩ e he
        · simp only [Function.update_of_ne hk] at he
          exact h.values k' e he

theorem QueueInv.getQueue (h : QueueInv s) (hk : k ≠ [])
    (hnext : s.next (.getQueue fault k) = some s') : QueueInv s' := by
  rw [QueueRun.next, if_neg (by simp [h.locked])] at hnext
  have hsame : some { s with db := s.db, locked := false } = some s' → QueueInv s' := by
    rintro ⟨⟩
    exact ⟨rfl, h.entries, h.values⟩
  match fault with
  | some (.begin err) => exact hsame hnext
  | some (.commit err) =>
    simp only [Daemon.getQueue, if_neg hk] at hnext
    exact hsame hnext
  | none =>
    have hentries := h.entries k
    simp only [Daemon.getQueue, if_neg hk] at hnext
    cases hpending : s.pending k with
    | nil =>
      rw [hpending, map_nil] at hentries
      have htail : (s.pending k).tail = s.pending k := by rw [hpending, tail_nil]
      simp only [hentries, htail, Function.update_eq_self] at hnext
      exact hsame hnext
    | cons p ps =>
      rw [hpending, map_cons] at hentries
      simp only [hentries, hpending, tail_cons] at hnext
      cases hnext
      refine ⟨rfl, fun k' => ?_, fun k' e he => ?_⟩
      · by_cases hk' : k' = k
        · subst hk'
          simp only [Function.update_self]
          exact SortedMap.entries_erase_first hentries
        · simp only [Function.update_of_ne hk']
          exact h.entries k'
      · by_cases hk' : k' = k
        · subst hk'
          simp only [Function.update_self] at he
          exact h.values k' e (hpending ▸ mem_cons_of_mem p he)
        · simp only [Function.update_of_ne hk'] at he
          exact h.values k' e he

theorem QueueInv.next (h : QueueInv s) {op : QueueOp} (hlater : s.Later op)
    (hnext : s.next op = some s') : QueueInv s' := by
  cases op with
  | setQueue fault now k v => exact h.setQueue hlater hnext
  | getQueue fault k => exact h.getQueue hlater hnext

theorem QueueInv.getsNext (h : QueueInv s) (hk : k ≠ []) : s.GetsNext k := by
  refine ⟨h.locked, ?_⟩
  have hentries := h.entries k
  cases hpending : s.pending k with
  | nil =>
    rw [hpending, map_nil] at hentries
    simp [Daemon.getQueue, hk, hentries]
  | cons p ps =>
    have hvalue : p.2 ≠ [] := h.values k p (hpending ▸ mem_cons_self)
    rw [hpending, map_cons] at hentries
    simp [Daemon.getQueue, hk, hentries, hvalue]

/-- In every run whose calls meet the condition, `GetQueue` returns the next value. -/
theorem getsNext_of_run {ops : List QueueOp} {s : QueueRun}
    (hlater : Meets QueueRun.next QueueRun.Later .start ops)
    (hrun : run QueueRun.next .start ops = some s) {k : GoString} (hk : k ≠ []) : s.GetsNext k := by
  have hinv : QueueInv s := Transitions.run_invariant (I := QueueInv)
    (fun _ _ _ h hC hnext => h.next hC hnext) .start hlater hrun
  exact hinv.getsNext hk

instance (s : QueueRun) : (op : QueueOp) → Decidable (s.Later op)
  | .setQueue _ _ _ _ => inferInstanceAs (Decidable (_ ≠ _ ∧ ∀ e ∈ _, _))
  | .getQueue _ _ => inferInstanceAs (Decidable (_ ≠ _))

def orderedOps : List QueueOp :=
  [.setQueue none (10 ^ 18) ['q'] ['a'], .setQueue none (10 ^ 18 + 1) ['q'] ['b'],
    .getQueue none ['q'], .getQueue (some (.commit .bucketNotFound)) ['q'],
    .setQueue none (10 ^ 18 + 2) ['q'] ['c']]

theorem orderedOps_getsNext : ∃ s, run QueueRun.next .start orderedOps = some s ∧
      (s.pending ['q']).map Prod.snd = [['b'], ['c']] ∧ s.GetsNext ['q'] := by
  have hlater : Meets QueueRun.next QueueRun.Later .start orderedOps := by decide
  exact ⟨_, rfl, by decide, getsNext_of_run hlater rfl (by decide)⟩

def sameTimeOps : List QueueOp :=
  [.setQueue none (10 ^ 18) ['q'] ['a'], .setQueue none (10 ^ 18) ['q'] ['b']]

def moreDigitsOps : List QueueOp := [.setQueue none 9 ['q'] ['a'], .setQueue none 10 ['q'] ['b']]

def emptyValueOps : List QueueOp := [.setQueue none (10 ^ 18) ['q'] []]

/-- The first of two values of one time is lost; a later one comes first; an empty one looks like an
empty queue; and a queue without a name locks the store. -/
theorem queueOps_not_next : (∃ s, run QueueRun.next .start sameTimeOps = some s ∧
      (getQueue none ['q'] s.db).1 = .ok ['b'] ∧ ¬ s.GetsNext ['q']) ∧
    (∃ s, run QueueRun.next .start moreDigitsOps = some s ∧
      (getQueue none ['q'] s.db).1 = .ok ['b'] ∧ ¬ s.GetsNext ['q']) ∧
    (∃ s, run QueueRun.next .start emptyValueOps = some s ∧
      (getQueue none ['q'] s.db).1 = .ok [] ∧ ¬ s.GetsNext ['q']) ∧
    ∃ s, run QueueRun.next .start [.getQueue none []] = some s ∧ s.locked ∧ ¬ s.GetsNext ['q'] := by
  refine ⟨⟨_, rfl, rfl, fun h => ?_⟩, ⟨_, rfl, rfl, fun h => ?_⟩, ⟨_, rfl, rfl, fun h => ?_⟩,
    _, rfl, rfl, fun h => ?_⟩
  · exact absurd (Except.ok.inj h.2.1) (by decide)
  · exact absurd (Except.ok.inj h.2.1) (by decide)
  · exact absurd (h.2.2.mp rfl) (by decide)
  · exact absurd h.1 (by decide)

end Kairos.Daemon
