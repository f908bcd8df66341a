import Kairos.Daemon.Store

/-!
# What calls of the store report

`DeleteTask`, `DeleteBroker`, `DeleteWorkflow`, `GetTask` and `GetBroker` of `agent/store.go` drop
the error of their transaction and return nil.
-/

namespace Kairos.Daemon

open Strings

def getBrokerTx (brokerID : GoString) (db : DB) : Except StoreErr Broker :=
  match db.brokers.all.get brokerID with
  | some broker => .ok broker
  | none => .error .notFound

def getBroker (fault : Option Fault) (id : GoString) (db : DB) : Option Broker :=
  match fault with
  | some (.begin _) => none
  | _ => (getBrokerTx id db).toOption

def returnsNil {α : Type} (result : α) : Option StoreErr × α := (none, result)

def Absent {V : Type} (table : Table V) (id : GoString) : Prop :=
  table.all.get id = none ∧ ∀ w, (table.of w).get id = none

def NoWorkflow (db : DB) (id : GoString) : Prop :=
  db.tasks.of id = .empty ∧ db.brokers.of id = .empty

/-- Where the call returns nil the object is gone, and otherwise nothing has changed. -/
structure Deletes (gone : DB → Prop) (db : DB) (r : Option StoreErr × DB) : Prop where
  gone : r.1 = none → gone r.2
  same : r.1 ≠ none → r.2 = db

def Gets {V : Type} (stored : Option V) (r : Option StoreErr × Option V) : Prop :=
  r.1 = none → stored.isSome ∧ r.2 = stored

def Removable {V : Type} (workflowID : V → ℤ) (table : Table V) (id : GoString) : Prop :=
  ∃ v, table.all.get id = some v ∧
    ∀ w, (table.of w).get id = none ∨ itoa (workflowID v) = w ∧ itoa (workflowID v) = id

variable {V : Type} {table : Table V} {db : DB} {fault : Option Fault} {id : GoString}

theorem deletes_returnsNil {gone : DB → Prop} {after : DB} :
    Deletes gone db (returnsNil after) ↔ gone after :=
  ⟨fun h => h.gone rfl, fun h => ⟨fun _ => h, fun hne => absurd rfl hne⟩⟩

variable {α : Type} {f : DB → Except StoreErr (α × DB)}

theorem update_of_error {err : StoreErr} (h : f db = .error err) : (update fault f db).2 = db := by
  rcases update_cases fault f db with ⟨_, hupdate⟩ | ⟨a, db', -, hf, -⟩
  · rw [hupdate]
  · cases h.symm.trans hf

theorem update_of_fault (h : fault ≠ none) : (update fault f db).2 = db := by
  rcases update_cases fault f db with ⟨_, hupdate⟩ | ⟨a, db', hnone, -, -⟩
  · rw [hupdate]
  · exact absurd hnone h

theorem update_of_ok {a : α} {db' : DB} (h : f db = .ok (a, db')) : (update none f db).2 = db' := by
  simp only [update, h]

theorem absent_remove (k id : GoString) :
    Absent (table.remove k k id) id ↔ ∀ w, (table.of w).get id = none ∨ k = w ∧ k = id := by
  have hall : (table.remove k k id).all.get id = none := SortedMap.get_erase_self table.all id
  rw [Absent, and_iff_right hall]
  refine forall_congr' fun w => ?_
  rw [IndexedMap.of_remove]
  by_cases hk : k = w ∧ k = id
  · rw [if_pos hk]
    exact iff_of_true rfl (.inr hk)
  · rw [if_neg hk, or_iff_left hk]

theorem absent_remove_iff {workflowID : V → ℤ} {v : V} (hv : table.all.get id = some v) :
    Absent (table.remove (itoa (workflowID v)) (itoa (workflowID v)) id) id ↔
      Absent table id ∨ Removable workflowID table id := by
  have hpresent : ¬ Absent table id := fun habsent => by simp [habsent.1] at hv
  rw [absent_remove, or_iff_right hpresent]
  refine ⟨fun h => ⟨v, hv, h⟩, fun ⟨v', hv', h⟩ => ?_⟩
  rwa [Option.some.inj (hv.symm.trans hv')]

theorem not_removable {workflowID : V → ℤ} (hv : table.all.get id = none) :
    ¬ Removable workflowID table id := fun ⟨v, hv', _⟩ => by simp [hv] at hv'

theorem deleteTask_absent_iff : Absent (deleteTask fault id db).tasks id ↔
    Absent db.tasks id ∨ fault = none ∧ (db.executions.get id).isSome ∧
      Removable Task.workflowID db.tasks id := by
  by_cases hfault : fault = none
  · subst hfault
    cases htask : db.tasks.all.get id with
    | none =>
      have hsame : deleteTask none id db = db :=
        update_of_error (by rw [deleteTaskTx, deleteTx, htask]; rfl)
      rw [hsame]
      simp [not_removable htask]
    | some task =>
      cases hexec : db.executions.get id with
      | none =>
        have hsame : deleteTask none id db = db := update_of_error (by
          rw [deleteTaskTx, deleteTx, htask]
          simp only [deleteExecutionsTx, Except.map, bind, Except.bind, hexec]
          rfl)
        rw [hsame]
        simp
      | some executions =>
        have hdone : deleteTask none id db = { db with
            tasks := db.tasks.remove (itoa task.workflowID) (itoa task.workflowID) id
            executions := db.executions.erase id } := update_of_ok (by
          rw [deleteTaskTx, deleteTx, htask]
          simp only [deleteExecutionsTx, Except.map, bind, Except.bind, hexec]
          rfl)
        rw [hdone]
        simpa using absent_remove_iff htask
  · have hsame : deleteTask fault id db = db := update_of_fault hfault
    rw [hsame]
    simp [hfault]

theorem deleteBroker_of_stored {broker : Broker} (h : db.brokers.all.get id = some broker) :
    deleteBroker none id db = deleteBrokerRecordTx id { db with
      brokers := db.brokers.remove (itoa broker.workflowID) (itoa broker.workflowID) id } :=
  update_of_ok (by rw [deleteBrokerTx, deleteTx, h]; rfl)

theorem deleteBroker_eq_self (h : fault = none → db.brokers.all.get id = none) :
    deleteBroker fault id db = db := by
  by_cases hfault : fault = none
  · exact update_of_error (by rw [deleteBrokerTx, deleteTx, h hfault]; rfl)
  · exact update_of_fault hfault

theorem deleteBroker_absent_iff : Absent (deleteBroker fault id db).brokers id ↔
    Absent db.brokers id ∨ fault = none ∧ Removable Broker.workflowID db.brokers id := by
  cases hbroker : db.brokers.all.get id with
  | none =>
    rw [deleteBroker_eq_self fun _ => hbroker]
    simp [not_removable hbroker]
  | some broker =>
    by_cases hfault : fault = none
    · rw [hfault, deleteBroker_of_stored hbroker]
      simpa [deleteBrokerRecordTx] using absent_remove_iff hbroker
    · rw [deleteBroker_eq_self fun h => absurd h hfault]
      simp [hfault]

theorem deleteWorkflow_gone_iff (keeps : GoString → GoString → Bool) :
    NoWorkflow (deleteWorkflow fault keeps id db) id ↔
      NoWorkflow db id ∨ fault = none ∧ id ≠ [] := by
  by_cases hfault : fault = none
  · subst hfault
    by_cases hid : id = []
    · have hsame : deleteWorkflow none keeps id db = db :=
        update_of_error (by rw [deleteWorkflowTx, if_pos hid])
      rw [hsame]
      simp [hid]
    · refine iff_of_true ?_ (.inr ⟨rfl, hid⟩)
      rw [deleteWorkflow, update_of_ok (by rw [deleteWorkflowTx, if_neg hid])]
      exact ⟨Function.update_self .., Function.update_self ..⟩
  · have hsame : deleteWorkflow fault keeps id db = db := update_of_fault hfault
    rw [hsame]
    simp [hfault]

def begins : Option Fault → Bool
  | some (.begin _) => false
  | _ => true

theorem gets_ite {stored : Option V} {b : Bool} :
    Gets stored (returnsNil (if b then stored else none)) ↔ stored.isSome ∧ b := by
  cases b with
  | false => cases stored <;> simp [Gets, returnsNil]
  | true => simp [Gets, returnsNil]

theorem getTask_eq : getTask fault id db = if begins fault then db.tasks.all.get id else none := by
  have htask : (getTaskTx id db).toOption = db.tasks.all.get id := by
    unfold getTaskTx
    cases db.tasks.all.get id <;> rfl
  rcases fault with - | err | err
  · exact htask
  · rfl
  · exact htask

theorem getBroker_eq :
    getBroker fault id db = if begins fault then db.brokers.all.get id else none := by
  have hbroker : (getBrokerTx id db).toOption = db.brokers.all.get id := by
    unfold getBrokerTx
    cases db.brokers.all.get id <;> rfl
  rcases fault with - | err | err
  · exact hbroker
  · rfl
  · exact hbroker

/-- When nil can be relied on. A task never executed has no bucket of executions, and a value stays
in the bucket of its workflow unless it has the workflow's id. -/
theorem calls_sound_iff (fault : Option Fault) (keeps : GoString → GoString → Bool) (id : GoString)
    (db : DB) : (Deletes (fun db => Absent db.tasks id) db (returnsNil (deleteTask fault id db)) ↔
      Absent db.tasks id ∨ fault = none ∧ (db.executions.get id).isSome ∧
        Removable Task.workflowID db.tasks id) ∧
    (Deletes (fun db => Absent db.brokers id) db (returnsNil (deleteBroker fault id db)) ↔
      Absent db.brokers id ∨ fault = none ∧ Removable Broker.workflowID db.brokers id) ∧
    (Deletes (fun db => NoWorkflow db id) db (returnsNil (deleteWorkflow fault keeps id db)) ↔
      NoWorkflow db id ∨ fault = none ∧ id ≠ []) ∧
    (Gets (db.tasks.all.get id) (returnsNil (getTask fault id db)) ↔
      (db.tasks.all.get id).isSome ∧ begins fault) ∧
    (Gets (db.brokers.all.get id) (returnsNil (getBroker fault id db)) ↔
      (db.brokers.all.get id).isSome ∧ begins fault) := by
  refine ⟨deletes_returnsNil.trans deleteTask_absent_iff,
    deletes_returnsNil.trans deleteBroker_absent_iff,
    deletes_returnsNil.trans (deleteWorkflow_gone_iff keeps), ?_, ?_⟩
  · rw [getTask_eq]
    exact gets_ite
  · rw [getBroker_eq]
    exact gets_ite

/-- What `SetTask` leaves of a task that has never been executed. -/
def freshTask : DB :=
  (setTask shortEnv none 0 ⟨"7", 7, [], [], 0, 0, none, none, false, [], 0, none, [], []⟩ .empty).2

/-- A task that has never been executed is not deleted, and the zero task is returned for one that
is not there. -/
theorem freshTask_stays :
    ¬ Deletes (fun db => Absent db.tasks "7") freshTask
        (returnsNil (deleteTask none "7" freshTask)) ∧
      ¬ Gets (DB.empty.tasks.all.get []) (returnsNil (getTask none [] .empty)) := by
  refine ⟨fun h => ?_, fun h => ?_⟩
  · exact absurd (h.gone rfl).1 (by decide)
  · exact absurd (h rfl).1 (by decide)

end Kairos.Daemon
