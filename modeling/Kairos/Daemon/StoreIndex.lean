import Kairos.Daemon.Store
import Kairos.Library.Transitions

/-!
# The buckets of the workflows

The buckets `tasks` and `brokers` of a workflow should hold its tasks and brokers, with the texts of
the main buckets (`DB.Indexed`).
-/

namespace Kairos.Daemon

open List
open Transitions (Meets run)
open Strings

inductive StoreOp where
  | setTask (fault : Option Fault) (now : ℤ) (task : Task)
  | setBroker (fault : Option Fault) (broker : Broker)
  | deleteTask (fault : Option Fault) (id : GoString)
  | deleteBroker (fault : Option Fault) (id : GoString)
  | setExecutionDone (fault : Option Fault) (now : ℤ) (taskID : GoString) (execution : Execution)
  | deleteWorkflow (fault : Option Fault) (keeps : GoString → GoString → Bool) (id : GoString)

def StoreOp.run (env : Env) (db : DB) : StoreOp → DB
  | .setTask fault now task => (Daemon.setTask env fault now task db).2
  | .setBroker fault broker => (Daemon.setBroker env fault broker db).2
  | .deleteTask fault id => Daemon.deleteTask fault id db
  | .deleteBroker fault id => Daemon.deleteBroker fault id db
  | .setExecutionDone fault now taskID execution =>
    (Daemon.setExecutionDone env fault now taskID execution db).2
  | .deleteWorkflow fault keeps id => Daemon.deleteWorkflow fault keeps id db

def DB.Indexed (db : DB) : Prop :=
  ∀ w : ℤ,
    (∀ k task, (db.tasks.of (itoa w)).get k = some task ↔
      db.tasks.all.get k = some task ∧ task.workflowID = w) ∧
    ∀ k broker, (db.brokers.of (itoa w)).get k = some broker ↔
      db.brokers.all.get k = some broker ∧ broker.workflowID = w

/-- After `p` the cursor comes to the task with the workflow's id too, though it was deleted. -/
def Reached (keeps : GoString → GoString → Bool) (workflowID : GoString) (keys : List GoString) :
    Prop :=
  keys.IsChain fun p k => k = workflowID → keeps p k

def StoreOp.Keeps (db : DB) : StoreOp → Prop
  | .setTask _ _ task => ∀ et ∈ db.tasks.all.get task.id, et.workflowID = task.workflowID
  | .setBroker _ broker =>
    ∀ eb ∈ db.brokers.all.get (itoa broker.id), eb.workflowID = broker.workflowID
  | .deleteTask _ id =>
    ∀ task ∈ db.tasks.all.get id, (db.executions.get id).isSome →
      id = itoa task.workflowID
  | .deleteBroker _ id => ∀ broker ∈ db.brokers.all.get id, id = itoa broker.workflowID
  | .setExecutionDone _ _ _ _ => True
  | .deleteWorkflow _ keeps id =>
    (db.brokers.of id).keys.length ≤ 1 ∧ Reached keeps id (db.tasks.of id).keys

instance (keeps : GoString → GoString → Bool) (w : GoString) (keys : List GoString) :
    Decidable (Reached keeps w keys) :=
  inferInstanceAs (Decidable (keys.IsChain fun p k => k = w → keeps p k))

instance (db : DB) : (op : StoreOp) → Decidable (op.Keeps db)
  | .setTask _ _ task =>
    inferInstanceAs (Decidable (∀ et ∈ db.tasks.all.get task.id, et.workflowID = task.workflowID))
  | .setBroker _ broker =>
    inferInstanceAs (Decidable
      (∀ eb ∈ db.brokers.all.get (itoa broker.id), eb.workflowID = broker.workflowID))
  | .deleteTask _ id =>
    inferInstanceAs (Decidable (∀ task ∈ db.tasks.all.get id,
      (db.executions.get id).isSome → id = itoa task.workflowID))
  | .deleteBroker _ id =>
    inferInstanceAs (Decidable (∀ broker ∈ db.brokers.all.get id, id = itoa broker.workflowID))
  | .setExecutionDone _ _ _ _ => .isTrue trivial
  | .deleteWorkflow _ _ _ => inferInstanceAs (Decidable (_ ∧ _))

/-! ## The loops of `deleteWorkflowTxFunc` -/

section Loops

variable {V : Type} {workflowID : V → ℤ} {w k : GoString} {m₀ m : Table V} {P : GoString → Prop}

theorem deleteTx_of_removed (hlists : m₀.Lists (fun v => itoa (workflowID v)) w)
    (h : m₀.Removed w w P m) (hk : k ∈ (m₀.of w).keys) (hP : ¬ P k) :
    deleteTx workflowID k m = .ok (m.remove w w k) := by
  obtain ⟨v, hv, hw⟩ := (hlists k).mp hk
  unfold deleteTx
  rw [h.kept k hP, hv]
  simp only [hw]

end Loops

section Tasks

variable {w : GoString} {m₀ : Table Task} {P : GoString → Prop} {db : DB} {k : GoString}

theorem orSame_deleteTaskTx (hlists : m₀.Lists (fun task => itoa task.workflowID) w)
    (h : m₀.Removed w w P db.tasks) (hk : k ∈ (m₀.of w).keys) :
    ∃ m, orSame (deleteTaskTx k) db = { db with tasks := m } ∧
      m₀.Removed w w (fun k' => P k' ∨ k' = k) m := by
  by_cases hP : P k
  · refine ⟨db.tasks, ?_, h.congr fun k' => ?_⟩
    · unfold orSame deleteTaskTx deleteTx
      rw [h.gone k hP]
      rfl
    · constructor
      · exact .inl
      · rintro (hP' | rfl)
        · exact hP'
        · exact hP
  · refine ⟨db.tasks.remove w w k, ?_, h.remove k⟩
    unfold orSame deleteTaskTx
    rw [deleteTx_of_removed hlists h hk hP]
    rfl

variable {keeps : GoString → GoString → Bool}

theorem isSome_of_mem_head? {last : GoString} (h : k ∈ (db.tasks.of w).keys.head?) :
    ((db.tasks.of w).get k).isSome ∨ keeps last k := by
  obtain ⟨task, htask⟩ := SortedMap.mem_keys_iff.mp (mem_of_mem_head? h)
  exact .inl (by rw [htask]; rfl)

/-- The loop removes all tasks, if the cursor comes to the one with the workflow's id. -/
theorem deleteTasks_removed
    (hlists : m₀.Lists (fun task => itoa task.workflowID) w) (last : GoString)
    {ks : List GoString} (hks : ∀ k ∈ ks, k ∈ (m₀.of w).keys) (hchain : Reached keeps w ks)
    (h : m₀.Removed w w P db.tasks)
    (hhead : ∀ k ∈ ks.head?, ((db.tasks.of w).get k).isSome ∨ keeps last k) :
    ∃ m, deleteTasks keeps w last ks db = { db with tasks := m } ∧
      m₀.Removed w w (fun k => P k ∨ k ∈ ks) m := by
  induction ks generalizing last P db with
  | nil => exact ⟨db.tasks, rfl, h.congr fun k => by simp⟩
  | cons k ks ih =>
    obtain ⟨m₁, hdelete, hstep⟩ := orSame_deleteTaskTx hlists h (hks k mem_cons_self)
    have hnext : ∀ k' ∈ ks.head?, ((m₁.of w).get k').isSome ∨ keeps k k' := by
      intro k' hk'
      by_cases hw : k' = w
      · -- the key that was removed from the bucket
        right
        cases ks with
        | nil => cases hk'
        | cons k₂ ks =>
          obtain rfl : k₂ = k' := Option.some.inj hk'
          exact (isChain_cons_cons.mp hchain).1 hw
      · left
        rw [hstep.keys k' hw]
        obtain ⟨v, hv⟩ := SortedMap.mem_keys_iff.mp
          (hks k' (mem_cons_of_mem _ (mem_of_mem_head? hk')))
        rw [hv]
        rfl
    obtain ⟨m, hm, hremoved⟩ := ih k (fun k' hk' => hks k' (mem_cons_of_mem _ hk'))
      (List.IsChain.of_cons hchain)
      (show m₀.Removed w w _ ({ db with tasks := m₁ } : DB).tasks from hstep) hnext
    refine ⟨m, ?_, hremoved.congr fun k' => by simp [or_assoc]⟩
    rw [deleteTasks, if_pos (hhead k rfl), hdelete, hm]

end Tasks

/-- `deleteWorkflowTxFunc` removes all, if there is one broker at most and the cursor comes to all
tasks. -/
theorem deleteWorkflowTx_removed {keeps : GoString → GoString → Bool} {w : GoString} {db db' : DB}
    (htasks : db.tasks.Lists (fun task => itoa task.workflowID) w)
    (hbrokers : db.brokers.Lists (fun broker => itoa broker.workflowID) w)
    (hlength : (db.brokers.of w).keys.length ≤ 1) (hchain : Reached keeps w (db.tasks.of w).keys)
    (h : deleteWorkflowTx keeps w db = .ok ((), db')) :
    ∃ tasks brokers, db' = { db with tasks := tasks.drop w, brokers := brokers.drop w } ∧
      db.tasks.Removed w w (· ∈ (db.tasks.of w).keys) tasks ∧
      db.brokers.Removed w w (· ∈ (db.brokers.of w).keys) brokers := by
  obtain ⟨tasks, hloop, hremoved⟩ := deleteTasks_removed htasks [] (fun _ hk => hk) hchain
    (.refl w w db.tasks) fun _ hk => isSome_of_mem_head? hk
  have hremoved := hremoved.congr fun k => show False ∨ _ ↔ _ by rw [false_or]
  unfold deleteWorkflowTx at h
  split at h
  · cases h
  · rw [hloop] at h
    have hdb := (Prod.mk.inj (Except.ok.inj h)).2
    -- there is no broker, or one
    cases hkeys : (db.brokers.of w).keys with
    | nil =>
      refine ⟨tasks, db.brokers, ?_, hremoved, ?_⟩
      · rw [← hdb]
        simp only [brokerKeys, hkeys, take_nil, foldl_nil]
      · exact (IndexedMap.Removed.refl w w db.brokers).congr fun k => by simp
    | cons k ks =>
      have hks : ks = [] := by
        rw [hkeys] at hlength
        exact length_eq_zero_iff.mp (Nat.le_zero.mp (Nat.le_of_succ_le_succ hlength))
      have hk : k ∈ (db.brokers.of w).keys := hkeys ▸ mem_cons_self
      have hdelete := deleteTx_of_removed hbrokers (.refl w w db.brokers) hk not_false
      refine ⟨tasks, db.brokers.remove w w k, ?_, hremoved, ?_⟩
      · rw [← hdb]
        simp only [brokerKeys, hkeys, take_succ_cons, take_zero, foldl_cons,
          foldl_nil, orSame, deleteBrokerTx, hdelete, Except.map]
      · exact ((IndexedMap.Removed.refl w w db.brokers).remove k).congr fun k' => by simp [hks]

structure IndexInv (db : DB) : Prop where
  tasks : db.tasks.Agree fun task => itoa task.workflowID
  brokers : db.brokers.Agree fun broker => itoa broker.workflowID
  keyed : ∀ k task, db.tasks.all.get k = some task → task.id = k

theorem IndexInv.empty : IndexInv .empty where
  tasks := IndexedMap.agree_empty
  brokers := IndexedMap.agree_empty
  keyed := fun k task h => by cases h

theorem IndexInv.indexed {db : DB} (h : IndexInv db) : db.Indexed := by
  intro w
  refine ⟨fun k task => ?_, fun k broker => ?_⟩
  · rw [h.tasks (itoa w) k task, itoa_injective.eq_iff]
  · rw [h.brokers (itoa w) k broker, itoa_injective.eq_iff]

section Steps

variable {env : Env} {db : DB}

theorem IndexInv.insert (h : IndexInv db) (task : Task)
    (hsame : ∀ et, db.tasks.all.get task.id = some et → et.workflowID = task.workflowID)
    (executions : SortedMap GoString (Bucket Execution)) : IndexInv { db with
      tasks := db.tasks.insert (itoa task.workflowID) task.id task
      executions := executions } where
  tasks := (IndexedMap.agree_insert (v := task) h.tasks).mpr fun et het =>
    congrArg itoa (hsame et het)
  brokers := h.brokers
  keyed := by
    intro k et het
    simp only [IndexedMap.insert, SortedMap.get_put] at het
    split at het
    · rename_i hk
      rw [← Option.some.inj het, hk]
    · exact h.keyed k et het

theorem IndexInv.setTask (h : IndexInv db) (fault : Option Fault) (now : ℤ) {task : Task}
    (hsame : ∀ et, db.tasks.all.get task.id = some et → et.workflowID = task.workflowID) :
    IndexInv (Daemon.setTask env fault now task db).2 := by
  unfold Daemon.setTask
  rcases update_cases fault (setTaskTx env now task) db with
    ⟨err, hupdate⟩ | ⟨a, db', -, hf, hupdate⟩
  · rwa [hupdate]
  · rw [hupdate, setTaskTx_ok hf]
    exact h.insert task hsame db.executions

theorem IndexInv.setBroker (h : IndexInv db) (fault : Option Fault) {broker : Broker}
    (hsame : ∀ eb, db.brokers.all.get (itoa broker.id) = some eb →
      eb.workflowID = broker.workflowID) : IndexInv (Daemon.setBroker env fault broker db).2 := by
  unfold Daemon.setBroker
  rcases update_cases fault (setBrokerTx env broker) db with
    ⟨err, hupdate⟩ | ⟨a, db', -, hf, hupdate⟩
  · rwa [hupdate]
  · rw [hupdate]
    rcases setBrokerTx_ok hf with rfl | rfl
    · exact h
    · exact { h with
        brokers := (IndexedMap.agree_insert (v := broker) h.brokers).mpr fun eb heb =>
          congrArg itoa (hsame eb heb) }

variable {id : GoString}

theorem IndexInv.deleteTask (h : IndexInv db) (fault : Option Fault)
    (hid : ∀ task, db.tasks.all.get id = some task → (db.executions.get id).isSome →
      id = itoa task.workflowID) : IndexInv (Daemon.deleteTask fault id db) := by
  rcases deleteTask_cases fault id db with hsame | ⟨task, executions, hget, hexec, hdelete⟩
  · rwa [hsame]
  · rw [hdelete]
    have hkey : id = itoa task.workflowID := hid task hget (by rw [hexec]; rfl)
    exact { h with
      tasks := (IndexedMap.agree_remove h.tasks hget).mpr hkey.symm
      keyed := fun k task' hk => by
        simp only [IndexedMap.remove, SortedMap.get_erase] at hk
        split at hk
        · cases hk
        · exact h.keyed k task' hk }

theorem IndexInv.deleteBroker (h : IndexInv db) (fault : Option Fault)
    (hid : ∀ broker, db.brokers.all.get id = some broker → id = itoa broker.workflowID) :
    IndexInv (Daemon.deleteBroker fault id db) := by
  unfold Daemon.deleteBroker
  rcases update_cases fault
    (fun db => do .ok ((), deleteBrokerRecordTx id (← deleteBrokerTx id db))) db with
    ⟨err, hupdate⟩ | ⟨a, db', -, hf, hupdate⟩
  · rwa [hupdate]
  · rw [hupdate]
    obtain ⟨db₁, hdelete, hlast⟩ := bind_eq_ok.mp hf
    obtain ⟨broker, hget, rfl⟩ := deleteBrokerTx_ok hdelete
    obtain rfl := (Prod.mk.inj (Except.ok.inj hlast)).2
    exact { h with
      brokers := (IndexedMap.agree_remove h.brokers hget).mpr (hid broker hget).symm }

theorem IndexInv.setExecutionDone (h : IndexInv db) (fault : Option Fault) (now : ℤ)
    (taskID : GoString) (execution : Execution) :
    IndexInv (Daemon.setExecutionDone env fault now taskID execution db).2 := by
  rcases setExecutionDone_cases env fault now taskID execution db with
    ⟨err, hsame⟩ | ⟨task, executions, hget, hset⟩
  · rwa [hsame]
  · -- the task is stored again under the same id and workflow
    have hid : task.id = taskID := h.keyed taskID task hget
    have hinsert := h.insert (task.done execution) (fun et het => by
      rw [Task.done_id, hid, hget] at het
      rw [← Option.some.inj het, Task.done_workflowID]) executions
    rw [Task.done_id, Task.done_workflowID] at hinsert
    rwa [hset]

theorem IndexInv.deleteWorkflow (h : IndexInv db) (fault : Option Fault)
    {keeps : GoString → GoString → Bool} (hlength : (db.brokers.of id).keys.length ≤ 1)
    (hchain : Reached keeps id (db.tasks.of id).keys) :
    IndexInv (Daemon.deleteWorkflow fault keeps id db) := by
  unfold Daemon.deleteWorkflow
  rcases update_cases fault (deleteWorkflowTx keeps id) db with
    ⟨err, hupdate⟩ | ⟨a, db', -, hf, hupdate⟩
  · rwa [hupdate]
  · rw [hupdate]
    obtain ⟨tasks, brokers, rfl, htasks, hbrokers⟩ := deleteWorkflowTx_removed (h.tasks.lists id)
      (h.brokers.lists id) hlength hchain hf
    refine ⟨htasks.agree_drop h.tasks, hbrokers.agree_drop h.brokers, fun k task hk => ?_⟩
    by_cases hmem : k ∈ (db.tasks.of id).keys
    · have hnone := htasks.gone k hmem
      simp only [IndexedMap.drop, hnone] at hk
      cases hk
    · have hkept := htasks.kept k hmem
      exact h.keyed k task (hkept ▸ hk)

theorem IndexInv.run (h : IndexInv db) {op : StoreOp} (hkeeps : op.Keeps db) :
    IndexInv (op.run env db) := by
  cases op with
  | setTask fault now task => exact h.setTask fault now hkeeps
  | setBroker fault broker => exact h.setBroker fault hkeeps
  | deleteTask fault id => exact h.deleteTask fault hkeeps
  | deleteBroker fault id => exact h.deleteBroker fault hkeeps
  | setExecutionDone fault now taskID execution =>
    exact h.setExecutionDone fault now taskID execution
  | deleteWorkflow fault keeps id => exact h.deleteWorkflow fault hkeeps.1 hkeeps.2

end Steps

def StoreOp.next (env : Env) (db : DB) (op : StoreOp) : Option DB := some (op.run env db)

/-- If the operations meet their conditions, the buckets of the workflows are right. -/
theorem indexed_of_run {env : Env} {ops : List StoreOp} {db : DB}
    (hkeeps : Meets (StoreOp.next env) StoreOp.Keeps .empty ops)
    (hrun : run (StoreOp.next env) .empty ops = some db) : db.Indexed := by
  have hinv : IndexInv db := by
    refine Transitions.run_invariant (I := IndexInv) (fun db op db' h hop hnext => ?_) .empty
      hkeeps hrun
    cases hnext
    exact h.run hop
  exact hinv.indexed

def newTask (id : GoString) (workflowID : ℤ) : Task :=
  { id := id
    workflowID := workflowID
    timezone := []
    schedule := []
    successCount := 0
    errorCount := 0
    lastSuccess := none
    lastError := none
    disabled := false
    status := []
    next := 0
    expiresAt := none
    wait := []
    input := [] }

def newBroker (id : ℤ) (workflowID : ℤ) : Broker :=
  { id := id
    name := []
    listens := []
    workflowID := workflowID }

def workflowOps : List StoreOp :=
  [.setTask none 0 (newTask ['7'] 1), .setTask none 0 (newTask ['1'] 1),
    .setTask none 0 (newTask ['8'] 2), .setBroker none (newBroker 3 1),
    .setExecutionDone none 0 ['7'] ⟨['e'], 5, true⟩, .deleteWorkflow none (fun _ _ => false) ['1']]

theorem workflowOps_indexed : ∃ db, run (StoreOp.next shortEnv) .empty workflowOps = some db ∧
      db.tasks.all.keys = [['8']] ∧ db.Indexed := by
  have hkeeps : Meets (StoreOp.next shortEnv) StoreOp.Keeps .empty workflowOps := by
    decide
  exact ⟨_, rfl, by decide, indexed_of_run hkeeps rfl⟩

def staleOps : List StoreOp :=
  [.setTask none 0 (newTask ['7'] 1), .setExecutionDone none 0 ['7'] ⟨['e'], 5, true⟩,
    .deleteTask none ['7']]

def movedOps : List StoreOp :=
  [.setTask none 0 (newTask ['7'] 1), .setTask none 0 (newTask ['7'] 2)]

def brokersOps : List StoreOp :=
  [.setBroker none (newBroker 3 1), .setBroker none (newBroker 4 1),
    .deleteWorkflow none (fun _ _ => false) ['1']]

/-- A deleted task, a task that has moved, and the second broker of a deleted workflow stay. -/
theorem storeOps_not_indexed : (∃ db, run (StoreOp.next shortEnv) .empty staleOps = some db ∧
      db.tasks.all.keys = [] ∧ (db.tasks.of ['1']).keys = [['7']] ∧ ¬ db.Indexed) ∧
    (∃ db, run (StoreOp.next shortEnv) .empty movedOps = some db ∧
      (db.tasks.of ['1']).keys = [['7']] ∧ (db.tasks.of ['2']).keys = [['7']] ∧ ¬ db.Indexed) ∧
    ∃ db, run (StoreOp.next shortEnv) .empty brokersOps = some db ∧
      db.brokers.all.keys = [['4']] ∧ (db.brokers.of ['1']).keys = [] ∧ ¬ db.Indexed := by
  refine ⟨⟨_, rfl, by decide, by decide, fun h => ?_⟩,
    ⟨_, rfl, by decide, by decide, fun h => ?_⟩, _, rfl, by decide, by decide, fun h => ?_⟩
  · have hall := ((h 1).1 ['7'] ((newTask ['7'] 1).done ⟨['e'], 5, true⟩)).mp (by decide)
    exact absurd hall.1 (by decide)
  · have hall := ((h 1).1 ['7'] (newTask ['7'] 1)).mp (by decide)
    exact absurd hall.1 (by decide)
  · have hof := ((h 1).2 ['4'] (newBroker 4 1)).mpr (by decide)
    exact absurd hof (by decide)

end Kairos.Daemon
