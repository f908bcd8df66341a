import Kairos.Go.Memory
import Kairos.Library.IndexedMap
import Mathlib.Data.Char
import Mathlib.Data.List.Lex

/-!
# The store of the daemon

`kairos-local/kairosdeamon/agent/store.go`: records in the buckets of a bolt database. A bucket is a
map ordered by the bytes of its keys, and a failed transaction changes nothing (`update`). `Env` has
what `json.Marshal` makes of a record. Tasks and brokers are also in a bucket of their workflow
(`IndexedMap`).
-/

namespace Kairos.Daemon

open Strings

/-- `ntime.NullableTime`, in nanoseconds. -/
abbrev NullableTime := Option ℤ

def NullableTime.after : NullableTime → NullableTime → Bool
  | none, _ => false
  | some _, none => true
  | some t, some u => u < t

/-- The fields of a stored task that the store reads or writes. -/
structure Task where
  id : GoString
  workflowID : ℤ
  timezone : GoString
  schedule : GoString
  successCount : ℤ
  errorCount : ℤ
  lastSuccess : NullableTime
  lastError : NullableTime
  disabled : Bool
  status : GoString
  next : ℤ
  expiresAt : NullableTime
  wait : GoString
  input : GoString
deriving DecidableEq

structure Broker where
  id : ℤ
  name : GoString
  listens : List GoString
  workflowID : ℤ
deriving DecidableEq

structure Execution where
  id : GoString
  finishedAt : ℤ
  success : Bool
deriving DecidableEq

/-! ## The database -/

inductive StoreErr where
  | notFound
  | bucketNameRequired
  | bucketNotFound
  | keyRequired
  | keyTooLarge
  | valueTooLarge
  | other (msg : GoString)
deriving DecidableEq

abbrev Bucket (V : Type) := SortedMap GoString V

abbrev Table (V : Type) := IndexedMap GoString GoString V

/-- The buckets of the daemon's bolt database. -/
structure DB where
  tasks : Table Task
  brokers : Table Broker
  executions : SortedMap GoString (Bucket Execution)
  brokerRecords : SortedMap GoString (Bucket GoString)
  queue : GoString → Bucket GoString

def DB.empty : DB :=
  { tasks := .empty
    brokers := .empty
    executions := .empty
    brokerRecords := .empty
    queue := fun _ => .empty }

/-- The sizes of the encoded values, and the schedule that a cron text is parsed to. -/
structure Env where
  task : Task → Except StoreErr ℕ
  broker : Broker → Except StoreErr ℕ
  execution : Execution → Except StoreErr ℕ
  cron : GoString → Except StoreErr (ℤ → ℤ)

/-- An environment whose texts are short, and which reads no schedule. -/
def shortEnv : Env :=
  { task := fun _ => .ok 100
    broker := fun _ => .ok 100
    execution := fun _ => .ok 100
    cron := fun _ => .error (.other []) }

/-- A transaction fails to begin, or to commit. -/
inductive Fault where
  | begin (err : StoreErr)
  | commit (err : StoreErr)

/-- `db.Update`: an error, also of the commit, leaves the database as it was. -/
def update {α : Type} (fault : Option Fault) (f : DB → Except StoreErr (α × DB)) (db : DB) :
    Except StoreErr α × DB :=
  match fault, f db with
  | some (.begin err), _ => (.error err, db)
  | _, .error err => (.error err, db)
  | some (.commit err), .ok _ => (.error err, db)
  | none, .ok (a, db') => (.ok a, db')

def byteLength (s : GoString) : ℕ := (s.map Char.utf8Size).sum

/-- `Bucket.Put`, with the limits of bolt on keys and values. -/
def putValue {V : Type} (bucket : Bucket V) (k : GoString) (size : ℕ) (v : V) :
    Except StoreErr (Bucket V) :=
  if k = [] then .error .keyRequired
  else if 32768 < byteLength k then .error .keyTooLarge
  else if 2 ^ 31 - 2 < size then .error .valueTooLarge
  else .ok (bucket.put k v)

/-- `Bucket.Put`, where the error is dropped. -/
def putValue' {V : Type} (bucket : Bucket V) (k : GoString) (size : ℕ) (v : V) : Bucket V :=
  match putValue bucket k size v with
  | .ok bucket' => bucket'
  | .error _ => bucket

/-! ## Tasks -/

def Task.getNext (env : Env) (now : ℤ) (task : Task) : Except StoreErr ℤ :=
  if task.schedule ≠ [] then (env.cron task.schedule).map fun next => next now
  else .ok (-62135596800 * 10 ^ 9)

/-- What `SetTask` puts in `Next` where the task is stored. -/
def Task.mergeNext (env : Env) (now : ℤ) (task et : Task) : Except StoreErr ℤ :=
  if task.schedule ≠ et.schedule then task.getNext env now
  else .ok (if task.next < et.next then et.next else task.next)

/-- The fields that `SetTask` keeps of the stored task. -/
def Task.merge (env : Env) (now : ℤ) (task : Task) : Option Task → Except StoreErr Task
  | none => .ok task
  | some et => (task.mergeNext env now et).map fun next => { task with
    lastError := if et.lastError.after task.lastError then et.lastError else task.lastError
    lastSuccess :=
      if et.lastSuccess.after task.lastSuccess then et.lastSuccess else task.lastSuccess
    successCount :=
      if task.successCount < et.successCount then et.successCount else task.successCount
    errorCount := if task.errorCount < et.errorCount then et.errorCount else task.errorCount
    status := if et.status ≠ [] then et.status else task.status
    next := next }

/-- `setTaskTxFunc`. The text is made before the stored task is merged in, and is what is stored.
The merged task is left to the caller. -/
def setTaskTx (env : Env) (now : ℤ) (task : Task) (db : DB) : Except StoreErr (Task × DB) := do
  let k := itoa task.workflowID
  let size ← env.task task
  let bucket ← putValue (db.tasks.of k) task.id size task
  let merged ← task.merge env now (db.tasks.all.get task.id)
  .ok (merged, { db with
    tasks := ⟨putValue' db.tasks.all task.id size task, Function.update db.tasks.of k bucket⟩ })

def setTask (env : Env) (fault : Option Fault) (now : ℤ) (task : Task) (db : DB) :
    Except StoreErr Task × DB :=
  update fault (setTaskTx env now task) db

def getTaskTx (taskID : GoString) (db : DB) : Except StoreErr Task :=
  match db.tasks.all.get taskID with
  | some task => .ok task
  | none => .error .notFound

/-- `GetTask`, which drops every error: without a task it returns the zero task. -/
def getTask (fault : Option Fault) (taskID : GoString) (db : DB) : Option Task :=
  match fault with
  | some (.begin _) => none
  | _ => (getTaskTx taskID db).toOption

/-- `deleteTaskTxFunc` and `deleteBrokerTxFunc`: the bucket of the workflow loses the id of the
workflow. -/
def deleteTx {V : Type} (workflowID : V → ℤ) (id : GoString) (table : Table V) :
    Except StoreErr (Table V) :=
  match table.all.get id with
  | none => .error .notFound
  | some v =>
    let k := itoa (workflowID v)
    .ok (table.remove k k id)

def deleteTaskTx (taskID : GoString) (db : DB) : Except StoreErr DB :=
  (deleteTx Task.workflowID taskID db.tasks).map fun tasks => { db with tasks := tasks }

def deleteExecutionsTx (taskID : GoString) (db : DB) : Except StoreErr DB :=
  match db.executions.get taskID with
  | none => .error .bucketNotFound
  | some _ => .ok { db with executions := db.executions.erase taskID }

def deleteTask (fault : Option Fault) (id : GoString) (db : DB) : DB :=
  (update fault (fun db => do .ok ((), ← deleteExecutionsTx id (← deleteTaskTx id db))) db).2

def setExecutionTx (env : Env) (taskID : GoString) (execution : Execution) (db : DB) :
    Except StoreErr DB :=
  if taskID = [] then .error .bucketNameRequired
  else do
    let bucket := (db.executions.get taskID).getD .empty
    let size ← env.execution execution
    let bucket ← putValue bucket execution.id size execution
    .ok { db with executions := db.executions.put taskID bucket }

def Task.done (task : Task) (execution : Execution) : Task :=
  if execution.success then
    { task with
      lastSuccess := some execution.finishedAt
      successCount := wrap64 (task.successCount + 1) }
  else
    { task with
      lastError := some execution.finishedAt
      errorCount := wrap64 (task.errorCount + 1) }

def setExecutionDone (env : Env) (fault : Option Fault) (now : ℤ) (taskID : GoString)
    (execution : Execution) (db : DB) : Except StoreErr Unit × DB :=
  update fault (fun db => do
    let db ← setExecutionTx env taskID execution db
    let task ← getTaskTx taskID db
    let (_, db) ← setTaskTx env now (task.done execution) db
    .ok ((), db)) db

def setBrokerTx (env : Env) (broker : Broker) (db : DB) : Except StoreErr (Unit × DB) := do
  let k := itoa broker.workflowID
  let size ← env.broker broker
  .ok ((), { db with
    brokers := ⟨putValue' db.brokers.all (itoa broker.id) size broker,
      Function.update db.brokers.of k
        (putValue' (db.brokers.of k) (itoa broker.id) size broker)⟩ })

def setBroker (env : Env) (fault : Option Fault) (broker : Broker) (db : DB) :
    Except StoreErr Unit × DB :=
  update fault (setBrokerTx env broker) db

def deleteBrokerTx (brokerID : GoString) (db : DB) : Except StoreErr DB :=
  (deleteTx Broker.workflowID brokerID db.brokers).map fun brokers => { db with brokers := brokers }

def deleteBrokerRecordTx (brokerID : GoString) (db : DB) : DB :=
  { db with brokerRecords := db.brokerRecords.erase brokerID }

def deleteBroker (fault : Option Fault) (id : GoString) (db : DB) : DB :=
  (update fault (fun db => do .ok ((), deleteBrokerRecordTx id (← deleteBrokerTx id db))) db).2

/-! ## Workflows -/

/-- A call whose error is dropped. -/
def orSame (f : DB → Except StoreErr DB) (db : DB) : DB :=
  match f db with
  | .ok db' => db'
  | .error _ => db

/-- The loop of `deleteWorkflowTxFunc` over the keys of the bucket of tasks, from which it deletes.
A deleted key comes up nevertheless if the cursor has read its page before (`keeps`). -/
def deleteTasks (keeps : GoString → GoString → Bool) (workflowID last : GoString) :
    List GoString → DB → DB
  | [], db => db
  | k :: ks, db =>
    if ((db.tasks.of workflowID).get k).isSome ∨ keeps last k then
      deleteTasks keeps workflowID k ks (orSame (deleteTaskTx k) db)
    else deleteTasks keeps workflowID last ks db

/-- The keys that the loop over the brokers comes to. After the first it goes on with the cursor of
the tasks, which is at its end. -/
def brokerKeys (bucket : Bucket Broker) : List GoString := bucket.keys.take 1

def deleteWorkflowTx (keeps : GoString → GoString → Bool) (workflowID : GoString) (db : DB) :
    Except StoreErr (Unit × DB) :=
  if workflowID = [] then .error .bucketNameRequired
  else
    let db := deleteTasks keeps workflowID [] (db.tasks.of workflowID).keys db
    let db := (brokerKeys (db.brokers.of workflowID)).foldl
      (fun db k => orSame (deleteBrokerTx k) db) db
    .ok ((), { db with tasks := db.tasks.drop workflowID, brokers := db.brokers.drop workflowID })

def deleteWorkflow (fault : Option Fault) (keeps : GoString → GoString → Bool) (id : GoString)
    (db : DB) : DB :=
  (update fault (deleteWorkflowTx keeps id) db).2

/-- What `GetWorkflow` lists. -/
structure WorkflowInfo where
  taskIDs : List ℤ
  brokerIDs : List ℤ

/-- `strconv.ParseInt(s, 10, 64)` without its error: too large is the largest, no number is 0. -/
def parseInt (s : GoString) : ℤ :=
  let v : Option ℤ :=
    match s with
    | '+' :: t => (unsigned? t).map Int.ofNat
    | '-' :: t => (unsigned? t).map fun n => -(n : ℤ)
    | t => (unsigned? t).map Int.ofNat
  max (-2 ^ 63) (min (2 ^ 63 - 1) (v.getD 0))

def getWorkflow (fault : Option Fault) (id : GoString) (db : DB) : WorkflowInfo :=
  match fault with
  | some (.begin _) => ⟨[], []⟩
  | _ =>
    if id = [] then ⟨[], []⟩
    else ⟨(db.tasks.of id).keys.map parseInt, (brokerKeys (db.brokers.of id)).map parseInt⟩

/-! ## What the functions do -/

variable {α : Type}

theorem bind_eq_ok {β : Type} {x : Except StoreErr α} {f : α → Except StoreErr β} {b : β} :
    (x >>= f) = .ok b ↔ ∃ a, x = .ok a ∧ f a = .ok b := by
  cases x with
  | error err =>
    constructor
    · intro h
      cases h
    · rintro ⟨a, ha, -⟩
      cases ha
  | ok a =>
    constructor
    · exact fun h => ⟨a, rfl, h⟩
    · rintro ⟨a', ha, h⟩
      obtain rfl := Except.ok.inj ha
      exact h

theorem update_cases (fault : Option Fault) (f : DB → Except StoreErr (α × DB)) (db : DB) :
    (∃ err, update fault f db = (.error err, db)) ∨
      ∃ a db', fault = none ∧ f db = .ok (a, db') ∧ update fault f db = (.ok a, db') := by
  fun_cases update fault f db with
  | case1 => exact .inl ⟨_, rfl⟩
  | case2 => exact .inl ⟨_, rfl⟩
  | case3 => exact .inl ⟨_, rfl⟩
  | case4 a db' hf => exact .inr ⟨a, db', rfl, hf, rfl⟩

variable {db : DB}

variable {V : Type}

theorem putValue_ok {bucket bucket' : Bucket V} {k : GoString} {size : ℕ} {v : V}
    (h : putValue bucket k size v = .ok bucket') :
    bucket' = bucket.put k v ∧ ∀ other : Bucket V, putValue' other k size v = other.put k v := by
  unfold putValue at h
  split at h
  · cases h
  · rename_i hk
    split at h
    · cases h
    · rename_i hlen
      split at h
      · cases h
      · rename_i hsize
        refine ⟨(Except.ok.inj h).symm, fun other => ?_⟩
        rw [putValue', putValue, if_neg hk, if_neg hlen, if_neg hsize]

theorem putValue'_eq_or (k : GoString) (size : ℕ) (v : V) :
    (∀ bucket : Bucket V, putValue' bucket k size v = bucket) ∨
      ∀ bucket : Bucket V, putValue' bucket k size v = bucket.put k v := by
  cases h : putValue (.empty : Bucket V) k size v with
  | ok bucket => exact .inr (putValue_ok h).2
  | error err =>
    refine .inl fun bucket => ?_
    have hbucket : putValue bucket k size v = .error err := by
      unfold putValue at h ⊢
      split at h
      · rename_i hk
        rw [if_pos hk, h]
      · rename_i hk
        rw [if_neg hk]
        split at h
        · rename_i hlen
          rw [if_pos hlen, h]
        · rename_i hlen
          rw [if_neg hlen]
          split at h
          · rename_i hsize
            rw [if_pos hsize, h]
          · cases h
    rw [putValue', hbucket]

variable {env : Env} {task : Task} {db' : DB}

theorem setTaskTx_ok {now : ℤ} {merged : Task} (h : setTaskTx env now task db = .ok (merged, db')) :
    db' = { db with tasks := db.tasks.insert (itoa task.workflowID) task.id task } := by
  obtain ⟨size, -, h⟩ := bind_eq_ok.mp h
  obtain ⟨bucket, hput, h⟩ := bind_eq_ok.mp h
  obtain ⟨merged', -, h⟩ := bind_eq_ok.mp h
  obtain ⟨rfl, hall⟩ := putValue_ok hput
  have hdb := (Prod.mk.inj (Except.ok.inj h)).2
  rw [← hdb, hall]
  rfl

theorem setBrokerTx_ok {broker : Broker} (h : setBrokerTx env broker db = .ok ((), db')) :
    db' = db ∨ db' = { db with
      brokers := db.brokers.insert (itoa broker.workflowID) (itoa broker.id) broker } := by
  obtain ⟨size, -, h⟩ := bind_eq_ok.mp h
  have hdb := (Prod.mk.inj (Except.ok.inj h)).2
  rcases putValue'_eq_or (itoa broker.id) size broker with hsame | hput
  · left
    rw [← hdb, hsame, hsame, Function.update_eq_self]
  · right
    rw [← hdb, hput, hput]
    rfl

variable {id : GoString}

theorem deleteTaskTx_ok (h : deleteTaskTx id db = .ok db') :
    ∃ task, db.tasks.all.get id = some task ∧ db' = { db with
      tasks := db.tasks.remove (itoa task.workflowID) (itoa task.workflowID) id } := by
  unfold deleteTaskTx deleteTx at h
  cases hget : db.tasks.all.get id with
  | none => rw [hget] at h; cases h
  | some task =>
    rw [hget] at h
    exact ⟨task, rfl, (Except.ok.inj h).symm⟩

theorem deleteBrokerTx_ok (h : deleteBrokerTx id db = .ok db') :
    ∃ broker, db.brokers.all.get id = some broker ∧ db' = { db with
      brokers := db.brokers.remove (itoa broker.workflowID) (itoa broker.workflowID) id } := by
  unfold deleteBrokerTx deleteTx at h
  cases hget : db.brokers.all.get id with
  | none => rw [hget] at h; cases h
  | some broker =>
    rw [hget] at h
    exact ⟨broker, rfl, (Except.ok.inj h).symm⟩

theorem deleteTask_cases (fault : Option Fault) (id : GoString) (db : DB) :
    deleteTask fault id db = db ∨ ∃ task executions, db.tasks.all.get id = some task ∧
      db.executions.get id = some executions ∧ deleteTask fault id db = { db with
        tasks := db.tasks.remove (itoa task.workflowID) (itoa task.workflowID) id
        executions := db.executions.erase id } := by
  unfold deleteTask
  rcases update_cases fault
    (fun db => do .ok ((), ← deleteExecutionsTx id (← deleteTaskTx id db))) db with
    ⟨err, h⟩ | ⟨a, db', -, hf, h⟩
  · exact .inl (by rw [h])
  · obtain ⟨db₁, htask, hrest⟩ := bind_eq_ok.mp hf
    obtain ⟨task, hget, rfl⟩ := deleteTaskTx_ok htask
    obtain ⟨db₂, hexec, hlast⟩ := bind_eq_ok.mp hrest
    obtain rfl : db₂ = db' := (Prod.mk.inj (Except.ok.inj hlast)).2
    unfold deleteExecutionsTx at hexec
    cases hexecutions : db.executions.get id with
    | none => simp [hexecutions] at hexec
    | some executions =>
      simp only [hexecutions, Except.ok.injEq] at hexec
      exact .inr ⟨task, executions, hget, rfl, by rw [h, ← hexec]⟩

variable {taskID : GoString}

theorem setExecutionTx_ok {execution : Execution}
    (h : setExecutionTx env taskID execution db = .ok db') :
    ∃ executions, db' = { db with executions := executions } := by
  unfold setExecutionTx at h
  split at h
  · cases h
  · obtain ⟨size, -, h⟩ := bind_eq_ok.mp h
    obtain ⟨bucket, -, h⟩ := bind_eq_ok.mp h
    exact ⟨_, (Except.ok.inj h).symm⟩

theorem getTaskTx_ok
    (h : getTaskTx taskID db = .ok task) : db.tasks.all.get taskID = some task := by
  unfold getTaskTx at h
  split at h
  · rename_i task' hget
    rw [hget, Except.ok.inj h]
  · cases h

@[simp] theorem Task.done_id (task : Task) (execution : Execution) :
    (task.done execution).id = task.id := by
  unfold Task.done
  split <;> rfl

@[simp] theorem Task.done_workflowID (task : Task) (execution : Execution) :
    (task.done execution).workflowID = task.workflowID := by
  unfold Task.done
  split <;> rfl

theorem setExecutionDone_cases (env : Env) (fault : Option Fault) (now : ℤ) (taskID : GoString)
    (execution : Execution) (db : DB) :
    (∃ err, setExecutionDone env fault now taskID execution db = (.error err, db)) ∨
      ∃ task executions, db.tasks.all.get taskID = some task ∧
        setExecutionDone env fault now taskID execution db = (.ok (), { db with
          tasks := db.tasks.insert (itoa task.workflowID) task.id (task.done execution)
          executions := executions }) := by
  unfold setExecutionDone
  rcases update_cases fault (fun db => do
    let db ← setExecutionTx env taskID execution db
    let task ← getTaskTx taskID db
    let (_, db) ← setTaskTx env now (task.done execution) db
    .ok ((), db)) db with ⟨err, h⟩ | ⟨a, db', -, hf, h⟩
  · exact .inl ⟨err, h⟩
  · obtain ⟨db₁, hexec, hrest⟩ := bind_eq_ok.mp hf
    obtain ⟨executions, rfl⟩ := setExecutionTx_ok hexec
    obtain ⟨task, hget, hrest⟩ := bind_eq_ok.mp hrest
    obtain ⟨⟨merged, db₂⟩, hset, hlast⟩ := bind_eq_ok.mp hrest
    have hdb : db₂ = db' := (Prod.mk.inj (Except.ok.inj hlast)).2
    refine .inr ⟨task, executions, getTaskTx_ok hget, ?_⟩
    rw [h, ← hdb, setTaskTx_ok hset, Task.done_id, Task.done_workflowID]

end Kairos.Daemon
