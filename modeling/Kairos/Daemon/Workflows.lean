import Kairos.Daemon.LocalBroker
import Kairos.Daemon.StoreIndex

/-!
# Deleting a workflow

`DeleteWorkflow` of the agent detaches the brokers that `GetWorkflow` lists, deletes the tasks one
by one, and then calls the store. A task with the id of the workflow is the odd one:
`deleteTaskTxFunc` deletes the key of the workflow, and `DeleteTask` fails for a task without
executions.
-/

namespace Kairos.Daemon

open SortedMap (mem_entries_iff get_erase_of_ne nodup_keys mem_keys_iff)
open Strings

def LocalBroker.detach (b : LocalBroker) (i : ℕ) : Res LocalBroker :=
  if (b.subs i).closed then .panic else .ok (((b.destroy i).close i).unsubscribe i)

def LocalBroker.detachBroker (b : LocalBroker) (brokerID : ℤ) : Res LocalBroker :=
  match b.brokerWfs brokerID with
  | none => .ok b
  | some i => b.detach i

structure Agent where
  db : DB
  broker : LocalBroker
  entries : List GoString
  runs : List Task
  calls : List GoString

structure WorkflowFaults where
  getWorkflow : Option Fault
  deleteTask : GoString → Option Fault
  deleteWorkflow : Option Fault

def WorkflowFaults.none : WorkflowFaults := ⟨.none, fun _ => .none, .none⟩

namespace Agent

def deleteTask (fault : Option Fault) (taskID : GoString) (a : Agent) : Agent :=
  { a with db := Daemon.deleteTask fault taskID a.db, entries := a.entries.erase taskID }

def deleteWorkflow (faults : WorkflowFaults) (keeps : GoString → GoString → Bool) (wid : ℤ)
    (a : Agent) : Res Agent := do
  let wfi := getWorkflow faults.getWorkflow (itoa wid) a.db
  let broker ← wfi.brokerIDs.foldlM LocalBroker.detachBroker a.broker
  let a := wfi.taskIDs.foldl
    (fun a id => a.deleteTask (faults.deleteTask (itoa id)) (itoa id)) { a with broker := broker }
  .ok { a with db := Daemon.deleteWorkflow faults.deleteWorkflow keeps (itoa wid) a.db }

end Agent

/-! ## The property and the condition -/

def Names {V : Type} (workflowID : V → ℤ) (wid : ℤ) (ids : List ℤ) (bucket : Bucket V) : Prop :=
  ∀ k, (∃ id ∈ ids, itoa id = k) ↔ ∃ v, bucket.get k = some v ∧ workflowID v = wid

def Without {V : Type} (workflowID : V → ℤ) (wid : ℤ) (bucket bucket' : Bucket V) : Prop :=
  ∀ k v, bucket'.get k = some v ↔ bucket.get k = some v ∧ workflowID v ≠ wid

def LocalBroker.Detached (b b' : LocalBroker) (i : ℕ) : Prop :=
  (b'.subs i).destroyed ∧ (b'.subs i).closed ∧
    ∀ topic ∈ (b.subs i).topics, i ∉ b'.members topic

/-- The tasks and brokers of the workflow are gone, the others are there, and its subscribers are
detached. -/
def Agent.WorkflowDeleted (wid : ℤ) (a a' : Agent) : Prop :=
  Without Task.workflowID wid a.db.tasks.all a'.db.tasks.all ∧
  Without Broker.workflowID wid a.db.brokers.all a'.db.brokers.all ∧
  ∀ id broker, a.db.brokers.all.get (itoa id) = some broker → broker.workflowID = wid →
    ∀ i ∈ a.broker.brokerWfs id, a.broker.Detached a'.broker i

def Agent.DeletesWorkflow (keeps : GoString → GoString → Bool) (wid : ℤ) (a : Agent) : Prop :=
  Names Task.workflowID wid (getWorkflow none (itoa wid) a.db).taskIDs a.db.tasks.all ∧
  Names Broker.workflowID wid (getWorkflow none (itoa wid) a.db).brokerIDs a.db.brokers.all ∧
  ∃ a', a.deleteWorkflow .none keeps wid = .ok a' ∧ a.WorkflowDeleted wid a'

/-- The task with the workflow's id is deleted, by `DeleteTask` if it has executions, or by the loop
if it is in the bucket and the cursor comes to it. -/
def DB.DeletesOwn (keeps : GoString → GoString → Bool) (w : GoString) (db : DB) : Prop :=
  w ∈ (db.tasks.of w).keys → (db.executions.get w).isSome ∨
    (∀ k ∈ (db.tasks.of w).keys, db.executions.get k = none) ∧
      Reached keeps w (db.tasks.of w).keys

def DB.OneBroker (wid : ℤ) (db : DB) : Prop :=
  ∀ k, (db.brokers.of (itoa wid)).keys.head? = some k ↔
    ∃ broker, db.brokers.all.get k = some broker ∧ broker.workflowID = wid

/-- The bucket lists the tasks and has the only broker first, the task with the workflow's id is
deleted too, and the subscriber is still attached. -/
@[mk_iff]
structure Agent.Deletable (keeps : GoString → GoString → Bool) (wid : ℤ) (a : Agent) : Prop where
  tasks : a.db.tasks.Lists (fun task => itoa task.workflowID) (itoa wid)
  brokers : a.db.OneBroker wid
  own : a.db.DeletesOwn keeps (itoa wid)
  live : ∀ k ∈ (a.db.brokers.of (itoa wid)).keys.head?, ∀ i ∈ a.broker.brokerWfs (parseInt k),
    (a.broker.subs i).closed = false

/-- The keys of the buckets of a workflow are decimal numbers of 64 bits, as `GetWorkflow` returns
them. The ids of `POST /v1/tasks` are any texts. -/
def DB.Numbered (w : GoString) (db : DB) : Prop :=
  (∀ k ∈ (db.tasks.of w).keys, itoa (parseInt k) = k) ∧
    ∀ k ∈ (db.brokers.of w).keys, itoa (parseInt k) = k

theorem DB.oneBroker_iff {wid : ℤ} {db : DB} : db.OneBroker wid ↔
    (∀ k ∈ (db.brokers.of (itoa wid)).keys.head?,
      ∃ broker ∈ db.brokers.all.get k, broker.workflowID = wid) ∧
    ∀ e ∈ db.brokers.all.entries, e.2.workflowID = wid →
      (db.brokers.of (itoa wid)).keys.head? = some e.1 := by
  constructor
  · intro h
    refine ⟨fun k hk => (h k).mp hk, fun e he hwid => ?_⟩
    exact (h e.1).mpr ⟨e.2, mem_entries_iff.mp he, hwid⟩
  · rintro ⟨hfirst, hentries⟩ k
    refine ⟨hfirst k, ?_⟩
    rintro ⟨broker, hbroker, hwid⟩
    exact hentries (k, broker) (mem_entries_iff.mpr hbroker) hwid

instance (wid : ℤ) (db : DB) : Decidable (db.OneBroker wid) :=
  decidable_of_iff _ DB.oneBroker_iff.symm

instance (w : GoString) (db : DB) : Decidable (db.Numbered w) :=
  inferInstanceAs (Decidable (_ ∧ _))

instance (keeps : GoString → GoString → Bool) (w : GoString) (db : DB) :
    Decidable (db.DeletesOwn keeps w) :=
  inferInstanceAs (Decidable (_ → _))

instance (keeps : GoString → GoString → Bool) (wid : ℤ) (a : Agent) :
    Decidable (a.Deletable keeps wid) :=
  decidable_of_iff _ (Agent.deletable_iff keeps wid a).symm

/-! ## The tasks one by one -/

variable {ks : List GoString}

theorem reached_cons {keeps : GoString → GoString → Bool} {w : GoString}
    (h : w ∉ ks) (k : GoString) : Reached keeps w (k :: ks) := by
  induction ks generalizing k with
  | nil => exact .singleton k
  | cons k' ks ih =>
    rw [List.mem_cons, not_or] at h
    exact List.isChain_cons_cons.mpr ⟨fun hk' => absurd hk'.symm h.1, ih h.2 k'⟩

theorem reached_of_notMem {keeps : GoString → GoString → Bool} {w : GoString} (h : w ∉ ks) :
    Reached keeps w ks := by
  cases ks with
  | nil => exact .nil
  | cons k ks => exact reached_cons (fun hmem => h (List.mem_cons_of_mem k hmem)) k

variable {k : GoString}

theorem deleteTask_of_none {db : DB} (fault : Option Fault)
    (h : db.executions.get k = none) : deleteTask fault k db = db := by
  rcases deleteTask_cases fault k db with hsame | ⟨task, executions, -, hexecutions, -⟩
  · exact hsame
  · rw [h] at hexecutions
    cases hexecutions

theorem deleteTask_of_some {db : DB} {task : Task} {executions : Bucket Execution}
    (htask : db.tasks.all.get k = some task) (h : db.executions.get k = some executions) :
    deleteTask none k db = { db with
      tasks := db.tasks.remove (itoa task.workflowID) (itoa task.workflowID) k
      executions := db.executions.erase k } := by
  simp [deleteTask, update, deleteTaskTx, deleteTx, htask, deleteExecutionsTx, h, Except.map, bind,
    Except.bind]

def deleteEach (ks : List GoString) (db : DB) : DB := ks.foldl (fun db k => deleteTask none k db) db

theorem deleteEach_of_none {db : DB}
    (h : ∀ k ∈ ks, db.executions.get k = none) : deleteEach ks db = db := by
  induction ks with
  | nil => rfl
  | cons k ks ih =>
    rw [deleteEach, List.foldl_cons, deleteTask_of_none none (h k List.mem_cons_self)]
    exact ih fun k' hk' => h k' (List.mem_cons_of_mem k hk')

/-- When the tasks of `P` are gone, if any, so is the key of the workflow in the bucket. -/
structure Cleared (w : GoString) (db₀ : DB) (P : GoString → Prop) (db : DB) : Prop where
  tasks : db₀.tasks.Removed w w P db.tasks
  own : ∀ k, P k → (db.tasks.of w).get w = none
  executions : ∀ k, ¬ P k → db.executions.get k = db₀.executions.get k
  brokers : db.brokers = db₀.brokers

section Each

variable {w : GoString} {db₀ db : DB} {P : GoString → Prop}

theorem Cleared.congr {Q : GoString → Prop} (h : Cleared w db₀ P db) (hPQ : ∀ k, P k ↔ Q k) :
    Cleared w db₀ Q db where
  tasks := h.tasks.congr hPQ
  own := fun k hk => h.own k ((hPQ k).mpr hk)
  executions := fun k hk => h.executions k fun hP => hk ((hPQ k).mp hP)
  brokers := h.brokers

theorem Cleared.deleteTask (hlists : db₀.tasks.Lists (fun task => itoa task.workflowID) w)
    (h : Cleared w db₀ P db) {k : GoString} (hk : k ∈ (db₀.tasks.of w).keys) (hP : ¬ P k) :
    Cleared w db₀ (fun k' => P k' ∨ k' = k ∧ (db₀.executions.get k').isSome)
      (Daemon.deleteTask none k db) := by
  cases hexecutions : db₀.executions.get k with
  | none =>
    rw [deleteTask_of_none none ((h.executions k hP).trans hexecutions)]
    refine h.congr fun k' => ⟨.inl, ?_⟩
    rintro (hP' | ⟨rfl, hsome⟩)
    · exact hP'
    · rw [hexecutions] at hsome
      cases hsome
  | some executions =>
    obtain ⟨task, htask, hw⟩ := (hlists k).mp hk
    have hw : itoa task.workflowID = w := hw
    rw [deleteTask_of_some ((h.tasks.kept k hP).trans htask)
      ((h.executions k hP).trans hexecutions), hw]
    have hcleared : Cleared w db₀ (fun k' => P k' ∨ k' = k)
        { db with tasks := db.tasks.remove w w k, executions := db.executions.erase k } :=
      { tasks := h.tasks.remove k
        own := fun k' _ => by simp [IndexedMap.of_remove]
        executions := by
          intro k' hk'
          rw [not_or] at hk'
          rw [← h.executions k' hk'.1]
          exact get_erase_of_ne _ (Ne.symm hk'.2)
        brokers := h.brokers }
    refine hcleared.congr fun k' => or_congr_right ⟨fun heq => ⟨heq, ?_⟩, And.left⟩
    rw [heq, hexecutions]
    rfl

theorem Cleared.deleteEach (hlists : db₀.tasks.Lists (fun task => itoa task.workflowID) w)
    {ks : List GoString} (hks : ∀ k ∈ ks, k ∈ (db₀.tasks.of w).keys) (hnodup : ks.Nodup)
    (h : Cleared w db₀ P db) (hP : ∀ k ∈ ks, ¬ P k) :
    Cleared w db₀ (fun k => P k ∨ k ∈ ks ∧ (db₀.executions.get k).isSome)
      (Daemon.deleteEach ks db) := by
  induction ks generalizing P db with
  | nil => exact h.congr fun k => by simp
  | cons k ks ih =>
    obtain ⟨hk, hnodup⟩ := List.nodup_cons.mp hnodup
    have hstep := h.deleteTask hlists (hks k List.mem_cons_self) (hP k List.mem_cons_self)
    have hrest := ih (fun k' hk' => hks k' (List.mem_cons_of_mem k hk')) hnodup hstep (by
      rintro k' hk' (hP' | ⟨rfl, -⟩)
      · exact hP k' (List.mem_cons_of_mem k hk') hP'
      · exact hk hk')
    refine hrest.congr fun k' => ?_
    rw [List.mem_cons, or_and_right, or_assoc]

theorem Cleared.start (w : GoString) (db : DB) : Cleared w db (fun _ => False) db where
  tasks := .refl w w db.tasks
  own := fun _ h => h.elim
  executions := fun _ _ => rfl
  brokers := rfl

end Each

/-! ## The loop of the store over the tasks -/

section Walk

variable {keeps : GoString → GoString → Bool} {w : GoString} {db : DB}

theorem orSame_deleteTaskTx_cases (k : GoString) (db : DB) : orSame (deleteTaskTx k) db = db ∨
      ∃ g, orSame (deleteTaskTx k) db = { db with tasks := db.tasks.remove g g k } := by
  unfold orSame
  split
  · rename_i db' h
    obtain ⟨task, -, rfl⟩ := deleteTaskTx_ok h
    exact .inr ⟨itoa task.workflowID, rfl⟩
  · exact .inl rfl

variable {k last : GoString} {ks : List GoString}

theorem deleteTasks_of_notMem (h : k ∉ ks) (db : DB) :
    (deleteTasks keeps w last ks db).tasks.all.get k = db.tasks.all.get k := by
  induction ks generalizing last db with
  | nil => rfl
  | cons k' ks ih =>
    rw [List.mem_cons, not_or] at h
    unfold deleteTasks
    split
    · rw [ih h.2]
      rcases orSame_deleteTaskTx_cases k' db with hsame | ⟨g, hremove⟩
      · rw [hsame]
      · rw [hremove]
        exact get_erase_of_ne _ (Ne.symm h.1)
    · exact ih h.2 db

theorem deleteTasks_skips (hgone : (db.tasks.of w).get w = none)
    (hhere : ∀ k ∈ ks, k ≠ w → ((db.tasks.of w).get k).isSome) (hnodup : ks.Nodup)
    (hnot : ¬ Reached keeps w (last :: ks)) :
    (deleteTasks keeps w last ks db).tasks.all.get w = db.tasks.all.get w := by
  induction ks generalizing last db with
  | nil => exact absurd (.singleton last) hnot
  | cons k ks ih =>
    obtain ⟨hk, hnodup⟩ := List.nodup_cons.mp hnodup
    have hchain : ¬ ((k = w → keeps last k) ∧ Reached keeps w (k :: ks)) :=
      fun h => hnot (List.isChain_cons_cons.mpr h)
    unfold deleteTasks
    by_cases hw : k = w
    · subst hw
      -- the cursor does not come to the task here, and it is not listed again
      have hkeeps : ¬ keeps last k := fun h => hchain ⟨fun _ => h, reached_cons hk k⟩
      rw [if_neg (by rw [hgone]; simpa using hkeeps)]
      exact deleteTasks_of_notMem hk db
    · rw [if_pos (.inl (hhere k List.mem_cons_self hw))]
      have hrest : ¬ Reached keeps w (k :: ks) :=
        fun h => hchain ⟨fun heq => absurd heq hw, h⟩
      rcases orSame_deleteTaskTx_cases k db with hsame | ⟨g, hremove⟩
      · rw [hsame]
        exact ih hgone (fun k' hk' => hhere k' (List.mem_cons_of_mem k hk')) hnodup hrest
      · rw [hremove, ih ?_ ?_ hnodup hrest]
        · exact get_erase_of_ne _ hw
        · rw [IndexedMap.of_remove, hgone, ite_self]
        · intro k' hk' hne
          rw [IndexedMap.of_remove, if_neg fun h => hne (h.2.symm.trans h.1)]
          exact hhere k' (List.mem_cons_of_mem k hk') hne

variable (keeps) in
theorem loops_removed_of_some (hlists : db.tasks.Lists (fun task => itoa task.workflowID) w)
    (hsome : ¬ ∀ k ∈ (db.tasks.of w).keys, db.executions.get k = none) :
    ∃ m, deleteTasks keeps w [] ((deleteEach (db.tasks.of w).keys db).tasks.of w).keys
        (deleteEach (db.tasks.of w).keys db) =
        { deleteEach (db.tasks.of w).keys db with tasks := m } ∧
      db.tasks.Removed w w (fun k => k ∈ (db.tasks.of w).keys ∧
        (k ≠ w ∨ (db.executions.get k).isSome)) m := by
  have hcleared := (Cleared.start w db).deleteEach hlists (fun _ hk => hk)
    (nodup_keys _) fun _ _ => not_false
  obtain ⟨k, hk⟩ := not_forall.mp hsome
  obtain ⟨hk, hne⟩ := Classical.not_imp.mp hk
  have hown := hcleared.own k (.inr ⟨hk, Option.isSome_iff_ne_none.mpr hne⟩)
  have hkeys : ∀ k', k' ∈ ((deleteEach (db.tasks.of w).keys db).tasks.of w).keys ↔
      k' ∈ (db.tasks.of w).keys ∧ k' ≠ w := by
    intro k'
    rw [mem_keys_iff, mem_keys_iff]
    by_cases hw : k' = w
    · subst hw
      simp [hown]
    · simp [hcleared.tasks.keys k' hw, hw]
  obtain ⟨m, hm, hremoved⟩ := deleteTasks_removed hlists []
    (fun k' hk' => ((hkeys k').mp hk').1)
    (reached_of_notMem fun hw => ((hkeys w).mp hw).2 rfl) hcleared.tasks
    fun _ hk => isSome_of_mem_head? hk
  refine ⟨m, hm, hremoved.congr fun k' => ?_⟩
  rw [hkeys k', false_or, ← and_or_left, or_comm]

theorem loops_removed_of_none (hlists : db.tasks.Lists (fun task => itoa task.workflowID) w)
    (hreached : Reached keeps w (db.tasks.of w).keys) :
    ∃ m, deleteTasks keeps w [] (db.tasks.of w).keys db = { db with tasks := m } ∧
      db.tasks.Removed w w (· ∈ (db.tasks.of w).keys) m := by
  obtain ⟨m, hm, hremoved⟩ := deleteTasks_removed hlists [] (fun _ hk => hk) hreached
    (.refl w w db.tasks) fun _ hk => isSome_of_mem_head? hk
  exact ⟨m, hm, hremoved.congr fun k => by rw [false_or]⟩

theorem loops_removed (hlists : db.tasks.Lists (fun task => itoa task.workflowID) w)
    (hown : db.DeletesOwn keeps w) :
    ∃ m, deleteTasks keeps w [] ((deleteEach (db.tasks.of w).keys db).tasks.of w).keys
        (deleteEach (db.tasks.of w).keys db) =
        { deleteEach (db.tasks.of w).keys db with tasks := m } ∧
      db.tasks.Removed w w (· ∈ (db.tasks.of w).keys) m := by
  by_cases hnone : ∀ k ∈ (db.tasks.of w).keys, db.executions.get k = none
  · rw [deleteEach_of_none hnone]
    refine loops_removed_of_none hlists ?_
    by_cases hw : w ∈ (db.tasks.of w).keys
    · rcases hown hw with hsome | ⟨-, hreached⟩
      · rw [hnone w hw] at hsome
        cases hsome
      · exact hreached
    · exact reached_of_notMem hw
  · obtain ⟨m, hm, hremoved⟩ := loops_removed_of_some keeps hlists hnone
    refine ⟨m, hm, hremoved.congr fun k' => ⟨And.left, fun hk' => ⟨hk', ?_⟩⟩⟩
    by_cases hw : k' = w
    · subst hw
      exact .inr ((hown hk').resolve_right fun h => hnone h.1)
    · exact .inl hw

theorem loops_left (hlists : db.tasks.Lists (fun task => itoa task.workflowID) w)
    (hown : ¬ db.DeletesOwn keeps w) : w ∈ (db.tasks.of w).keys ∧
      (deleteTasks keeps w [] ((deleteEach (db.tasks.of w).keys db).tasks.of w).keys
        (deleteEach (db.tasks.of w).keys db)).tasks.all.get w = db.tasks.all.get w := by
  obtain ⟨hw, hnot⟩ := Classical.not_imp.mp hown
  rw [not_or] at hnot
  refine ⟨hw, ?_⟩
  by_cases hnone : ∀ k ∈ (db.tasks.of w).keys, db.executions.get k = none
  · rw [deleteEach_of_none hnone]
    have hreached : ¬ Reached keeps w (db.tasks.of w).keys := fun h => hnot.2 ⟨hnone, h⟩
    have hnodup := nodup_keys (db.tasks.of w)
    cases hkeys : (db.tasks.of w).keys with
    | nil => exact absurd (hkeys ▸ .nil) hreached
    | cons k ks =>
      rw [hkeys] at hreached hnodup
      have hks := (List.nodup_cons.mp hnodup).1
      -- the first key is another one, and its task is deleted
      have hne : k ≠ w := by
        rintro rfl
        exact hreached (reached_cons hks k)
      have hk : k ∈ (db.tasks.of w).keys := hkeys ▸ List.mem_cons_self
      obtain ⟨task, htask⟩ := mem_keys_iff.mp hk
      have hdelete : orSame (deleteTaskTx k) db = { db with tasks := db.tasks.remove w w k } := by
        unfold orSame deleteTaskTx
        rw [deleteTx_of_removed hlists (.refl w w db.tasks) hk not_false]
        rfl
      rw [deleteTasks, if_pos (.inl (by rw [htask]; rfl)), hdelete,
        deleteTasks_skips ?_ ?_ (List.nodup_cons.mp hnodup).2 hreached]
      · exact get_erase_of_ne _ hne
      · simp [IndexedMap.of_remove]
      · intro k' hk' hne'
        rw [IndexedMap.of_remove, if_neg fun h => hne' h.2.symm]
        obtain ⟨task', htask'⟩ := mem_keys_iff.mp
          (show k' ∈ (db.tasks.of w).keys from hkeys ▸ List.mem_cons_of_mem k hk')
        rw [htask']
        rfl
  · obtain ⟨m, hm, hremoved⟩ := loops_removed_of_some keeps hlists hnone
    rw [hm]
    refine hremoved.kept w ?_
    rintro ⟨-, h | h⟩
    · exact h rfl
    · exact hnot.1 h

end Walk

/-! ## The brokers -/

section Brokers

variable {w : GoString} {db : DB}

def deleteFirst (w : GoString) (db : DB) : DB :=
  (brokerKeys (db.brokers.of w)).foldl (fun db k => orSame (deleteBrokerTx k) db) db

theorem brokerKeys_eq (bucket : Bucket Broker) : brokerKeys bucket = bucket.keys.head?.toList := by
  unfold brokerKeys
  cases bucket.keys with
  | nil | cons k ks => rfl

theorem deleteFirst_of_nil (h : (db.brokers.of w).keys.head? = none) : deleteFirst w db = db := by
  rw [deleteFirst, brokerKeys_eq, h]
  rfl

theorem deleteFirst_of_cons {k : GoString} (h : (db.brokers.of w).keys.head? = some k) :
    deleteFirst w db = orSame (deleteBrokerTx k) db := by
  rw [deleteFirst, brokerKeys_eq, h]
  rfl

theorem deleteFirst_tasks (w : GoString) (db : DB) : (deleteFirst w db).tasks = db.tasks := by
  cases h : (db.brokers.of w).keys.head? with
  | none => rw [deleteFirst_of_nil h]
  | some k =>
    rw [deleteFirst_of_cons h]
    unfold orSame
    split
    · rename_i db' hdelete
      obtain ⟨broker, -, rfl⟩ := deleteBrokerTx_ok hdelete
      rfl
    · rfl

theorem deleteFirst_without {wid : ℤ} (hfirst : db.OneBroker wid) :
    Without Broker.workflowID wid db.brokers.all (deleteFirst (itoa wid) db).brokers.all := by
  intro k v
  cases h : (db.brokers.of (itoa wid)).keys.head? with
  | none =>
    rw [deleteFirst_of_nil h]
    refine ⟨fun hv => ⟨hv, fun hwid => ?_⟩, And.left⟩
    have hk := (hfirst k).mpr ⟨v, hv, hwid⟩
    rw [h] at hk
    cases hk
  | some k₀ =>
    obtain ⟨broker, hbroker, hwid⟩ := (hfirst k₀).mp h
    have hall : (deleteFirst (itoa wid) db).brokers.all = db.brokers.all.erase k₀ := by
      rw [deleteFirst_of_cons h]
      unfold orSame deleteBrokerTx deleteTx
      rw [hbroker]
      rfl
    rw [hall]
    by_cases hk : k₀ = k
    · subst hk
      rw [SortedMap.get_erase_self, hbroker]
      constructor
      · intro hnone
        cases hnone
      · rintro ⟨heq, hne⟩
        exact absurd (Option.some.inj heq ▸ hwid) hne
    · rw [get_erase_of_ne _ hk]
      refine ⟨fun hv => ⟨hv, fun hv' => hk ?_⟩, And.left⟩
      exact Option.some.inj (h.symm.trans ((hfirst k).mpr ⟨v, hv, hv'⟩))

end Brokers

namespace LocalBroker

variable {b b' : LocalBroker}

theorem detach_ok {i : ℕ} (h : b.detach i = .ok b') :
    (b.subs i).closed = false ∧ b.Detached b' i := by
  unfold detach at h
  split at h
  · cases h
  · rename_i hclosed
    cases h
    have hsame : (((b.destroy i).close i).unsubscribe i).subs i = _ :=
      (unsubscribe_sameBut ((b.destroy i).close i) i _).self
    refine ⟨Bool.eq_false_iff.mpr hclosed, ?_, ?_, ?_⟩
    · rw [hsame]
      simp [destroy, close]
    · rw [hsame]
      simp [close]
    · intro topic htopic
      refine notMem_unsubscribe _ i ?_
      simpa [destroy, close] using htopic

variable {id : ℤ}

theorem detachBroker_ok_iff :
    (∃ b', b.detachBroker id = .ok b') ↔ ∀ i ∈ b.brokerWfs id, (b.subs i).closed = false := by
  unfold detachBroker
  cases b.brokerWfs id with
  | none => simp
  | some i =>
    simp only [Option.mem_some_iff, forall_eq']
    constructor
    · rintro ⟨b', h⟩
      exact (detach_ok h).1
    · intro h
      exact ⟨_, by rw [detach, h]; rfl⟩

theorem detachBroker_ok (h : b.detachBroker id = .ok b') :
    ∀ i ∈ b.brokerWfs id, b.Detached b' i := by
  intro i hi
  rw [detachBroker, hi] at h
  exact (detach_ok h).2

end LocalBroker

/-! ## The agent -/

section Agent

variable {keeps : GoString → GoString → Bool} {wid : ℤ} {a : Agent}

theorem foldl_deleteTask (ids : List ℤ) (a : Agent) :
    (ids.foldl (fun a id => a.deleteTask none (itoa id)) a).db = deleteEach (ids.map itoa) a.db ∧
      (ids.foldl (fun a id => a.deleteTask none (itoa id)) a).broker = a.broker := by
  induction ids generalizing a with
  | nil => exact ⟨rfl, rfl⟩
  | cons id ids ih => exact ih (a.deleteTask none (itoa id))

theorem getWorkflow_eq (wid : ℤ) (db : DB) :
    getWorkflow none (itoa wid) db = ⟨(db.tasks.of (itoa wid)).keys.map parseInt,
      ((db.brokers.of (itoa wid)).keys.head?.map parseInt).toList⟩ := by
  unfold getWorkflow
  rw [if_neg (itoa_ne_nil wid), brokerKeys_eq, Option.toList_map]

theorem map_itoa_parseInt {ks : List GoString} (h : ∀ k ∈ ks, itoa (parseInt k) = k) :
    (ks.map parseInt).map itoa = ks := by
  rw [List.map_map]
  exact (List.map_congr_left h).trans (List.map_id ks)

theorem deleteWorkflow_eq (wid : ℤ) (db : DB) : deleteWorkflow none keeps (itoa wid) db =
      let db' := deleteFirst (itoa wid)
        (deleteTasks keeps (itoa wid) [] (db.tasks.of (itoa wid)).keys db)
      { db' with tasks := db'.tasks.drop (itoa wid), brokers := db'.brokers.drop (itoa wid) } := by
  simp only [deleteWorkflow, update, deleteWorkflowTx, if_neg (itoa_ne_nil wid)]
  rfl

def Agent.tasksDeleted (keeps : GoString → GoString → Bool) (wid : ℤ) (a : Agent) : DB :=
  let db := deleteEach (a.db.tasks.of (itoa wid)).keys a.db
  deleteTasks keeps (itoa wid) [] (db.tasks.of (itoa wid)).keys db

theorem Agent.exists_deleteWorkflow_iff : (∃ a', a.deleteWorkflow .none keeps wid = .ok a') ↔
      ∀ k ∈ (a.db.brokers.of (itoa wid)).keys.head?,
        ∃ b, a.broker.detachBroker (parseInt k) = .ok b := by
  unfold Agent.deleteWorkflow WorkflowFaults.none
  simp only [getWorkflow_eq]
  cases (a.db.brokers.of (itoa wid)).keys.head? with
  | none => simp [pure, Pure.pure]
  | some k =>
    simp only [Option.map_some, Option.toList_some, List.foldlM_cons, List.foldlM_nil,
      Option.mem_some_iff, forall_eq', Res.bind_eq_ok]
    constructor
    · rintro ⟨a', b, ⟨b', hb', -⟩, -⟩
      exact ⟨b', hb'⟩
    · rintro ⟨b, hb⟩
      exact ⟨_, b, ⟨b, hb, rfl⟩, rfl⟩

theorem Agent.deleteWorkflow_ok {a' : Agent} (hids : a.db.Numbered (itoa wid))
    (h : a.deleteWorkflow .none keeps wid = .ok a') :
    a'.db.tasks.all = (a.tasksDeleted keeps wid).tasks.all ∧
      a'.db.brokers.all = (deleteFirst (itoa wid) (a.tasksDeleted keeps wid)).brokers.all ∧
      ∀ k ∈ (a.db.brokers.of (itoa wid)).keys.head?,
        a.broker.detachBroker (parseInt k) = .ok a'.broker := by
  obtain ⟨b, hdetach, hrest⟩ := Res.bind_eq_ok.mp h
  obtain ⟨hdb, hbroker⟩ := foldl_deleteTask (getWorkflow none (itoa wid) a.db).taskIDs
    { a with broker := b }
  cases hrest
  simp only [WorkflowFaults.none] at hdetach ⊢
  rw [hdb, hbroker]
  simp only [getWorkflow_eq] at hdetach ⊢
  rw [map_itoa_parseInt hids.1, deleteWorkflow_eq]
  refine ⟨?_, rfl, ?_⟩
  · simp only [IndexedMap.drop, deleteFirst_tasks]
    rfl
  · intro k hk
    rw [hk] at hdetach
    obtain ⟨b', hb', hpure⟩ := Res.bind_eq_ok.mp hdetach
    obtain rfl : b' = b := Res.ok.inj hpure
    exact hb'

theorem Agent.names_tasks_iff (hids : a.db.Numbered (itoa wid)) :
    Names Task.workflowID wid (getWorkflow none (itoa wid) a.db).taskIDs a.db.tasks.all ↔
      a.db.tasks.Lists (fun task => itoa task.workflowID) (itoa wid) := by
  refine forall_congr' fun k => iff_congr ?_ ?_
  · rw [getWorkflow_eq, ← List.mem_map, map_itoa_parseInt hids.1]
  · exact exists_congr fun task => and_congr_right fun _ => itoa_injective.eq_iff.symm

theorem Agent.names_brokers_iff (hids : a.db.Numbered (itoa wid)) :
    Names Broker.workflowID wid (getWorkflow none (itoa wid) a.db).brokerIDs a.db.brokers.all ↔
      a.db.OneBroker wid := by
  refine forall_congr' fun k => iff_congr ?_ Iff.rfl
  rw [getWorkflow_eq, ← List.mem_map, Option.toList_map, map_itoa_parseInt, Option.mem_toList]
  intro k hk
  exact hids.2 k (List.mem_of_mem_head? (Option.mem_toList.mp hk))

theorem Agent.Deletable.deleteWorkflow (h : a.Deletable keeps wid)
    (hids : a.db.Numbered (itoa wid)) :
    ∃ a', a.deleteWorkflow .none keeps wid = .ok a' ∧ a.WorkflowDeleted wid a' := by
  obtain ⟨a', hok⟩ := Agent.exists_deleteWorkflow_iff.mpr fun k hk =>
    LocalBroker.detachBroker_ok_iff.mpr (h.live k hk)
  obtain ⟨htasks, hbrokers, hdetach⟩ := Agent.deleteWorkflow_ok hids hok
  obtain ⟨m, hm, hremoved⟩ := loops_removed h.tasks h.own
  have hdeleted : a.tasksDeleted keeps wid =
      { deleteEach (a.db.tasks.of (itoa wid)).keys a.db with tasks := m } := hm
  refine ⟨a', hok, fun k task => ?_, ?_, ?_⟩
  · rw [htasks, hdeleted, hremoved.get_iff h.tasks k task]
    exact and_congr_right fun _ => itoa_injective.ne_iff
  · have hsame : (a.tasksDeleted keeps wid).brokers = a.db.brokers := by
      rw [hdeleted]
      exact ((Cleared.start (itoa wid) a.db).deleteEach h.tasks (fun _ hk => hk)
        (nodup_keys _) fun _ _ => not_false).brokers
    have hone : (a.tasksDeleted keeps wid).OneBroker wid := by
      unfold DB.OneBroker
      rw [hsame]
      exact h.brokers
    rw [hbrokers, ← hsame]
    exact deleteFirst_without hone
  · intro id broker hbroker hwid i hi
    have hfirst := (h.brokers (itoa id)).mpr ⟨broker, hbroker, hwid⟩
    have hid : parseInt (itoa id) = id :=
      itoa_injective (hids.2 _ (List.mem_of_mem_head? hfirst))
    exact LocalBroker.detachBroker_ok (hdetach _ hfirst) i (hid.symm ▸ hi)

theorem Agent.DeletesWorkflow.deletable (hids : a.db.Numbered (itoa wid))
    (h : a.DeletesWorkflow keeps wid) : a.Deletable keeps wid := by
  unfold Agent.DeletesWorkflow at h
  rw [Agent.names_tasks_iff hids, Agent.names_brokers_iff hids] at h
  obtain ⟨htasks, hbrokers, a', hok, hwithout, -, -⟩ := h
  refine ⟨htasks, hbrokers, ?_, fun k hk => ?_⟩
  · by_contra hown
    obtain ⟨hw, hleft⟩ := loops_left htasks hown
    obtain ⟨task, htask, hwid⟩ := (htasks _).mp hw
    have hstored : a'.db.tasks.all.get (itoa wid) = some task := by
      rw [(Agent.deleteWorkflow_ok hids hok).1]
      exact hleft.trans htask
    exact ((hwithout _ task).mp hstored).2 (itoa_injective hwid)
  · exact LocalBroker.detachBroker_ok_iff.mp (Agent.exists_deleteWorkflow_iff.mp ⟨a', hok⟩ k hk)

/-- A workflow is listed and deleted, and nothing else, when the keys of its buckets are numbers,
the bucket lists its tasks and has its only broker first, the task with its own id can be deleted,
and the subscriber detached. With numbers as keys the rest is needed too. -/
theorem deletesWorkflow_of_deletable :
    (a.db.Numbered (itoa wid) ∧ a.Deletable keeps wid → a.DeletesWorkflow keeps wid) ∧
      (a.db.Numbered (itoa wid) → a.DeletesWorkflow keeps wid → a.Deletable keeps wid) := by
  refine ⟨?_, fun hids h => h.deletable hids⟩
  rintro ⟨hids, h⟩
  exact ⟨(Agent.names_tasks_iff hids).mpr h.tasks, (Agent.names_brokers_iff hids).mpr h.brokers,
    h.deleteWorkflow hids⟩

end Agent

def oneBrokerAgent : Agent :=
  { db := [StoreOp.setTask none 0 (newTask ['7'] 1), .setTask none 0 (newTask ['1'] 1),
      .setTask none 0 (newTask ['8'] 2), .setBroker none (newBroker 5 1),
      .setBroker none (newBroker 6 2), .setExecutionDone none 0 ['7'] ⟨['e'], 5, true⟩,
      .setExecutionDone none 0 ['1'] ⟨['e'], 5, true⟩].foldl (StoreOp.run shortEnv) .empty
    broker := LocalBroker.empty.create (listeningBroker 5)
    entries := [['7']]
    runs := []
    calls := [] }

theorem oneBrokerAgent_deletesWorkflow :
    (getWorkflow none ['1'] oneBrokerAgent.db).taskIDs = [1, 7] ∧
      oneBrokerAgent.DeletesWorkflow (fun _ _ => false) 1 :=
  ⟨by decide, deletesWorkflow_of_deletable.1 (by decide)⟩

def twoBrokersAgent : Agent :=
  { db := [StoreOp.setBroker none (newBroker 5 1), .setBroker none (newBroker 6 1)].foldl
      (StoreOp.run shortEnv) .empty
    broker := .empty
    entries := []
    runs := []
    calls := [] }

/-- Only the first one is listed and deleted. -/
theorem twoBrokersAgent_not_deletesWorkflow :
    (getWorkflow none ['1'] twoBrokersAgent.db).brokerIDs = [5] ∧
      (∃ a', twoBrokersAgent.deleteWorkflow .none (fun _ _ => false) 1 = .ok a' ∧
        a'.db.brokers.all.keys = [['6']]) ∧
      ¬ twoBrokersAgent.DeletesWorkflow (fun _ _ => false) 1 := by
  refine ⟨by decide, ⟨_, rfl, by decide⟩, fun h => ?_⟩
  obtain ⟨id, hid, heq⟩ := (h.2.1 ['6']).mpr ⟨newBroker 6 1, by decide, rfl⟩
  have hids : (getWorkflow none (itoa 1) twoBrokersAgent.db).brokerIDs = [5] := by decide
  rw [hids, List.mem_singleton] at hid
  rw [hid] at heq
  exact absurd heq (by decide)

end Kairos.Daemon
