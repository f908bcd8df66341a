import Kairos.Daemon.StoreIndex

/-!
# The counts of a stored task

`setTaskTxFunc` merges the stored task into the given one, so that counts and times do not get
smaller. But it stores the text that it made before.
-/

namespace Kairos.Daemon

open Option
open Transitions (Meets run meets_append run_invariant)
open Strings

/-! ## Operations on one task -/

def DB.stored (db : DB) (id : GoString) : Option Task := db.tasks.all.get id

inductive TaskOp where
  | setTask (fault : Option Fault) (now : ℤ) (task : Task)
  | setExecutionDone (fault : Option Fault) (now : ℤ) (execution : Execution)

structure Counted where
  db : DB
  successes : ℕ
  failures : ℕ

def TaskOp.next (env : Env) (id : GoString) (s : Counted) : TaskOp → Option Counted
  | .setTask fault now task =>
    some { s with db := (Daemon.setTask env fault now { task with id := id } s.db).2 }
  | .setExecutionDone fault now execution =>
    match Daemon.setExecutionDone env fault now id execution s.db with
    | (.error _, db) => some { s with db := db }
    | (.ok _, db) =>
      if execution.success then some { s with db := db, successes := s.successes + 1 }
      else some { s with db := db, failures := s.failures + 1 }

def NotLess : Option Task → Option Task → Prop
  | none, _ => True
  | some _, none => False
  | some task, some task' =>
    task.successCount ≤ task'.successCount ∧ task.errorCount ≤ task'.errorCount ∧
      task.lastSuccess.after task'.lastSuccess = false ∧
      task.lastError.after task'.lastError = false

def Counted.Tallied (s : Counted) (id : GoString) : Prop :=
  ∀ task ∈ s.db.stored id, s.successes ≤ task.successCount ∧ s.failures ≤ task.errorCount

/-- The execution finishes no earlier than the last of its kind, and its count does not overflow. -/
def Task.Follows (task : Task) (execution : Execution) : Prop :=
  (execution.success → task.lastSuccess.after (some execution.finishedAt) = false ∧
    wrap64 (task.successCount + 1) = task.successCount + 1) ∧
  (execution.success = false → task.lastError.after (some execution.finishedAt) = false ∧
    wrap64 (task.errorCount + 1) = task.errorCount + 1)

def TaskOp.NotBelow (id : GoString) (s : Counted) : TaskOp → Prop
  | .setTask _ _ task => NotLess (s.db.stored id) (some task)
  | .setExecutionDone _ _ execution => ∀ task ∈ s.db.stored id, task.Follows execution

def TaskOp.StartsAtZero (id : GoString) (s : Counted) : TaskOp → Prop
  | .setTask _ _ task =>
    s.db.stored id = none → task.successCount = 0 ∧ task.errorCount = 0
  | .setExecutionDone _ _ _ => True

instance : (o o' : Option Task) → Decidable (NotLess o o')
  | none, _ => .isTrue trivial
  | some _, none => .isFalse id
  | some _, some _ => inferInstanceAs (Decidable (_ ∧ _ ∧ _ ∧ _))

instance (task : Task) (execution : Execution) : Decidable (task.Follows execution) :=
  inferInstanceAs (Decidable ((_ → _) ∧ (_ → _)))

instance (s : Counted) (id : GoString) : Decidable (s.Tallied id) :=
  inferInstanceAs (Decidable (∀ task ∈ s.db.stored id, _))

instance (id : GoString) (s : Counted) : (op : TaskOp) → Decidable (op.NotBelow id s)
  | .setTask _ _ task => inferInstanceAs (Decidable (NotLess (s.db.stored id) (some task)))
  | .setExecutionDone _ _ execution =>
    inferInstanceAs (Decidable (∀ task ∈ s.db.stored id, task.Follows execution))

instance (id : GoString) (s : Counted) : (op : TaskOp) → Decidable (op.StartsAtZero id s)
  | .setTask _ _ task =>
    inferInstanceAs (Decidable
      (s.db.stored id = none → task.successCount = 0 ∧ task.errorCount = 0))
  | .setExecutionDone _ _ _ => .isTrue trivial

/-! ## One operation -/

theorem NullableTime.after_self (t : NullableTime) : t.after t = false := by
  cases t with
  | none => rfl
  | some t => simp [NullableTime.after]

theorem NotLess.refl (o : Option Task) : NotLess o o := by
  cases o with
  | none => trivial
  | some task =>
    exact ⟨le_refl _, le_refl _, NullableTime.after_self _, NullableTime.after_self _⟩

section Steps

variable {env : Env} {id : GoString}

theorem stored_setTask (env : Env) (fault : Option Fault) (now : ℤ) (id : GoString) (task : Task)
    (db : DB) :
    (Daemon.setTask env fault now { task with id := id } db).2.stored id = db.stored id ∨
      (Daemon.setTask env fault now { task with id := id } db).2.stored id =
        some { task with id := id } := by
  unfold Daemon.setTask
  rcases update_cases fault (setTaskTx env now { task with id := id }) db with
    ⟨err, h⟩ | ⟨merged, db', -, hf, h⟩
  · exact .inl (by rw [h])
  · right
    rw [h, setTaskTx_ok hf]
    exact SortedMap.get_put_self _ _ _

variable {task : Task}

theorem NotLess.of_given {o : Option Task} (id : GoString)
    (h : NotLess o (some task)) : NotLess o (some { task with id := id }) := by
  cases o with
  | none => trivial
  | some et => exact h

theorem NotLess.done {execution : Execution} (h : task.Follows execution) :
    NotLess (some task) (some (task.done execution)) := by
  unfold Task.done
  cases hsuccess : execution.success with
  | true =>
    obtain ⟨htime, hcount⟩ := h.1 hsuccess
    refine ⟨?_, le_refl _, htime, NullableTime.after_self _⟩
    simp only [if_true, hcount]
    omega
  | false =>
    obtain ⟨htime, hcount⟩ := h.2 hsuccess
    refine ⟨le_refl _, ?_, NullableTime.after_self _, htime⟩
    simp only [Bool.false_eq_true, if_false, hcount]
    omega

structure Keyed (id : GoString) (s : Counted) : Prop where
  id_eq : ∀ task ∈ s.db.stored id, task.id = id
  zero : s.db.stored id = none → s.successes = 0 ∧ s.failures = 0

/-- An operation does nothing, stores the task as given, or counts an execution. -/
inductive Outcome (id : GoString) (s s' : Counted) : TaskOp → Prop
  | same (op : TaskOp) (hstored : s'.db.stored id = s.db.stored id)
      (hsuccesses : s'.successes = s.successes) (hfailures : s'.failures = s.failures) :
      Outcome id s s' op
  | set (fault : Option Fault) (now : ℤ) (task : Task)
      (hstored : s'.db.stored id = some { task with id := id })
      (hsuccesses : s'.successes = s.successes) (hfailures : s'.failures = s.failures) :
      Outcome id s s' (.setTask fault now task)
  | done (fault : Option Fault) (now : ℤ) (execution : Execution) (task : Task)
      (hbefore : s.db.stored id = some task)
      (hstored : s'.db.stored id = some (task.done execution))
      (hsuccesses : s'.successes = s.successes + execution.success.toNat)
      (hfailures : s'.failures = s.failures + (!execution.success).toNat) :
      Outcome id s s' (.setExecutionDone fault now execution)

variable {s s' : Counted} {op : TaskOp}

theorem outcome_next (h : Keyed id s)
    (hnext : op.next env id s = some s') : Outcome id s s' op := by
  cases op with
  | setTask fault now task =>
    cases hnext
    rcases stored_setTask env fault now id task s.db with hsame | hset
    · exact .same _ hsame rfl rfl
    · exact .set fault now task hset rfl rfl
  | setExecutionDone fault now execution =>
    rcases setExecutionDone_cases env fault now id execution s.db with
      ⟨err, herr⟩ | ⟨task, executions, hget, hok⟩
    · simp only [TaskOp.next, herr] at hnext
      cases hnext
      exact .same _ rfl rfl rfl
    · -- the task is put back under the id that it has, which is the one that it was found under
      rw [h.id_eq task hget] at hok
      simp only [TaskOp.next, hok] at hnext
      split at hnext
      · rename_i hsuccess
        cases hnext
        refine .done fault now execution task hget (SortedMap.get_put_self _ _ _) ?_ ?_
        · rw [hsuccess]
          rfl
        · rw [hsuccess]
          rfl
      · rename_i hfailed
        rw [Bool.not_eq_true] at hfailed
        cases hnext
        refine .done fault now execution task hget (SortedMap.get_put_self _ _ _) ?_ ?_
        · rw [hfailed]
          rfl
        · rw [hfailed]
          rfl

theorem Keyed.next (h : Keyed id s) (hnext : op.next env id s = some s') : Keyed id s' := by
  cases outcome_next h hnext with
  | same _ hstored hsuccesses hfailures =>
    refine ⟨fun task ht => h.id_eq task (hstored ▸ ht), fun hnone => ?_⟩
    rw [hsuccesses, hfailures]
    exact h.zero (hstored ▸ hnone)
  | set fault now task hstored hsuccesses hfailures =>
    refine ⟨fun task' ht => ?_, fun hnone => ?_⟩
    · rw [hstored] at ht
      rw [← some.inj ht]
    · rw [hstored] at hnone
      cases hnone
  | done fault now execution task hbefore hstored hsuccesses hfailures =>
    refine ⟨fun task' ht => ?_, fun hnone => ?_⟩
    · rw [hstored] at ht
      rw [← some.inj ht, Task.done_id]
      exact h.id_eq task hbefore
    · rw [hstored] at hnone
      cases hnone

theorem notLess_next (h : Keyed id s) (hop : op.NotBelow id s)
    (hnext : op.next env id s = some s') : NotLess (s.db.stored id) (s'.db.stored id) := by
  cases outcome_next h hnext with
  | same _ hstored =>
    rw [hstored]
    exact NotLess.refl _
  | set fault now task hstored =>
    rw [hstored]
    exact NotLess.of_given id hop
  | done fault now execution task hbefore hstored =>
    rw [hbefore, hstored]
    exact NotLess.done (hop task hbefore)

theorem tallied_next (h : Keyed id s) (htallied : s.Tallied id)
    (hop : op.NotBelow id s) (hzero : op.StartsAtZero id s)
    (hnext : op.next env id s = some s') : s'.Tallied id := by
  intro task' ht
  cases outcome_next h hnext with
  | same _ hstored hsuccesses hfailures =>
    rw [hsuccesses, hfailures]
    exact htallied task' (hstored ▸ ht)
  | set fault now task hstored hsuccesses hfailures =>
    rw [hstored] at ht
    rw [← some.inj ht, hsuccesses, hfailures]
    cases hbefore : s.db.stored id with
    | none =>
      -- nothing was counted yet
      have hcounts := hzero hbefore
      have hnone := h.zero hbefore
      simp only [hnone, hcounts]
      exact ⟨le_refl _, le_refl _⟩
    | some et =>
      simp only [TaskOp.NotBelow, hbefore] at hop
      obtain ⟨hs, hf⟩ := htallied et hbefore
      exact ⟨hs.trans hop.1, hf.trans hop.2.1⟩
  | done fault now execution task hbefore hstored hsuccesses hfailures =>
    obtain ⟨hs, hf⟩ := htallied task hbefore
    have hfollows := hop task hbefore
    rw [hstored] at ht
    rw [← some.inj ht, hsuccesses, hfailures]
    unfold Task.done
    cases hsuccess : execution.success with
    | true =>
      have hcount := (hfollows.1 hsuccess).2
      simp only [if_true, hcount, Bool.not_true, Bool.toNat_true, Bool.toNat_false]
      exact ⟨by push_cast; omega, hf⟩
    | false =>
      have hcount := (hfollows.2 hsuccess).2
      simp only [Bool.false_eq_true, if_false, hcount, Bool.not_false, Bool.toNat_true,
        Bool.toNat_false]
      exact ⟨hs, by push_cast; omega⟩

end Steps

/-- If the operations bring no less than what is stored, counts and times do not decrease, and a
task that was new has counted all executions. -/
theorem counts_of_run {env : Env} {id : GoString} {db₀ : DB} {ops : List TaskOp} {op : TaskOp}
    {s t : Counted} (hstart : db₀.stored id = none)
    (hmeets : Meets (TaskOp.next env id) (TaskOp.NotBelow id) ⟨db₀, 0, 0⟩ (ops ++ [op]))
    (hrun : run (TaskOp.next env id) ⟨db₀, 0, 0⟩ ops = some s) (hnext : op.next env id s = some t) :
    NotLess (s.db.stored id) (t.db.stored id) ∧
      (Meets (TaskOp.next env id) (TaskOp.StartsAtZero id) ⟨db₀, 0, 0⟩ (ops ++ [op]) →
        t.Tallied id) := by
  have hkeyed₀ : Keyed id ⟨db₀, 0, 0⟩ := by
    refine ⟨fun task ht => ?_, fun _ => ⟨rfl, rfl⟩⟩
    rw [mem_def, hstart] at ht
    cases ht
  obtain ⟨hops, hop⟩ := (meets_append hrun [op]).mp hmeets
  have hkeyed : Keyed id s :=
    run_invariant (fun _ _ _ h _ hnext => h.next hnext) hkeyed₀ hops hrun
  refine ⟨notLess_next hkeyed hop.1 hnext, fun hzero => ?_⟩
  obtain ⟨hzeros, hzero⟩ := (meets_append hrun [op]).mp hzero
  have htallied₀ : Counted.Tallied ⟨db₀, 0, 0⟩ id := by
    intro task ht
    rw [mem_def, hstart] at ht
    cases ht
  have htallied : Keyed id s ∧ s.Tallied id := by
    refine run_invariant (I := fun s => Keyed id s ∧ s.Tallied id)
      (fun s a s' h hC hnext => ?_) ⟨hkeyed₀, htallied₀⟩ (hops.and hzeros) hrun
    exact ⟨h.1.next hnext, tallied_next h.1 h.2 hC.1 hC.2 hnext⟩
  exact tallied_next hkeyed htallied.2 hop.1 hzero.1 hnext

def countedOps : List TaskOp :=
  [.setTask none 0 (newTask ['7'] 1), .setExecutionDone none 0 ⟨['e'], 5, true⟩]

/-- A second execution is counted. -/
theorem countedOps_counts :
    ∃ s t, run (TaskOp.next shortEnv ['7']) ⟨.empty, 0, 0⟩ countedOps = some s ∧
      (TaskOp.setExecutionDone none 0 ⟨['f'], 7, true⟩).next shortEnv ['7'] s = some t ∧
      t.successes = 2 ∧ NotLess (s.db.stored ['7']) (t.db.stored ['7']) ∧ t.Tallied ['7'] := by
  have hmeets : Meets (TaskOp.next shortEnv ['7']) (TaskOp.NotBelow ['7'])
      ⟨.empty, 0, 0⟩ (countedOps ++ [.setExecutionDone none 0 ⟨['f'], 7, true⟩]) := by decide
  have hcounts := counts_of_run rfl hmeets rfl rfl
  exact ⟨_, _, rfl, rfl, rfl, hcounts.1, hcounts.2 (by decide)⟩

/-- The task is set again, and its count is gone. An earlier execution is done later, and the time
goes back. -/
theorem countedOps_less :
    (∃ s t, run (TaskOp.next shortEnv ['7']) ⟨.empty, 0, 0⟩ countedOps = some s ∧
      (TaskOp.setTask none 0 (newTask ['7'] 1)).next shortEnv ['7'] s = some t ∧
      (t.db.stored ['7']).map Task.successCount = some 0 ∧ t.successes = 1 ∧
      ¬ NotLess (s.db.stored ['7']) (t.db.stored ['7']) ∧ ¬ t.Tallied ['7']) ∧
    ∃ s t, run (TaskOp.next shortEnv ['7']) ⟨.empty, 0, 0⟩ countedOps = some s ∧
      (TaskOp.setExecutionDone none 0 ⟨['f'], 3, true⟩).next shortEnv ['7'] s = some t ∧
      (s.db.stored ['7']).map Task.lastSuccess = some (some 5) ∧
      (t.db.stored ['7']).map Task.lastSuccess = some (some 3) ∧
      ¬ NotLess (s.db.stored ['7']) (t.db.stored ['7']) := by
  refine ⟨⟨_, _, rfl, rfl, by decide, by decide, by decide, by decide⟩,
    _, _, rfl, rfl, by decide, by decide, by decide⟩

end Kairos.Daemon
