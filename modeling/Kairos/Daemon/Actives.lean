import Kairos.Go.Strings
import Kairos.Library.Transitions
import Mathlib.Data.List.AList

/-!
# Running executions of the daemon

`Agent.TaskActives` of `agent/agent.go` has for each task the executions that are running, as
`UpdateTaskRecord` reports them. `Agent.Run`, its only caller, reports the start of an execution and
defers the report of its end before the execution has an id, so that all executions of a task have
one place in the table; and no entry is added to a map that is there, though it be empty. A call is
one step here: the source holds a read lock around it.
-/

namespace Kairos.Daemon.Actives

/-- The texts `Wait`, `Running`, `Schedule` and `Finish`. -/
inductive Status where
  | wait
  | running
  | schedule
  | finish
deriving DecidableEq

/-- `TaskActive`. -/
structure TaskActive where
  status : Status
  executionID : GoString
  startAt : ℤ

/-- What `TaskActives` has for a task: nil, or a map by execution id. -/
abbrev Entry := Option (AList fun _ : GoString => TaskActive)

/-- `Agent.UpdateTaskRecord` (`agent.go:978`) on the entry of the task. -/
def record (ta : TaskActive) : Entry → Entry
  | none =>
    if ta.status = .running ∨ ta.status = .schedule then
      some (AList.singleton ta.executionID ta)
    else none
  | some actives =>
    if ta.status = .finish then some (actives.erase ta.executionID) else some actives

/-- `Agent.UpdateTaskRecord`. -/
def updateTaskRecord (table : GoString → Entry) (taskID : GoString) (ta : TaskActive) :
    GoString → Entry :=
  Function.update table taskID (record ta (table taskID))

/-- The status that `Agent.GetTasks` (`agent.go:962`) gives a task. -/
def shown : Entry → Status
  | none => .wait
  | some actives => if 0 < actives.keys.length then .running else .wait

/-- The executions that an entry has. -/
def size (e : Entry) : ℕ := (e.map fun actives => actives.keys.length).getD 0

/-- The `Id` of what `NewExecution` makes. `Run` sets it from `Key` (`agent.go:1075`), when its
reports have been made: the arguments of a deferred call are evaluated where it is deferred. -/
def newExecutionID : GoString := []

/-- What `Agent.Run` reports of an execution at its start and, deferred, at its end. -/
inductive Report where
  | start (taskID : GoString) (now : ℤ)
  | finish (taskID : GoString) (now : ℤ)

/-- The table, and how many executions of each task have reported `Running` and not yet `Finish`. -/
structure State where
  table : GoString → Entry := fun _ => none
  running : GoString → ℕ := fun _ => 0

namespace State

/-- A report of `Agent.Run` (`agent.go:993`). An execution ends that has started. -/
def next (s : State) : Report → Option State
  | .start taskID now => some
    { table := updateTaskRecord s.table taskID ⟨.running, newExecutionID, now⟩
      running := Function.update s.running taskID (s.running taskID + 1) }
  | .finish taskID now =>
    if s.running taskID = 0 then none
    else some
      { table := updateTaskRecord s.table taskID ⟨.finish, newExecutionID, now⟩
        running := Function.update s.running taskID (s.running taskID - 1) }

/-- The table has an entry for each running execution and no other, and a task is shown as running
exactly when one of its executions is. -/
structure Exact (s : State) : Prop where
  size : ∀ task, size (s.table task) = s.running task
  shown : ∀ task, shown (s.table task) = .running ↔ 0 < s.running task

/-- An execution is started of a task that has not been started since the daemon was. -/
def Orderly (s : State) : Report → Prop
  | .start taskID _ => s.table taskID = none
  | .finish _ _ => True

/-- The map of a task has the one place of its executions, or none. -/
def Keyed (s : State) : Prop :=
  ∀ task, ∀ actives ∈ s.table task, actives.keys = [] ∨ actives.keys = [newExecutionID]

end State

theorem shown_iff (e : Entry) : shown e = .running ↔ 0 < size e := by
  cases e with
  | none => simp [shown, size]
  | some actives => simp [shown, size, List.length_pos_iff]

namespace State

variable {s s' : State} {r : Report}

theorem exact_of_size (h : ∀ task, Actives.size (s.table task) = s.running task) : s.Exact :=
  ⟨h, fun task => h task ▸ shown_iff (s.table task)⟩

theorem Keyed.next (h : s.Keyed) (hnext : s.next r = some s') : s'.Keyed := by
  have hrecord (ta : TaskActive) (hid : ta.executionID = newExecutionID) (taskID : GoString) :
      ∀ task, ∀ actives ∈ updateTaskRecord s.table taskID ta task,
        actives.keys = [] ∨ actives.keys = [newExecutionID] := by
    intro task actives hactives
    by_cases htask : task = taskID
    swap
    · rw [updateTaskRecord, Function.update_of_ne htask] at hactives
      exact h task actives hactives
    subst htask
    rw [updateTaskRecord, Function.update_self] at hactives
    cases hentry : s.table task with
    | none =>
      rw [hentry, record] at hactives
      split_ifs at hactives
      · cases hactives
        simp [hid]
      · cases hactives
    | some old =>
      have hold := h task old hentry
      rw [hentry, record] at hactives
      split_ifs at hactives <;> cases hactives
      · rcases hold with hold | hold <;> simp [AList.keys_erase, hold, hid]
      · exact hold
  cases r with
  | start taskID now =>
    cases hnext
    exact hrecord _ rfl taskID
  | finish taskID now =>
    rw [State.next] at hnext
    split_ifs at hnext
    cases hnext
    exact hrecord _ rfl taskID

/-- A report leaves the table right exactly when it is no further start of a task. -/
theorem Exact.next_iff (h : s.Exact) (hkeyed : s.Keyed) (r : Report) :
    (∀ s' ∈ s.next r, s'.Exact) ↔ s.Orderly r := by
  have hother {taskID : GoString} {ta : TaskActive} {n : ℕ}
      (hsize : Actives.size (record ta (s.table taskID)) = n) :
      ∀ task, Actives.size (updateTaskRecord s.table taskID ta task) =
        Function.update s.running taskID n task := by
    intro task
    by_cases htask : task = taskID
    · subst htask
      simpa [updateTaskRecord] using hsize
    · simpa [updateTaskRecord, htask] using h.size task
  cases r with
  | start taskID now =>
    constructor
    · intro hnext
      have hsize := (hnext _ rfl).size taskID
      by_contra hsome
      obtain ⟨actives, hactives⟩ := Option.ne_none_iff_exists'.mp hsome
      have hold := h.size taskID
      simp [updateTaskRecord, record, hactives, Actives.size] at hsize hold
      omega
    · intro hnone s' hs'
      cases hs'
      have hold := h.size taskID
      rw [show s.table taskID = none from hnone] at hold
      refine exact_of_size (hother ?_)
      rw [show s.table taskID = none from hnone, ← hold]
      rfl
  | finish taskID now =>
    refine iff_of_true (fun s' hs' => ?_) trivial
    simp only [State.next, Option.mem_def, Option.ite_none_left_eq_some, Option.some.injEq] at hs'
    obtain ⟨hpos, rfl⟩ := hs'
    refine exact_of_size (hother ?_)
    -- the one place there is belongs to the execution that ends
    have hold := h.size taskID
    cases hentry : s.table taskID with
    | none =>
      rw [hentry] at hold
      exact absurd hold.symm hpos
    | some actives =>
      rw [hentry] at hold
      simp only [Actives.size, Option.map_some, Option.getD_some] at hold
      rcases hkeyed taskID actives hentry with hkeys | hkeys <;> rw [hkeys] at hold
      · exact absurd hold.symm hpos
      · simp [record, Actives.size, AList.keys_erase, hkeys, ← hold]

end State

end Kairos.Daemon.Actives
