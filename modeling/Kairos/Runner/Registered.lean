import Kairos.Library.Registry
import Kairos.Library.Transitions
import Kairos.Runner.Scheduler

/-!
# What is registered with the scheduler of the server

`AddTask`, `AddBroker` and `AddChannel` of `server/runner/scheduler.go` remove the entry of the
object before they register the new one. So there is one entry for each object, with the latest
schedule. The removal is not taken back where the new schedule cannot be parsed.
-/

namespace Kairos

open Registry (Table Ask Right)

namespace Cron

variable {parses : GoString → Bool} {spec : GoString} {owner object : ℤ} {c : Cron}

def table (c : Cron) : Table ℤ GoString :=
  ⟨c.entries.map fun e => (e.id, e.object, e.spec), c.nextID⟩

theorem table_removeObject (object : ℤ) (c : Cron) :
    (c.removeObject object).table = c.table.removeJob object := by
  have hfind : c.table.find object =
      (c.getEntry object).map fun e => (e.id, e.object, e.spec) := by
    simp only [table, Table.find, getEntry, List.find?_map]
    rfl
  unfold removeObject Table.removeJob
  rw [hfind]
  cases c.getEntry object with
  | none => rfl
  | some e =>
    simp only [table, remove, Table.remove, Option.map_some, List.filter_map, Table.mk.injEq,
      and_true]
    exact congrArg _ (List.filter_congr fun x _ => by simp [bne]; rfl)

theorem table_add (c : Cron) : (c.add parses spec owner object).table =
    if spec ≠ [] ∧ parses spec then (c.table.removeJob object).add object spec
    else c.table.removeJob object := by
  rw [← table_removeObject]
  unfold add addJob
  by_cases hspec : spec = []
  · simp [hspec]
  · by_cases hparses : parses spec
    · simp [hspec, hparses, table, start, Table.add]
    · simp [hspec, hparses]

end Cron

namespace Scheduler

/-- The fields that `handleTrigger` reads. The type is none where it is unknown. -/
structure Trigger where
  client : GoString
  type : Option CronKind
  delete : Bool
  objectID : ℤ
  schedule : GoString

structure TriggerObjects where
  owner : ℤ
  tasks : List ScheduledTask
  brokers : List ℤ
  channels : List ℤ

/-- `handleTrigger`: the call of the scheduler. Of tasks and brokers the last of an `ID` is taken,
of channels the first. -/
def Trigger.op (wf : TriggerObjects) (tr : Trigger) : Option Op :=
  if tr.client ≠ [] then none
  else
    match tr.type with
    | some .task =>
      if tr.delete then some (.removeTask tr.objectID)
      else (wf.tasks.filter (·.id = tr.objectID)).getLast?.map (.addTask wf.owner)
    | some .broker =>
      if tr.delete then some (.removeBroker tr.objectID)
      else (wf.brokers.filter (· = tr.objectID)).getLast?.map (.addBroker wf.owner · tr.schedule)
    | some .channel =>
      if tr.delete then some (.removeChannel tr.objectID)
      else (wf.channels.find? (· = tr.objectID)).map (.addChannel wf.owner · tr.schedule)
    | none => none

inductive Call where
  | direct (call : Op)
  | trigger (wf : TriggerObjects) (tr : Trigger)

def Call.op? : Call → Option Op
  | .direct call => some call
  | .trigger wf tr => tr.op wf

def registered (s : Scheduler) (job : CronKind × ℤ) : List (ℕ × GoString) :=
  (s.cronFor job.1).table.registered job.2

def askAdd (job : CronKind × ℤ) (spec : GoString) : Ask (CronKind × ℤ) GoString :=
  if spec = [] then .nothing else .put job spec

def Op.ask : Op → Ask (CronKind × ℤ) GoString
  | .addTask _ t => askAdd (.task, t.id) t.spec
  | .addBroker _ brokerID schedule => askAdd (.broker, brokerID) schedule
  | .addChannel _ channelID schedule => askAdd (.channel, channelID) schedule
  | .removeTask taskID => .drop (.task, taskID)
  | .removeBroker brokerID => .drop (.broker, brokerID)
  | .removeChannel channelID => .drop (.channel, channelID)
  | .destroy _ => .nothing

section

variable (parses : GoString → Bool)

def fails (spec : GoString) : Bool := spec ≠ [] && !parses spec

def Op.failed : Op → Option (CronKind × ℤ)
  | .addTask _ t => if fails parses t.spec then some (.task, t.id) else none
  | .addBroker _ brokerID schedule =>
    if fails parses schedule then some (.broker, brokerID) else none
  | .addChannel _ channelID schedule =>
    if fails parses schedule then some (.channel, channelID) else none
  | _ => none

def next (s : Scheduler) (c : Call) : Option Scheduler :=
  some (c.op?.elim s (s.apply parses))

def RightCall (s : Scheduler) (c : Call) : Prop :=
  ∀ op ∈ c.op?, Right op.ask (op.failed parses).isSome s.registered (s.apply parses op).registered

def Orderly (s : Scheduler) (c : Call) : Prop :=
  ∀ op ∈ c.op?, ∀ job ∈ op.failed parses, s.registered job = []

end

structure Sound (s : Scheduler) : Prop where
  numbered : ∀ k, (s.cronFor k).table.Numbered
  once : ∀ job, (s.registered job).length ≤ 1

section

variable {parses : GoString → Bool} {s : Scheduler} {k : CronKind} {o owner : ℤ} {spec : GoString}

theorem sound_new : new.Sound := by
  refine ⟨fun k => ?_, fun job => ?_⟩
  · cases k <;> exact Registry.Table.numbered_empty
  · obtain ⟨k, o⟩ := job
    cases k <;> exact Nat.zero_le 1

theorem registered_modify (f : Cron → Cron) (k l : CronKind) (j : ℤ) :
    (s.modify f k).registered (l, j) =
      if l = k then (f (s.cronFor l)).table.registered j else s.registered (l, j) := by
  unfold registered
  rw [cronFor_modify]
  split_ifs <;> rfl

theorem Sound.registered_remove (h : s.Sound) (job : CronKind × ℤ) :
    (s.modify (Cron.removeObject o) k).registered job =
      if job = (k, o) then [] else s.registered job := by
  obtain ⟨l, j⟩ := job
  rw [registered_modify, Cron.table_removeObject]
  by_cases hl : l = k
  · subst hl
    rw [if_pos rfl]
    by_cases hj : j = o
    · subst hj
      rw [if_pos rfl]
      exact Table.registered_removeJob_self (h.once (l, j))
    · rw [if_neg (by simp [hj])]
      exact (h.numbered l).registered_removeJob_of_ne hj
  · rw [if_neg hl, if_neg (by simp [hl])]

theorem Sound.registered_add (h : s.Sound) (job : CronKind × ℤ) :
    (s.modify (Cron.add parses spec owner o) k).registered job = if job = (k, o) then
        if spec ≠ [] ∧ parses spec then [((s.cronFor k).nextID + 1, spec)] else []
      else s.registered job := by
  obtain ⟨l, j⟩ := job
  -- the entry is removed first
  have hremoved := h.registered_remove (k := k) (o := o) (l, j)
  rw [registered_modify, Cron.table_removeObject] at hremoved
  rw [registered_modify, Cron.table_add]
  by_cases hl : l = k
  · subst hl
    rw [if_pos rfl] at hremoved ⊢
    by_cases hadded : spec ≠ [] ∧ parses spec
    · rw [if_pos hadded, if_pos hadded, Table.registered_add, hremoved]
      by_cases hj : j = o
      · simp [hj, Table.removeJob_last, Cron.table]
      · simp [hj, Ne.symm hj]
    · rw [if_neg hadded, if_neg hadded, hremoved]
  · rw [if_neg hl, if_neg (by simp [hl])]

theorem Sound.remove (h : s.Sound) : (s.modify (Cron.removeObject o) k).Sound := by
  refine ⟨fun l => ?_, fun job => ?_⟩
  · rw [cronFor_modify]
    split_ifs
    · rw [Cron.table_removeObject]
      exact (h.numbered l).removeJob o
    · exact h.numbered l
  · rw [h.registered_remove]
    split_ifs
    · exact Nat.zero_le 1
    · exact h.once job

theorem Sound.add (h : s.Sound) : (s.modify (Cron.add parses spec owner o) k).Sound := by
  refine ⟨fun l => ?_, fun job => ?_⟩
  · rw [cronFor_modify]
    split_ifs
    · rw [Cron.table_add]
      split_ifs
      · exact ((h.numbered l).removeJob o).add o spec
      · exact (h.numbered l).removeJob o
    · exact h.numbered l
  · rw [h.registered_add]
    split_ifs
    · exact Nat.le_refl 1
    · exact Nat.zero_le 1
    · exact h.once job

theorem Sound.right_remove (h : s.Sound) : Right (.drop (k, o)) false s.registered
    (s.modify (Cron.removeObject o) k).registered where
  once := h.remove.once
  put _ _ hask := by cases hask
  drop job hask := by
    cases hask
    rw [h.registered_remove, if_pos rfl]
  undone hfailed := by cases hfailed

theorem Sound.right_add_iff (h : s.Sound) : Right (askAdd (k, o) spec) (fails parses spec)
    s.registered (s.modify (Cron.add parses spec owner o) k).registered ↔
      (fails parses spec → s.registered (k, o) = []) := by
  have hfails : fails parses spec ↔ spec ≠ [] ∧ ¬ parses spec := by
    simp [fails]
  constructor
  · intro hright hfailed
    have hsame := congrFun (hright.undone hfailed) (k, o)
    rw [h.registered_add, if_pos rfl, if_neg fun hadded => (hfails.1 hfailed).2 hadded.2] at hsame
    exact hsame.symm
  · intro hclear
    refine ⟨h.add.once, fun job schedule hask hfailed => ?_, fun job hask => ?_, fun hfailed => ?_⟩
    · unfold askAdd at hask
      split_ifs at hask with hspec
      cases hask
      have hparses : parses spec := by
        by_contra hnot
        rw [hfails.2 ⟨hspec, hnot⟩] at hfailed
        cases hfailed
      rw [h.registered_add, if_pos rfl, if_pos ⟨hspec, hparses⟩]
      exact ⟨_, rfl⟩
    · unfold askAdd at hask
      split_ifs at hask
    · funext job
      rw [h.registered_add]
      split_ifs with hjob hadded
      · exact absurd hadded.2 (hfails.1 hfailed).2
      · rw [hjob, hclear hfailed]
      · rfl

theorem registered_destroy : s.destroy.registered = s.registered := by
  funext job
  unfold registered Cron.table
  rw [entries_destroy]
  cases job.1 <;> rfl

theorem Op.cases (parses : GoString → Bool) (s : Scheduler) (op : Op) :
    (∃ k o spec owner, s.apply parses op = s.modify (Cron.add parses spec owner o) k ∧
      op.ask = askAdd (k, o) spec ∧
      op.failed parses = if fails parses spec then some (k, o) else none) ∨
    (∃ k o, s.apply parses op = s.modify (Cron.removeObject o) k ∧ op.ask = .drop (k, o) ∧
      op.failed parses = none) ∨
    s.apply parses op = s.destroy ∧ op.ask = .nothing ∧ op.failed parses = none := by
  cases op with
  | addTask owner t => exact .inl ⟨.task, t.id, t.spec, owner, rfl, rfl, rfl⟩
  | addBroker owner id spec => exact .inl ⟨.broker, id, spec, owner, rfl, rfl, rfl⟩
  | addChannel owner id spec => exact .inl ⟨.channel, id, spec, owner, rfl, rfl, rfl⟩
  | removeTask id => exact .inr (.inl ⟨.task, id, rfl, rfl, rfl⟩)
  | removeBroker id => exact .inr (.inl ⟨.broker, id, rfl, rfl, rfl⟩)
  | removeChannel id => exact .inr (.inl ⟨.channel, id, rfl, rfl, rfl⟩)
  | destroy => exact .inr (.inr ⟨rfl, rfl, rfl⟩)

theorem Sound.destroy (h : s.Sound) : s.destroy.Sound := by
  refine ⟨fun k => ?_, fun job => registered_destroy (s := s) ▸ h.once job⟩
  cases k with
  | task => exact h.numbered .task
  | broker => exact h.numbered .broker
  | channel => exact h.numbered .channel

theorem Sound.apply (h : s.Sound) (op : Op) : (s.apply parses op).Sound := by
  obtain ⟨k, o, spec, owner, happly, -⟩ | ⟨k, o, happly, -⟩ | ⟨happly, -⟩ := op.cases parses s
  · exact happly ▸ h.add
  · exact happly ▸ h.remove
  · exact happly ▸ h.destroy

theorem Sound.right_iff (h : s.Sound) (op : Op) :
    Right op.ask (op.failed parses).isSome s.registered (s.apply parses op).registered ↔
      ∀ job ∈ op.failed parses, s.registered job = [] := by
  obtain ⟨k, o, spec, owner, happly, hask, hfailed⟩ | ⟨k, o, happly, hask, hfailed⟩ |
    ⟨happly, hask, hfailed⟩ := op.cases parses s
  · have hsome : (op.failed parses).isSome = fails parses spec := by
      rw [hfailed]
      cases fails parses spec <;> rfl
    rw [happly, hask, hsome, h.right_add_iff, hfailed]
    cases fails parses spec <;> simp
  · rw [happly, hask, hfailed]
    exact iff_of_true h.right_remove (by simp)
  · rw [happly, hask, hfailed, registered_destroy]
    refine iff_of_true ⟨h.once, ?_, ?_, ?_⟩ (by simp) <;> simp

/-- All calls do what is asked exactly when each `Add` whose schedule cannot be parsed is for an
object without an entry. -/
theorem rightCalls_iff (parses : GoString → Bool) (calls : List Call) :
    Transitions.Meets (next parses) (RightCall parses) new calls ↔
      Transitions.Meets (next parses) (Orderly parses) new calls := by
  refine Transitions.meets_iff_of_invariant (I := Sound) ?_ ?_ sound_new calls
  · intro s c s' h _ hnext
    cases hnext
    cases c.op? with
    | none => exact h
    | some op => exact h.apply op
  · exact fun s c h => forall₂_congr fun op _ => h.right_iff op

end

end Scheduler

end Kairos
