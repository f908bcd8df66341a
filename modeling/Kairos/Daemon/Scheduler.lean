import Kairos.Runner.Registered

/-!
# What is registered with the scheduler of a daemon

The scheduler of `kairos-local/kairosdeamon/agent/scheduler.go` has two crons. Tasks are registered
with the first, as on the server. So are brokers, which are looked for in the second: no entry of a
broker is ever replaced or removed.
-/

namespace Kairos.Daemon

open List
open Transitions (Meets)
open Strings (hasPrefix itoa)
open Registry (Ask Right)

inductive Job where
  | task (id : GoString)
  | broker (id : GoString)
  deriving DecidableEq

/-- The fields of a task that the scheduler reads. -/
structure CronTask where
  id : GoString
  disabled : Bool
  schedule : GoString
  timezone : GoString
  input : GoString

/-- The text that `AddJob` is given. -/
def CronTask.spec (t : CronTask) : GoString :=
  if t.timezone ≠ [] ∧ !hasPrefix t.schedule "@" ∧
      !hasPrefix t.schedule "TZ=" ∧
      !hasPrefix t.schedule "CRON_TZ=" then
    "CRON_TZ=" ++ t.timezone ++ " " ++ t.schedule
  else t.schedule

def CronTask.fails (parses : GoString → Bool) (t : CronTask) : Bool :=
  !t.disabled && !(t.schedule = [] && t.input ≠ []) && !parses t.spec

/-- The two crons of the scheduler. -/
structure Scheduler where
  cron : Registry.Table Job GoString
  brokerCron : Registry.Table Job GoString

namespace Scheduler

def new : Scheduler := ⟨.empty, .empty⟩

def removeTask (taskID : GoString) (s : Scheduler) : Scheduler :=
  { s with cron := s.cron.removeJob (.task taskID) }

def removeBroker (brokerID : GoString) (s : Scheduler) : Scheduler :=
  { s with brokerCron := s.brokerCron.removeJob (.broker brokerID) }

section

variable (parses : GoString → Bool)

def addJob (job : Job) (spec : GoString) (s : Scheduler) : Scheduler × Bool :=
  if parses spec then ({ s with cron := s.cron.add job spec }, false) else (s, true)

/-- `AddTask`, and whether it fails. A task with an input and no schedule is run at once. -/
def addTask (t : CronTask) (s : Scheduler) : Scheduler × Bool :=
  let s := s.removeTask t.id
  if t.disabled then (s, false)
  else if t.schedule = [] ∧ t.input ≠ [] then (s, false)
  else s.addJob parses (.task t.id) t.spec

def addBroker (brokerID : ℤ) (schedule : GoString) (s : Scheduler) : Scheduler × Bool :=
  let job := Job.broker (itoa brokerID)
  if schedule = [] then (s, false)
  else if (s.brokerCron.find job).isSome then
    (s.removeBroker (itoa brokerID)).addJob parses job schedule
  else s.addJob parses job schedule

end

inductive Op where
  | addTask (t : CronTask)
  | addBroker (brokerID : ℤ) (schedule : GoString)
  | removeTask (taskID : GoString)
  | removeBroker (brokerID : GoString)

structure Trigger where
  type : Option CronKind
  objectID : ℤ
  schedule : GoString
  input : GoString

structure TriggerStore where
  getBroker : GoString → Option ℤ
  getTask : GoString → Option CronTask

def Trigger.op (store : TriggerStore) (tr : Trigger) : Option Op :=
  match tr.type with
  | some .broker => (store.getBroker (itoa tr.objectID)).map (.addBroker · tr.schedule)
  | some .task => (store.getTask (itoa tr.objectID)).map fun t =>
      .addTask { t with input := tr.input, schedule := tr.schedule }
  | _ => none

inductive Call where
  | direct (call : Op)
  | trigger (store : TriggerStore) (tr : Trigger)

def Call.op? : Call → Option Op
  | .direct call => some call
  | .trigger store tr => tr.op store

def apply (parses : GoString → Bool) (s : Scheduler) : Op → Scheduler × Bool
  | .addTask t => s.addTask parses t
  | .addBroker brokerID schedule => s.addBroker parses brokerID schedule
  | .removeTask taskID => (s.removeTask taskID, false)
  | .removeBroker brokerID => (s.removeBroker brokerID, false)

def registered (s : Scheduler) (job : Job) : List (ℕ × GoString) :=
  s.cron.registered job ++ s.brokerCron.registered job

def Op.ask : Op → Ask Job GoString
  | .addTask t => if t.disabled ∨ t.schedule = [] then .nothing else .put (.task t.id) t.spec
  | .addBroker brokerID schedule =>
    if schedule = [] then .nothing else .put (.broker (itoa brokerID)) schedule
  | .removeTask taskID => .drop (.task taskID)
  | .removeBroker brokerID => .drop (.broker brokerID)

section

variable (parses : GoString → Bool)

def next (s : Scheduler) (c : Call) : Option Scheduler :=
  some (c.op?.elim s fun op => (s.apply parses op).1)

def RightCall (s : Scheduler) (c : Call) : Prop :=
  ∀ op ∈ c.op?, Right op.ask (s.apply parses op).2 s.registered (s.apply parses op).1.registered

/-- The job has no entry, where an `AddTask` fails, an `AddBroker` does not, or a broker is
removed. -/
def Op.Orderly (s : Scheduler) : Op → Prop
  | .addTask t => t.fails parses → s.registered (.task t.id) = []
  | .addBroker brokerID schedule => schedule ≠ [] → parses schedule →
      s.registered (.broker (itoa brokerID)) = []
  | .removeTask _ => True
  | .removeBroker brokerID => s.registered (.broker brokerID) = []

def Orderly (s : Scheduler) (c : Call) : Prop := ∀ op ∈ c.op?, op.Orderly parses s

end

structure Sound (s : Scheduler) : Prop where
  numbered : s.cron.Numbered
  empty : s.brokerCron = .empty
  once : ∀ job, (s.registered job).length ≤ 1

section

variable {parses : GoString → Bool} {s : Scheduler} {job : Job} {spec : GoString}

theorem sound_new : new.Sound := ⟨Registry.Table.numbered_empty, rfl, fun _ => Nat.zero_le 1⟩

section

variable (h : s.Sound)
include h

theorem Sound.registered_eq (job : Job) : s.registered job = s.cron.registered job := by
  rw [registered, h.empty, Registry.Table.registered_empty, append_nil]

theorem Sound.removeBroker_eq (id : GoString) : s.removeBroker id = s := by
  obtain ⟨cron, brokerCron⟩ := s
  obtain rfl : brokerCron = .empty := h.empty
  rfl

theorem Sound.registered_removeTask (id : GoString) (job : Job) :
    (s.removeTask id).registered job = if job = .task id then [] else s.registered job := by
  unfold registered
  rw [removeTask, h.empty, Registry.Table.registered_empty, append_nil, append_nil]
  by_cases hjob : job = .task id
  · rw [if_pos hjob, hjob]
    exact Registry.Table.registered_removeJob_self (h.registered_eq (.task id) ▸ h.once (.task id))
  · rw [if_neg hjob]
    exact h.numbered.registered_removeJob_of_ne hjob

theorem Sound.removeTask (id : GoString) : (s.removeTask id).Sound := by
  refine ⟨h.numbered.removeJob _, h.empty, fun job => ?_⟩
  rw [h.registered_removeTask]
  split_ifs
  · exact Nat.zero_le 1
  · exact h.once job

theorem Sound.registered_add (job j : Job) (spec : GoString) :
    ({ s with cron := s.cron.add job spec } : Scheduler).registered j =
      s.registered j ++ if job = j then [(s.cron.last + 1, spec)] else [] := by
  rw [h.registered_eq, registered, h.empty, Registry.Table.registered_empty, append_nil,
    Registry.Table.registered_add]

theorem Sound.add (hclear : s.registered job = []) :
    ({ s with cron := s.cron.add job spec } : Scheduler).Sound := by
  refine ⟨h.numbered.add job spec, h.empty, fun j => ?_⟩
  rw [h.registered_add]
  split_ifs with hj
  · rw [← hj, hclear]
    exact Nat.le_refl 1
  · rw [append_nil]
    exact h.once j

theorem Sound.right_add (hclear : s.registered job = []) : Right (.put job spec) false s.registered
      ({ s with cron := s.cron.add job spec } : Scheduler).registered where
  once := (h.add hclear).once
  put j schedule hask _ := by
    cases hask
    refine ⟨s.cron.last + 1, ?_⟩
    rw [h.registered_add, if_pos rfl, hclear, nil_append]
  drop _ hask := by cases hask
  undone hfailed := by cases hfailed

theorem Sound.right_nothing {before : Job → List (ℕ × GoString)} :
    Right .nothing false before s.registered where
  once := h.once
  put _ _ hask := by cases hask
  drop _ hask := by cases hask
  undone hfailed := by cases hfailed

theorem Sound.right_removeTask (id : GoString) :
    Right (.drop (.task id)) false s.registered (s.removeTask id).registered where
  once := (h.removeTask id).once
  put _ _ hask := by cases hask
  drop job hask := by
    cases hask
    rw [h.registered_removeTask, if_pos rfl]
  undone hfailed := by cases hfailed

end

theorem right_failed {ask : Ask Job GoString} {r : Job → List (ℕ × GoString)}
    (honce : ∀ job, (r job).length ≤ 1) (hask : ∀ job, ask ≠ .drop job) : Right ask true r r where
  once := honce
  put _ _ _ hfailed := by cases hfailed
  drop job h := absurd h (hask job)
  undone _ := rfl

theorem Op.ask_addTask (t : CronTask) :
    (Op.addTask t).ask = .nothing ∨ (Op.addTask t).ask = .put (.task t.id) t.spec := by
  by_cases h : t.disabled ∨ t.schedule = []
  · exact .inl (if_pos h)
  · exact .inr (if_neg h)

theorem addTask_cases (parses : GoString → Bool) (s : Scheduler) (t : CronTask) :
    (s.addTask parses t = (s.removeTask t.id, false) ∧ t.fails parses = false ∧
      (Op.addTask t).ask = .nothing) ∨ (s.addTask parses t = ({ s.removeTask t.id with
        cron := (s.removeTask t.id).cron.add (.task t.id) t.spec }, false) ∧
      t.fails parses = false ∧
      ((Op.addTask t).ask = .nothing ∨ (Op.addTask t).ask = .put (.task t.id) t.spec)) ∨
    s.addTask parses t = (s.removeTask t.id, true) ∧ t.fails parses := by
  by_cases hdisabled : t.disabled
  · exact .inl (by simp [addTask, CronTask.fails, Op.ask, hdisabled])
  by_cases hrun : t.schedule = [] ∧ t.input ≠ []
  · exact .inl (by simp [addTask, CronTask.fails, Op.ask, hdisabled, hrun])
  by_cases hparses : parses t.spec
  · refine .inr (.inl ⟨?_, ?_, Op.ask_addTask t⟩)
    · simp [addTask, addJob, hdisabled, hrun, hparses]
    · simp [CronTask.fails, hparses]
  · refine .inr (.inr ⟨?_, ?_⟩)
    · simp [addTask, addJob, hdisabled, hrun, hparses]
    · simp only [CronTask.fails, hdisabled, hparses]
      simpa [imp_iff_not_or] using hrun

theorem Sound.addBroker_cases (h : s.Sound) (parses : GoString → Bool) (id : ℤ)
    (schedule : GoString) : (schedule = [] ∧ s.addBroker parses id schedule = (s, false)) ∨
    (schedule ≠ [] ∧ parses schedule ∧ s.addBroker parses id schedule =
      ({ s with cron := s.cron.add (.broker (itoa id)) schedule }, false)) ∨
    schedule ≠ [] ∧ parses schedule ≠ true ∧ s.addBroker parses id schedule = (s, true) := by
  have hfind : s.brokerCron.find (.broker (itoa id)) = none := by
    rw [h.empty]
    rfl
  by_cases hschedule : schedule = []
  · exact .inl ⟨hschedule, if_pos hschedule⟩
  by_cases hparses : parses schedule
  · exact .inr (.inl ⟨hschedule, hparses, by simp [addBroker, addJob, hschedule, hparses, hfind]⟩)
  · exact .inr (.inr ⟨hschedule, hparses, by simp [addBroker, addJob, hschedule, hparses, hfind]⟩)

theorem Sound.registered_removeTask_self (h : s.Sound) (id : GoString) :
    (s.removeTask id).registered (.task id) = [] := by
  rw [h.registered_removeTask, if_pos rfl]

theorem Sound.right_addTask_iff (h : s.Sound) (t : CronTask) :
    Right (Op.addTask t).ask (s.addTask parses t).2 s.registered
      (s.addTask parses t).1.registered ↔ (Op.addTask t).Orderly parses s := by
  have hclear := h.registered_removeTask_self t.id
  have hsound := h.removeTask t.id
  obtain ⟨heq, hfails, hask⟩ | ⟨heq, hfails, hask⟩ | ⟨heq, hfails⟩ := addTask_cases parses s t
  · rw [heq, hask]
    exact iff_of_true hsound.right_nothing (by simp [Op.Orderly, hfails])
  · rw [heq]
    refine iff_of_true ?_ (by simp [Op.Orderly, hfails])
    rcases hask with hask | hask
    · rw [hask]
      exact (hsound.add hclear).right_nothing
    · rw [hask]
      -- what was registered before the removal is of no account where the call does not fail
      exact { hsound.right_add hclear with undone := fun hfailed => by cases hfailed }
  · rw [heq]
    simp only [Op.Orderly, hfails, true_imp_iff]
    constructor
    · intro hright
      rw [← congrFun (hright.undone rfl) (.task t.id), hclear]
    · intro hnone
      have hsame : (s.removeTask t.id).registered = s.registered := by
        funext job
        rw [h.registered_removeTask]
        split_ifs with hjob
        · rw [hjob, hnone]
        · rfl
      rw [hsame]
      refine right_failed h.once fun job => ?_
      rcases Op.ask_addTask t with hask | hask <;> simp [hask]

theorem Sound.right_addBroker_iff (h : s.Sound) (id : ℤ) (schedule : GoString) :
    Right (Op.addBroker id schedule).ask (s.addBroker parses id schedule).2 s.registered
      (s.addBroker parses id schedule).1.registered ↔
        (Op.addBroker id schedule).Orderly parses s := by
  obtain ⟨hschedule, heq⟩ | ⟨hschedule, hparses, heq⟩ | ⟨hschedule, hparses, heq⟩ :=
    h.addBroker_cases parses id schedule
  · rw [heq, show (Op.addBroker id schedule).ask = .nothing from if_pos hschedule]
    exact iff_of_true h.right_nothing fun hne => absurd hschedule hne
  · rw [heq, show (Op.addBroker id schedule).ask = .put _ schedule from if_neg hschedule]
    constructor
    · intro hright _ _
      have hone := hright.once (.broker (itoa id))
      rw [h.registered_add, if_pos rfl, length_append, length_singleton] at hone
      exact eq_nil_of_length_eq_zero (by omega)
    · exact fun hclear => h.right_add (hclear hschedule hparses)
  · rw [heq, show (Op.addBroker id schedule).ask = .put _ schedule from if_neg hschedule]
    exact iff_of_true (right_failed h.once (by simp)) fun _ hp => absurd hp hparses

theorem Sound.right_removeBroker_iff (h : s.Sound) (id : GoString) :
    Right (.drop (.broker id)) false s.registered (s.removeBroker id).registered ↔
      s.registered (.broker id) = [] := by
  rw [h.removeBroker_eq]
  constructor
  · exact fun hright => hright.drop _ rfl
  · intro hclear
    refine ⟨h.once, by simp, fun job hask => ?_, by simp⟩
    cases hask
    exact hclear

theorem Sound.right_iff (h : s.Sound) (op : Op) :
    Right op.ask (s.apply parses op).2 s.registered (s.apply parses op).1.registered ↔
      op.Orderly parses s := by
  cases op with
  | addTask t => exact h.right_addTask_iff t
  | addBroker id schedule => exact h.right_addBroker_iff id schedule
  | removeTask id => exact iff_of_true (h.right_removeTask id) trivial
  | removeBroker id => exact h.right_removeBroker_iff id

theorem Sound.apply (h : s.Sound) (op : Op) (horderly : op.Orderly parses s) :
    (s.apply parses op).1.Sound := by
  cases op with
  | addTask t =>
    have hsound := h.removeTask t.id
    change (s.addTask parses t).1.Sound
    obtain ⟨heq, -⟩ | ⟨heq, -⟩ | ⟨heq, -⟩ := addTask_cases parses s t
    · exact heq ▸ hsound
    · exact heq ▸ hsound.add (h.registered_removeTask_self t.id)
    · exact heq ▸ hsound
  | addBroker id schedule =>
    change (s.addBroker parses id schedule).1.Sound
    obtain ⟨-, heq⟩ | ⟨hschedule, hparses, heq⟩ | ⟨-, -, heq⟩ :=
      h.addBroker_cases parses id schedule
    · exact heq ▸ h
    · exact heq ▸ h.add (horderly hschedule hparses)
    · exact heq ▸ h
  | removeTask id => exact h.removeTask id
  | removeBroker id =>
    change (s.removeBroker id).Sound
    rw [h.removeBroker_eq]
    exact h

/-- All calls do what is asked exactly when they are made for jobs without an entry, where they have
to be. -/
theorem rightCalls_iff (parses : GoString → Bool) (calls : List Call) :
    Meets (next parses) (RightCall parses) new calls ↔
      Meets (next parses) (Orderly parses) new calls := by
  refine Transitions.meets_iff_of_invariant (I := Sound) ?_ ?_ sound_new calls
  · intro s c s' h hright hnext
    cases hnext
    unfold RightCall at hright
    cases hc : c.op? with
    | none => exact h
    | some op => exact h.apply op ((h.right_iff op).1 (hright op hc))
  · exact fun s c h => forall₂_congr fun op _ => h.right_iff op

end

/-- All calls of the server's scheduler do what is asked exactly when each `Add` whose schedule
cannot be parsed is for an object without an entry. On the daemon, so must each `AddBroker` be whose
schedule can be parsed, and each `RemoveBroker`. -/
theorem schedules_right_iff (parses : GoString → Bool) :
    (∀ calls, Meets (Kairos.Scheduler.next parses)
        (Kairos.Scheduler.RightCall parses) Kairos.Scheduler.new calls ↔
      Meets (Kairos.Scheduler.next parses)
        (Kairos.Scheduler.Orderly parses) Kairos.Scheduler.new calls) ∧
    ∀ calls, Meets (next parses) (RightCall parses) new calls ↔
      Meets (next parses) (Orderly parses) new calls :=
  ⟨Kairos.Scheduler.rightCalls_iff parses, rightCalls_iff parses⟩

/-- A schedule that cannot be parsed loses the entry of a task, and two `AddBroker` leave two
entries. -/
theorem entry_lost_and_doubled :
    ¬ Meets (Kairos.Scheduler.next (· = "@daily"))
      (Kairos.Scheduler.RightCall (· = "@daily")) Kairos.Scheduler.new
      [.direct (.addTask 1 ⟨7, "@daily", []⟩),
        .direct (.addTask 1 ⟨7, "often", []⟩)] ∧
    ¬ Meets (next (· = "@daily")) (RightCall (· = "@daily")) new
      [.direct (.addBroker 7 "@daily"), .direct (.addBroker 7 "@daily")] := by
  constructor
  · intro h
    have hright := (h.2 _ rfl).1 _ rfl
    have hlost := congrFun (hright.undone (by decide)) (.task, 7)
    revert hlost
    decide
  · intro h
    have hright := (h.2 _ rfl).1 _ rfl
    have hone := hright.once (.broker "7")
    revert hone
    decide

end Scheduler

end Kairos.Daemon
