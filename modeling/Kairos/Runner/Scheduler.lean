import Kairos.Go.Strings

/-!
# The scheduler

`Scheduler` of `server/runner/scheduler.go`: three crons of `robfig/cron`, for tasks, brokers and
channels, shared by the workers of all workflows. `Worker.Destroy` stops the three and removes no
entry.
-/

namespace Kairos

/-! ## Crons -/

/-- An entry: its number, the workflow, and the `ID` of the object whose job it is. -/
structure CronEntry where
  id : ℕ
  owner : ℤ
  object : ℤ
  spec : GoString
  deriving DecidableEq

/-- `cron.Cron`. No caller depends on the order of the entries. -/
structure Cron where
  entries : List CronEntry
  running : Bool
  nextID : ℕ
  deriving DecidableEq

namespace Cron

def new : Cron := ⟨[], false, 0⟩

def addJob (parses : GoString → Bool) (spec : GoString) (owner object : ℤ) (c : Cron) :
    Option Cron :=
  if parses spec then
    some { c with
      entries := c.entries ++ [⟨c.nextID + 1, owner, object, spec⟩]
      nextID := c.nextID + 1 }
  else none

def remove (id : ℕ) (c : Cron) : Cron := { c with entries := c.entries.filter (·.id != id) }

def start (c : Cron) : Cron := { c with running := true }

def stop (c : Cron) : Cron := { c with running := false }

def getEntry (object : ℤ) (c : Cron) : Option CronEntry := c.entries.find? (·.object == object)

def removeObject (object : ℤ) (c : Cron) : Cron :=
  match c.getEntry object with
  | some e => c.remove e.id
  | none => c

/-- `AddTask`, `AddBroker` and `AddChannel`: the object's entry is removed, and with a schedule a
new one is added and the cron started. Without one the object is run at once. -/
def add (parses : GoString → Bool) (spec : GoString) (owner object : ℤ) (c : Cron) : Cron :=
  let c := c.removeObject object
  if spec = [] then c
  else
    match c.addJob parses spec owner object with
    | some c => c.start
    | none => c

end Cron

/-! ## The scheduler -/

inductive CronKind where
  | task
  | broker
  | channel
  deriving DecidableEq

structure Scheduler where
  cron : Cron
  brokerCron : Cron
  channelCron : Cron

structure ScheduledTask where
  id : ℤ
  schedule : GoString
  timezone : GoString

def ScheduledTask.spec (t : ScheduledTask) : GoString :=
  if t.schedule = [] then []
  else if t.timezone ≠ [] ∧ !Strings.hasPrefix t.schedule "@" ∧
      !Strings.hasPrefix t.schedule "TZ=" ∧
      !Strings.hasPrefix t.schedule "CRON_TZ=" then
    "CRON_TZ=" ++ t.timezone ++ " " ++ t.schedule
  else t.schedule

namespace Scheduler

def new : Scheduler := ⟨.new, .new, .new⟩

def cronFor (s : Scheduler) : CronKind → Cron
  | .task => s.cron
  | .broker => s.brokerCron
  | .channel => s.channelCron

def modify (f : Cron → Cron) (s : Scheduler) : CronKind → Scheduler
  | .task => { s with cron := f s.cron }
  | .broker => { s with brokerCron := f s.brokerCron }
  | .channel => { s with channelCron := f s.channelCron }

section

variable (parses : GoString → Bool)

def addTask (owner : ℤ) (t : ScheduledTask) (s : Scheduler) : Scheduler :=
  s.modify (Cron.add parses t.spec owner t.id) .task

def addBroker (owner : ℤ) (brokerID : ℤ) (schedule : GoString) (s : Scheduler) : Scheduler :=
  s.modify (Cron.add parses schedule owner brokerID) .broker

def addChannel (owner : ℤ) (channelID : ℤ) (schedule : GoString) (s : Scheduler) : Scheduler :=
  s.modify (Cron.add parses schedule owner channelID) .channel

end

def removeTask (taskID : ℤ) (s : Scheduler) : Scheduler := s.modify (Cron.removeObject taskID) .task

def removeBroker (brokerID : ℤ) (s : Scheduler) : Scheduler :=
  s.modify (Cron.removeObject brokerID) .broker

def removeChannel (channelID : ℤ) (s : Scheduler) : Scheduler :=
  s.modify (Cron.removeObject channelID) .channel

def stopTask (s : Scheduler) : Scheduler := s.modify Cron.stop .task

def stopBroker (s : Scheduler) : Scheduler := s.modify Cron.stop .broker

def stopChannel (s : Scheduler) : Scheduler := s.modify Cron.stop .channel

def destroy (s : Scheduler) : Scheduler := s.stopTask.stopBroker.stopChannel

inductive Op where
  | addTask (owner : ℤ) (t : ScheduledTask)
  | addBroker (owner : ℤ) (brokerID : ℤ) (schedule : GoString)
  | addChannel (owner : ℤ) (channelID : ℤ) (schedule : GoString)
  | removeTask (taskID : ℤ)
  | removeBroker (brokerID : ℤ)
  | removeChannel (channelID : ℤ)
  | destroy (owner : ℤ)

def apply (parses : GoString → Bool) (s : Scheduler) : Op → Scheduler
  | .addTask owner t => s.addTask parses owner t
  | .addBroker owner brokerID schedule => s.addBroker parses owner brokerID schedule
  | .addChannel owner channelID schedule => s.addChannel parses owner channelID schedule
  | .removeTask taskID => s.removeTask taskID
  | .removeBroker brokerID => s.removeBroker brokerID
  | .removeChannel channelID => s.removeChannel channelID
  | .destroy _ => s.destroy

def run (parses : GoString → Bool) (ops : List Op) : Scheduler := ops.foldl (apply parses) new

/-! ## The destruction of a workflow -/

def Op.ByOthers (w : ℤ) : Op → Prop
  | .addTask owner _ => owner ≠ w
  | .addBroker owner _ _ => owner ≠ w
  | .addChannel owner _ _ => owner ≠ w
  | .removeTask _ => True
  | .removeBroker _ => True
  | .removeChannel _ => True
  | .destroy _ => False

def Op.Touches (k : CronKind) (object : ℤ) : Op → Prop
  | .addTask _ t => k = .task ∧ t.id = object
  | .addBroker _ brokerID _ => k = .broker ∧ brokerID = object
  | .addChannel _ channelID _ => k = .channel ∧ channelID = object
  | .removeTask taskID => k = .task ∧ taskID = object
  | .removeBroker brokerID => k = .broker ∧ brokerID = object
  | .removeChannel channelID => k = .channel ∧ channelID = object
  | .destroy _ => False

/-- What destroying `w` should do to `s`, with `after` the state that the others' calls `post` lead
to. -/
structure Isolated (w : ℤ) (s : Scheduler) (post : List Op) (after : Scheduler) : Prop where
  gone : ∀ k, ∀ e ∈ (after.cronFor k).entries, e.owner ≠ w
  kept : ∀ k, ∀ e ∈ (s.cronFor k).entries, e.owner ≠ w →
    (∀ op ∈ post, ¬ op.Touches k e.object) → e ∈ (after.cronFor k).entries
  running : ∀ k, (after.cronFor k).entries ≠ [] → (after.cronFor k).running

end Scheduler

structure Cron.Clear (w : ℤ) (c : Cron) : Prop where
  gone : ∀ e ∈ c.entries, e.owner ≠ w
  running : c.entries ≠ [] → c.running

namespace Cron

variable {w owner object : ℤ} {c : Cron} {parses : GoString → Bool} {spec : GoString}

theorem Clear.removeObject (h : c.Clear w) : (c.removeObject object).Clear w := by
  unfold Cron.removeObject
  split
  · refine ⟨fun e he => h.gone e (List.mem_of_mem_filter he), fun hne => h.running ?_⟩
    rintro hnil
    simp [remove, hnil] at hne
  · exact h

theorem Clear.add (h : c.Clear w) (howner : owner ≠ w) :
    (c.add parses spec owner object).Clear w := by
  have hremoved : (c.removeObject object).Clear w := h.removeObject
  unfold Cron.add addJob
  split_ifs with hspec hparses
  · exact hremoved
  · -- The new entry is another's, and it starts the cron.
    refine ⟨fun e he => ?_, fun _ => rfl⟩
    simp only [start, List.mem_append, List.mem_singleton] at he
    rcases he with he | rfl
    · exact hremoved.gone e he
    · exact howner
  · exact hremoved

end Cron

namespace Scheduler

variable {w : ℤ} {s : Scheduler} {parses : GoString → Bool}

theorem cronFor_modify (f : Cron → Cron) (k l : CronKind) :
    (s.modify f k).cronFor l = if l = k then f (s.cronFor l) else s.cronFor l := by
  cases k <;> cases l <;> rfl

theorem clear_modify {f : Cron → Cron} {k : CronKind} (h : ∀ l, (s.cronFor l).Clear w)
    (hf : ∀ c : Cron, c.Clear w → (f c).Clear w) (l : CronKind) :
    ((s.modify f k).cronFor l).Clear w := by
  rw [cronFor_modify]
  split_ifs
  · exact hf _ (h l)
  · exact h l

theorem clear_apply {op : Op} (hop : op.ByOthers w) (h : ∀ l, (s.cronFor l).Clear w)
    (l : CronKind) : ((s.apply parses op).cronFor l).Clear w := by
  cases op with
  | addTask | addBroker | addChannel => exact clear_modify h (fun _ hc => hc.add hop) l
  | removeTask | removeBroker | removeChannel =>
      exact clear_modify h (fun _ hc => hc.removeObject) l
  | destroy => exact absurd hop id

theorem entries_destroy (l : CronKind) : (s.destroy.cronFor l).entries = (s.cronFor l).entries := by
  cases l <;> rfl

theorem running_destroy (l : CronKind) : (s.destroy.cronFor l).running = false := by
  cases l <;> rfl

/-- Destroying a workflow isolates it, whatever calls come before and after, exactly where no cron
has an entry. -/
theorem destroy_isolated_iff (parses : GoString → Bool) (pre : List Op) (w : ℤ) :
    (∀ post : List Op, (∀ op ∈ post, op.ByOthers w) →
      Isolated w (run parses pre) post (post.foldl (apply parses) (run parses pre).destroy)) ↔
    ∀ k, ((run parses pre).cronFor k).entries = [] := by
  constructor
  · -- An entry stays where it is, and its cron is stopped.
    intro h k
    have hrunning := (h [] (by simp)).running k
    rw [List.foldl_nil, entries_destroy, running_destroy] at hrunning
    by_contra hne
    exact absurd (hrunning hne) (by simp)
  · intro hempty post hpost
    have hstart (l : CronKind) : ((run parses pre).destroy.cronFor l).Clear w := by
      constructor <;> simp [entries_destroy, hempty]
    have hclear : ∀ l, ((post.foldl (apply parses) (run parses pre).destroy).cronFor l).Clear w :=
      List.foldlRecOn (motive := fun s : Scheduler => ∀ l, (s.cronFor l).Clear w) post _ hstart
        fun _ hs op hop => clear_apply (hpost op hop) hs
    exact ⟨fun k => (hclear k).gone, fun k e he => by simp [hempty] at he,
      fun k => (hclear k).running⟩

/-- The first of two workflows is destroyed: its entry stays, and that of the second stops. When the
second schedules another task, all three run. -/
theorem destroy_stops_others :
    let scheduled (owner id : ℤ) : Op := .addTask owner ⟨id, "@every 1s", []⟩
    let s := run (fun _ => true) [scheduled 1 10, scheduled 2 20, .destroy 1]
    let s' := s.apply (fun _ => true) (scheduled 2 21)
    (s.cron.entries.map (·.owner) = [1, 2] ∧ s.cron.running = false) ∧
      s'.cron.entries.map (·.owner) = [1, 2, 2] ∧ s'.cron.running := by
  decide

end Scheduler

end Kairos
