import Kairos.Library.Transitions
import Mathlib.Algebra.Order.Ring.Int

/-!
# The pool of the runner

`Runner.execute` of `server/runner/runner.go`. One goroutine takes the events from `wfEvent` and
hands each to a pool of `MaxWorkflowConcurrent` slots, where `Invoke` blocks while all are busy. The
creation of a workflow keeps its slot for as long as the worker runs.
-/

namespace Kairos.Pool

/-- An event of the runner's stream. -/
inductive WfEvent where
  | create (id : ℤ)
  | delete (id : ℤ)
  | recover (id : ℤ)

def WfEvent.isCreate : WfEvent → Bool
  | .create _ => true
  | .delete _ => false
  | .recover _ => false

def WfEvent.running? : WfEvent → Option ℤ
  | .create _ => none
  | .delete id => some id
  | .recover id => some id

/-- A job of the pool, with where it stands. -/
inductive Job where
  | create (id : ℤ)
  | setup (id : ℤ) (worker : ℕ)
  | run (id : ℤ) (worker : ℕ)
  | finish (id : ℤ)
  | delete (id : ℤ)
  | recover (id : ℤ)

def Job.creates : Job → Bool
  | .delete _ => false
  | .recover _ => false
  | _ => true

/-- A goroutine that a job has started. -/
inductive Routine where
  | destroyWorker (id : ℤ)
  | destroy (id : ℤ) (worker : ℕ)
  | remove (id : ℤ)
  | recoverWorker (id : ℤ)
  | recover (worker : ℕ)

/-- The runner: its stream, the event that waits for the pool, the jobs, `wfMap` and goroutines. -/
structure Runner where
  stream : List WfEvent
  invoking : Option WfEvent
  jobs : List Job
  wfMap : ℤ → Option ℕ
  routines : List Routine
  workers : ℕ

/-- A step of the runner, of a job or of a goroutine, or what comes from outside. -/
inductive Act where
  | take
  | invoke
  | job (j : ℕ) (ok : Bool)
  | routine (i : ℕ)
  | arrive (e : WfEvent)
  | stop (j : ℕ)
  | answer (i : ℕ) (success : Bool)

/-- The step needs nothing from outside. -/
def Act.internal : Act → Bool
  | .take => true
  | .invoke => true
  | .job _ _ => true
  | .routine _ => true
  | .arrive _ => false
  | .stop _ => false
  | .answer _ _ => false

namespace Runner

def start : Runner := ⟨[], none, [], fun _ => none, [], 0⟩

def jobOf : WfEvent → Job
  | .create id => .create id
  | .delete id => .delete id
  | .recover id => .recover id

def unregister (s : Runner) (id : ℤ) : Runner := { s with wfMap := Function.update s.wfMap id none }

def stepJob (s : Runner) (j : ℕ) (ok : Bool) : Job → Option Runner
  | .create id =>
    some { s with
      wfMap := Function.update s.wfMap id (some s.workers)
      workers := s.workers + 1
      jobs := s.jobs.set j (.setup id s.workers) }
  | .setup id worker =>
    some { s with jobs := s.jobs.set j (if ok then .run id worker else .finish id) }
  | .run _ _ => none
  | .finish id => some { s.unregister id with jobs := s.jobs.eraseIdx j }
  | .delete id =>
    some { s with jobs := s.jobs.eraseIdx j, routines := s.routines ++ [.destroyWorker id] }
  | .recover id =>
    some { s with jobs := s.jobs.eraseIdx j, routines := s.routines ++ [.recoverWorker id] }

def stepRoutine (s : Runner) (i : ℕ) : Routine → Option Runner
  | .destroyWorker id =>
    match s.wfMap id with
    | some worker => some { s with routines := s.routines.set i (.destroy id worker) }
    | none => some { s with routines := s.routines.eraseIdx i }
  | .destroy _ _ => none
  | .remove id => some { s.unregister id with routines := s.routines.eraseIdx i }
  | .recoverWorker id =>
    match s.wfMap id with
    | some worker => some { s with routines := s.routines.set i (.recover worker) }
    | none => some { s with routines := s.routines.eraseIdx i }
  | .recover _ => none

def next (max : ℕ) (s : Runner) : Act → Option Runner
  | .take =>
    match s.invoking, s.stream with
    | none, e :: stream => some { s with invoking := some e, stream := stream }
    | _, _ => none
  | .invoke =>
    match s.invoking with
    | some e =>
      if s.jobs.length < max then some { s with invoking := none, jobs := s.jobs ++ [jobOf e] }
      else none
    | none => none
  | .job j ok => s.jobs[j]?.bind (s.stepJob j ok)
  | .routine i => s.routines[i]?.bind (s.stepRoutine i)
  | .arrive e => some { s with stream := s.stream ++ [e] }
  | .stop j =>
    match s.jobs[j]? with
    | some (.run id _) => some { s with jobs := s.jobs.set j (.finish id) }
    | _ => none
  | .answer i success =>
    match s.routines[i]? with
    | some (.destroy id _) =>
      some { s with
        routines := if success then s.routines.set i (.remove id) else s.routines.eraseIdx i }
    | some (.recover _) => some { s with routines := s.routines.eraseIdx i }
    | _ => none

/-- The event to be handled next: the one that is taken, or the first that waits. -/
def head (s : Runner) : Option WfEvent := s.invoking.or s.stream.head?

def Running (s : Runner) (id : ℤ) : Prop := ∃ worker, .run id worker ∈ s.jobs

/-- The deletion or recovery of a running workflow is next, and the runner waits for something
outside. -/
def Stuck (max : ℕ) (s : Runner) : Prop :=
  ∃ e id, s.head = some e ∧ e.running? = some id ∧ s.Running id ∧
    ∀ act : Act, act.internal → s.next max act = none

/-- How many jobs of the pool create or run a workflow. -/
def creating (s : Runner) : ℕ := s.jobs.countP Job.creates

/-- A workflow is created only while the pool keeps a place for other jobs. -/
def Roomy (max : ℕ) (s : Runner) : Act → Prop
  | .invoke => s.invoking.any WfEvent.isCreate → s.creating + 1 < max
  | _ => True

instance (max : ℕ) (s : Runner) (act : Act) : Decidable (s.Roomy max act) :=
  match act with
  | .invoke => inferInstanceAs (Decidable (_ → _))
  | .take | .job _ _ | .routine _ | .arrive _ | .stop _ | .answer _ _ => .isTrue trivial

variable {max : ℕ} {s t : Runner}

theorem not_stuck_of_creating_lt (h : s.creating < max) : ¬ s.Stuck max := by
  rintro ⟨e, id, hhead, -, -, hnone⟩
  cases hinv : s.invoking with
  | none =>
    -- the consumer can take the event
    cases hstream : s.stream with
    | nil => simp [head, hinv, hstream] at hhead
    | cons e' stream =>
      have htake := hnone .take rfl
      simp [next, hinv, hstream] at htake
  | some e' =>
    by_cases hfree : s.jobs.length < max
    · have hinvoke := hnone .invoke rfl
      simp [next, hinv, hfree] at hinvoke
    · -- some slot is busy with a deletion or a recovery, and will be free at its next step
      have hlt : s.creating < s.jobs.length := h.trans_le (not_lt.mp hfree)
      obtain ⟨job, hmem, hjob⟩ : ∃ job ∈ s.jobs, job.creates = false := by
        by_contra hall
        push Not at hall
        have heq : s.creating = s.jobs.length :=
          List.countP_eq_length.mpr fun job hmem => by simpa using hall job hmem
        omega
      obtain ⟨j, hj⟩ := List.mem_iff_getElem?.mp hmem
      have hstep := hnone (.job j true) rfl
      rw [next, hj, Option.bind_some] at hstep
      cases job with
      | delete id | recover id => cases hstep
      | _ => cases hjob

variable {j : ℕ} {job : Job}

theorem countP_set_creates {jobs : List Job} {job' : Job} (hj : jobs[j]? = some job)
    (hjob : job.creates) (hjob' : job'.creates) :
    (jobs.set j job').countP Job.creates = jobs.countP Job.creates := by
  obtain ⟨hlt, hget⟩ := List.getElem?_eq_some_iff.mp hj
  have hpos : 0 < jobs.countP Job.creates :=
    List.countP_pos_iff.mpr ⟨job, List.mem_of_getElem? hj, hjob⟩
  rw [List.countP_set hlt, hget, if_pos hjob, if_pos hjob']
  omega

theorem creating_stepJob {ok : Bool} (hj : s.jobs[j]? = some job)
    (h : s.stepJob j ok job = some t) : t.creating ≤ s.creating := by
  have herase : (s.jobs.eraseIdx j).countP Job.creates ≤ s.creating :=
    (List.eraseIdx_sublist s.jobs j).countP_le
  cases job with
  | create id =>
    cases h
    exact (countP_set_creates hj rfl rfl).le
  | setup id worker =>
    cases h
    refine (countP_set_creates hj rfl ?_).le
    split_ifs <;> rfl
  | run id worker => cases h
  | finish id | delete id | recover id =>
    cases h
    exact herase

theorem jobs_stepRoutine {i : ℕ} {r : Routine} (h : s.stepRoutine i r = some t) :
    t.jobs = s.jobs := by
  cases r with
  | destroyWorker id | recoverWorker id =>
    rw [stepRoutine] at h
    split at h
    · cases h
      rfl
    · cases h
      rfl
  | destroy id worker | recover worker => cases h
  | remove id =>
    cases h
    rfl

theorem creating_next {act : Act} (h : s.creating < max) (hroomy : s.Roomy max act)
    (hnext : s.next max act = some t) : t.creating < max := by
  cases act with
  | take =>
    rw [next] at hnext
    split at hnext
    · cases hnext
      exact h
    · cases hnext
  | invoke =>
    rw [next] at hnext
    split at hnext
    · rename_i e hinv
      split_ifs at hnext
      cases hnext
      show (s.jobs ++ [jobOf e]).countP Job.creates < max
      rw [List.countP_append, List.countP_singleton]
      -- only a creation adds to the count
      cases e with
      | create id => exact hroomy (hinv ▸ rfl)
      | delete id | recover id => exact h
    · cases hnext
  | job j ok =>
    obtain ⟨job, hj, hstep⟩ := Option.bind_eq_some_iff.mp hnext
    exact (creating_stepJob hj hstep).trans_lt h
  | routine i =>
    obtain ⟨r, -, hstep⟩ := Option.bind_eq_some_iff.mp hnext
    unfold creating
    rw [jobs_stepRoutine hstep]
    exact h
  | arrive e =>
    cases hnext
    exact h
  | stop j =>
    rw [next] at hnext
    split at hnext
    · rename_i id worker hj
      cases hnext
      exact (countP_set_creates hj rfl rfl).le.trans_lt h
    · cases hnext
  | answer i success =>
    rw [next] at hnext
    split at hnext
    · cases hnext
      exact h
    · cases hnext
      exact h
    · cases hnext

/-- If a creation always leaves a slot to other events, no deletion or recovery of a running
workflow is held up until something happens outside. -/
theorem not_stuck_of_run {max : ℕ} (hmax : 1 ≤ max) {acts : List Act} {t : Runner}
    (hroomy : Transitions.Meets (next max) (Roomy max) start acts)
    (hrun : Transitions.run (next max) start acts = some t) : ¬ t.Stuck max := by
  have hstart : start.creating < max := hmax
  have hlt : t.creating < max :=
    Transitions.run_invariant
      (fun s act t h hroomy hnext => creating_next h hroomy hnext) hstart hroomy hrun
  exact not_stuck_of_creating_lt hlt

def deleteActs : List Act :=
  [.arrive (.create 7), .take, .invoke, .job 0 true, .job 0 true, .arrive (.delete 7), .take]

theorem deleteActs_not_stuck : ∃ t, Transitions.Meets (next 2) (Roomy 2) start deleteActs ∧
      Transitions.run (next 2) start deleteActs = some t ∧ t.Running 7 ∧ ¬ t.Stuck 2 := by
  have hroomy : Transitions.Meets (next 2) (Roomy 2) start deleteActs := by decide +kernel
  refine ⟨_, hroomy, rfl, ⟨0, .head _⟩, ?_⟩
  exact not_stuck_of_run (by decide) hroomy rfl

/-- With one slot the deletion waits for the worker that it is to end, and that for the deletion. -/
theorem deleteActs_stuck : ∃ t, Transitions.run (next 1) start deleteActs = some t ∧ t.Stuck 1 := by
  refine ⟨_, rfl, .delete 7, 7, rfl, rfl, ⟨0, .head _⟩, fun act hact => ?_⟩
  cases act with
  | take | invoke | routine i => rfl
  | job j ok =>
    cases j with
    | zero | succ j => rfl
  | _ => cases hact

end Runner

end Kairos.Pool
