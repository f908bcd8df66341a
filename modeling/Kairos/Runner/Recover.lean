import Kairos.Runner.EventLoop
import Mathlib.Algebra.Order.Ring.Int
import Mathlib.Data.List.Nodup
import Mathlib.Data.List.Perm.Subperm

/-!
# The recovery of a workflow

`Worker.Recover` of `server/runner/worker.go`, with its storage calls. It reads the unrecovered
records in batches of at most ten and delivers each again. The callbacks mark the records, and
`wg.Wait` waits for a batch. A callback reads the variable `e` of the loop when it marks, and where
the message sets a task or a broker it first sends an event to the event loop of the worker, which
has to be at its receive. The other parties of the worker (`Plan.next`) go on meanwhile. Every
redelivery is answered with success here, so that neither the timeout nor the end of the worker
calls its callback, and every call of the storage succeeds.
-/

namespace Kairos.Recover

open List Option
open Transitions (Meets run)

/-! ## The records in the storage -/

/-- A stored delivery error: the `DeliverID` of its message, and the task or broker that the message
sets, with the client, if it is a `SetTaskCmd` or a `SetBrokerCmd`. -/
structure DeliverErr where
  deliverID : ℤ
  sets : Option (Deliverable × GoString)
deriving DecidableEq

/-- A row of the table of the workflow records, as far as `Recover` reads it. -/
structure WorkflowRecord where
  id : ℤ
  workflowID : ℤ
  status : ℤ
  retry : ℤ
  isRecovered : Bool
  /-- `none` is the empty text. -/
  deliverErr : Option DeliverErr
deriving DecidableEq

/-- The condition of the query of `GetWorkflowRecordsRecovery`. -/
def WorkflowRecord.isUnrecovered (workflowID : ℤ) (r : WorkflowRecord) : Bool :=
  r.workflowID == workflowID && !r.isRecovered && r.status == 0

def getWorkflowRecordsRecovery (table : List WorkflowRecord) (workflowID : ℤ) (limit : ℕ) :
    List WorkflowRecord :=
  (table.filter (·.isUnrecovered workflowID)).take limit

/-- `SetWfRecovered`, which updates the rows with the id. -/
def setWfRecovered (table : List WorkflowRecord) (id retry : ℤ) (success : Bool) :
    List WorkflowRecord :=
  table.map fun r => if r.id == id then { r with isRecovered := success, retry := retry } else r

def WorkflowRecord.recovered (r : WorkflowRecord) : WorkflowRecord :=
  { r with isRecovered := true, retry := r.retry + 1 }

/-- The update of the rows that were answered. -/
def mark (done : List ℤ) (table : List WorkflowRecord) : List WorkflowRecord :=
  table.map fun r => if done.contains r.id then r.recovered else r

def unrecoveredIDs (workflowID : ℤ) (table : List WorkflowRecord) : List ℤ :=
  (table.filter (·.isUnrecovered workflowID)).map (·.id)

theorem WorkflowRecord.isUnrecovered_recovered (workflowID : ℤ) (r : WorkflowRecord) :
    r.recovered.isUnrecovered workflowID = false := by
  simp [isUnrecovered, recovered]

theorem mark_nil (table : List WorkflowRecord) : mark [] table = table := by
  simp [mark]

theorem filter_mark (workflowID : ℤ) (done : List ℤ) (table : List WorkflowRecord) :
    (mark done table).filter (·.isUnrecovered workflowID) =
      table.filter fun r => r.isUnrecovered workflowID && !done.contains r.id := by
  induction table with
  | nil => rfl
  | cons r table ih =>
    rw [mark] at ih ⊢
    rw [map_cons, filter_cons, filter_cons, ih]
    by_cases hdone : r.id ∈ done
    · simp [hdone, r.isUnrecovered_recovered]
    · simp [hdone]

variable {r : WorkflowRecord} {done : List ℤ}

theorem setWfRecovered_mark {table : List WorkflowRecord} (hids : (table.map (·.id)).Nodup)
    (hr : r ∈ table) (hnew : r.id ∉ done) :
    setWfRecovered (mark done table) r.id (r.retry + 1) true = mark (done ++ [r.id]) table := by
  rw [setWfRecovered, mark, mark, List.map_map]
  apply List.map_congr_left
  intro q hq
  by_cases hid : q.id = r.id
  · have hqr : q = r := inj_on_of_nodup_map hids hq hr hid
    subst hqr
    simp [hnew, WorkflowRecord.recovered]
  · by_cases hdone : q.id ∈ done
    · simp [hdone, hid, WorkflowRecord.recovered]
    · simp [hdone, hid]

theorem recovered_mem_mark {table : List WorkflowRecord} (hr : r ∈ table) (hdone : r.id ∈ done) :
    r.recovered ∈ mark done table :=
  mem_map.mpr ⟨r, hr, by simp [hdone]⟩

/-! ## The loop and the callbacks -/

inductive Phase where
  | query
  | batch
  | returned
deriving DecidableEq

inductive Status where
  | recovering
  | running
deriving DecidableEq

/-- The storage, the variables of `Recover`, its callbacks and the rest of the worker. -/
structure Recovery where
  table : List WorkflowRecord
  status : Status
  phase : Phase
  wfrs : List WorkflowRecord
  rest : List WorkflowRecord
  e : Option WorkflowRecord
  wg : ℕ
  /-- The entries that `Recover` made in `w.requests`, and what their messages set. -/
  requests : List (ℤ × Option (Deliverable × GoString))
  /-- The callbacks that are at the send of `checkCmdReply`. -/
  sending : List (Deliverable × GoString)
  deliverCmd : ℤ
  delivered : List ℤ
  worker : WorkerState

def start (table : List WorkflowRecord) (deliverCmd : ℤ) (worker : WorkerState) : Recovery where
  table := table
  status := .recovering
  phase := .query
  wfrs := []
  rest := []
  e := none
  wg := 0
  requests := []
  sending := []
  deliverCmd := deliverCmd
  delivered := []
  worker := worker

inductive Act where
  | query
  | round
  /-- The answer to the message with this id takes its callback out of `w.requests`. -/
  | reply (deliverID : ℤ)
  /-- The loop takes the event of a callback. -/
  | send (o : Deliverable) (client : GoString)
  | wait
  /-- A step of another party of the worker. -/
  | worker (a : WorkerAct)

def Act.isRecovery : Act → Bool
  | .worker _ => false
  | _ => true

namespace Recovery

def deliverID (s : Recovery) (stored : ℤ) : ℤ × ℤ :=
  if stored == 0 then (s.deliverCmd + 1, s.deliverCmd + 1) else (stored, s.deliverCmd)

/-- A round for the record `r`. A request replaces a waiting one of its id. -/
def redeliver (s : Recovery) (r : WorkflowRecord) (rest : List WorkflowRecord) : Recovery :=
  match r.deliverErr with
  | none => { s with e := some r, rest := rest }
  | some err =>
    let id := (s.deliverID err.deliverID).1
    { s with
      e := some r
      rest := rest
      wg := s.wg + 1
      requests := (id, err.sets) :: s.requests.filter (·.1 != id)
      deliverCmd := (s.deliverID err.deliverID).2
      delivered := s.delivered ++ [r.id] }

/-- The end of a callback, behind `checkCmdReply`. -/
def finish (s : Recovery) : Recovery :=
  { s with
    -- the record is the one the loop is at now
    table := (s.e.map fun e => setWfRecovered s.table e.id (e.retry + 1) true).getD s.table
    wg := s.wg - 1 }

/-- A callback up to the send of `checkCmdReply`, which only the answer to a message that sets a
task or a broker comes to. -/
def callback (s : Recovery) (deliverID : ℤ) (sets : Option (Deliverable × GoString)) : Recovery :=
  let s' := { s with requests := s.requests.erase (deliverID, sets) }
  match sets with
  | none => s'.finish
  | some x => { s' with sending := s.sending ++ [x] }

/-- The send: the callback goes on, and the loop handles the event. -/
def sent (s : Recovery) (o : Deliverable) (client : GoString) : Recovery :=
  { s with
    sending := s.sending.erase (o, client)
    worker.loop := [.receive (.reply o client o.success), .check] }.finish

def next (p : Plan) (workflowID : ℤ) (s : Recovery) : Act → Option Recovery
  | .query =>
    if s.phase == .query then
      match getWorkflowRecordsRecovery s.table workflowID 10 with
      | [] => some { s with phase := .returned, status := .running }
      | r :: rs => some { s with phase := .batch, wfrs := r :: rs, rest := r :: rs }
    else none
  | .round =>
    match s.rest with
    | [] => none
    | r :: rest => if s.phase == .batch then some (s.redeliver r rest) else none
  | .reply deliverID =>
    (s.requests.find? (·.1 == deliverID)).map fun request => s.callback deliverID request.2
  | .send o client =>
    -- the channel is unbuffered
    if s.sending.contains (o, client) ∧ s.worker.loop = [] then some (s.sent o client) else none
  | .wait =>
    if s.phase == .batch && s.rest.isEmpty && s.wg == 0 then some { s with phase := .query }
    else none
  | .worker a => (p.next s.worker a).map fun worker => { s with worker := worker }

/-- A round begins only when no earlier redelivery waits for its answer. -/
def Unhurried (s : Recovery) : Act → Prop
  | .round => s.wg = 0
  | _ => True

instance (s : Recovery) : DecidablePred s.Unhurried
  | .query => inferInstanceAs (Decidable True)
  | .round => inferInstanceAs (Decidable (s.wg = 0))
  | .reply _ | .send _ _ | .wait | .worker _ => .isTrue trivial

/-- The loop never waits for itself, or no answer needs it: the walk over the tasks publishes
nothing, or no record to recover is one of a message that sets a task or a broker. -/
def Heard (p : Plan) (workflowID : ℤ) (table : List WorkflowRecord) : Prop :=
  (∀ id, .publish id ∉ p.pushAllCmdTask) ∨
    ∀ r ∈ table, r.isUnrecovered workflowID → ∀ err ∈ r.deliverErr, err.sets = none

inductive Step (p : Plan) (workflowID : ℤ) (s : Recovery) : Act → Recovery → Prop where
  | finish (hphase : s.phase = .query)
      (hnone : getWorkflowRecordsRecovery s.table workflowID 10 = []) :
    Step p workflowID s .query { s with phase := .returned, status := .running }
  | fetch (hphase : s.phase = .query)
      (hsome : getWorkflowRecordsRecovery s.table workflowID 10 ≠ []) :
    Step p workflowID s .query
      { s with
        phase := .batch
        wfrs := getWorkflowRecordsRecovery s.table workflowID 10
        rest := getWorkflowRecordsRecovery s.table workflowID 10 }
  | round {r : WorkflowRecord} {rest : List WorkflowRecord} (hphase : s.phase = .batch)
    (hrest : s.rest = r :: rest) : Step p workflowID s .round (s.redeliver r rest)
  | reply {deliverID : ℤ} {sets : Option (Deliverable × GoString)}
    (hmem : (deliverID, sets) ∈ s.requests) :
    Step p workflowID s (.reply deliverID) (s.callback deliverID sets)
  | send {o : Deliverable} {client : GoString} (hmem : (o, client) ∈ s.sending)
    (hloop : s.worker.loop = []) : Step p workflowID s (.send o client) (s.sent o client)
  | wait (hphase : s.phase = .batch) (hrest : s.rest = []) (hwg : s.wg = 0) :
    Step p workflowID s .wait { s with phase := .query }
  | worker {a : WorkerAct} {worker : WorkerState} (hnext : p.next s.worker a = some worker) :
    Step p workflowID s (.worker a) { s with worker := worker }

variable {p : Plan} {a : Act}

theorem step_of_next {workflowID : ℤ} {s t : Recovery} (h : s.next p workflowID a = some t) :
    Step p workflowID s a t := by
  cases a with
  | query =>
    rw [next, ite_none_right_eq_some, beq_iff_eq] at h
    obtain ⟨hphase, h⟩ := h
    cases hget : getWorkflowRecordsRecovery s.table workflowID 10 with
    | nil =>
      rw [hget] at h
      cases h
      exact .finish hphase hget
    | cons r rs =>
      rw [hget] at h
      cases h
      have := Step.fetch (p := p) hphase (hget ▸ cons_ne_nil r rs)
      rwa [hget] at this
  | round =>
    cases hrest : s.rest with
    | nil =>
      rw [next, hrest] at h
      cases h
    | cons r rest =>
      rw [next, hrest] at h
      dsimp only at h
      rw [ite_none_right_eq_some, beq_iff_eq] at h
      obtain ⟨hphase, h⟩ := h
      cases h
      exact .round hphase hrest
  | reply deliverID =>
    obtain ⟨request, hfind, rfl⟩ := map_eq_some_iff.mp h
    have hid : request.1 = deliverID := by simpa using find?_some hfind
    exact .reply (hid ▸ mem_of_find?_eq_some hfind)
  | send o client =>
    obtain ⟨⟨hmem, hloop⟩, h⟩ := ite_none_right_eq_some.mp h
    cases h
    exact .send (contains_iff_mem.mp hmem) hloop
  | wait =>
    rw [next, ite_none_right_eq_some] at h
    simp only [Bool.and_eq_true, beq_iff_eq, List.isEmpty_iff] at h
    obtain ⟨⟨⟨hphase, hrest⟩, hwg⟩, h⟩ := h
    cases h
    exact .wait hphase hrest hwg
  | worker a =>
    obtain ⟨worker, hnext, rfl⟩ := map_eq_some_iff.mp h
    exact .worker hnext

/-! ## What a recovery keeps -/

section

variable (workflowID : ℤ) (table : List WorkflowRecord)

/-- The callbacks that have not come to their end. -/
def pending (s : Recovery) : ℕ := s.requests.length + s.sending.length

structure Answered (s : Recovery) : Prop where
  table : s.table = mark s.delivered table
  wg : s.wg = 0
  pending : s.pending = 0

structure Waiting (s : Recovery) (r : WorkflowRecord) (earlier : List ℤ) : Prop where
  mem : r ∈ table
  delivered : s.delivered = earlier ++ [r.id]
  table : s.table = mark earlier table
  wg : s.wg = 1
  e : s.e = some r
  pending : s.pending = 1

structure Inv (s : Recovery) : Prop where
  answers : Answered table s ∨ ∃ r earlier, Waiting table s r earlier
  nodup : (s.delivered ++ s.rest.map (·.id)).Nodup
  delivered : s.delivered ⊆ unrecoveredIDs workflowID table
  rest : s.rest ⊆ table.filter (·.isUnrecovered workflowID)
  wfrs : ∀ r ∈ s.wfrs, r ∈ table ∧ (r ∈ s.rest ∨ r.id ∈ s.delivered)
  between : s.phase ≠ .batch → Answered table s ∧ s.rest = []
  returned : s.phase = .returned →
    s.status = .running ∧ unrecoveredIDs workflowID table ⊆ s.delivered

/-- Under `Heard`: the loop is not at a send of its own, or no callback needs it. -/
def Hears (p : Plan) (s : Recovery) : Prop :=
  ((∀ id, .publish id ∉ p.pushAllCmdTask) ∧ Plan.NoSend s.worker) ∨
    ((∀ r ∈ table, r.isUnrecovered workflowID → ∀ err ∈ r.deliverErr, err.sets = none) ∧
      s.sending = [] ∧ ∀ request ∈ s.requests, request.2 = none)

/-- A bound on the steps of the recovery that are left. -/
def left (s : Recovery) : ℕ :=
  let n := (unrecoveredIDs workflowID table).length
  match s.phase with
  | .query => 5 * (n - s.delivered.length) + 1
  | .batch =>
    5 * (n - (s.delivered.length + s.rest.length)) + 3 * s.rest.length +
      2 * s.requests.length + s.sending.length + 2
  | .returned => 0

end

variable {workflowID : ℤ} {table : List WorkflowRecord} {s t : Recovery}

theorem Inv.start (deliverCmd : ℤ) (worker : WorkerState) :
    Inv workflowID table (start table deliverCmd worker) where
  answers := .inl ⟨(mark_nil table).symm, rfl, rfl⟩
  nodup := nodup_nil
  delivered := nil_subset _
  rest := nil_subset _
  wfrs := by simp [Recover.start]
  between := fun _ => ⟨⟨(mark_nil table).symm, rfl, rfl⟩, rfl⟩
  returned := nofun

theorem Inv.length_le (h : Inv workflowID table s) :
    s.delivered.length + s.rest.length ≤ (unrecoveredIDs workflowID table).length := by
  have hsub : s.delivered ++ s.rest.map (·.id) ⊆ unrecoveredIDs workflowID table :=
    append_subset.mpr ⟨h.delivered, map_subset _ h.rest⟩
  simpa using (h.nodup.subperm hsub).length_le

theorem Inv.answered (h : Inv workflowID table s) (hwg : s.wg = 0) : Answered table s := by
  rcases h.answers with hans | ⟨r, earlier, hwait⟩
  · exact hans
  · have := hwait.wg
    omega

theorem Inv.waiting (h : Inv workflowID table s) (hpending : 0 < s.pending) :
    ∃ r earlier, Waiting table s r earlier := by
  rcases h.answers with hans | hwait
  · have := hans.pending
    omega
  · exact hwait

/-- A callback runs within a batch only. -/
theorem Inv.phase_eq (h : Inv workflowID table s) (hpending : 0 < s.pending) :
    s.phase = .batch := by
  by_contra hne
  have := (h.between hne).1.pending
  omega

theorem Answered.getWorkflowRecordsRecovery_eq (h : Answered table s) :
    getWorkflowRecordsRecovery s.table workflowID 10 =
      (table.filter fun r => r.isUnrecovered workflowID && !s.delivered.contains r.id).take 10 := by
  rw [getWorkflowRecordsRecovery, h.table, filter_mark]

theorem Answered.unrecoveredIDs_subset (h : Answered table s)
    (hnone : getWorkflowRecordsRecovery s.table workflowID 10 = []) :
    unrecoveredIDs workflowID table ⊆ s.delivered := by
  rw [h.getWorkflowRecordsRecovery_eq, take_eq_nil_iff] at hnone
  have hall := filter_eq_nil_iff.mp (hnone.resolve_left (by decide))
  intro id hid
  obtain ⟨r, hr, rfl⟩ := mem_map.mp hid
  obtain ⟨hmem, hun⟩ := mem_filter.mp hr
  simpa [hun] using hall r hmem

theorem Inv.fetch (hids : (table.map (·.id)).Nodup) (h : Inv workflowID table s)
    (hphase : s.phase = .query) : Inv workflowID table { s with
        phase := .batch
        wfrs := getWorkflowRecordsRecovery s.table workflowID 10
        rest := getWorkflowRecordsRecovery s.table workflowID 10 } := by
  obtain ⟨hans, hrest⟩ := h.between (by rw [hphase]; decide)
  have hmem : ∀ r ∈ getWorkflowRecordsRecovery s.table workflowID 10,
      r ∈ table ∧ r.isUnrecovered workflowID ∧ r.id ∉ s.delivered := by
    intro r hr
    rw [hans.getWorkflowRecordsRecovery_eq] at hr
    simpa using mem_filter.mp (mem_of_mem_take hr)
  have hsub : (getWorkflowRecordsRecovery s.table workflowID 10).Sublist table := by
    rw [hans.getWorkflowRecordsRecovery_eq]
    exact (take_sublist _ _).trans filter_sublist
  have hnodup : s.delivered.Nodup := by simpa [hrest] using h.nodup
  constructor
  · exact .inl ⟨hans.table, hans.wg, hans.pending⟩
  · refine nodup_append.mpr ⟨hnodup, (hsub.map _).nodup hids, ?_⟩
    rintro id hid _ hnew rfl
    obtain ⟨r, hr, rfl⟩ := mem_map.mp hnew
    exact (hmem r hr).2.2 hid
  · exact h.delivered
  · intro r hr
    exact mem_filter.mpr ⟨(hmem r hr).1, (hmem r hr).2.1⟩
  · intro r hr
    exact ⟨(hmem r hr).1, .inl hr⟩
  · intro hne
    exact absurd rfl hne
  · nofun

variable {r : WorkflowRecord}

theorem Inv.round (h : Inv workflowID table s) (hphase : s.phase = .batch)
    {rest : List WorkflowRecord} (hrest : s.rest = r :: rest) (hwg : s.wg = 0) {err : DeliverErr}
    (herr : r.deliverErr = some err) : Inv workflowID table (s.redeliver r rest) := by
  have hans := h.answered hwg
  have hr : r ∈ table ∧ r.isUnrecovered workflowID :=
    mem_filter.mp (h.rest (hrest ▸ mem_cons_self))
  have hsplit : s.delivered ++ s.rest.map (·.id) = (s.delivered ++ [r.id]) ++ rest.map (·.id) := by
    rw [hrest, map_cons, append_assoc, singleton_append]
  rw [redeliver, herr]
  constructor
  · obtain ⟨hrequests, hsending⟩ := Nat.add_eq_zero_iff.mp hans.pending
    rw [length_eq_zero_iff] at hrequests
    refine .inr ⟨r, s.delivered, hr.1, rfl, hans.table, ?_, rfl, ?_⟩
    · simp [hwg]
    · simp [pending, hrequests, hsending]
  · exact hsplit ▸ h.nodup
  · have hid : r.id ∈ unrecoveredIDs workflowID table :=
      mem_map_of_mem (mem_filter.mpr hr)
    exact append_subset.mpr ⟨h.delivered, cons_subset.mpr ⟨hid, nil_subset _⟩⟩
  · exact fun q hq => h.rest (hrest ▸ mem_cons_of_mem r hq)
  · intro q hq
    obtain ⟨hmem, hcases⟩ := h.wfrs q hq
    rw [hrest, mem_cons] at hcases
    refine ⟨hmem, ?_⟩
    rcases hcases with (rfl | hlater) | hdone
    · exact .inr (by simp)
    · exact .inl hlater
    · exact .inr (by simp [hdone])
  · intro hne
    exact absurd hphase hne
  · intro hret
    rw [show s.phase = .returned from hret] at hphase
    cases hphase

section

variable (hids : (table.map (·.id)).Nodup)
include hids

theorem Waiting.finish (hnodup : s.delivered.Nodup)
    {earlier : List ℤ} (h : Waiting table s r earlier) (ht : t.table = s.table)
    (he : t.e = s.e) (hwg : t.wg = s.wg) (hdelivered : t.delivered = s.delivered)
    (hpending : t.pending = 0) : Answered table t.finish where
  table := by
    have hnew : r.id ∉ earlier := by
      rw [h.delivered] at hnodup
      intro hmem
      exact (nodup_append.mp hnodup).2.2 _ hmem _ (mem_singleton_self _) rfl
    show (t.e.map _).getD t.table = mark t.delivered table
    rw [he, h.e, Option.map_some, getD_some, ht, h.table, hdelivered, h.delivered,
      setWfRecovered_mark hids h.mem hnew]
  wg := by simp [Recovery.finish, hwg, h.wg]
  pending := hpending

theorem Inv.reply (h : Inv workflowID table s) {deliverID : ℤ}
    {sets : Option (Deliverable × GoString)} (hmem : (deliverID, sets) ∈ s.requests) :
    Inv workflowID table (s.callback deliverID sets) := by
  have hlength := length_pos_of_mem hmem
  have hpending : 0 < s.pending := Nat.add_pos_left hlength _
  obtain ⟨r, earlier, hwait⟩ := h.waiting hpending
  have herase := length_erase_of_mem hmem
  have hone := hwait.pending
  unfold pending at hone
  have hne : s.phase = .batch := h.phase_eq hpending
  cases sets with
  | none =>
    have hans : Answered table (s.callback deliverID none) := by
      refine hwait.finish hids (nodup_append.mp h.nodup).1 rfl rfl rfl rfl ?_
      simp only [pending, herase]
      omega
    exact ⟨.inl hans, h.nodup, h.delivered, h.rest, h.wfrs,
      fun hnot => absurd hne hnot, h.returned⟩
  | some x =>
    refine ⟨.inr ⟨r, earlier, hwait.mem, hwait.delivered, hwait.table, hwait.wg, hwait.e, ?_⟩,
      h.nodup, h.delivered, h.rest, h.wfrs, fun hnot => absurd hne hnot, h.returned⟩
    simp only [pending, Recovery.callback, herase, length_append, length_singleton]
    omega

theorem Inv.send (h : Inv workflowID table s) {o : Deliverable} {client : GoString}
    (hmem : (o, client) ∈ s.sending) : Inv workflowID table (s.sent o client) := by
  have hlength := length_pos_of_mem hmem
  have hpending : 0 < s.pending := Nat.add_pos_right _ hlength
  obtain ⟨r, earlier, hwait⟩ := h.waiting hpending
  have hone := hwait.pending
  unfold pending at hone
  have hans : Answered table (s.sent o client) := by
    refine hwait.finish hids (nodup_append.mp h.nodup).1 rfl rfl rfl rfl ?_
    simp only [pending, length_erase_of_mem hmem]
    omega
  exact ⟨.inl hans, h.nodup, h.delivered, h.rest, h.wfrs,
    fun hnot => absurd (h.phase_eq hpending) hnot, h.returned⟩

theorem Inv.next (herr : ∀ r ∈ table, r.isUnrecovered workflowID → r.deliverErr.isSome)
    (h : Inv workflowID table s) (hwait : s.Unhurried a)
    (hnext : s.next p workflowID a = some t) : Inv workflowID table t := by
  cases step_of_next hnext with
  | finish hphase hnone =>
    obtain ⟨hans, hrest⟩ := h.between (by rw [hphase]; decide)
    exact ⟨.inl ⟨hans.table, hans.wg, hans.pending⟩, h.nodup, h.delivered, h.rest, h.wfrs,
      fun _ => ⟨⟨hans.table, hans.wg, hans.pending⟩, hrest⟩,
      fun _ => ⟨rfl, hans.unrecoveredIDs_subset hnone⟩⟩
  | fetch hphase _ => exact h.fetch hids hphase
  | @round r rest hphase hrest =>
    obtain ⟨hmem, hun⟩ := mem_filter.mp (h.rest (hrest ▸ mem_cons_self))
    obtain ⟨err, hstored⟩ := isSome_iff_exists.mp (herr r hmem hun)
    exact h.round hphase hrest hwait hstored
  | reply hmem => exact h.reply hids hmem
  | send hmem => exact h.send hids hmem
  | wait hphase hrest hwg =>
    have hans := h.answered hwg
    exact ⟨.inl ⟨hans.table, hans.wg, hans.pending⟩, h.nodup, h.delivered, h.rest, h.wfrs,
      fun _ => ⟨⟨hans.table, hans.wg, hans.pending⟩, hrest⟩, nofun⟩
  | worker =>
    have hanswered (hans : Answered table s) (worker : WorkerState) :
        Answered table { s with worker := worker } := ⟨hans.table, hans.wg, hans.pending⟩
    refine ⟨h.answers.imp (hanswered · _) ?_, h.nodup, h.delivered, h.rest, h.wfrs,
      fun hne => (h.between hne).imp_left (hanswered · _), h.returned⟩
    rintro ⟨r, earlier, hw⟩
    exact ⟨r, earlier, hw.mem, hw.delivered, hw.table, hw.wg, hw.e, hw.pending⟩

/-! ## The end of a recovery -/

theorem Inv.left_add_le (herr : ∀ r ∈ table, r.isUnrecovered workflowID → r.deliverErr.isSome)
    (h : Inv workflowID table s) (hwait : s.Unhurried a)
    (hnext : s.next p workflowID a = some t) :
    left workflowID table t + a.isRecovery.toNat ≤ left workflowID table s := by
  have hle := (h.next hids herr hwait hnext).length_le
  cases step_of_next hnext with
  | finish hphase _ => simp [left, hphase, Act.isRecovery]
  | fetch hphase hsome =>
    -- a row counts less in a batch than before it, and the batch is not empty
    have hpos := length_pos_iff.mpr hsome
    obtain ⟨hans, -⟩ := h.between (by rw [hphase]; decide)
    obtain ⟨hrequests, hsending⟩ := Nat.add_eq_zero_iff.mp hans.pending
    simp only [left, hphase, hrequests, hsending, Act.isRecovery, Bool.toNat_true] at hle ⊢
    omega
  | @round r rest hphase hrest =>
    obtain ⟨hmem, hun⟩ := mem_filter.mp (h.rest (hrest ▸ mem_cons_self))
    obtain ⟨err, hstored⟩ := isSome_iff_exists.mp (herr r hmem hun)
    obtain ⟨hrequests, hsending⟩ := Nat.add_eq_zero_iff.mp (h.answered hwait).pending
    rw [length_eq_zero_iff] at hrequests
    simp only [left, redeliver, hstored, hphase, hrest, hrequests, length_append, length_cons,
      length_nil, filter_nil, Act.isRecovery, Bool.toNat_true]
    omega
  | @reply deliverID sets hmem =>
    have hlength := length_pos_of_mem hmem
    have hphase := h.phase_eq (Nat.add_pos_left hlength _)
    cases sets <;>
    · simp only [left, callback, Recovery.finish, hphase, length_erase_of_mem hmem, length_append,
        length_singleton, Act.isRecovery, Bool.toNat_true]
      omega
  | send hmem =>
    have hlength := length_pos_of_mem hmem
    have hphase := h.phase_eq (Nat.add_pos_right _ hlength)
    simp only [left, sent, Recovery.finish, hphase, length_erase_of_mem hmem, Act.isRecovery,
      Bool.toNat_true]
    omega
  | wait hphase hrest hwg =>
    obtain ⟨hrequests, hsending⟩ := Nat.add_eq_zero_iff.mp (h.answered hwg).pending
    simp only [left, hphase, hrest, length_nil, Act.isRecovery, Bool.toNat_true]
    omega
  | worker => exact le_rfl

end

theorem Hears.next (hears : Hears workflowID table p s) (h : Inv workflowID table s)
    (hnext : s.next p workflowID a = some t) : Hears workflowID table p t := by
  rcases hears with ⟨hwalk, hworker⟩ | ⟨hnone, hsending, hrequests⟩
  · refine .inl ⟨hwalk, ?_⟩
    cases step_of_next hnext with
    | finish | fetch | wait => exact hworker
    | round => unfold redeliver; split <;> exact hworker
    | reply => unfold callback; split <;> exact hworker
    | send => simp [Plan.NoSend, sent, Recovery.finish]
    | worker hstep => exact Plan.noSend_next hwalk hworker hstep
  · refine .inr ⟨hnone, ?_⟩
    cases step_of_next hnext with
    | finish | fetch | wait | worker => exact ⟨hsending, hrequests⟩
    | @round r rest hphase hrest =>
      obtain ⟨hmem, hun⟩ := mem_filter.mp (h.rest (hrest ▸ mem_cons_self))
      unfold redeliver
      cases herr : r.deliverErr with
      | none => exact ⟨hsending, hrequests⟩
      | some err =>
        refine ⟨hsending, forall_mem_cons.mpr ⟨hnone r hmem hun err herr, ?_⟩⟩
        exact fun request hr => hrequests request (mem_of_mem_filter hr)
    | reply hmem =>
      cases hrequests _ hmem
      exact ⟨hsending, fun request hr => hrequests request (mem_of_mem_erase hr)⟩
    | send hmem =>
      rw [hsending] at hmem
      cases hmem

/-- The steps of the loop, as steps of the whole. -/
theorem run_worker {acts : List WorkerAct} {worker : WorkerState}
    (h : run p.next s.worker acts = some worker) :
    run (next p workflowID) s (acts.map .worker) = some { s with worker := worker } := by
  induction acts generalizing s with
  | nil =>
    rw [run, some.injEq] at h
    subst h
    rfl
  | cons a acts ih =>
    rw [run, bind_eq_some_iff] at h
    obtain ⟨w, hnext, h⟩ := h
    rw [map_cons, run, next, hnext, Option.map_some, bind_some]
    exact ih (s := { s with worker := w }) h

theorem Inv.progress (h : Inv workflowID table s) (hears : Hears workflowID table p s)
    (hphase : s.phase ≠ .returned) : ∃ k t a,
      run (Recovery.next p workflowID) s (replicate k (.worker .loop)) = some t ∧
      a.isRecovery ∧ t.Unhurried a ∧ (t.next p workflowID a).isSome := by
  cases hp : s.phase with
  | query =>
    refine ⟨0, s, .query, rfl, rfl, trivial, ?_⟩
    rw [Recovery.next, hp]
    cases getWorkflowRecordsRecovery s.table workflowID 10 with
    | nil | cons r rs => rfl
  | returned => exact absurd hp hphase
  | batch =>
    rcases h.answers with hans | ⟨r, earlier, hwait⟩
    · cases hrest : s.rest with
      | nil =>
        exact ⟨0, s, .wait, rfl, rfl, trivial, by simp [Recovery.next, hp, hrest, hans.wg]⟩
      | cons r rest =>
        exact ⟨0, s, .round, rfl, rfl, hans.wg, by simp [Recovery.next, hp, hrest]⟩
    · cases hrequests : s.requests with
      | cons request requests =>
        exact ⟨0, s, .reply request.1, rfl, rfl, trivial, by simp [Recovery.next, hrequests]⟩
      | nil =>
        -- a callback is at its send, to which the loop comes
        obtain ⟨⟨o, client⟩, hsending⟩ : ∃ x, x ∈ s.sending := by
          apply exists_mem_of_length_pos
          have := hwait.pending
          simp only [pending, hrequests, length_nil] at this
          omega
        rcases hears with ⟨hwalk, hworker⟩ | ⟨-, hnone, -⟩
        · obtain ⟨k, w, hrun, hloop⟩ := Plan.loop_empties hwalk hworker
          refine ⟨k, { s with worker := w }, .send o client, ?_, rfl, trivial, ?_⟩
          · simpa using run_worker (p := p) hrun
          · simp [Recovery.next, hsending, hloop]
        · rw [hnone] at hsending
          cases hsending

theorem Inv.batch_recovered (h : Inv workflowID table s) (hrest : s.rest = []) (hwg : s.wg = 0)
    (hr : r ∈ s.wfrs) : r.recovered ∈ s.table := by
  obtain ⟨hmem, hdone⟩ := h.wfrs r hr
  rw [hrest] at hdone
  rw [(h.answered hwg).table]
  exact recovered_mem_mark hmem (hdone.resolve_left not_mem_nil)

theorem Inv.returned_perm (hids : (table.map (·.id)).Nodup) (h : Inv workflowID table s)
    (hphase : s.phase = .returned) : s.delivered.Perm (unrecoveredIDs workflowID table) ∧
      s.table = mark (unrecoveredIDs workflowID table) table := by
  obtain ⟨hans, -⟩ := h.between (by rw [hphase]; decide)
  have hiff : ∀ id, id ∈ s.delivered ↔ id ∈ unrecoveredIDs workflowID table :=
    fun id => ⟨fun hd => h.delivered hd, fun hu => (h.returned hphase).2 hu⟩
  constructor
  · have hunrecovered : (unrecoveredIDs workflowID table).Nodup :=
      (filter_sublist.map _).nodup hids
    exact (perm_ext_iff_of_nodup (nodup_append.mp h.nodup).1 hunrecovered).mpr hiff
  · rw [hans.table, mark, mark]
    apply List.map_congr_left
    intro r _
    simp [hiff]

/-- The first message sets task 4 on a client, the second starts a task. -/
def twoRecords : List WorkflowRecord :=
  [⟨1, 7, 0, 0, false, some ⟨31, some (.task 4, "c")⟩⟩, ⟨2, 7, 0, 4, false, some ⟨32, none⟩⟩]

/-- A workflow of the one task, for the one client. -/
def onePlan : Plan := ⟨[⟨4, .client, [], ["c"], fun _ => "0"⟩], [], fun _ => true⟩

def unhurriedActs : List Act :=
  [.query, .round, .reply 31, .send (.task 4) "c", .worker .loop, .round, .reply 32, .wait, .query]

def hurriedActs : List Act :=
  [.query, .round, .round, .reply 31, .send (.task 4) "c", .reply 32]

end Recovery

end Kairos.Recover
