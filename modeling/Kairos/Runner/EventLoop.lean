import Kairos.Runner.Delivery

/-!
# The event loop of a worker

`Worker.Run` and `Worker.run` of `server/runner/worker.go`, as the parties that share the tables of
the deliveries. The push goroutine walks over the tasks (`pushAllCmdTask`) and the brokers
(`deliverBrokers`), the loop takes events from the unbuffered `eventChan`, and replies, timeouts and
recoveries come in any order. Where everything is delivered, the loop walks over the tasks itself.
Retries by `handleRetryDeliver` send no event, and have no step.
-/

namespace Kairos

open List Option
open Transitions (run run_append meets_true)

/-! ## What is pushed -/

/-- The executors that `pushAllCmdTask` tells apart. -/
inductive Executor where
  | pubSub
  | httpHook
  | client
  deriving DecidableEq

structure WorkerTask where
  id : ℤ
  executor : Executor
  payload : GoString
  clients : List GoString
  metadata : GoString → GoString

structure WorkerBroker where
  id : ℤ
  clients : List GoString

/-- The tasks and brokers of a workflow, in order, and whether a payload is decoded to a map. -/
structure Plan where
  tasks : List WorkerTask
  brokers : List WorkerBroker
  decodes : GoString → Bool

/-- What `pushAllCmdTask` and `deliverBrokers` do, one step at a time. -/
inductive PushOp where
  | update (o : Deliverable) (client : GoString)
  | deliver (o : Deliverable) (client : GoString)
  | publish (taskID : ℤ)
  | abort (o : Deliverable) (client : GoString)
  deriving DecidableEq

namespace Plan

def deliverTask (t : WorkerTask) (rest : List PushOp) : List GoString → List PushOp
  | [] => rest
  | c :: cs =>
    .update (.task t.id) c ::
      if (Strings.atoi (t.metadata c)).isSome then
        .deliver (.task t.id) c :: deliverTask t rest cs
      else [.abort (.task t.id) c]

/-- The steps of `pushAllCmdTask`, up to the error that ends it. -/
def walk (p : Plan) : List WorkerTask → List PushOp
  | [] => []
  | t :: ts =>
    match t.executor with
    | .pubSub =>
      .update (.task t.id) kairosName ::
        if p.decodes t.payload then .publish t.id :: p.walk ts
        else [.abort (.task t.id) kairosName]
    | .httpHook => p.walk ts
    | .client => deliverTask t (p.walk ts) t.clients

def pushAllCmdTask (p : Plan) : List PushOp := p.walk p.tasks

def deliverBrokers (p : Plan) : List PushOp :=
  p.brokers.flatMap fun b => b.clients.flatMap fun c =>
    [.update (.broker b.id) c, .deliver (.broker b.id) c]

end Plan

/-! ## The system -/

/-- What the event loop has left to do of an event. -/
inductive LoopOp where
  | receive (op : DeliverOp)
  | check
  | start (op : PushOp)
  deriving DecidableEq

/-- The ledger, what each goroutine has left to do, and the requests without a reply. -/
structure WorkerState where
  ledger : Ledger
  push : List PushOp
  loop : List LoopOp
  awaited : List (Deliverable × GoString)
  failed : List (Deliverable × GoString)
  triggers : ℕ

def WorkerState.awaits (s : WorkerState) (o : Deliverable) (c : GoString) : Bool :=
  (o, c) ∈ s.awaited

/-- A step of the worker's goroutines, or of a request. -/
inductive WorkerAct where
  | push (sent : Bool)
  | loop
  | reply (o : Deliverable) (client : GoString) (status : DeliverStatus)
  | timeout (o : Deliverable) (client : GoString)
  /-- A failed delivery is awaited again: it is recovered, or its reply's handler had found the
  request before the timeout. -/
  | recover (o : Deliverable) (client : GoString)

namespace Plan

def start (p : Plan) : WorkerState :=
  { ledger := .start
    push := p.pushAllCmdTask ++ p.deliverBrokers
    loop := []
    awaited := []
    failed := []
    triggers := 0 }

def pushStep (sent : Bool) (s : WorkerState) : Option WorkerState :=
  match s.push with
  | [] => none
  | .update o c :: rest => some { s with ledger := s.ledger.after (.push o c), push := rest }
  | .deliver o c :: rest =>
    if sent then some { s with push := rest, awaited := s.awaited ++ [(o, c)] }
    else
      match o with
      | .task _ => some { s with push := rest }
      -- `deliverBrokers` returns the error.
      | .broker _ => some { s with push := [] }
  | .publish taskID :: rest =>
    -- The channel is unbuffered: the loop has to be waiting.
    if s.loop = [] then
      some { s with push := rest, loop := [.receive (.own taskID .successSetTask), .check] }
    else none
  | .abort _ _ :: rest => some { s with push := rest }

def loopStep (p : Plan) (s : WorkerState) : Option WorkerState :=
  match s.loop with
  | [] => none
  | .receive op :: rest => some { s with ledger := s.ledger.after op, loop := rest }
  | .check :: rest =>
    if s.ledger.delivers.allDelivered then
      some { s with loop := p.pushAllCmdTask.map .start, triggers := s.triggers + 1 }
    else some { s with loop := rest }
  | .start (.update o c) :: rest =>
      some { s with ledger := s.ledger.after (.push o c), loop := rest }
  | .start (.deliver _ _) :: rest => some { s with loop := rest }
  -- Nobody else receives from the channel.
  | .start (.publish _) :: _ => none
  | .start (.abort _ _) :: rest => some { s with loop := rest }

def replyStep (o : Deliverable) (c : GoString) (status : DeliverStatus) (s : WorkerState) :
    Option WorkerState :=
  if (o, c) ∈ s.awaited then
    match checkCmdReply false (o.setReply c status) with
    | .event _ =>
      if s.loop = [] then
        some { s with
          awaited := s.awaited.erase (o, c)
          loop := [.receive (.reply o c status), .check] }
      else none
    | _ => some { s with awaited := s.awaited.erase (o, c), failed := s.failed ++ [(o, c)] }
  else none

def timeoutStep (o : Deliverable) (c : GoString) (s : WorkerState) : Option WorkerState :=
  if (o, c) ∈ s.awaited then
    some { s with awaited := s.awaited.erase (o, c), failed := s.failed ++ [(o, c)] }
  else none

def recoverStep (o : Deliverable) (c : GoString) (s : WorkerState) : Option WorkerState :=
  if (o, c) ∈ s.failed then some { s with awaited := s.awaited ++ [(o, c)] } else none

def next (p : Plan) (s : WorkerState) : WorkerAct → Option WorkerState
  | .push sent => pushStep sent s
  | .loop => p.loopStep s
  | .reply o c status => replyStep o c status s
  | .timeout o c => timeoutStep o c s
  | .recover o c => recoverStep o c s

inductive Step (p : Plan) (s : WorkerState) : WorkerAct → WorkerState → Prop
  | update {sent : Bool} {o : Deliverable} {c : GoString} {rest : List PushOp}
      (hpush : s.push = .update o c :: rest) :
      Step p s (.push sent) { s with ledger := s.ledger.after (.push o c), push := rest }
  | deliver {o : Deliverable} {c : GoString} {rest : List PushOp}
      (hpush : s.push = .deliver o c :: rest) :
      Step p s (.push true) { s with push := rest, awaited := s.awaited ++ [(o, c)] }
  | unsentTask {id : ℤ} {c : GoString} {rest : List PushOp}
      (hpush : s.push = .deliver (.task id) c :: rest) :
      Step p s (.push false) { s with push := rest }
  | unsentBroker {id : ℤ} {c : GoString} {rest : List PushOp}
      (hpush : s.push = .deliver (.broker id) c :: rest) :
      Step p s (.push false) { s with push := [] }
  | publish {sent : Bool} {id : ℤ} {rest : List PushOp} (hpush : s.push = .publish id :: rest)
      (hloop : s.loop = []) :
      Step p s (.push sent)
        { s with push := rest, loop := [.receive (.own id .successSetTask), .check] }
  | abort {sent : Bool} {o : Deliverable} {c : GoString} {rest : List PushOp}
      (hpush : s.push = .abort o c :: rest) : Step p s (.push sent) { s with push := rest }
  | receive {op : DeliverOp} {rest : List LoopOp} (hloop : s.loop = .receive op :: rest) :
      Step p s .loop { s with ledger := s.ledger.after op, loop := rest }
  | trigger {rest : List LoopOp} (hloop : s.loop = .check :: rest)
      (hall : s.ledger.delivers.allDelivered) :
      Step p s .loop { s with loop := p.pushAllCmdTask.map .start, triggers := s.triggers + 1 }
  | wait {rest : List LoopOp} (hloop : s.loop = .check :: rest)
      (hall : s.ledger.delivers.allDelivered = false) : Step p s .loop { s with loop := rest }
  | startUpdate {o : Deliverable} {c : GoString} {rest : List LoopOp}
      (hloop : s.loop = .start (.update o c) :: rest) :
      Step p s .loop { s with ledger := s.ledger.after (.push o c), loop := rest }
  | startOther {op : PushOp} {rest : List LoopOp} (hloop : s.loop = .start op :: rest) :
      Step p s .loop { s with loop := rest }
  | reply {o : Deliverable} {c : GoString} {status : DeliverStatus} (hmem : (o, c) ∈ s.awaited)
      (hloop : s.loop = []) (hrecorded : Ledger.Recorded (.reply o c status)) :
      Step p s (.reply o c status)
        { s with awaited := s.awaited.erase (o, c), loop := [.receive (.reply o c status), .check] }
  | fault {o : Deliverable} {c : GoString} {a : WorkerAct} (hmem : (o, c) ∈ s.awaited) :
      Step p s a { s with awaited := s.awaited.erase (o, c), failed := s.failed ++ [(o, c)] }
  | recover {o : Deliverable} {c : GoString} (hmem : (o, c) ∈ s.failed) :
      Step p s (.recover o c) { s with awaited := s.awaited ++ [(o, c)] }

variable {p : Plan} {s s' : WorkerState} {a : WorkerAct}

theorem step_of_pushStep {sent : Bool} (h : pushStep sent s = some s') :
    p.Step s (.push sent) s' := by
  unfold pushStep at h
  split at h
  · exact absurd h (by simp)
  · rename_i hpush
    exact some.inj h ▸ .update hpush
  · rename_i hpush
    split_ifs at h with hsent
    · subst hsent
      exact some.inj h ▸ .deliver hpush
    · rw [Bool.not_eq_true] at hsent
      subst hsent
      split at h
      · exact some.inj h ▸ .unsentTask hpush
      · exact some.inj h ▸ .unsentBroker hpush
  · rename_i hpush
    split_ifs at h with hloop
    exact some.inj h ▸ .publish hpush hloop
  · rename_i hpush
    exact some.inj h ▸ .abort hpush

theorem step_of_loopStep (h : p.loopStep s = some s') : p.Step s .loop s' := by
  unfold loopStep at h
  split at h
  · exact absurd h (by simp)
  · rename_i hloop
    exact some.inj h ▸ .receive hloop
  · rename_i hloop
    split_ifs at h with hall
    · exact some.inj h ▸ .trigger hloop hall
    · exact some.inj h ▸ .wait hloop (by simpa using hall)
  · rename_i hloop
    exact some.inj h ▸ .startUpdate hloop
  · rename_i hloop
    exact some.inj h ▸ .startOther hloop
  · exact absurd h (by simp)
  · rename_i hloop
    exact some.inj h ▸ .startOther hloop

variable {o : Deliverable} {c : GoString} {status : DeliverStatus}

theorem recorded_of_checked {e : Event} (h : checkCmdReply false (o.setReply c status) = .event e) :
    Ledger.Recorded (.reply o c status) := by
  cases o with
  | task => trivial
  | broker =>
    intro hstatus
    rw [hstatus] at h
    exact absurd h (by simp [checkCmdReply, Deliverable.setReply])

theorem step_of_replyStep
    (h : replyStep o c status s = some s') : p.Step s (.reply o c status) s' := by
  unfold replyStep at h
  split at h
  · rename_i hmem
    split at h
    · rename_i hcheck
      split_ifs at h with hloop
      exact some.inj h ▸ .reply hmem hloop (recorded_of_checked hcheck)
    · exact some.inj h ▸ .fault hmem
  · exact absurd h (by simp)

theorem step_of_next (h : p.next s a = some s') : p.Step s a s' := by
  cases a with
  | push sent => exact step_of_pushStep h
  | loop => exact step_of_loopStep h
  | reply o c status => exact step_of_replyStep h
  | timeout o c =>
    obtain ⟨hmem, heq⟩ := ite_none_right_eq_some.1 h
    exact some.inj heq ▸ .fault hmem
  | recover o c =>
    obtain ⟨hmem, heq⟩ := ite_none_right_eq_some.1 h
    exact some.inj heq ▸ .recover hmem

/-! ## The loop and its own channel -/

/-- The event loop is at a send to the channel that only it receives from. -/
def SendsToItself (s : WorkerState) : Prop :=
  ∃ taskID rest, s.loop = .start (.publish taskID) :: rest

/-- Handling the task ends `pushAllCmdTask` with an error. -/
def Stops (p : Plan) (t : WorkerTask) : Prop :=
  match t.executor with
  | .pubSub => p.decodes t.payload = false
  | .httpHook => False
  | .client => ∃ c ∈ t.clients, Strings.atoi (t.metadata c) = none

def Publishes (p : Plan) (t : WorkerTask) : Prop :=
  t.executor = .pubSub ∧ p.decodes t.payload

variable {id : ℤ}

theorem publish_mem_deliverTask {t : WorkerTask} {rest : List PushOp} {cs : List GoString} :
    .publish id ∈ deliverTask t rest cs ↔
      (∀ c ∈ cs, Strings.atoi (t.metadata c) ≠ none) ∧ .publish id ∈ rest := by
  induction cs with
  | nil => simp [deliverTask]
  | cons c cs ih =>
    unfold deliverTask
    by_cases hc : (Strings.atoi (t.metadata c)).isSome
    · have hne : Strings.atoi (t.metadata c) ≠ none := isSome_iff_ne_none.1 hc
      simp [hc, ih, hne]
    · have hnone : Strings.atoi (t.metadata c) = none := by simpa using hc
      simp [hnone]

variable {ts : List WorkerTask}

theorem publish_mem_walk {p : Plan} : (∃ id, .publish id ∈ p.walk ts) ↔
      ∃ pre t post, ts = pre ++ t :: post ∧ p.Publishes t ∧ ∀ t' ∈ pre, ¬ p.Stops t' := by
  induction ts with
  | nil => simp [walk]
  | cons t ts ih =>
    constructor
    · rintro ⟨id, hid⟩
      by_cases ht : p.Publishes t
      · exact ⟨[], t, ts, rfl, ht, by simp⟩
      · -- The walk goes on after the task.
        have hgo : ¬ p.Stops t ∧ .publish id ∈ p.walk ts := by
          unfold Stops
          unfold walk at hid
          unfold Publishes at ht
          cases hexec : t.executor <;> simp_all [publish_mem_deliverTask]
        obtain ⟨pre, t', post, rfl, ht', hpre⟩ := ih.1 ⟨id, hgo.2⟩
        exact ⟨t :: pre, t', post, rfl, ht', by simpa using ⟨hgo.1, hpre⟩⟩
    · rintro ⟨pre, t', post, heq, ht', hpre⟩
      cases pre with
      | nil =>
        rw [nil_append, List.cons.injEq] at heq
        obtain ⟨rfl, rfl⟩ := heq
        exact ⟨t.id, by simp [walk, ht'.1, ht'.2]⟩
      | cons t₀ pre =>
        rw [cons_append, List.cons.injEq] at heq
        obtain ⟨rfl, rfl⟩ := heq
        rw [forall_mem_cons] at hpre
        obtain ⟨id, hid⟩ := ih.2 ⟨pre, t', post, rfl, ht', hpre.2⟩
        refine ⟨id, ?_⟩
        have ht := hpre.1
        unfold Stops at ht
        unfold walk
        cases hexec : t.executor <;> simp_all [publish_mem_deliverTask]

theorem walk_begins (h : .publish id ∈ p.walk ts) :
    ∃ i c rest, p.walk ts = .update (.task i) c :: .deliver (.task i) c :: rest ∨
      c = kairosName ∧ p.walk ts = .update (.task i) c :: .publish i :: rest := by
  induction ts with
  | nil => simp [walk] at h
  | cons t ts ih =>
    unfold walk at h ⊢
    cases hexec : t.executor with
    | pubSub =>
      simp only [hexec] at h ⊢
      by_cases hdecodes : p.decodes t.payload
      · exact ⟨t.id, kairosName, p.walk ts, .inr ⟨rfl, by rw [if_pos hdecodes]⟩⟩
      · simp [hdecodes] at h
    | httpHook =>
      simp only [hexec] at h ⊢
      exact ih h
    | client =>
      simp only [hexec] at h ⊢
      obtain ⟨hclients, hrest⟩ := publish_mem_deliverTask.1 h
      cases hcs : t.clients with
      | nil => exact ih hrest
      | cons c cs =>
        have hc : (Strings.atoi (t.metadata c)).isSome :=
          isSome_iff_ne_none.2 (hclients c (by simp [hcs]))
        exact ⟨t.id, c, deliverTask t (p.walk ts) cs, .inl (by rw [deliverTask, if_pos hc])⟩

theorem loop_reaches_publish {ops : List PushOp} (hid : .publish id ∈ ops)
    (hloop : s.loop = ops.map .start) : ∃ as t, run p.next s as = some t ∧ SendsToItself t := by
  induction ops generalizing s with
  | nil => simp at hid
  | cons op ops ih =>
    rw [map_cons] at hloop
    have hstep {s' : WorkerState} (hnext : p.next s .loop = some s')
        (hloop' : s'.loop = ops.map .start)
        (hne : op ≠ .publish id) : ∃ as t, run p.next s as = some t ∧
          SendsToItself t := by
      obtain ⟨as, t, hrun, ht⟩ := ih ((mem_cons.1 hid).resolve_left hne.symm) hloop'
      exact ⟨.loop :: as, t, by rw [run, hnext, bind_some, hrun], ht⟩
    cases op with
    | publish id' => exact ⟨[], s, rfl, id', _, hloop⟩
    | update o c | deliver o c | abort o c =>
      exact hstep (by simp only [next, loopStep, hloop]; rfl) rfl (by simp)

def NoSend (s : WorkerState) : Prop := ∀ id, .start (.publish id) ∉ s.loop

theorem noSend_next (hwalk : ∀ id, .publish id ∉ p.pushAllCmdTask) (hs : NoSend s)
    (hnext : p.next s a = some s') : NoSend s' := by
  intro id hid
  -- What is left of the event at hand was there before.
  have htail {op : LoopOp} {rest : List LoopOp} (hloop : s.loop = op :: rest)
      (hmem : .start (.publish id) ∈ rest) : False :=
    hs id (by rw [hloop]; exact mem_cons_of_mem _ hmem)
  cases step_of_next hnext with
  | update | deliver | unsentTask | unsentBroker | abort | fault | recover => exact hs id hid
  | publish | reply => simp at hid
  | receive hloop | wait hloop | startUpdate hloop | startOther hloop => exact htail hloop hid
  | trigger =>
    obtain ⟨op, hop, heq⟩ := mem_map.1 hid
    exact hwalk id (LoopOp.start.inj heq ▸ hop)

theorem noSend_of_run (hwalk : ∀ id, .publish id ∉ p.pushAllCmdTask) {as : List WorkerAct}
    (hrun : run p.next p.start as = some s) : NoSend s :=
  Transitions.run_invariant (C := fun _ _ => True) (I := NoSend)
    (fun _ _ _ hI _ hnext => noSend_next hwalk hI hnext) (by simp [NoSend, start])
    (meets_true _ _) hrun

theorem loop_empties_of_starts {ops : List PushOp} (hops : ∀ id, .publish id ∉ ops)
    (hloop : s.loop = ops.map .start) :
    ∃ k t, run p.next s (replicate k .loop) = some t ∧ t.loop = [] := by
  induction ops generalizing s with
  | nil => exact ⟨0, s, rfl, hloop⟩
  | cons op ops ih =>
    have hrest (id : ℤ) : .publish id ∉ ops := fun h => hops id (mem_cons_of_mem op h)
    rw [map_cons] at hloop
    obtain ⟨s', hnext, hloop'⟩ : ∃ s', p.next s .loop = some s' ∧ s'.loop = ops.map .start := by
      cases op with
      | publish id => exact absurd mem_cons_self (hops id)
      | update o c | deliver o c | abort o c =>
        simp only [next, loopStep, hloop]
        exact ⟨_, rfl, rfl⟩
    obtain ⟨k, t, hrun, ht⟩ := ih hrest hloop'
    exact ⟨k + 1, t, by rw [replicate_succ, run, hnext, bind_some, hrun], ht⟩

/-- A loop that does not send on its own channel comes back to its receive. -/
theorem loop_empties (hwalk : ∀ id, .publish id ∉ p.pushAllCmdTask) (hs : NoSend s) :
    ∃ k t, run p.next s (replicate k .loop) = some t ∧ t.loop = [] := by
  generalize hops : s.loop = ops
  induction ops generalizing s with
  | nil => exact ⟨0, s, rfl, hops⟩
  | cons op ops ih =>
    have hstep {s' : WorkerState} (hnext : p.next s .loop = some s')
        (h : ∃ k t, run p.next s' (replicate k .loop) = some t ∧ t.loop = []) :
        ∃ k t, run p.next s (replicate k .loop) = some t ∧ t.loop = [] := by
      obtain ⟨k, t, hrun, ht⟩ := h
      exact ⟨k + 1, t, by rw [replicate_succ, run, hnext, bind_some, hrun], ht⟩
    have hrest {s' : WorkerState} (hnext : p.next s .loop = some s') (hloop : s'.loop = ops) :
        ∃ k t, run p.next s (replicate k .loop) = some t ∧ t.loop = [] :=
      hstep hnext (ih (noSend_next hwalk hs hnext) hloop)
    cases op with
    | receive op => exact hrest (by simp only [next, loopStep, hops]; rfl) rfl
    | check =>
      by_cases hall : s.ledger.delivers.allDelivered
      · -- the tasks that the loop starts are all it still has to do
        exact hstep (by simp only [next, loopStep, hops, if_pos hall]; rfl)
          (loop_empties_of_starts hwalk rfl)
      · exact hrest (by simp only [next, loopStep, hops, if_neg hall]; rfl) rfl
    | start op =>
      cases op with
      | publish id => exact absurd (hops ▸ mem_cons_self) (hs id)
      | update o c | deliver o c | abort o c =>
        exact hrest (by simp only [next, loopStep, hops]; rfl) rfl

theorem allDelivered_first {i : ℤ} {op : DeliverOp} (hrecorded : Ledger.Recorded op)
    (hobject : op.object = .task i) (hstatus : op.status = .successSetTask)
    (hsame : Delivers.sameTask ⟨c, .pendingDeliver⟩ op.deliver) :
    ((Ledger.start.after (.push (.task i) c)).after op).delivers.allDelivered := by
  have hpush : Ledger.Recorded (.push (.task i) c) := trivial
  have hfirst (o : Deliverable) : (Ledger.start.after (.push (.task i) c)).delivers.entries o =
      if o = .task i then [⟨c, .pendingDeliver⟩] else [] := by
    refine (Delivers.entries_apply hpush o).trans ?_
    cases o <;> rfl
  rw [Delivers.allDelivered_iff]
  intro o e he
  have hentries := Delivers.entries_apply
    (w := (Ledger.start.after (.push (.task i) c)).delivers) hrecorded o
  rw [hobject, hfirst, hfirst, if_pos rfl] at hentries
  rw [Ledger.after, hentries] at he
  split_ifs at he with ho
  · -- The one entry is replaced by that of the reply.
    have hany : [(⟨c, .pendingDeliver⟩ : Deliver)].any ((Deliverable.task i).same · op.deliver) =
        true :=
      any_eq_true.2 ⟨_, mem_singleton_self _, hsame⟩
    rw [Delivers.updated_some, if_pos hany, map_singleton, mem_singleton,
      if_pos (show (Deliverable.task i).same _ _ from hsame)] at he
    rw [he, ho]
    exact hstatus
  · exact absurd he not_mem_nil

theorem exists_trigger (h : .publish id ∈ p.pushAllCmdTask) :
    ∃ as s, run p.next p.start as = some s ∧ s.loop = p.pushAllCmdTask.map .start := by
  obtain ⟨i, c, rest, hwalk | ⟨rfl, hwalk⟩⟩ := walk_begins h
  · -- The first client replies before anything else is pushed.
    have hall : ((Ledger.start.after (.push (.task i) c)).after
        (.reply (.task i) c .successSetTask)).delivers.allDelivered :=
      allDelivered_first trivial rfl rfl
        (by simp [Delivers.sameTask, DeliverOp.deliver, DeliverOp.name])
    refine ⟨[.push true, .push true, .reply (.task i) c .successSetTask, .loop, .loop],
      { ledger :=
          (Ledger.start.after (.push (.task i) c)).after (.reply (.task i) c .successSetTask)
        push := rest ++ p.deliverBrokers, loop := p.pushAllCmdTask.map .start, awaited := []
        failed := [], triggers := 1 }, ?_, rfl⟩
    simp [run, next, start, pushAllCmdTask, hwalk, pushStep, replyStep, loopStep,
      checkCmdReply, Deliverable.setReply, hall]
  · -- The first task is published.
    have hall : ((Ledger.start.after (.push (.task i) kairosName)).after
        (.own i .successSetTask)).delivers.allDelivered :=
      allDelivered_first trivial rfl rfl (by simp [Delivers.sameTask])
    refine ⟨[.push true, .push true, .loop, .loop],
      { ledger := (Ledger.start.after (.push (.task i) kairosName)).after (.own i .successSetTask)
        push := rest ++ p.deliverBrokers, loop := p.pushAllCmdTask.map .start, awaited := []
        failed := [], triggers := 1 }, ?_, rfl⟩
    simp [run, next, start, pushAllCmdTask, hwalk, pushStep, loopStep, hall]

/-- The loop never sends on its own channel exactly where every task that the server runs itself,
with a payload decoded to a map, comes after one at which the walk ends with an error. -/
theorem loop_free_iff (p : Plan) : (∀ as s, run p.next p.start as = some s → ¬ SendsToItself s) ↔
      ∀ pre t post, p.tasks = pre ++ t :: post → p.Publishes t → ∃ t' ∈ pre, p.Stops t' := by
  have hwalk : (∃ id, .publish id ∈ p.pushAllCmdTask) ↔ _ := publish_mem_walk
  constructor
  · intro hfree pre t post htasks ht
    by_contra! hpre
    obtain ⟨id, hid⟩ := hwalk.2 ⟨pre, t, post, htasks, ht, hpre⟩
    obtain ⟨as, s, hrun, hloop⟩ := exists_trigger hid
    obtain ⟨bs, s', hrun', hs'⟩ := loop_reaches_publish hid hloop
    exact hfree (as ++ bs) s' ((run_append hrun bs).trans hrun') hs'
  · intro htasks as s hrun
    have hnone (id : ℤ) : .publish id ∉ p.pushAllCmdTask := by
      intro hid
      obtain ⟨pre, t, post, heq, ht, hpre⟩ := hwalk.1 ⟨id, hid⟩
      obtain ⟨t', ht', hstops⟩ := htasks pre t post heq ht
      exact hpre t' ht' hstops
    rintro ⟨id, rest, hloop⟩
    exact noSend_of_run hnone hrun id (by rw [hloop]; exact mem_cons_self)

/-- The one task is published: everything is delivered, the loop starts it and waits for itself. -/
theorem loop_waits_for_itself :
    let p : Plan := ⟨[⟨1, .pubSub, "\x7b\x7d", [], fun _ => []⟩], [], fun _ => true⟩
    ∃ s, run p.next p.start [.push true, .push true, .loop, .loop, .loop] = some s ∧
      SendsToItself s ∧ p.next s .loop = none := by
  exact ⟨_, rfl, ⟨1, [], rfl⟩, rfl⟩

end Plan

end Kairos
