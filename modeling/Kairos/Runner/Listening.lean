import Kairos.Go.OrderedMap
import Kairos.Runner.Results

/-!
# The brokers that a reply sets off

`computeMsg` of `server/runner/worker.go` processes the brokers without clients that listen to a
reply. A reply has two names: `RunOn`, the qualified name of a channel or client, and `TaskName`,
the bare name of a task. `IsListen` tries each under each of the three endings. The brokers are
processed one after the other by the same goroutine. With a `resultCh`, which that goroutine
receives from only when `computeMsg` has returned, the empty result that `handleDeliver` sends is
the end of the loop.
-/

namespace Kairos.Worker

/-- The fields of a `CmdReplyTask` that `computeMsg` reads. -/
structure Reply extends SyncReply where
  workflowID : ℤ
  taskInput : GoString
  start : Bool

/-- What a call of `computeMsg` meets: whether it has a `resultCh`, and the flows that the template
of a broker yields, by name. There are none where the queue cannot be read. -/
structure Call where
  sync : Bool
  output : GoString → Option (List DeliverFlow)

structure Computed where
  processed : List GoString
  logsInput : Bool
  logsAlone : Bool

/-- `processBroker` returns: the endpoints are points, and the flows do not end with a send on
`resultCh`. -/
def Call.returns (call : Call) (R : Routes) (e : GoString × SyncBroker) : Bool :=
  if e.2.endpoints = [] then
    !(call.sync && (call.output e.1).any fun flows => (R.deliverTo (Routes.receivers flows)).sends)
  else e.2.endpoints.all fun endpoint => (R.points endpoint).isSome

namespace Reply

variable (H : Host) (R : Routes) (call : Call) (wid : ℤ) (reply : Reply)

/-- The loop over the brokers: the names processed, and `isHasDest`. An error ends it, and so does a
broker whose processing does not return. -/
def rangeBrokers : Bool → List (GoString × SyncBroker) → List GoString × Bool
  | isHasDest, [] => ([], isHasDest)
  | isHasDest, e :: rest =>
    if reply.workflowID ≠ wid then ([], isHasDest)
    else if e.2.hears H reply.toSyncReply then
      if reply.complete then
        if call.returns R e then (e.1 :: (rangeBrokers true rest).1, (rangeBrokers true rest).2)
        else ([e.1], true)
      else ([], true)
    else rangeBrokers isHasDest rest

def computeMsg (brokers : OrderedMap SyncBroker) : Option Computed :=
  if reply.group = [] then none
  else if R.points reply.runOn = none then none
  else
    let hasInput := reply.taskInput ≠ []
    let r := reply.rangeBrokers H R call wid (hasInput && reply.start) brokers.entries
    some ⟨r.1, hasInput, !r.2⟩

/-- `computeMsg` accepts the reply: it has a group, comes from a point, and has what its producer
needs. -/
structure Accepted : Prop where
  group : reply.group ≠ []
  sender : R.points reply.runOn ≠ none
  workflow : reply.workflowID = wid
  complete : reply.complete

def aliases : List GoString :=
  [getChannelName H reply.taskName, getClientName H reply.taskName, reply.taskName,
    getTaskName H reply.runOn, getChannelName H reply.runOn, getClientName H reply.runOn]

def HeardBy (b : SyncBroker) : Prop :=
  reply.runOn ∈ b.listens ∨ getTaskName H reply.taskName ∈ b.listens

/-- The server's brokers that listen to the producer are processed, once each, and no others. -/
structure RoutesExactly (brokers : OrderedMap SyncBroker) (processed : List GoString) : Prop where
  once : processed.Nodup
  exact : ∀ k, k ∈ processed ↔
    ∃ b, (k, b) ∈ brokers.entries ∧ b.clients = [] ∧ reply.HeardBy H b

/-- The brokers up to the first that listens and whose processing does not return. -/
def reached : List (GoString × SyncBroker) → List (GoString × SyncBroker)
  | [] => []
  | e :: es =>
    e :: if e.2.hears H reply.toSyncReply && !call.returns R e then [] else reached es

/-- Of the server's brokers that are reached none listens to another name of the reply alone, and
those that listen to the producer are all reached. -/
structure Unambiguous (brokers : OrderedMap SyncBroker) : Prop where
  named : ∀ e ∈ reply.reached H R call brokers.entries, e.2.clients = [] →
    (∃ n ∈ reply.aliases H, n ∈ e.2.listens) → reply.HeardBy H e.2
  reached : ∀ e ∈ brokers.entries, e.2.clients = [] → reply.HeardBy H e.2 →
    e ∈ reply.reached H R call brokers.entries

variable {H R call wid reply} {b : SyncBroker} {brokers : OrderedMap SyncBroker}

theorem isListen_iff {name : GoString} : b.isListen H name ↔
    getTaskName H name ∈ b.listens ∨ getChannelName H name ∈ b.listens ∨
      getClientName H name ∈ b.listens ∨ name ∈ b.listens := by
  simp only [SyncBroker.isListen, List.any_eq_true, Bool.or_eq_true, decide_eq_true_eq]
  constructor
  · rintro ⟨l, hl, ((rfl | rfl) | rfl) | rfl⟩
    · exact .inl hl
    · exact .inr (.inl hl)
    · exact .inr (.inr (.inl hl))
    · exact .inr (.inr (.inr hl))
  · rintro (h | h | h | h)
    · exact ⟨_, h, .inl (.inl (.inl rfl))⟩
    · exact ⟨_, h, .inl (.inl (.inr rfl))⟩
    · exact ⟨_, h, .inl (.inr rfl)⟩
    · exact ⟨_, h, .inr rfl⟩

theorem hears_iff : b.hears H reply.toSyncReply ↔
    b.clients = [] ∧ (reply.HeardBy H b ∨ ∃ n ∈ reply.aliases H, n ∈ b.listens) := by
  rw [SyncBroker.hears, Bool.and_eq_true, decide_eq_true_eq, Bool.or_eq_true, isListen_iff,
    isListen_iff, and_comm]
  refine and_congr_right fun _ => ?_
  simp only [aliases, HeardBy, List.mem_cons, List.not_mem_nil, or_false, exists_eq_or_imp,
    exists_eq_left]
  ac_nf

theorem reached_sublist (es : List (GoString × SyncBroker)) :
    (reply.reached H R call es).Sublist es := by
  induction es with
  | nil => exact List.Sublist.refl _
  | cons e es ih =>
    rw [reached]
    split_ifs
    · exact (List.nil_sublist es).cons_cons e
    · exact ih.cons_cons e

/-- Without a `resultCh`, and with endpoints that are points, every broker is reached. -/
theorem reached_eq_self {es : List (GoString × SyncBroker)} (h : ∀ e ∈ es, call.returns R e) :
    reply.reached H R call es = es := by
  induction es with
  | nil => rfl
  | cons e es ih =>
    rw [List.forall_mem_cons] at h
    rw [reached, h.1, ih h.2, Bool.not_true, Bool.and_false, if_neg Bool.false_ne_true]

theorem Accepted.rangeBrokers_eq (h : reply.Accepted R wid) (dest : Bool)
    (es : List (GoString × SyncBroker)) : (reply.rangeBrokers H R call wid dest es).1 =
      ((reply.reached H R call es).filter fun e => e.2.hears H reply.toSyncReply).map
        Prod.fst := by
  induction es generalizing dest with
  | nil => rfl
  | cons e es ih =>
    rw [rangeBrokers, if_neg (not_not.2 h.workflow), reached, List.filter_cons]
    by_cases hhears : e.2.hears H reply.toSyncReply
    · by_cases hreturns : call.returns R e <;> simp [hhears, h.complete, hreturns, ih]
    · simp [hhears, ih]

theorem Accepted.computeMsg_eq (h : reply.Accepted R wid) (H : Host) (call : Call)
    (brokers : OrderedMap SyncBroker) : ∃ c, reply.computeMsg H R call wid brokers = some c ∧
      c.processed = ((reply.reached H R call brokers.entries).filter fun e =>
        e.2.hears H reply.toSyncReply).map Prod.fst := by
  rw [computeMsg, if_neg h.group, if_neg h.sender]
  exact ⟨_, rfl, h.rangeBrokers_eq _ brokers.entries⟩

def twoPoints : Routes where
  points := fun name =>
    if name = "web_client" then some ⟨1, .client, "web"⟩
    else if name = "log_channel" then some ⟨2, .channel, "log"⟩
    else none
  tasks := []

def onLog : OrderedMap SyncBroker := .singleton "audit" ⟨["log_channel"], [], []⟩

def logMessage : Reply := ⟨⟨"g", "log_channel", [], false, true⟩, 7, [], false⟩

def logResult : Reply :=
  ⟨⟨"g", "web_client", "log", true, false⟩, 7, [], false⟩

/-- A call of `reciveMessage`, with a template that yields nothing. -/
def plainCall : Call := ⟨false, fun _ => some []⟩

end Reply

end Kairos.Worker
