import Kairos.Library.Transitions
import Kairos.Runner.Routes

/-!
# The result of a synchronous request

`reciveMessageSync` and `RunBroker` of `server/runner/worker.go` make an unbuffered channel
`resultCh`, have brokers processed and receive one value. `RunBroker` processes its broker in a
goroutine, and `reciveMessageSync` calls `computeMsg` before it receives.
-/

namespace Kairos.Worker

open List Option
open Transitions (Meets run)
open Routes (receivers sample)

structure SyncBroker where
  listens : List GoString
  clients : List GoString
  endpoints : List GoString

/-- The fields of a reply that `computeMsg` checks. -/
structure SyncReply where
  group : GoString
  runOn : GoString
  taskName : GoString
  hasResult : Bool
  hasContent : Bool

/-- What is run with a `resultCh`: a reply, or a broker. -/
inductive SyncCall where
  | message (reply : SyncReply)
  | runBroker (broker : SyncBroker)

variable (H : Host) (R : Routes)

def SyncBroker.isListen (b : SyncBroker) (name : GoString) : Bool :=
  b.listens.any fun l =>
    l = getTaskName H name || l = getChannelName H name || l = getClientName H name || l = name

def SyncBroker.hears (reply : SyncReply) (b : SyncBroker) : Bool :=
  (b.isListen H reply.taskName || b.isListen H reply.runOn) && b.clients = []

def SyncReply.complete (reply : SyncReply) : Bool :=
  (!Strings.hasSuffix reply.runOn subTask || reply.hasResult) &&
    (!Strings.hasSuffix reply.runOn subChannel || reply.hasContent)

/-- The brokers that `computeMsg` processes, up to a reply that is not complete. -/
def computeBrokers (reply : SyncReply) : List SyncBroker → List SyncBroker
  | [] => []
  | b :: bs =>
    if b.hears H reply then if reply.complete then b :: computeBrokers reply bs else []
    else computeBrokers reply bs

def computeMsg (reply : SyncReply) (brokers : List SyncBroker) : List SyncBroker :=
  if reply.group = [] then []
  else if R.points reply.runOn = none then []
  else computeBrokers H reply brokers

/-- The goroutine that waits for the result. -/
inductive Receiver where
  | busy
  | receiving
  | returned
  deriving DecidableEq

structure ResultState where
  inline : Bool
  receiver : Receiver
  left : List SyncBroker
  blocked : Bool
  starting : ℕ
  /-- The `sendsync` requests that are registered and whose callbacks have not been invoked. -/
  awaited : ℕ
  /-- Those whose callbacks have been invoked and that are not removed yet. -/
  stale : ℕ
  /-- The callbacks at a send. One that sends an error has the flows that it goes on with. -/
  senders : List (Option (List DeliverFlow))
  sends : ℕ

inductive ResultAct where
  /-- `processBroker` of the next broker: the flows of the template, none if the queue cannot be
  read. -/
  | process (output : Option (List DeliverFlow))
  | receive
  | publish (sent : Bool)
  /-- A callback is invoked. The template goes on, with an error or not, and yields flows. -/
  | settle (err : Bool) (flows : List DeliverFlow)
  /-- A callback is invoked again: the reply and the timeout both found it. -/
  | settleAgain (err : Bool) (flows : List DeliverFlow)
  | removeRequest
  /-- Another delivery is registered under the `DeliverID` of one that waits. -/
  | overwrite
  | takeOwn
  | take (i : ℕ)

def Handled.syncs (h : Handled) : ℕ := (h.requests.flatMap Request.spawns).countP Spawn.sync

def Handled.sends (h : Handled) : Bool := !h.returned && !h.hasSync

namespace ResultState

-- Without flows `handleDeliver` starts one more goroutine, for the log, which has no part in this.

def start (brokers : List SyncBroker) : SyncCall → ResultState
  | .message reply => ⟨true, .busy, computeMsg H R reply brokers, false, 0, 0, 0, [], 0⟩
  | .runBroker b => ⟨false, .busy, [b], false, 0, 0, 0, [], 0⟩

def send (s : ResultState) (rest : Option (List DeliverFlow)) : ResultState :=
  { s with senders := s.senders ++ [rest], sends := s.sends + 1 }

def handle (s : ResultState) (h : Handled) : ResultState :=
  { s with
    starting := s.starting + h.syncs
    blocked := h.sends
    sends := s.sends + h.sends.toNat }

def handleBack (s : ResultState) (h : Handled) : ResultState :=
  { s with
    starting := s.starting + h.syncs
    senders := s.senders ++ if h.sends then [none] else []
    sends := s.sends + h.sends.toNat }

def proceed (s : ResultState) (flows : List DeliverFlow) : ResultState :=
  if flows = [] then s.send none else s.handleBack (R.deliverTo (receivers flows))

def process (s : ResultState) (output : Option (List DeliverFlow)) : Option ResultState :=
  match s.left, s.blocked with
  | b :: bs, false =>
    match b.endpoints, output with
    | [], some flows =>
      some ({ s with left := bs }.handle (R.deliverTo (receivers flows)))
    | _, _ => some { s with left := bs }
  | _, _ => none

/-- A callback behind `Execute`. -/
def settle (s : ResultState) (err : Bool) (flows : List DeliverFlow) : ResultState :=
  if err then s.send (some flows) else s.proceed R flows

def take (s : ResultState) (i : ℕ) : Option ResultState :=
  match s.receiver, s.senders[i]? with
  | .receiving, some rest =>
    let s' := { s with receiver := .returned, senders := s.senders.eraseIdx i }
    some (rest.elim s' (s'.proceed R))
  | _, _ => none

def next (s : ResultState) : ResultAct → Option ResultState
  | .process output => s.process R output
  | .receive =>
    if s.receiver = .busy ∧ (s.inline → s.left = [] ∧ s.blocked = false) then
      some { s with receiver := .receiving }
    else none
  | .publish sent =>
    if 0 < s.starting then
      some { s with starting := s.starting - 1, awaited := s.awaited + sent.toNat }
    else none
  | .settle err flows =>
    if 0 < s.awaited then
      some ({ s with awaited := s.awaited - 1, stale := s.stale + 1 }.settle R err flows)
    else none
  | .settleAgain err flows => if 0 < s.stale then some (s.settle R err flows) else none
  | .removeRequest => if 0 < s.stale then some { s with stale := s.stale - 1 } else none
  | .overwrite => if 0 < s.awaited then some { s with awaited := s.awaited - 1 } else none
  | .takeOwn =>
    if s.receiver = .receiving ∧ s.blocked then
      some { s with receiver := .returned, blocked := false }
    else none
  | .take i => s.take R i

def Addressed (brokers : List SyncBroker) : SyncCall → Prop
  | .message reply => reply.group ≠ [] ∧ R.points reply.runOn ≠ none ∧ reply.complete ∧
      brokers.countP (·.hears H reply) = 1
  | .runBroker _ => True

def waits (flows : List DeliverFlow) : Bool := flows.any (·.send = Keyword.sendsync.name)

def waitsFor (x : DeliverFlow × GoString) : List Point :=
  match R.points x.2 with
  | some p => if x.1.send = Keyword.sendsync.name ∧ p.type = .task then R.clients p.id else []
  | none => []

/-- Every receiver is known, and a `sendsync` waits for one client. -/
def Answers (flows : List DeliverFlow) : Prop :=
  (∀ x ∈ receivers flows, R.points x.2 ≠ none) ∧
    (waits flows → ((receivers flows).flatMap (waitsFor R)).length = 1)

/-- A broker has a template, which is executed; where its goroutine receives, a flow is a
`sendsync`. Requests are published and keep their entries, a callback is invoked once, and a
template that goes on has no error. -/
def Prompt (s : ResultState) : ResultAct → Prop
  | .process (some flows) => (∀ b ∈ s.left.head?, b.endpoints = []) ∧ Answers R flows ∧
      (s.inline → waits flows)
  | .process none => False
  | .publish sent => sent
  | .settle err flows => err = false ∧ Answers R flows
  | .settleAgain _ _ => False
  | .overwrite => False
  | .removeRequest => True
  | .receive => True
  | .takeOwn => True
  | .take _ => True

instance (flows : List DeliverFlow) : Decidable (Answers R flows) :=
  inferInstanceAs (Decidable ((∀ x ∈ receivers flows, _) ∧ (_ → _)))

instance (s : ResultState) : DecidablePred (s.Prompt R)
  | .process (some flows) =>
    inferInstanceAs (Decidable ((∀ b ∈ s.left.head?, b.endpoints = []) ∧ Answers R flows ∧
      (s.inline → waits flows)))
  | .process none => .isFalse id
  | .publish sent => inferInstanceAs (Decidable (sent))
  | .settle err flows => inferInstanceAs (Decidable (err = false ∧ Answers R flows))
  | .settleAgain _ _ | .overwrite => .isFalse id
  | .removeRequest | .receive | .takeOwn | .take _ => .isTrue trivial

/-! ## What `handleDeliver` does -/

variable {H R} {s s' : ResultState} {flows : List DeliverFlow}

theorem countP_request {x : DeliverFlow × GoString} {p : Point} (hp : R.points x.2 = some p) :
    (R.request x.1 p).spawns.countP Spawn.sync = (waitsFor R x).length := by
  unfold Routes.request waitsFor
  rw [hp]
  by_cases htask : p.type = .task <;> by_cases hsync : x.1.send = Keyword.sendsync.name <;>
    simp [htask, hsync, Function.comp_def]

theorem deliverTo_known {xs : List (DeliverFlow × GoString)} (h : ∀ x ∈ xs, R.points x.2 ≠ none) :
    (R.deliverTo xs).returned = false ∧
      (R.deliverTo xs).hasSync = xs.any (·.1.send = Keyword.sendsync.name) ∧
      (R.deliverTo xs).syncs = (xs.flatMap (waitsFor R)).length := by
  induction xs with
  | nil => exact ⟨rfl, rfl, rfl⟩
  | cons x xs ih =>
    obtain ⟨hreturned, hsync, hcount⟩ := ih fun x hx => h x (mem_cons_of_mem _ hx)
    obtain ⟨p, hp⟩ := ne_none_iff_exists'.1 (h x mem_cons_self)
    unfold Handled.syncs at hcount ⊢
    simp only [Routes.deliverTo, hp, any_cons, flatMap_cons, countP_append,
      length_append, countP_request hp, hreturned, hsync, hcount, and_self]

theorem any_receivers : (receivers flows).any (·.1.send = Keyword.sendsync.name) = waits flows := by
  unfold receivers waits
  rw [List.any_flatMap]
  congr 1
  funext f
  rw [List.any_map]
  obtain ⟨n, ns, hsplit⟩ := exists_cons_of_ne_nil (Strings.split_ne_nil ',' f.reciever)
  rw [hsplit]
  by_cases hf : f.send = Keyword.sendsync.name <;> simp [hf]

theorem waitsFor_eq_nil (h : waits flows = false) :
    (receivers flows).flatMap (waitsFor R) = [] := by
  rw [List.flatMap_eq_nil_iff]
  intro x hx
  rw [← any_receivers, List.any_eq_false] at h
  have hx : x.1.send ≠ Keyword.sendsync.name := by simpa using h x hx
  unfold waitsFor
  cases R.points x.2 with
  | none => rfl
  | some p => exact if_neg fun h => hx h.1

theorem Answers.one (h : Answers R flows) : (R.deliverTo (receivers flows)).sends = !waits flows ∧
      (R.deliverTo (receivers flows)).syncs = (waits flows).toNat := by
  obtain ⟨hreturned, hsync, hcount⟩ := deliverTo_known h.1
  rw [any_receivers] at hsync
  refine ⟨by rw [Handled.sends, hreturned, hsync]; rfl, hcount.trans ?_⟩
  cases hw : waits flows with
  | false => rw [waitsFor_eq_nil hw]; rfl
  | true => exact h.2 hw

def received (s : ResultState) : ℕ := if s.receiver = .returned then 1 else 0

/-- One broker, goroutine or callback will send a value, or the value has been received. -/
structure Owing (s : ResultState) : Prop where
  one : s.left.length + s.blocked.toNat + s.starting + s.awaited + s.senders.length + s.received = 1
  sends : s.sends = s.blocked.toNat + s.senders.length + s.received
  own : s.inline → s.blocked = false
  plain : ∀ x ∈ s.senders, x = none

theorem owing_start {brokers : List SyncBroker} {call : SyncCall} (h : Addressed H R brokers call) :
    (start H R brokers call).Owing := by
  cases call with
  | runBroker b => exact ⟨rfl, rfl, fun _ => rfl, nofun⟩
  | message reply =>
    obtain ⟨hgroup, hpoint, hcomplete, hcount⟩ := h
    have hcompute (bs : List SyncBroker) :
        (computeBrokers H reply bs).length = bs.countP (·.hears H reply) := by
      induction bs with
      | nil => rfl
      | cons b bs ih =>
        unfold computeBrokers
        by_cases hb : b.hears H reply
        · rw [if_pos hb, if_pos hcomplete, length_cons, ih, countP_cons_of_pos hb]
        · rw [if_neg hb, ih, countP_cons_of_neg hb]
    refine ⟨?_, rfl, fun _ => rfl, nofun⟩
    simp [start, computeMsg, hgroup, hpoint, hcompute, hcount, received]

theorem owing_proceed
    (hnone : s.left.length + s.blocked.toNat + s.starting + s.awaited + s.senders.length +
      s.received = 0)
    (hsends : s.sends = 0) (hflows : Answers R flows) : (s.proceed R flows).Owing := by
  have hblocked : s.blocked = false := Bool.toNat_eq_zero.1 (by omega)
  have hsenders : s.senders = [] := length_eq_zero_iff.1 (by omega)
  unfold proceed
  split_ifs
  · have hreceived : (s.send none).received = s.received := rfl
    refine ⟨?_, ?_, fun _ => hblocked, by simp [send, hsenders]⟩ <;> rw [hreceived] <;>
      simp only [send, length_append, length_singleton] <;> omega
  · obtain ⟨hsend, hsyncs⟩ := hflows.one
    have hreceived : (s.handleBack (R.deliverTo (receivers flows))).received = s.received :=
      rfl
    refine ⟨?_, ?_, fun _ => hblocked, ?_⟩
    · rw [hreceived]
      simp only [handleBack, hsend, hsyncs, length_append]
      cases waits flows <;> simp <;> omega
    · rw [hreceived]
      simp only [handleBack, hsend, length_append]
      cases waits flows <;> simp <;> omega
    · simp only [handleBack, hsend, hsenders]
      cases waits flows <;> simp

theorem Owing.process (hs : s.Owing) (ha : s.Prompt R (.process (some flows)))
    (h : s.process R (some flows) = some s') : s'.Owing := by
  obtain ⟨hendpoints, hflows, hinline⟩ := ha
  obtain ⟨hsend, hsyncs⟩ := hflows.one
  have hone := hs.one
  have hsends := hs.sends
  unfold ResultState.process at h
  split at h
  · next b bs hleft hblocked =>
    rw [hleft] at hone hendpoints
    rw [hendpoints b rfl] at h
    cases h
    rw [hblocked] at hone hsends
    simp only [length_cons, Bool.toNat_false] at hone hsends
    set t := handle { s with left := bs } (R.deliverTo (receivers flows)) with ht
    have hreceived : t.received = s.received := rfl
    refine ⟨?_, ?_, fun h => ?_, hs.plain⟩
    · rw [hreceived]
      simp only [ht, handle, hsend, hsyncs]
      cases waits flows <;> simp <;> omega
    · rw [hreceived]
      simp only [ht, handle, hsend]
      omega
    · -- A goroutine that is to receive leaves the value to a callback.
      simp only [ht, handle, hsend, hinline h, Bool.not_true]
  · exact absurd h nofun

theorem Owing.settle {err : Bool} (hs : s.Owing) (hawaited : 0 < s.awaited) (herr : err = false)
    (hflows : Answers R flows) :
    ({ s with awaited := s.awaited - 1, stale := s.stale + 1 }.settle R err flows).Owing := by
  have hone := hs.one
  have hsends := hs.sends
  subst herr
  refine owing_proceed ?_ ?_ hflows
  · show s.left.length + s.blocked.toNat + s.starting + (s.awaited - 1) + s.senders.length +
      s.received = 0
    omega
  · show s.sends = 0
    omega

theorem Owing.take {i : ℕ} (hs : s.Owing) (h : s.take R i = some s') : s'.Owing := by
  unfold ResultState.take at h
  split at h
  · next rest hreceiver hi =>
    obtain rfl := hs.plain rest (mem_of_getElem? hi)
    cases h
    have hlt : i < s.senders.length := (List.getElem?_eq_some_iff.1 hi).1
    have hone := hs.one
    have hsends := hs.sends
    simp only [received, hreceiver, reduceCtorEq, if_false] at hone hsends
    refine ⟨?_, ?_, hs.own, fun x hx => hs.plain x (mem_of_mem_eraseIdx hx)⟩
    · simp only [elim_none, received, if_true, length_eraseIdx_of_lt hlt]
      omega
    · simp only [elim_none, received, if_true, length_eraseIdx_of_lt hlt]
      omega
  · exact absurd h nofun

theorem Owing.next {a : ResultAct} (hs : s.Owing) (ha : s.Prompt R a) (h : s.next R a = some s') :
    s'.Owing := by
  have hone := hs.one
  have hsends := hs.sends
  cases a with
  | process output =>
    cases output with
    | none => exact ha.elim
    | some flows => exact hs.process ha h
  | receive =>
    obtain ⟨⟨hbusy, -⟩, h⟩ := ite_none_right_eq_some.1 h
    cases h
    simp only [received, hbusy, reduceCtorEq, if_false] at hone hsends
    exact ⟨by simpa [received] using hone, by simpa [received] using hsends, hs.own, hs.plain⟩
  | publish sent =>
    obtain ⟨hstarting, h⟩ := ite_none_right_eq_some.1 h
    cases h
    have hsent : sent := ha
    refine ⟨?_, hsends, hs.own, hs.plain⟩
    simp only [received, hsent, Bool.toNat_true] at hone ⊢
    omega
  | settle err flows =>
    obtain ⟨hawaited, h⟩ := ite_none_right_eq_some.1 h
    exact some.inj h ▸ hs.settle hawaited ha.1 ha.2
  | settleAgain | overwrite => exact ha.elim
  | removeRequest =>
    obtain ⟨-, h⟩ := ite_none_right_eq_some.1 h
    cases h
    exact ⟨hone, hsends, hs.own, hs.plain⟩
  | takeOwn =>
    obtain ⟨⟨hreceiver, hblocked⟩, h⟩ := ite_none_right_eq_some.1 h
    cases h
    simp only [received, hreceiver, hblocked, reduceCtorEq, if_false,
      Bool.toNat_true] at hone hsends
    refine ⟨?_, ?_, fun _ => rfl, hs.plain⟩ <;>
      simp only [received, if_true, Bool.toNat_false] <;> omega
  | take i => exact hs.take h

/-- The result was received once, and nothing is left. -/
structure Done (s : ResultState) : Prop where
  returned : s.receiver = .returned
  left : s.left = []
  blocked : s.blocked = false
  starting : s.starting = 0
  awaited : s.awaited = 0
  stale : s.stale = 0
  senders : s.senders = []
  sends : s.sends = 1

def Able (R : Routes) (s : ResultState) : Prop := s.receiver ≠ .busy ∨ s.next R .receive ≠ none

theorem able_of_free (h : s.inline → s.left = [] ∧ s.blocked = false) : s.Able R := by
  by_cases hbusy : s.receiver = .busy
  · right
    show ite _ _ _ ≠ none
    rw [if_pos ⟨hbusy, h⟩]
    exact some_ne_none _
  · exact .inl hbusy

theorem Owing.able (hs : s.Owing) (h : s.sends = 1) : s.Able R := by
  have hone := hs.one
  have hsends := hs.sends
  refine able_of_free fun hinline => ⟨length_eq_zero_iff.1 ?_, hs.own hinline⟩
  omega

theorem Owing.done (hs : s.Owing) (hstuck : ∀ a, s.next R a = none) : s.Done := by
  have hone := hs.one
  have hsends := hs.sends
  have hleft : s.left = [] ∨ s.blocked := by
    by_contra h
    rw [not_or, Bool.not_eq_true] at h
    obtain ⟨b, bs, hleft⟩ := exists_cons_of_ne_nil h.1
    have hprocess : s.process R none = none := hstuck (.process none)
    rw [ResultState.process, hleft, h.2] at hprocess
    simp at hprocess
  have hstarting : s.starting = 0 := by
    by_contra h
    exact some_ne_none _
      ((if_pos (Nat.pos_of_ne_zero h)).symm.trans (hstuck (.publish true)))
  have hawaited : s.awaited = 0 := by
    by_contra h
    exact some_ne_none _
      ((if_pos (Nat.pos_of_ne_zero h)).symm.trans (hstuck (.settle true [])))
  have hstale : s.stale = 0 := by
    by_contra h
    exact some_ne_none _ ((if_pos (Nat.pos_of_ne_zero h)).symm.trans (hstuck .removeRequest))
  -- The receiver is past its receive: at it, it would take the value that is on offer.
  have hreturned : s.receiver = .returned := by
    cases hreceiver : s.receiver with
    | returned => rfl
    | busy =>
      have hlen : s.inline → s.left = [] ∧ s.blocked = false := fun h =>
        ⟨hleft.resolve_right (by simp [hs.own h]), hs.own h⟩
      rcases able_of_free (R := R) hlen with h | h
      · exact absurd hreceiver h
      · exact absurd (hstuck .receive) h
    | receiving =>
      simp only [received, hreceiver, reduceCtorEq, if_false] at hone
      have hblocked : s.blocked = false := by
        by_contra h
        rw [Bool.not_eq_false] at h
        exact some_ne_none _ ((if_pos ⟨hreceiver, h⟩).symm.trans (hstuck .takeOwn))
      have hnil : s.left = [] := hleft.resolve_right (by simp [hblocked])
      rw [hblocked, hnil, hstarting, hawaited] at hone
      simp only [length_nil, Bool.toNat_false] at hone
      have hlt : 0 < s.senders.length := by omega
      have htake : s.take R 0 = none := hstuck (.take 0)
      rw [ResultState.take, hreceiver, getElem?_eq_getElem hlt] at htake
      exact absurd htake (some_ne_none _)
  simp only [received, hreturned, if_true] at hone hsends
  exact
    { returned := hreturned
      left := length_eq_zero_iff.1 (by omega)
      blocked := Bool.toNat_eq_zero.1 (by omega)
      starting := hstarting
      awaited := hawaited
      stale := hstale
      senders := length_eq_zero_iff.1 (by omega)
      sends := by omega }

end ResultState

end Kairos.Worker
