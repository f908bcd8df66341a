import Kairos.Runner.EventLoop
import Mathlib.Data.List.Perm.Subperm

/-!
# The destruction of a worker

`Worker.Destroy` of `server/runner/worker.go`, beside the rest of the worker. Each call asks every
active client to clear the workflow and waits for the callbacks. The one that finds all clients
destroyed drops the workflow and closes `closeCh` and `eventChan`. A callback is invoked twice where
the reply and the timeout have both found the request. The event loop sends on
`eventChan` itself where it walks over the tasks; a goroutine that waits in a send when the channel
is closed panics as one that comes to it later does.
-/

namespace Kairos

open List Option
open Transitions (Meets run)

/-- Whether the step sends on `eventChan` (`worker.go:2148`). -/
def PushOp.isPublish : PushOp → Bool
  | .publish _ => true
  | .update _ _ => false
  | .deliver _ _ => false
  | .abort _ _ => false

/-- Whether `checkCmdReply` sends on `eventChan`. -/
def Checked.isEvent : Checked → Bool
  | .event _ => true
  | .fault => false
  | .nothing => false

/-- The step of the walk that the event loop is at. -/
def LoopOp.isPublish : LoopOp → Bool
  | .start op => op.isPublish
  | .receive _ => false
  | .check => false

/-- A call of `Destroy`: the clients whose callbacks are to come once; those whose reply, and those
whose timeout, is to come although the other has found the request too; the counter `wait`; how many
callbacks are about to drop the workflow; `success`, and what it has returned. -/
structure DestroyCall where
  waiting : List ℕ
  replies : List ℕ
  timeouts : List ℕ
  wg : ℕ
  closing : ℕ
  success : Bool
  returned : Option Bool

namespace DestroyCall

def begin (clients : List ℕ) : DestroyCall := ⟨clients, [], [], clients.length, 0, true, none⟩

/-- The reply and the timeout have both found the request. -/
def meet (client : ℕ) (c : DestroyCall) : DestroyCall :=
  { c with
    waiting := c.waiting.erase client
    replies := client :: c.replies
    timeouts := client :: c.timeouts }

def replied (client : ℕ) (c : DestroyCall) : DestroyCall :=
  if client ∈ c.waiting then { c with waiting := c.waiting.erase client }
  else { c with replies := c.replies.erase client }

def timedOut (client : ℕ) (c : DestroyCall) : DestroyCall :=
  if client ∈ c.waiting then { c with waiting := c.waiting.erase client }
  else { c with timeouts := c.timeouts.erase client }

end DestroyCall

/-- The worker, its active clients and those with status `PointDestroy`, the calls, how often the
channels have been closed, and how often `eventChan` was sent to after. -/
structure DestroyState where
  worker : WorkerState
  clientsActive : List ℕ
  destroyed : List ℕ
  calls : List DestroyCall
  dropped : Bool
  closes : ℕ
  lateSends : ℕ

inductive DestroyAct where
  | worker (a : WorkerAct)
  | destroy
  | meet (i client : ℕ)
  | reply (i client : ℕ) (status : DeliverStatus)
  | timeout (i client : ℕ)
  /-- A callback of the call `i` drops the workflow, where storage lets it, and closes the channels.
  -/
  | drop (i : ℕ) (ok : Bool)
  | finish (i : ℕ)

namespace DestroyState

/-- Whether a step of the worker sends on `eventChan`. -/
def sends (s : WorkerState) : WorkerAct → Bool
  | .push _ => s.push.head?.any PushOp.isPublish
  | .reply o c status => s.awaits o c && (checkCmdReply false (o.setReply c status)).isEvent
  | .loop => s.loop.head?.any LoopOp.isPublish
  | .timeout _ _ => false
  | .recover _ _ => false

def start (p : Plan) : DestroyState := ⟨p.start, [], [], [], false, 0, 0⟩

def modifyCall (i : ℕ) (f : DestroyCall → DestroyCall) (s : DestroyState) : DestroyState :=
  { s with calls := s.calls.modify i f }

-- At zero `wait.Done` ends the process, where the model goes on.

/-- The callback of a client that has cleared the workflow. -/
def mark (i client : ℕ) (s : DestroyState) : DestroyState :=
  let destroyed := client :: s.destroyed
  let all := s.clientsActive.all (· ∈ destroyed)
  { s with destroyed := destroyed }.modifyCall i fun c =>
    { c.replied client with
      wg := if all then c.wg else c.wg - 1
      closing := if all then c.closing + 1 else c.closing }

/-- The callback of a client that could not, or did not answer in time. -/
def fail (i : ℕ) (take : DestroyCall → DestroyCall) (s : DestroyState) : DestroyState :=
  s.modifyCall i fun c => { take c with wg := c.wg - 1, success := false }

/-- The callback that found all clients destroyed. -/
def dropStep (i : ℕ) (ok : Bool) (s : DestroyState) : DestroyState :=
  if ok then
    { s with dropped := true, closes := s.closes + 1 }.modifyCall i fun c =>
      { c with wg := c.wg - 1, closing := c.closing - 1 }
  else s.modifyCall i fun c =>
    { c with wg := c.wg - 1, closing := c.closing - 1, success := false }

/-- `Worker.Destroy` (`worker.go:215`), its callbacks and the worker, of which `n` clients are
active. -/
def next (p : Plan) (n : ℕ) (s : DestroyState) : DestroyAct → Option DestroyState
  | .worker a =>
    if 0 < s.closes ∧ sends s.worker a then some { s with lateSends := s.lateSends + 1 }
    else (p.next s.worker a).map fun w => { s with worker := w }
  | .destroy =>
    let active := s.clientsActive ++ List.range n
    some { s with clientsActive := active, calls := s.calls ++ [.begin active] }
  | .meet i client =>
    if s.calls[i]?.any (client ∈ ·.waiting) then some (s.modifyCall i (.meet client)) else none
  | .reply i client status =>
    if s.calls[i]?.any (fun c => client ∈ c.waiting ++ c.replies) then
      some (if status = .successDestroyWorkflow then s.mark i client
        else s.fail i (.replied client))
    else none
  | .timeout i client =>
    if s.calls[i]?.any (fun c => client ∈ c.waiting ++ c.timeouts) then
      some (s.fail i (.timedOut client))
    else none
  | .drop i ok => if s.calls[i]?.any (0 < ·.closing) then some (s.dropStep i ok) else none
  | .finish i =>
    if s.calls[i]?.any (fun c => c.wg = 0 ∧ c.returned = none) then
      some (s.modifyCall i fun c => { c with returned := some c.success })
    else none

/-- The loop waits for events, or has no task to publish itself. -/
def LoopAtRest (p : Plan) (s : DestroyState) : Prop :=
  s.worker.loop = [] ∨ ∀ op ∈ p.pushAllCmdTask, op.isPublish = false

instance (p : Plan) (s : DestroyState) : Decidable (s.LoopAtRest p) :=
  inferInstanceAs (Decidable (_ ∨ _))

/-- `Destroy` is called once, for a worker with clients. When the workflow is dropped nothing is
left to push, no reply of a command that sets an object is awaited, the loop is at rest, and nothing
is recovered after. -/
def Careful (p : Plan) (n : ℕ) (s : DestroyState) : DestroyAct → Prop
  | .destroy => s.calls = [] ∧ 0 < n
  | .drop _ ok => ok → s.worker.push = [] ∧ s.worker.awaited = [] ∧ s.LoopAtRest p
  | .worker (.recover _ _) => s.closes = 0
  | _ => True

instance (p : Plan) (n : ℕ) (s : DestroyState) : DecidablePred (s.Careful p n)
  | .destroy => decidable_of_iff (s.calls.isEmpty ∧ 0 < n) (by simp [Careful])
  | .drop _ ok => inferInstanceAs
      (Decidable (ok → s.worker.push = [] ∧ s.worker.awaited = [] ∧ s.LoopAtRest p))
  | .worker (.recover _ _) => inferInstanceAs (Decidable (s.closes = 0))
  | .worker (.push _) | .worker .loop | .worker (.reply _ _ _)
  | .worker (.timeout _ _) | .meet _ _ | .reply _ _ _ | .timeout _ _ | .finish _ => .isTrue trivial

/-! ## One call -/

structure Untouched (s : DestroyState) : Prop where
  calls : s.calls = []
  active : s.clientsActive = []
  destroyed : s.destroyed = []
  closes : s.closes = 0

structure Destroying (n : ℕ) (s : DestroyState) (c : DestroyCall) : Prop where
  calls : s.calls = [c]
  pos : 0 < n
  active : s.clientsActive = List.range n
  nodup : (c.waiting ++ c.replies).Nodup
  /-- A client whose reply can come is not destroyed. -/
  pending : ∀ x ∈ c.waiting ++ c.replies, x < n ∧ x ∉ s.destroyed
  unique : s.destroyed.Nodup
  known : ∀ x ∈ s.destroyed, x < n
  count : c.success → c.wg + s.destroyed.length = n + c.closing
  once : s.closes + c.closing ≤ 1
  all : 0 < s.closes + c.closing → ∀ x < n, x ∈ s.destroyed
  acted : c.success → (∀ x < n, x ∈ s.destroyed) → 0 < s.closes + c.closing
  dropped : 0 < s.closes → s.dropped
  returned : c.returned = some true → s.dropped ∧ 0 < s.closes

/-- Nothing of the worker is left to send. -/
structure Quiet (p : Plan) (s : DestroyState) : Prop where
  push : s.worker.push = []
  awaited : s.worker.awaited = []
  loop : s.LoopAtRest p

structure Sealed (p : Plan) (s : DestroyState) : Prop where
  quiet : 0 < s.closes → s.Quiet p
  /-- Without a task to publish the loop has nothing to send. -/
  noSend : (∀ op ∈ p.pushAllCmdTask, op.isPublish = false) → Plan.NoSend s.worker
  noLate : s.lateSends = 0

variable {p : Plan} {n i client : ℕ} {s : DestroyState} {c : DestroyCall}

theorem Destroying.modify (hs : s.Destroying n c) (f : DestroyCall → DestroyCall) :
    s.calls.modify 0 f = [f c] := by
  rw [hs.calls]
  rfl

theorem Untouched.destroy (hs : s.Untouched) (hn : 0 < n) : Destroying n { s with
        clientsActive := s.clientsActive ++ List.range n
        calls := s.calls ++ [.begin (s.clientsActive ++ List.range n)] }
      (.begin (List.range n)) where
  calls := by simp [hs.calls, hs.active]
  pos := hn
  active := by simp [hs.active]
  nodup := by simpa [DestroyCall.begin] using nodup_range
  pending := by simp [DestroyCall.begin, hs.destroyed]
  unique := by simp [hs.destroyed]
  known := by simp [hs.destroyed]
  count := by simp [DestroyCall.begin, hs.destroyed]
  once := by simp [DestroyCall.begin, hs.closes]
  all := by simp [DestroyCall.begin, hs.closes]
  acted := fun _ h => absurd (h 0 hn) (by simp [hs.destroyed])
  dropped := by simp [hs.closes]
  returned := nofun

theorem replied_eq (client : ℕ) (c : DestroyCall) : ∃ w r,
    c.replied client = { c with waiting := w, replies := r } ∧
      w ++ r = (c.waiting ++ c.replies).erase client := by
  unfold DestroyCall.replied
  rw [erase_append]
  split_ifs
  · exact ⟨_, c.replies, rfl, rfl⟩
  · exact ⟨c.waiting, _, rfl, rfl⟩

theorem timedOut_eq (client : ℕ) (c : DestroyCall) : ∃ w t,
    c.timedOut client = { c with waiting := w, timeouts := t } ∧ w <+ c.waiting := by
  unfold DestroyCall.timedOut
  split_ifs
  · exact ⟨_, c.timeouts, rfl, erase_sublist⟩
  · exact ⟨c.waiting, _, rfl, Sublist.refl _⟩

theorem subperm_range {l : List ℕ} (h : l.Nodup) (hlt : ∀ x ∈ l, x < n) : l <+~ List.range n :=
  subperm_of_subset h fun x hx => mem_range.2 (hlt x hx)

theorem Destroying.meet (hs : s.Destroying n c) (hx : client ∈ c.waiting) :
    ∃ c', (s.modifyCall 0 (.meet client)).Destroying n c' := by
  have hperm : c.waiting.erase client ++ client :: c.replies ~ c.waiting ++ c.replies :=
    perm_middle.trans ((perm_cons_erase hx).symm.append_right _)
  exact ⟨_,
    { hs with
      calls := hs.modify _
      nodup := hperm.nodup_iff.2 hs.nodup
      pending := fun x h => hs.pending x (hperm.mem_iff.1 h) }⟩

theorem Destroying.mark (hs : s.Destroying n c) (hx : client ∈ c.waiting ++ c.replies) :
    ∃ c', (s.mark 0 client).Destroying n c' := by
  obtain ⟨hlt, hnew⟩ := hs.pending client hx
  -- A client whose reply can come is not destroyed, so no callback has found all of them so.
  have hzero : s.closes + c.closing = 0 := by
    by_contra hne
    exact hnew (hs.all (Nat.pos_of_ne_zero hne) client hlt)
  obtain ⟨w, r, heq, hwr⟩ := replied_eq client c
  have hunique : (client :: s.destroyed).Nodup := nodup_cons.2 ⟨hnew, hs.unique⟩
  have hknown : ∀ x ∈ client :: s.destroyed, x < n := forall_mem_cons.2 ⟨hlt, hs.known⟩
  have hlength := (subperm_range hunique hknown).length_le
  rw [length_cons, length_range] at hlength
  have hall : s.clientsActive.all (· ∈ client :: s.destroyed) ↔
      ∀ x < n, x ∈ client :: s.destroyed := by
    simp [hs.active]
  have hpending : ∀ x ∈ w ++ r, x < n ∧ x ∉ client :: s.destroyed := by
    intro x h
    obtain ⟨hne, hmem⟩ := hs.nodup.mem_erase_iff.1 (hwr ▸ h)
    exact ⟨(hs.pending x hmem).1, by simp [hne, (hs.pending x hmem).2]⟩
  by_cases h : s.clientsActive.all (· ∈ client :: s.destroyed)
  · refine ⟨{ c with waiting := w, replies := r, closing := c.closing + 1 },
      { hs with
        calls := (hs.modify _).trans (by simp only [if_pos h, heq])
        nodup := hwr ▸ hs.nodup.erase _
        pending := hpending
        unique := hunique
        known := hknown
        count := fun hsuccess => ?_
        once := by change s.closes + (c.closing + 1) ≤ 1; omega
        all := fun _ => hall.1 h
        acted := fun _ _ => Nat.lt_add_left _ (Nat.succ_pos _) }⟩
    have := hs.count hsuccess
    change c.wg + (s.destroyed.length + 1) = n + (c.closing + 1)
    omega
  · refine ⟨{ c with waiting := w, replies := r, wg := c.wg - 1 },
      { hs with
        calls := (hs.modify _).trans (by simp only [if_neg h, heq])
        nodup := hwr ▸ hs.nodup.erase _
        pending := hpending
        unique := hunique
        known := hknown
        count := fun hsuccess => ?_
        all := fun hpos => absurd hzero (Nat.ne_of_gt hpos)
        acted := fun _ hdone => absurd (hall.2 hdone) h }⟩
    have := hs.count hsuccess
    change c.wg - 1 + (s.destroyed.length + 1) = n + c.closing
    omega

theorem Destroying.fail (hs : s.Destroying n c) {take : DestroyCall → DestroyCall}
    {w r t : List ℕ} (htake : take c = { c with waiting := w, replies := r, timeouts := t })
    (hsub : w ++ r <+ c.waiting ++ c.replies) : ∃ c', (s.fail 0 take).Destroying n c' := by
  refine ⟨_,
    { hs with
      calls := hs.modify _
      nodup := ?_
      pending := ?_
      count := nofun
      once := ?_
      all := ?_
      acted := nofun
      returned := ?_ }⟩ <;> rw [htake]
  · exact hs.nodup.sublist hsub
  · exact fun x h => hs.pending x (hsub.subset h)
  · exact hs.once
  · exact hs.all
  · exact hs.returned

theorem Destroying.drop (hs : s.Destroying n c) (hclosing : 0 < c.closing) (ok : Bool) :
    ∃ c', (s.dropStep 0 ok).Destroying n c' := by
  have honce := hs.once
  have hlength := (subperm_range hs.unique hs.known).length_le
  rw [length_range] at hlength
  unfold dropStep
  cases ok with
  | true =>
    refine ⟨_,
      { hs with
        calls := hs.modify _
        count := fun hsuccess => ?_
        once := by change s.closes + 1 + (c.closing - 1) ≤ 1; omega
        all := fun _ => hs.all (by omega)
        acted := fun _ _ => by change 0 < s.closes + 1 + (c.closing - 1); omega
        dropped := fun _ => rfl
        returned := fun _ => ⟨rfl, Nat.succ_pos _⟩ }⟩
    have := hs.count hsuccess
    change c.wg - 1 + s.destroyed.length = n + (c.closing - 1)
    omega
  | false =>
    exact ⟨_,
      { hs with
        calls := hs.modify _
        count := nofun
        once := by change s.closes + (c.closing - 1) ≤ 1; omega
        all := fun _ => hs.all (by omega)
        acted := nofun }⟩

/-- Where none has failed, the counter is zero only when every client is destroyed and the last
callback has dropped the workflow. -/
theorem Destroying.closed (hs : s.Destroying n c) (hwg : c.wg = 0) (hsuccess : c.success) :
    s.dropped ∧ 0 < s.closes := by
  have hcount := hs.count hsuccess
  have hsub := subperm_range hs.unique hs.known
  have hlength := hsub.length_le
  rw [length_range] at hlength
  have hperm := hsub.perm_of_length_le (by rw [length_range]; omega)
  have hacted := hs.acted hsuccess fun x hx => hperm.mem_iff.2 (mem_range.2 hx)
  have hcloses : 0 < s.closes := by omega
  exact ⟨hs.dropped hcloses, hcloses⟩

theorem Destroying.finish (hs : s.Destroying n c) (hwg : c.wg = 0) :
    ∃ c', (s.modifyCall 0 fun c => { c with returned := some c.success }).Destroying n c' :=
  ⟨_,
    { hs with
      calls := hs.modify _
      returned := fun hb => hs.closed hwg (some.inj hb) }⟩

variable {a : WorkerAct}

theorem isPublish_iff {op : PushOp} : op.isPublish ↔ ∃ id, op = .publish id := by
  cases op <;> simp [PushOp.isPublish]

theorem Sealed.sends (hs : s.Sealed p) (hq : s.Quiet p) : sends s.worker a = false := by
  cases a with
  | push => simp [DestroyState.sends, hq.push]
  | reply => simp [DestroyState.sends, WorkerState.awaits, hq.awaited]
  | timeout | recover => rfl
  | loop =>
    rcases hq.loop with hloop | hwalk
    · simp [DestroyState.sends, hloop]
    · have hnone := hs.noSend hwalk
      rw [DestroyState.sends, Bool.eq_false_iff]
      intro hany
      obtain ⟨op, hhead, hop⟩ := (any_eq_true _ _).1 hany
      cases op with
      | receive | check => cases hop
      | start op =>
        obtain ⟨id, rfl⟩ := isPublish_iff.1 hop
        exact hnone id (mem_of_head? hhead)

theorem Quiet.worker (hq : s.Quiet p) (ha : ∀ o client, a ≠ .recover o client) {w : WorkerState}
    (hnext : p.next s.worker a = some w) : ({ s with worker := w } : DestroyState).Quiet p := by
  have hloop {w : WorkerState} (hkeep : s.worker.loop = [] → w.loop = []) :
      ({ s with worker := w } : DestroyState).LoopAtRest p := hq.loop.imp_left hkeep
  cases Plan.step_of_next hnext with
  | update h | deliver h | unsentTask h | unsentBroker h | publish h | abort h =>
    simp [hq.push] at h
  | receive h | trigger h | wait h | startUpdate h | startOther h =>
    exact ⟨hq.push, hq.awaited, hloop fun hempty => absurd (h.symm.trans hempty) (by simp)⟩
  | reply h | fault h => simp [hq.awaited] at h
  | recover => exact absurd rfl (ha _ _)

/-- A state of a careful run: `Destroy` has not been called, or once. -/
def Fine (p : Plan) (n : ℕ) (s : DestroyState) : Prop :=
  (s.Untouched ∨ ∃ c, s.Destroying n c) ∧ s.Sealed p

variable {s' : DestroyState}

theorem Fine.worker (hs : s.Fine p n) (ha : s.Careful p n (.worker a))
    (hnext : s.next p n (.worker a) = some s') : s'.Fine p n := by
  have hrecover (hpos : 0 < s.closes) (o : Deliverable) (client : GoString) :
      a ≠ .recover o client := by
    rintro rfl
    exact absurd ha (Nat.ne_of_gt hpos)
  simp only [next] at hnext
  split_ifs at hnext with hlate
  · exact absurd hlate.2 (by simp [hs.2.sends (hs.2.quiet hlate.1)])
  · obtain ⟨w, hw, rfl⟩ := map_eq_some_iff.1 hnext
    refine ⟨hs.1.imp (fun h => ⟨h.calls, h.active, h.destroyed, h.closes⟩) ?_,
      ⟨fun hpos => (hs.2.quiet hpos).worker (hrecover hpos) hw, fun hwalk => ?_, hs.2.noLate⟩⟩
    · rintro ⟨c, h⟩
      exact ⟨c, { h with }⟩
    · refine Plan.noSend_next (fun id hid => ?_) (hs.2.noSend hwalk) hw
      exact absurd (hwalk _ hid) (by simp [PushOp.isPublish])

/-- A step that leaves the worker and the channels as they are. -/
theorem Sealed.congr (hs : s.Sealed p) (hworker : s'.worker = s.worker)
    (hcloses : s'.closes = s.closes) (hlate : s'.lateSends = s.lateSends) : s'.Sealed p := by
  refine ⟨fun hpos => ?_, hworker ▸ hs.noSend, hlate.trans hs.noLate⟩
  obtain ⟨hpush, hawaited, hloop⟩ := hs.quiet (hcloses ▸ hpos)
  exact ⟨hworker ▸ hpush, hworker ▸ hawaited, by rwa [LoopAtRest, hworker]⟩

theorem Fine.next {a : DestroyAct} (hs : s.Fine p n) (ha : s.Careful p n a)
    (hnext : s.next p n a = some s') : s'.Fine p n := by
  -- A step of a call is one of the only call.
  have hcall {i : ℕ} {f : DestroyCall → Bool} {t : DestroyState}
      (h : (if s.calls[i]?.any f then some t else none) = some s') :
      i = 0 ∧ t = s' ∧ ∃ c, s.Destroying n c ∧ f c := by
    obtain ⟨h, heq⟩ := ite_none_right_eq_some.1 h
    rcases hs.1 with hs | ⟨c, hs⟩
    · simp [hs.calls] at h
    · rw [hs.calls] at h
      cases i with
      | zero => exact ⟨rfl, some.inj heq, c, hs, h⟩
      | succ i => simp at h
  have hsealed : s.Sealed p := hs.2
  cases a with
  | worker a => exact hs.worker ha hnext
  | destroy =>
    cases hnext
    obtain ⟨hnone, hn⟩ := ha
    rcases hs.1 with h | ⟨c, h⟩
    · exact ⟨.inr ⟨_, h.destroy hn⟩, hsealed.congr rfl rfl rfl⟩
    · rw [h.calls] at hnone
      exact absurd hnone nofun
  | meet i client =>
    obtain ⟨rfl, rfl, c, hc, hx⟩ := hcall hnext
    exact ⟨.inr (hc.meet (of_decide_eq_true hx)), hsealed.congr rfl rfl rfl⟩
  | reply i client status =>
    obtain ⟨rfl, rfl, c, hc, hx⟩ := hcall hnext
    split_ifs
    · exact ⟨.inr (hc.mark (of_decide_eq_true hx)), hsealed.congr rfl rfl rfl⟩
    · obtain ⟨w, r, htake, hwr⟩ := replied_eq client c
      exact ⟨.inr (hc.fail htake (hwr ▸ erase_sublist)), hsealed.congr rfl rfl rfl⟩
  | timeout i client =>
    obtain ⟨rfl, rfl, c, hc, hx⟩ := hcall hnext
    obtain ⟨w, t, htake, hw⟩ := timedOut_eq client c
    exact ⟨.inr (hc.fail htake (hw.append_right _)), hsealed.congr rfl rfl rfl⟩
  | drop i ok =>
    obtain ⟨rfl, rfl, c, hc, hx⟩ := hcall hnext
    refine ⟨.inr (hc.drop (of_decide_eq_true hx) ok), ?_⟩
    cases ok with
    | true =>
      obtain ⟨hpush, hawaited, hloop⟩ := ha rfl
      exact ⟨fun _ => ⟨hpush, hawaited, hloop⟩, hsealed.noSend, hsealed.noLate⟩
    | false => exact hsealed.congr rfl rfl rfl
  | finish i =>
    obtain ⟨rfl, rfl, c, hc, hx⟩ := hcall hnext
    exact ⟨.inr (hc.finish (of_decide_eq_true hx).1), hsealed.congr rfl rfl rfl⟩

/-- If the steps are careful, the channels are closed at most once, `eventChan` is not sent to
after, and a `Destroy` that returned `true` has dropped the workflow and closed `closeCh`. -/
theorem destroy_closes_once {as : List DestroyAct} {s : DestroyState}
    (has : Meets (next p n) (Careful p n) (start p) as)
    (hrun : run (next p n) (start p) as = some s) : s.closes ≤ 1 ∧ s.lateSends = 0 ∧
      ∀ c ∈ s.calls, c.returned = some true → s.dropped ∧ 0 < s.closes := by
  have hstart : (start p).Sealed p :=
    ⟨fun h => absurd h (Nat.lt_irrefl 0), fun _ _ h => absurd h not_mem_nil, rfl⟩
  have hs : s.Fine p n :=
    Transitions.run_invariant (I := Fine p n) (fun _ _ _ hI ha hnext => hI.next ha hnext)
      ⟨.inl ⟨rfl, rfl, rfl, rfl⟩, hstart⟩ has hrun
  obtain ⟨hs | ⟨c, hs⟩, hsealed⟩ := hs
  · simp [hs.calls, hs.closes, hsealed.noLate]
  · refine ⟨(Nat.le_add_right _ _).trans hs.once, hsealed.noLate, fun c' hc' hreturned => ?_⟩
    rw [hs.calls, mem_singleton] at hc'
    exact hs.returned (hc' ▸ hreturned)

/-- Two clients clear a workflow whose one task both have set. -/
theorem destroy_closes_once_two_clients : let p : Plan :=
      ⟨[⟨1, .client, [], ["a", "b"], fun _ => "7"⟩], [], fun _ => true⟩
    let as : List DestroyAct := (List.replicate 4 (.worker (.push true))) ++
      [.worker (.reply (.task 1) "a" .successSetTask), .worker .loop, .worker .loop,
        .destroy,
        .reply 0 1 .successDestroyWorkflow,
        .worker (.reply (.task 1) "b" .successSetTask), .worker .loop, .worker .loop,
        .reply 0 0 .successDestroyWorkflow, .drop 0 true, .finish 0]
    ∃ s, Meets (next p 2) (Careful p 2) (start p) as ∧
      run (next p 2) (start p) as = some s ∧ s.calls.map (·.returned) = [some true] ∧
      s.closes ≤ 1 ∧ s.lateSends = 0 ∧
      ∀ c ∈ s.calls, c.returned = some true → s.dropped ∧ 0 < s.closes := by
  intro p as
  have has : Meets (next p 2) (Careful p 2) (start p) as := by decide +kernel
  have hreturned : (run (next p 2) (start p) as).any
      (·.calls.map (·.returned) = [some true]) := by
    decide +kernel
  obtain ⟨s, hrun, hs⟩ := (any_eq_true _ _).1 hreturned
  exact ⟨s, has, hrun, of_decide_eq_true hs, destroy_closes_once has hrun⟩

/-- Without clients a call returns `true` and does nothing. A second call, after a late reply,
closes the channels twice. A later reply is sent on the closed channel, and so is what the loop
publishes itself. -/
theorem destroy_without_clients_twice_and_late :
    let p : Plan := ⟨[⟨1, .client, [], ["a"], fun _ => "7"⟩], [], fun _ => true⟩
    (∃ s, run (next p 0) (start p) [.destroy, .finish 0] = some s ∧
      s.calls.map (·.returned) = [some true] ∧ s.dropped = false ∧ s.closes = 0) ∧
    (∃ s, run (next p 1) (start p)
        [.destroy, .timeout 0 0, .finish 0, .destroy, .reply 1 0 .successDestroyWorkflow,
          .reply 1 0 .successDestroyWorkflow, .drop 1 true, .drop 1 true] = some s ∧ s.closes = 2) ∧
    (∃ s, run (next p 1) (start p)
        [.worker (.push true), .worker (.push true), .destroy, .reply 0 0 .successDestroyWorkflow,
          .drop 0 true, .worker (.reply (.task 1) "a" .successSetTask)] = some s ∧
      s.lateSends = 1) ∧
    let q : Plan := ⟨[⟨1, .pubSub, "\x7b\x7d", [], fun _ => []⟩], [], fun _ => true⟩
    ∃ s, run (next q 1) (start q)
        [.worker (.push true), .worker (.push true), .worker .loop, .worker .loop, .worker .loop,
          .destroy, .reply 0 0 .successDestroyWorkflow, .drop 0 true, .worker .loop] = some s ∧
      s.lateSends = 1 := by
  exact ⟨⟨_, rfl, rfl, rfl, rfl⟩, ⟨_, rfl, rfl⟩, ⟨_, rfl, rfl⟩, ⟨_, rfl, rfl⟩⟩

end DestroyState

end Kairos
