import Mathlib.Data.List.AList
import Kairos.Library.Transitions
import Kairos.Template.Syntax

/-!
# What has been delivered

The tables `taskDelivers` and `brokerDelivers` of `server/runner/worker.go`, and `checkCmdReply`,
which turns replies into events. An entry is made under the name of the client, and a reply comes
under that name with `_client` after it, by which it is then replaced, so that no later push or
reply finds it.
-/

namespace Kairos

open List
open Transitions (Meets run)
open Function (update_self update_of_ne comp_apply)

inductive DeliverStatus where
  | pendingDeliver
  | successSetTask
  | faultSetTask
  | successTriggerTask
  | faultTriggerTask
  | successReceiveInputTaskCmd
  | successReceiveOutputTaskCmd
  | faultInputTask
  | successReceiveRequestRunSyncTaskCmd
  | successSetBroker
  | faultSetBroker
  | successDestroyWorkflow
  | faultDestroyWorkflow
  | successTrigger
  | faultTrigger
  deriving DecidableEq

inductive ResponseActionTask where
  | replySetTaskCmd
  | replyStartTaskCmd
  | replyOutputTaskCmd
  | replyInputTaskCmd
  | replyMessageCmd
  | replyRequestTaskSyncCmd
  | replySetBrokerCmd
  | replyDestroyWf
  | replyLogWfCmd
  | replyTriggerCmd
  deriving DecidableEq

/-- The fields of a reply that the worker reads of a delivery. -/
structure CmdReplyTask where
  cmd : ResponseActionTask
  status : DeliverStatus
  runOn : GoString
  taskID : ℤ
  brokerID : ℤ
  deriving DecidableEq

inductive Event where
  | receiveDeliverTaskCmd (r : CmdReplyTask)
  | receiveDeliverBrokerCmd (r : CmdReplyTask)
  deriving DecidableEq

/-- What `checkCmdReply` does with a reply. -/
inductive Checked where
  | event (e : Event)
  | fault
  | nothing
  deriving DecidableEq

def checkCmdReply (err : Bool) (r : CmdReplyTask) : Checked :=
  if err then .fault
  else
    match r.cmd with
    | .replySetTaskCmd => .event (.receiveDeliverTaskCmd r)
    | .replySetBrokerCmd =>
      if r.status = .faultSetBroker then .fault else .event (.receiveDeliverBrokerCmd r)
    | _ => .nothing

/-! ## The tables -/

/-- An entry of the worker's tables of deliveries. -/
structure Deliver where
  client : GoString
  status : DeliverStatus
  deriving DecidableEq

def kairosName : GoString := "kairos"

/-- The name a client's reply carries. -/
def runOn (client : GoString) : GoString := client ++ subClient

/-- `taskDelivers` and `brokerDelivers` of the worker. -/
structure Delivers where
  taskDelivers : AList fun _ : ℤ => List Deliver
  brokerDelivers : AList fun _ : ℤ => List Deliver

namespace Delivers

def empty : Delivers := ⟨∅, ∅⟩

/-- The list with `d` in it: in place of the entries it is the same as, or else at the end. -/
def updated (same : Deliver → Deliver → Bool) (v : Option (List Deliver)) (d : Deliver) :
    List Deliver :=
  match v with
  | none => [d]
  | some v => if v.any (same · d) then v.map fun e => if same e d then d else e else v ++ [d]

/-- The entry that `updateStatusDeliverTask` overwrites. -/
def sameTask (e d : Deliver) : Bool := runOn e.client = d.client ∨ e.client = kairosName

/-- The entry that `updateStatusDeliverBroker` overwrites. -/
def sameBroker (e d : Deliver) : Bool := runOn e.client = d.client

def updateStatusDeliverTask (taskID : ℤ) (d : Deliver) (w : Delivers) : Delivers :=
  let v := updated sameTask (w.taskDelivers.lookup taskID) d
  { w with taskDelivers := w.taskDelivers.insert taskID v }

def updateStatusDeliverBroker (brokerID : ℤ) (d : Deliver) (w : Delivers) : Delivers :=
  let v := updated sameBroker (w.brokerDelivers.lookup brokerID) d
  { w with brokerDelivers := w.brokerDelivers.insert brokerID v }

/-- The check of the event loop before it starts the tasks. -/
def allDelivered (w : Delivers) : Bool :=
  w.taskDelivers.entries.all (fun p => p.2.all (·.status = .successSetTask)) &&
    w.brokerDelivers.entries.all fun p => p.2.all (·.status = .successSetBroker)

def receive (w : Delivers) : Event → Delivers
  | .receiveDeliverTaskCmd r => w.updateStatusDeliverTask r.taskID ⟨r.runOn, r.status⟩
  | .receiveDeliverBrokerCmd r => w.updateStatusDeliverBroker r.brokerID ⟨r.runOn, r.status⟩

end Delivers

/-- A task or a broker. -/
inductive Deliverable where
  | task (id : ℤ)
  | broker (id : ℤ)
  deriving DecidableEq

namespace Deliverable

def same : Deliverable → Deliver → Deliver → Bool
  | .task _ => Delivers.sameTask
  | .broker _ => Delivers.sameBroker

def success : Deliverable → DeliverStatus
  | .task _ => .successSetTask
  | .broker _ => .successSetBroker

def setReply (client : GoString) (status : DeliverStatus) : Deliverable → CmdReplyTask
  | .task id => ⟨.replySetTaskCmd, status, runOn client, id, 0⟩
  | .broker id => ⟨.replySetBrokerCmd, status, runOn client, 0, id⟩

end Deliverable

namespace Delivers

def lookup (w : Delivers) : Deliverable → Option (List Deliver)
  | .task id => w.taskDelivers.lookup id
  | .broker id => w.brokerDelivers.lookup id

def entries (w : Delivers) (o : Deliverable) : List Deliver := (w.lookup o).getD []

def update (w : Delivers) (d : Deliver) : Deliverable → Delivers
  | .task id => w.updateStatusDeliverTask id d
  | .broker id => w.updateStatusDeliverBroker id d

end Delivers

/-! ## Pushes and replies -/

/-- A push to a client, its reply, or the worker's own reply. -/
inductive DeliverOp where
  | push (o : Deliverable) (client : GoString)
  | reply (o : Deliverable) (client : GoString) (status : DeliverStatus)
  | own (taskID : ℤ) (status : DeliverStatus)
  deriving DecidableEq

namespace DeliverOp

def object : DeliverOp → Deliverable
  | .push o _ => o
  | .reply o _ _ => o
  | .own taskID _ => .task taskID

def client : DeliverOp → GoString
  | .push _ client => client
  | .reply _ client _ => client
  | .own _ _ => kairosName

def status : DeliverOp → DeliverStatus
  | .push _ _ => .pendingDeliver
  | .reply _ _ status => status
  | .own _ status => status

def name : DeliverOp → GoString
  | .push _ client => client
  | .reply _ client _ => runOn client
  | .own _ _ => kairosName

def deliver (op : DeliverOp) : Deliver := ⟨op.name, op.status⟩

end DeliverOp

namespace Delivers

def checked (w : Delivers) : Checked → Delivers
  | .event e => w.receive e
  | .fault => w
  | .nothing => w

def apply (w : Delivers) : DeliverOp → Delivers
  | .push o client => w.update ⟨client, .pendingDeliver⟩ o
  | .reply o client status => w.checked (checkCmdReply false (o.setReply client status))
  | .own taskID status =>
    w.receive (.receiveDeliverTaskCmd ⟨.replySetTaskCmd, status, kairosName, taskID, 0⟩)

end Delivers

/-- The tables with the history of what was pushed and replied. -/
structure Ledger where
  delivers : Delivers
  history : List DeliverOp

namespace Ledger

def start : Ledger := ⟨.empty, []⟩

/-- The clients that the object was pushed to. -/
def pushed (o : Deliverable) (h : List DeliverOp) : List GoString :=
  h.foldl (fun cs op =>
    if (op = .push o op.client) ∧ op.client ∉ cs then cs ++ [op.client] else cs) []

/-- The last status of the object at the client. -/
def latest (o : Deliverable) (client : GoString) (h : List DeliverOp) : DeliverStatus :=
  h.foldl (fun status op => if op.object = o ∧ op.client = client then op.status else status)
    .pendingDeliver

def next (s : Ledger) (op : DeliverOp) : Option Ledger :=
  if op = .push op.object op.client ∨ op.client ∈ pushed op.object s.history then
    some ⟨s.delivers.apply op, s.history ++ [op]⟩
  else none

/-- One entry for each client that the object was pushed to, with the status of the latest push or
reply. -/
def Exact (s : Ledger) (o : Deliverable) : Prop :=
  ∃ name : GoString → GoString, (∀ c, name c = c ∨ name c = runOn c) ∧
    (s.delivers.entries o).Perm
      ((pushed o s.history).map fun c => ⟨name c, latest o c s.history⟩)

def Fresh (l : List Deliver) (op : DeliverOp) : Prop :=
  op = .push op.object op.client ∧
    ∀ e ∈ l, op.object.same e op.deliver = false ∧ e.client ≠ op.client ∧ e.client ≠ runOn op.client

/-- It replaces the entry under its client's name and no other, by one under a name that is free. -/
def Renews (l : List Deliver) (op : DeliverOp) : Prop :=
  (∃ e ∈ l, e.client = op.client) ∧
    (∀ e ∈ l, op.object.same e op.deliver ↔ e.client = op.client) ∧
    (op.name = op.client ∨ ∀ e ∈ l, e.client ≠ op.name)

/-- The reply reaches the table. -/
def Recorded : DeliverOp → Prop
  | .reply (.broker _) _ status => status ≠ .faultSetBroker
  | _ => True

instance : DecidablePred Recorded
  | .push _ _ | .reply (.task _) _ _ => .isTrue trivial
  | .reply (.broker _) _ status => inferInstanceAs (Decidable (status ≠ .faultSetBroker))
  | .own _ _ => .isTrue trivial

def Keeps (s : Ledger) (op : DeliverOp) : Prop :=
  Recorded op ∧ (Fresh (s.delivers.entries op.object) op ∨ Renews (s.delivers.entries op.object) op)

instance (l : List Deliver) (op : DeliverOp) : Decidable (Fresh l op) :=
  inferInstanceAs (Decidable (_ ∧ _))

instance (l : List Deliver) (op : DeliverOp) : Decidable (Renews l op) :=
  inferInstanceAs (Decidable (_ ∧ _))

instance (s : Ledger) (op : DeliverOp) : Decidable (Keeps s op) :=
  inferInstanceAs (Decidable (_ ∧ _))

end Ledger

/-! ### What one step does to the entries -/

theorem runOn_ne (c : GoString) : runOn c ≠ c := by
  unfold runOn
  rw [Ne, append_right_eq_self]
  decide

theorem runOn_ne_kairosName (c : GoString) : runOn c ≠ kairosName := by
  intro h
  have hsuffix : subClient <:+ kairosName := ⟨c, h⟩
  exact absurd hsuffix (by decide)

theorem Deliverable.of_same {o : Deliverable} {e d : Deliver} (h : o.same e d) :
    runOn e.client = d.client ∨ e.client = kairosName := by
  cases o with
  | task => exact of_decide_eq_true h
  | broker => exact .inl (of_decide_eq_true h)

namespace Delivers

variable {w : Delivers} {o : Deliverable} {d : Deliver} {op : DeliverOp}

theorem lookup_insert (t : AList fun _ : ℤ => List Deliver) (id id' : ℤ) (v : List Deliver) :
    (t.insert id v).lookup id' = if id' = id then some v else t.lookup id' := by
  split_ifs with h
  · rw [h, AList.lookup_insert]
  · exact AList.lookup_insert_ne h

theorem lookup_update (o' : Deliverable) : (w.update d o).lookup o' =
      if o' = o then some (updated o.same (w.lookup o) d) else w.lookup o' := by
  cases o <;> cases o' <;>
    simp [update, updateStatusDeliverTask, updateStatusDeliverBroker, lookup, Deliverable.same,
      lookup_insert]

theorem updated_some (same : Deliver → Deliver → Bool) (v : List Deliver) :
    updated same (some v) d =
      if v.any (same · d) then v.map fun e => if same e d then d else e else v ++ [d] := rfl

theorem updated_eq (same : Deliver → Deliver → Bool) (v : Option (List Deliver)) :
    updated same v d = updated same (some (v.getD [])) d := by
  cases v <;> rfl

theorem apply_eq_update (h : Ledger.Recorded op) : w.apply op = w.update op.deliver op.object := by
  cases op with
  | push | own => rfl
  | reply o client status =>
    cases o with
    | task => rfl
    | broker id =>
      have hstatus : status ≠ .faultSetBroker := h
      have hcheck : checkCmdReply false ((Deliverable.broker id).setReply client status) =
          .event (.receiveDeliverBrokerCmd ((Deliverable.broker id).setReply client status)) :=
        if_neg hstatus
      exact congrArg w.checked hcheck

theorem entries_apply (h : Ledger.Recorded op) (o : Deliverable) : (w.apply op).entries o =
      if o = op.object then updated op.object.same (some (w.entries op.object)) op.deliver
      else w.entries o := by
  unfold entries
  rw [apply_eq_update h, lookup_update]
  split_ifs with ho
  · exact updated_eq _ _
  · rfl

end Delivers

namespace Delivers

variable {w : Delivers} {id : ℤ} {e : Deliver}

theorem mem_entries_task :
    e ∈ w.entries (.task id) ↔ ∃ v, ⟨id, v⟩ ∈ w.taskDelivers.entries ∧ e ∈ v := by
  simp only [entries, lookup, ← AList.mem_lookup_iff, Option.mem_def]
  cases w.taskDelivers.lookup id <;> simp

theorem mem_entries_broker :
    e ∈ w.entries (.broker id) ↔ ∃ v, ⟨id, v⟩ ∈ w.brokerDelivers.entries ∧ e ∈ v := by
  simp only [entries, lookup, ← AList.mem_lookup_iff, Option.mem_def]
  cases w.brokerDelivers.lookup id <;> simp

theorem allDelivered_iff : w.allDelivered ↔ ∀ o, ∀ e ∈ w.entries o, e.status = o.success := by
  unfold allDelivered
  simp only [Bool.and_eq_true, all_eq_true, decide_eq_true_eq]
  constructor
  · rintro ⟨htasks, hbrokers⟩ o e he
    cases o with
    | task id =>
      obtain ⟨v, hv, he⟩ := mem_entries_task.1 he
      exact htasks _ hv e he
    | broker id =>
      obtain ⟨v, hv, he⟩ := mem_entries_broker.1 he
      exact hbrokers _ hv e he
  · intro h
    exact ⟨fun q hq e he => h (.task q.1) e (mem_entries_task.2 ⟨q.2, hq, he⟩),
      fun q hq e he => h (.broker q.1) e (mem_entries_broker.2 ⟨q.2, hq, he⟩)⟩

end Delivers

namespace Ledger

variable {o : Deliverable} {c : GoString} {h : List DeliverOp} {op : DeliverOp} {s : Ledger}

theorem pushed_append : pushed o (h ++ [op]) =
      if op = .push o op.client ∧ op.client ∉ pushed o h then pushed o h ++ [op.client]
      else pushed o h := by
  unfold pushed
  rw [foldl_append]
  rfl

theorem latest_append : latest o c (h ++ [op]) =
      if op.object = o ∧ op.client = c then op.status else latest o c h := by
  unfold latest
  rw [foldl_append]
  rfl

theorem pushed_append_of_ne (ho : o ≠ op.object) : pushed o (h ++ [op]) = pushed o h := by
  rw [pushed_append, if_neg]
  rintro ⟨hop, -⟩
  rw [hop] at ho
  exact ho rfl

theorem latest_append_of_ne (hop : ¬ (op.object = o ∧ op.client = c)) :
    latest o c (h ++ [op]) = latest o c h := by
  rw [latest_append, if_neg hop]

/-- The entries are those of the clients, in the order of the pushes and under different names. -/
def Listed (s : Ledger) (o : Deliverable) (name : GoString → GoString) : Prop :=
  (∀ c, name c = c ∨ name c = runOn c) ∧ ((pushed o s.history).map name).Nodup ∧
    s.delivers.entries o = (pushed o s.history).map fun c => ⟨name c, latest o c s.history⟩

def after (s : Ledger) (op : DeliverOp) : Ledger := ⟨s.delivers.apply op, s.history ++ [op]⟩

variable {name : GoString → GoString}

theorem Listed.mem_entries (hs : s.Listed o name) (hc : c ∈ pushed o s.history) :
    ⟨name c, latest o c s.history⟩ ∈ s.delivers.entries o := by
  rw [hs.2.2]
  exact mem_map_of_mem hc

theorem Listed.exists_client (hs : s.Listed o name) {e : Deliver} (he : e ∈ s.delivers.entries o) :
    ∃ c ∈ pushed o s.history, name c = e.client := by
  rw [hs.2.2, mem_map] at he
  obtain ⟨c, hc, rfl⟩ := he
  exact ⟨c, hc, rfl⟩

theorem Listed.frame (hs : s.Listed o name) (hop : Recorded op) (ho : o ≠ op.object) :
    (s.after op).Listed o name := by
  obtain ⟨hname, hnodup, hentries⟩ := hs
  unfold Listed after
  simp only [pushed_append_of_ne ho, Delivers.entries_apply hop, if_neg ho]
  refine ⟨hname, hnodup, ?_⟩
  rw [hentries]
  refine map_congr_left fun c _ => ?_
  rw [latest_append_of_ne fun h => ho h.1.symm]

theorem Listed.fresh (hs : s.Listed op.object name) (hop : Recorded op)
    (hfresh : Fresh (s.delivers.entries op.object) op) :
    (s.after op).Listed op.object (Function.update name op.client op.client) := by
  obtain ⟨hpush, hnone⟩ := hfresh
  -- a client that was pushed to has an entry, under its own name or under `runOn`
  have hnew : op.client ∉ pushed op.object s.history := by
    intro hmem
    obtain ⟨-, hbare, hrun⟩ := hnone _ (hs.mem_entries hmem)
    exact (hs.1 op.client).elim hbare hrun
  have hold {c : GoString} (hc : c ∈ pushed op.object s.history) : c ≠ op.client :=
    fun heq => hnew (heq ▸ hc)
  have hpushed : pushed op.object (s.history ++ [op]) = pushed op.object s.history ++
      [op.client] := by
    rw [pushed_append, if_pos ⟨hpush, hnew⟩]
  unfold Listed after
  simp only [hpushed, map_append, map_singleton, update_self]
  refine ⟨fun c => ?_, ?_, ?_⟩
  · rcases eq_or_ne c op.client with rfl | hc
    · exact .inl (update_self ..)
    · rw [update_of_ne hc]
      exact hs.1 c
  · rw [map_congr_left fun c hc => update_of_ne (hold hc) op.client name]
    refine nodup_append'.2 ⟨hs.2.1, nodup_singleton _, ?_⟩
    rw [disjoint_singleton]
    intro hmem
    obtain ⟨c, hc, heq⟩ := mem_map.1 hmem
    exact (hnone _ (hs.mem_entries hc)).2.1 heq
  · have hany : (s.delivers.entries op.object).any (op.object.same · op.deliver) = false :=
      any_eq_false.2 fun e he => by simp [(hnone e he).1]
    rw [Delivers.entries_apply hop, if_pos rfl, Delivers.updated_some, hany,
      if_neg Bool.false_ne_true,
      hs.2.2]
    congr 1
    · refine map_congr_left fun c hc => ?_
      rw [update_of_ne (hold hc), latest_append_of_ne fun h => hold hc h.2.symm]
    · rw [latest_append, if_pos ⟨rfl, rfl⟩, DeliverOp.deliver]
      rw [hpush]
      rfl

theorem Listed.owner (hs : s.Listed op.object name)
    (hrenews : Renews (s.delivers.entries op.object) op)
    (hclient : op = .push op.object op.client ∨ op.client ∈ pushed op.object s.history) :
    op.client ∈ pushed op.object s.history ∧ name op.client = op.client := by
  obtain ⟨⟨e, he, hec⟩, hsame, hname⟩ := hrenews
  obtain ⟨c, hc, hcname⟩ := hs.exists_client he
  rw [hec] at hcname
  by_cases hkairos : op.client = kairosName
  · -- No client replies under the server's own name.
    have hcc : c = op.client := by
      rcases hs.1 c with h | h
      · rw [← h, hcname]
      · rw [h, hkairos] at hcname
        exact absurd hcname (runOn_ne_kairosName c)
    rw [hcc] at hc hcname
    exact ⟨hc, hcname⟩
  · have hreplied : op.name ≠ op.client ∧ op.client ∈ pushed op.object s.history ∧
        op.name = runOn op.client := by
      cases op with
      | push o client =>
        -- A push finds an entry under the same name only where it is the server's own.
        rcases Deliverable.of_same ((hsame e he).2 hec) with h | h
        · rw [hec] at h
          exact absurd h (runOn_ne client)
        · exact absurd (hec.symm.trans h) hkairos
      | reply o client status =>
        exact ⟨runOn_ne client, hclient.resolve_left nofun, rfl⟩
      | own => exact absurd rfl hkairos
    obtain ⟨hne, hmem, hrun⟩ := hreplied
    refine ⟨hmem, (hs.1 _).resolve_right fun h => ?_⟩
    exact hname.resolve_left hne _ (hs.mem_entries hmem) (h.trans hrun.symm)

theorem Listed.renews (hs : s.Listed op.object name) (hop : Recorded op)
    (hrenews : Renews (s.delivers.entries op.object) op)
    (hclient : op = .push op.object op.client ∨ op.client ∈ pushed op.object s.history) :
    (s.after op).Listed op.object (Function.update name op.client op.name) := by
  obtain ⟨hmem, hbare⟩ := hs.owner hrenews hclient
  obtain ⟨⟨e, he, hec⟩, hsame, hname⟩ := hrenews
  have hpushed : pushed op.object (s.history ++ [op]) = pushed op.object s.history := by
    rw [pushed_append, if_neg fun h => h.2 hmem]
  have hinj := inj_on_of_nodup_map hs.2.1
  unfold Listed after
  simp only [hpushed]
  refine ⟨fun c => ?_, ?_, ?_⟩
  · rcases eq_or_ne c op.client with rfl | hc
    · rw [update_self]
      cases op with
      | push | own => exact .inl rfl
      | reply => exact .inr rfl
    · rw [update_of_ne hc]
      exact hs.1 c
  · -- The name of the step is that of no other client.
    have hother {c : GoString} (hc : c ∈ pushed op.object s.history) (hne : c ≠ op.client) :
        name c ≠ op.name := by
      rcases hname with h | h
      · intro heq
        exact hne (hinj hc hmem (heq.trans (h.trans hbare.symm)))
      · exact h _ (hs.mem_entries hc)
    refine List.Nodup.map_on (fun c hc c' hc' heq => ?_) (List.Nodup.of_map name hs.2.1)
    by_cases h : c = op.client <;> by_cases h' : c' = op.client
    · rw [h, h']
    · rw [h, update_self, update_of_ne h'] at heq
      exact absurd heq.symm (hother hc' h')
    · rw [h', update_self, update_of_ne h] at heq
      exact absurd heq (hother hc h)
    · rw [update_of_ne h, update_of_ne h'] at heq
      exact hinj hc hc' heq
  · have hany : (s.delivers.entries op.object).any (op.object.same · op.deliver) :=
      any_eq_true.2 ⟨e, he, (hsame e he).2 hec⟩
    rw [Delivers.entries_apply hop, if_pos rfl, Delivers.updated_some, hany, if_pos rfl, hs.2.2,
      map_map]
    refine map_congr_left fun c hc => ?_
    have hiff := hsame _ (hs.mem_entries hc)
    rcases eq_or_ne c op.client with rfl | hne
    · rw [comp_apply, if_pos (hiff.2 hbare), update_self, latest_append,
        if_pos ⟨rfl, rfl⟩, DeliverOp.deliver]
    · have hother : name c ≠ op.client := fun h => hne (hinj hc hmem (h.trans hbare.symm))
      rw [comp_apply, if_neg fun h => hother (hiff.1 h), update_of_ne hne,
        latest_append_of_ne fun h => hne h.2.symm]

theorem listed_after (hs : ∀ o, ∃ name, s.Listed o name) (hop : s.Keeps op)
    (hclient : op = .push op.object op.client ∨ op.client ∈ pushed op.object s.history)
    (o : Deliverable) : ∃ name, (s.after op).Listed o name := by
  obtain ⟨hrecorded, hstep⟩ := hop
  by_cases ho : o = op.object
  · subst ho
    obtain ⟨name, hs⟩ := hs op.object
    rcases hstep with hfresh | hrenews
    · exact ⟨_, hs.fresh hrecorded hfresh⟩
    · exact ⟨_, hs.renews hrecorded hrenews hclient⟩
  · obtain ⟨name, hs⟩ := hs o
    exact ⟨name, hs.frame hrecorded ho⟩

theorem listed_next {s' : Ledger} (hs : ∀ o, ∃ name, s.Listed o name) (hop : s.Keeps op)
    (hnext : s.next op = some s') (o : Deliverable) : ∃ name, s'.Listed o name := by
  obtain ⟨hclient, heq⟩ := Option.ite_none_right_eq_some.1 hnext
  exact Option.some.inj heq ▸ listed_after hs hop hclient o

/-- If pushes and replies are each recorded, and are the first push to their client or renew its
entry, every object has one entry for each client, with the latest status. -/
theorem delivers_exact {ops : List DeliverOp} {s : Ledger}
    (hops : Meets next Keeps start ops) (hrun : run next start ops = some s)
    (o : Deliverable) : s.Exact o := by
  have hstart (o : Deliverable) : ∃ name, start.Listed o name :=
    ⟨id, fun _ => .inl rfl, nodup_nil, by cases o <;> rfl⟩
  obtain ⟨name, hname, -, hentries⟩ :=
    Transitions.run_invariant (I := fun s => ∀ o, ∃ name, s.Listed o name)
      (fun _ _ _ => listed_next) hstart hops hrun o
  exact ⟨name, hname, .of_eq hentries⟩

/-- Two clients reply once each, the second with a failure, beside a task of the server that is
pushed again. -/
theorem delivers_exact_two_clients : let ops : List DeliverOp :=
      [.push (.task 1) "a", .push (.task 1) "b", .push (.task 2) kairosName,
        .own 2 .successSetTask, .reply (.task 1) "b" .faultSetTask,
        .reply (.task 1) "a" .successSetTask, .push (.task 2) kairosName]
    ∃ s, Meets next Keeps start ops ∧ run next start ops = some s ∧
      s.Exact (.task 1) ∧ s.Exact (.task 2) := by
  have hops : Meets next Keeps start
      [.push (.task 1) "a", .push (.task 1) "b", .push (.task 2) kairosName,
        .own 2 .successSetTask, .reply (.task 1) "b" .faultSetTask,
        .reply (.task 1) "a" .successSetTask, .push (.task 2) kairosName] := by
    decide +kernel
  exact ⟨_, hops, rfl, delivers_exact hops rfl _, delivers_exact hops rfl _⟩

/-- A client fails and then succeeds: the task has two entries for it. -/
theorem second_reply_adds_entry : ∃ s, run next start
        [.push (.task 1) "a", .reply (.task 1) "a" .faultSetTask,
          .reply (.task 1) "a" .successSetTask] = some s ∧
      pushed (.task 1) s.history = ["a"] ∧
      s.delivers.entries (.task 1) =
        [⟨"a_client", .faultSetTask⟩, ⟨"a_client", .successSetTask⟩] ∧
      ¬ s.Exact (.task 1) := by
  refine ⟨_, rfl, rfl, rfl, ?_⟩
  rintro ⟨name, -, hperm⟩
  have hlength := hperm.length_eq
  rw [length_map] at hlength
  exact absurd hlength (by decide)

end Ledger

end Kairos
