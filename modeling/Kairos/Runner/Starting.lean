import Mathlib.Data.List.Induction
import Kairos.Runner.EventLoop

/-!
# The start of a workflow

The loop of a worker starts the tasks when an event leaves everything delivered that is in the
tables (`allDelivered`). These are filled meanwhile, so the first replies can start a workflow of
which most is not pushed yet. Until then a worker is `Delivering`: each client that was pushed to is
awaited, has failed or is at hand.
-/

namespace Kairos

open Transitions (Meets run)
open Ledger (pushed latest Fresh Renews Recorded after listed_after)

namespace Plan

def pairs (p : Plan) : List (Deliverable × GoString) :=
  (p.tasks.flatMap fun t => t.clients.map fun c => (.task t.id, c)) ++
    p.brokers.flatMap fun b => b.clients.map fun c => (.broker b.id, c)

def Regular (p : Plan) : Prop :=
  (∀ t ∈ p.tasks, t.executor ≠ .client → t.clients = []) ∧ ∀ x ∈ p.pairs, x.2 ≠ kairosName

end Plan

namespace WorkerState

def nextUpdate (s : WorkerState) : Option (Deliverable × GoString) :=
  match s.push with
  | .update o c :: _ => some (o, c)
  | _ => none

def atHand (s : WorkerState) : Option DeliverOp :=
  match s.loop with
  | .receive op :: _ => some op
  | _ => none

variable {s : WorkerState}

theorem nextUpdate_eq {o : Deliverable} {c : GoString} {rest : List PushOp}
    (h : s.push = .update o c :: rest) : s.nextUpdate = some (o, c) := by
  simp [nextUpdate, h]

theorem atHand_eq {op : DeliverOp} {rest : List LoopOp}
    (h : s.loop = .receive op :: rest) : s.atHand = some op := by
  simp [atHand, h]

end WorkerState

def Answered (h : List DeliverOp) (o : Deliverable) (c : GoString) : Prop :=
  ∃ op ∈ h, op.object = o ∧ op.client = c ∧ op.status = o.success

def OtherOpen (l : Ledger) (op : DeliverOp) : Prop :=
  ∃ q ∈ l.history, ∃ e ∈ l.delivers.entries q.object, e.status ≠ q.object.success ∧
    (q.object = op.object → op.object.same e op.deliver = false)

/-- A push is the first to its client, an event renews its client's entry and comes when nothing is
left to push or something else is open, and what is recovered is not awaited, at hand or
answered. -/
def Prudent (s : WorkerState) : WorkerAct → Prop
  | .push _ => ∀ x ∈ s.nextUpdate, Fresh (s.ledger.delivers.entries x.1) (.push x.1 x.2)
  | .loop => ∀ op ∈ s.atHand, Renews (s.ledger.delivers.entries op.object) op ∧
      (s.push = [] ∨ OtherOpen s.ledger op)
  | .reply _ _ _ => True
  | .timeout _ _ => True
  | .recover o c => (o, c) ∉ s.awaited ∧ (∀ op ∈ s.atHand, ¬ (op.object = o ∧ op.client = c)) ∧
      ¬ Answered s.ledger.history o c

instance (l : Ledger) (op : DeliverOp) : Decidable (OtherOpen l op) :=
  inferInstanceAs (Decidable (∃ q ∈ l.history, _))

instance (h : List DeliverOp) (o : Deliverable) (c : GoString) : Decidable (Answered h o c) :=
  inferInstanceAs (Decidable (∃ op ∈ h, _))

instance (s : WorkerState) : DecidablePred (Prudent s)
  | .push _ => inferInstanceAs (Decidable (∀ x ∈ s.nextUpdate, _))
  | .loop => inferInstanceAs (Decidable (∀ op ∈ s.atHand, _))
  | .reply _ _ _ | .timeout _ _ => .isTrue trivial
  | .recover _ _ => inferInstanceAs (Decidable (_ ∧ _))

/-! ## What the tables say -/

section

variable {o : Deliverable} {c : GoString} {h : List DeliverOp} {op : DeliverOp} {l : Ledger}

theorem pendingDeliver_ne_success : DeliverStatus.pendingDeliver ≠ o.success := by
  cases o <;> exact nofun

theorem Answered.append (ha : Answered h o c) : Answered (h ++ [op]) o c := by
  obtain ⟨q, hq, hqs⟩ := ha
  exact ⟨q, List.mem_append_left _ hq, hqs⟩

theorem answered_of_latest (hlatest : latest o c h = o.success) : Answered h o c := by
  induction h using List.reverseRecOn with
  | nil => exact absurd hlatest pendingDeliver_ne_success
  | append_singleton h op ih =>
    rw [Ledger.latest_append] at hlatest
    split_ifs at hlatest with hop
    · exact ⟨op, by simp, hop.1, hop.2, hlatest⟩
    · exact (ih hlatest).append

theorem mem_pushed_append (hc : c ∈ pushed o h) : c ∈ pushed o (h ++ [op]) := by
  rw [Ledger.pushed_append]
  split_ifs
  · exact List.mem_append_left _ hc
  · exact hc

theorem mem_pushed_push : c ∈ pushed o (h ++ [.push o c]) := by
  rw [Ledger.pushed_append]
  split_ifs with hnew
  · exact List.mem_append_right _ (List.mem_singleton_self _)
  · by_contra hmem
    exact hnew ⟨rfl, hmem⟩

theorem latest_of_allDelivered (hl : ∀ o, ∃ name, l.Listed o name)
    (hall : l.delivers.allDelivered) (hc : c ∈ pushed o l.history) :
    latest o c l.history = o.success := by
  obtain ⟨name, hl⟩ := hl o
  exact Delivers.allDelivered_iff.1 hall o _ (hl.mem_entries hc)

theorem mem_entries_after {e : Deliver} (hop : Recorded op) (he : e ∈ l.delivers.entries o)
    (hkeep : o = op.object → op.object.same e op.deliver = false) :
    e ∈ (l.after op).delivers.entries o := by
  rw [after, Delivers.entries_apply hop]
  split_ifs with ho
  · subst ho
    rw [Delivers.updated_some]
    split_ifs
    · exact List.mem_map.2 ⟨e, he, if_neg (by simp [hkeep rfl])⟩
    · exact List.mem_append_left _ he
  · exact he

theorem not_allDelivered_of_other (hother : OtherOpen l op) (hop : Recorded op) :
    (l.after op).delivers.allDelivered = false := by
  obtain ⟨q, -, e, he, hstatus, hkeep⟩ := hother
  rw [← Bool.not_eq_true]
  exact fun hall => hstatus (Delivers.allDelivered_iff.1 hall _ e (mem_entries_after hop he hkeep))

theorem not_mem_pushed_of_fresh (hl : ∀ o, ∃ name, l.Listed o name)
    (hfresh : Fresh (l.delivers.entries o) (.push o c)) : c ∉ pushed o l.history := by
  intro hc
  obtain ⟨name, hl⟩ := hl o
  obtain ⟨-, hbare, hrun⟩ := hfresh.2 _ (hl.mem_entries hc)
  exact (hl.1 c).elim hbare hrun

end

/-! ## The program of the push goroutine -/

def PushOp.fate : PushOp → Option (Deliverable × GoString)
  | .update _ _ => none
  | .deliver o c => some (o, c)
  | .publish taskID => some (.task taskID, kairosName)
  | .abort o c => some (o, c)

inductive Alternates : List PushOp → Prop
  | nil : Alternates []
  | cons {o : Deliverable} {c : GoString} {f : PushOp} {rest : List PushOp}
      (hf : f.fate = some (o, c))
      (hrest : Alternates rest) : Alternates (.update o c :: f :: rest)

variable {ops : List PushOp}

theorem Alternates.append {ops' : List PushOp} (h : Alternates ops) (h' : Alternates ops') :
    Alternates (ops ++ ops') := by
  induction h with
  | nil => exact h'
  | cons hf _ ih => exact .cons hf ih

theorem Alternates.fate_head (h : Alternates ops) : ∀ f ∈ ops.head?, f.fate = none := by
  cases h with
  | nil => simp
  | cons => simp [PushOp.fate]

namespace Plan

variable {p : Plan} {t : WorkerTask}

theorem alternates_deliverTask {rest : List PushOp} (hrest : Alternates rest)
    (cs : List GoString) : Alternates (deliverTask t rest cs) := by
  induction cs with
  | nil => exact hrest
  | cons c cs ih =>
    unfold deliverTask
    split_ifs
    · exact .cons rfl ih
    · exact .cons rfl .nil

theorem alternates_walk (ts : List WorkerTask) : Alternates (p.walk ts) := by
  induction ts with
  | nil => exact .nil
  | cons t ts ih =>
    unfold walk
    cases t.executor with
    | pubSub =>
      split_ifs
      · exact .cons rfl ih
      · exact .cons rfl .nil
    | httpHook => exact ih
    | client => exact alternates_deliverTask ih t.clients

theorem alternates_deliverBrokers : Alternates p.deliverBrokers := by
  have hclients (o : Deliverable) (cs : List GoString) :
      Alternates (cs.flatMap fun c => [.update o c, .deliver o c]) := by
    induction cs with
    | nil => exact .nil
    | cons c cs ih => exact .cons rfl ih
  unfold deliverBrokers
  induction p.brokers with
  | nil => exact .nil
  | cons b bs ih => exact (hclients _ b.clients).append ih

theorem deliverTask_covers (t : WorkerTask) (rest : List PushOp) (cs : List GoString) :
    (∃ o c, .abort o c ∈ deliverTask t rest cs) ∨
      (∀ c ∈ cs, .update (.task t.id) c ∈ deliverTask t rest cs) ∧
        ∀ op ∈ rest, op ∈ deliverTask t rest cs := by
  induction cs with
  | nil => exact .inr ⟨by simp, fun _ h => h⟩
  | cons c cs ih =>
    unfold deliverTask
    split_ifs with hc
    · rcases ih with ⟨o, c', h⟩ | ⟨hcs, hrest⟩
      · exact .inl ⟨o, c', by simp [h]⟩
      · refine .inr ⟨fun c' hc' => ?_, fun op hop => by simp [hrest op hop]⟩
        rcases List.mem_cons.1 hc' with rfl | hc'
        · simp
        · simp [hcs c' hc']
    · exact .inl ⟨.task t.id, c, by simp⟩

theorem walk_covers {ts : List WorkerTask} (hts : ∀ t ∈ ts, t.executor ≠ .client → t.clients = [])
    (ht : t ∈ ts) {c : GoString} (hc : c ∈ t.clients) :
    (∃ o c, .abort o c ∈ p.walk ts) ∨ .update (.task t.id) c ∈ p.walk ts := by
  induction ts with
  | nil => simp at ht
  | cons t₀ ts ih =>
    rw [List.forall_mem_cons] at hts
    -- What covers the tasks that follow covers them here.
    have hrest {ops : List PushOp} (hops : ∀ op ∈ p.walk ts, op ∈ ops) (ht : t ∈ ts) :
        (∃ o c, .abort o c ∈ ops) ∨ .update (.task t.id) c ∈ ops := by
      rcases ih hts.2 ht with ⟨o, c', h⟩ | h
      · exact .inl ⟨o, c', hops _ h⟩
      · exact .inr (hops _ h)
    have hhead : t₀.executor ≠ .client → t ∈ ts := by
      intro hexec
      refine (List.mem_cons.1 ht).resolve_left ?_
      rintro rfl
      rw [hts.1 hexec] at hc
      exact absurd hc List.not_mem_nil
    unfold walk
    cases hexec : t₀.executor with
    | pubSub =>
      split_ifs
      · exact hrest (fun op hop => by simp [hop]) (hhead (by simp [hexec]))
      · exact .inl ⟨.task t₀.id, kairosName, by simp⟩
    | httpHook => exact hrest (fun _ h => h) (hhead (by simp [hexec]))
    | client =>
      rcases deliverTask_covers t₀ (p.walk ts) t₀.clients with h | ⟨hcs, hops⟩
      · exact .inl h
      · rcases List.mem_cons.1 ht with rfl | ht
        · exact .inr (hcs c hc)
        · exact hrest hops ht

theorem start_covers (hp : p.Regular) {x : Deliverable × GoString} (hx : x ∈ p.pairs) :
    .update x.1 x.2 ∈ p.start.push ∨ ∃ o c, .abort o c ∈ p.start.push := by
  unfold start pushAllCmdTask
  rcases List.mem_append.1 hx with hx | hx
  · obtain ⟨t, ht, hx⟩ := List.mem_flatMap.1 hx
    obtain ⟨c, hc, rfl⟩ := List.mem_map.1 hx
    rcases walk_covers hp.1 ht hc with ⟨o, c', h⟩ | h
    · exact .inr ⟨o, c', List.mem_append_left _ h⟩
    · exact .inl (List.mem_append_left _ h)
  · obtain ⟨b, hb, hx⟩ := List.mem_flatMap.1 hx
    obtain ⟨c, hc, rfl⟩ := List.mem_map.1 hx
    refine .inl (List.mem_append_right _ ?_)
    exact List.mem_flatMap.2 ⟨b, hb, List.mem_flatMap.2 ⟨c, hc, List.mem_cons_self⟩⟩

end Plan

/-! ## Before the start -/

namespace WorkerState

structure Open (s : WorkerState) (o : Deliverable) (c : GoString) : Prop where
  pushed : c ∈ pushed o s.ledger.history
  latest : latest o c s.ledger.history ≠ o.success
  notAtHand : ∀ op ∈ s.atHand, ¬ (op.object = o ∧ op.client = c)

structure Idle (s : WorkerState) (o : Deliverable) (c : GoString) : Prop extends Open s o c where
  notAwaited : (o, c) ∉ s.awaited
  notFailed : (o, c) ∉ s.failed

def Stuck (s : WorkerState) : Prop :=
  ∃ o c, Idle s o c ∧ ∀ f ∈ s.push.head?, f.fate ≠ some (o, c)

inductive Handling (s : WorkerState) : Prop
  | waiting (hloop : s.loop = [])
  | event (op : DeliverOp) (hloop : s.loop = [.receive op, .check]) (hrecorded : Recorded op)
      (hclient : op.client ∈ pushed op.object s.ledger.history)
  | check (hloop : s.loop = [.check])
      (hpush : s.push = [] ∨ s.ledger.delivers.allDelivered = false)

def Pushing (s : WorkerState) : Prop :=
  Alternates s.push ∨
    ∃ o c f rest, s.push = f :: rest ∧ f.fate = some (o, c) ∧ Alternates rest ∧ Idle s o c

structure Delivering (p : Plan) (s : WorkerState) : Prop where
  triggers : s.triggers = 0
  listed : ∀ o, ∃ name, s.ledger.Listed o name
  nodup : s.awaited.Nodup
  awaited : ∀ x ∈ s.awaited, Open s x.1 x.2
  failed : ∀ x ∈ s.failed, x.2 ∈ pushed x.1 s.ledger.history
  handling : Handling s
  pushing : Pushing s
  covered : ∀ x ∈ p.pairs, x.2 ∈ pushed x.1 s.ledger.history ∨ .update x.1 x.2 ∈ s.push ∨
    (∃ o c, .abort o c ∈ s.push) ∨ Stuck s

structure Started (p : Plan) (s : WorkerState) : Prop where
  triggers : s.triggers = 1
  push : s.push = []
  awaited : s.awaited = []
  failed : ∀ x ∈ s.failed, Answered s.ledger.history x.1 x.2
  loop : ∀ op ∈ s.loop, ∃ q, op = .start q
  answered : ∀ x ∈ p.pairs, Answered s.ledger.history x.1 x.2

section

variable {p : Plan} {s s' : WorkerState} {a : WorkerAct} {o : Deliverable} {c : GoString}
  {op : DeliverOp}

theorem Open.of_eq (h : Open s o c) (hledger : s'.ledger = s.ledger)
    (hhand : ∀ op ∈ s'.atHand, ¬ (op.object = o ∧ op.client = c)) : Open s' o c :=
  ⟨hledger ▸ h.pushed, hledger ▸ h.latest, hhand⟩

theorem Open.of_after (h : Open s o c) (hledger : s'.ledger = s.ledger.after op)
    (hop : ¬ (op.object = o ∧ op.client = c))
    (hhand : ∀ op ∈ s'.atHand, ¬ (op.object = o ∧ op.client = c)) : Open s' o c := by
  refine ⟨?_, ?_, hhand⟩
  · rw [hledger]
    exact mem_pushed_append h.pushed
  · rw [hledger, after, Ledger.latest_append_of_ne hop]
    exact h.latest

theorem Open.push (h : Open s o c) (ops : List PushOp) : Open { s with push := ops } o c :=
  h.of_eq rfl h.notAtHand

theorem Idle.push (h : Idle s o c) (ops : List PushOp) : Idle { s with push := ops } o c :=
  ⟨h.toOpen.push ops, h.notAwaited, h.notFailed⟩

theorem delivering_start (hp : p.Regular) : Delivering p p.start where
  triggers := rfl
  listed := fun o => ⟨id, fun _ => .inl rfl, List.nodup_nil, by cases o <;> rfl⟩
  nodup := List.nodup_nil
  awaited := fun _ hx => absurd hx List.not_mem_nil
  failed := fun _ hx => absurd hx List.not_mem_nil
  handling := .waiting rfl
  pushing := .inl ((Plan.alternates_walk _).append Plan.alternates_deliverBrokers)
  covered := by
    intro x hx
    rcases Plan.start_covers hp hx with h | h
    · exact .inr (.inl h)
    · exact .inr (.inr (.inl h))

variable {f : PushOp} {rest : List PushOp}

theorem Delivering.idle_of_fate (hs : Delivering p s)
    (hpush : s.push = f :: rest) (hf : f.fate = some (o, c)) : Idle s o c ∧ Alternates rest := by
  rcases hs.pushing with halt | ⟨o', c', f', rest', heq, hf', hrest, hidle⟩
  · rw [hpush] at halt
    exact absurd (halt.fate_head f rfl) (by simp [hf])
  · rw [hpush, List.cons.injEq] at heq
    obtain ⟨rfl, rfl⟩ := heq
    rw [hf, Option.some.injEq, Prod.mk.injEq] at hf'
    obtain ⟨rfl, rfl⟩ := hf'
    exact ⟨hidle, hrest⟩

theorem Delivering.not_start (hs : Delivering p s) {q : PushOp} {rest : List LoopOp} :
    s.loop ≠ .start q :: rest := by
  intro hloop
  cases hs.handling with
  | waiting h | event _ h | check h => simp [h] at hloop

theorem covered_of_tail {x : Deliverable × GoString}
    (hpush : s.push = f :: rest) (hf : f.fate = some (o, c)) (hledger : s'.ledger = s.ledger)
    (hpush' : s'.push = rest) (hstuck : Stuck s → Stuck s') (habort : f = .abort o c → Stuck s')
    (hx : x.2 ∈ pushed x.1 s.ledger.history ∨ .update x.1 x.2 ∈ s.push ∨
      (∃ o c, .abort o c ∈ s.push) ∨ Stuck s) :
    x.2 ∈ pushed x.1 s'.ledger.history ∨ .update x.1 x.2 ∈ s'.push ∨
      (∃ o c, .abort o c ∈ s'.push) ∨ Stuck s' := by
  rw [hledger, hpush']
  rw [hpush] at hx
  rcases hx with hx | hx | ⟨o', c', hx⟩ | hx
  · exact .inl hx
  · rcases List.mem_cons.1 hx with rfl | hx
    · exact absurd hf (by simp [PushOp.fate])
    · exact .inr (.inl hx)
  · rcases List.mem_cons.1 hx with rfl | hx
    · rw [PushOp.fate, Option.some.injEq, Prod.mk.injEq] at hf
      obtain ⟨rfl, rfl⟩ := hf
      exact .inr (.inr (.inr (habort rfl)))
    · exact .inr (.inr (.inl ⟨o', c', hx⟩))
  · exact .inr (.inr (.inr (hstuck hx)))

theorem Delivering.mem_pushed (hs : Delivering p s) (hop : op ∈ s.atHand) :
    op.client ∈ pushed op.object s.ledger.history := by
  cases hs.handling with
  | waiting h | check h => simp [atHand, h] at hop
  | event op' h _ hclient =>
    simp only [atHand, h, Option.mem_def, Option.some.injEq] at hop
    exact hop ▸ hclient

theorem Handling.of_eq (h : Handling s) (hpush : s.push = [] → s'.push = [])
    (hledger : s'.ledger = s.ledger) (hloop : s'.loop = s.loop) : Handling s' := by
  cases h with
  | waiting h => exact .waiting (hloop.trans h)
  | event op h hrecorded hclient => exact .event op (hloop.trans h) hrecorded (hledger ▸ hclient)
  | check h hcheck => exact .check (hloop.trans h) (hledger ▸ hcheck.imp_left hpush)

section

variable (hs : Delivering p s)
include hs

theorem Delivering.update (hpush : s.push = .update o c :: rest)
    (hfresh : Fresh (s.ledger.delivers.entries o) (.push o c)) :
    Delivering p { s with ledger := s.ledger.after (.push o c), push := rest } := by
  have hnew : c ∉ pushed o s.ledger.history := not_mem_pushed_of_fresh hs.listed hfresh
  have hother {o' : Deliverable} {c' : GoString} (h : c' ∈ pushed o' s.ledger.history) :
      ¬ (o = o' ∧ c = c') := by
    rintro ⟨rfl, rfl⟩
    exact hnew h
  -- behind an update stands what becomes of the object
  obtain ⟨f, rest', rfl, hf, hrest⟩ :
      ∃ f rest', rest = f :: rest' ∧ f.fate = some (o, c) ∧ Alternates rest' := by
    rcases hs.pushing with halt | ⟨o', c', f, rest', heq, hf, -, -⟩
    · rw [hpush] at halt
      cases halt with
      | cons hf hrest => exact ⟨_, _, rfl, hf, hrest⟩
    · rw [hpush, List.cons.injEq] at heq
      exact absurd hf (by simp [← heq.1, PushOp.fate])
  have hlisted : ∀ o', ∃ name, (s.ledger.after (.push o c)).Listed o' name :=
    listed_after hs.listed ⟨trivial, .inl hfresh⟩ (.inl rfl)
  have hlatest : latest o c (s.ledger.history ++ [.push o c]) ≠ o.success := by
    rw [Ledger.latest_append, if_pos ⟨rfl, rfl⟩]
    exact pendingDeliver_ne_success
  -- the new entry is pending, so the event loop cannot find all delivered
  have hall : (s.ledger.after (.push o c)).delivers.allDelivered = false := by
    rw [← Bool.not_eq_true]
    exact fun hall => hlatest (latest_of_allDelivered hlisted hall mem_pushed_push)
  have hopen {o' : Deliverable} {c' : GoString} (h : Open s o' c') :
      Open { s with ledger := s.ledger.after (.push o c), push := f :: rest' } o' c' :=
    h.of_after rfl (hother h.pushed) h.notAtHand
  have hidle {o' : Deliverable} {c' : GoString} (h : Idle s o' c') :
      Idle { s with ledger := s.ledger.after (.push o c), push := f :: rest' } o' c' :=
    ⟨hopen h.toOpen, h.notAwaited, h.notFailed⟩
  refine
    { hs with
      listed := hlisted
      awaited := fun x hx => hopen (hs.awaited x hx)
      failed := fun x hx => mem_pushed_append (hs.failed x hx)
      handling := ?_
      pushing := .inr ⟨o, c, f, rest', rfl, hf, hrest, ⟨mem_pushed_push, hlatest, ?_⟩, ?_, ?_⟩
      covered := fun x hx => ?_ }
  · cases hs.handling with
    | waiting h => exact .waiting h
    | event op h hrecorded hclient => exact .event op h hrecorded (mem_pushed_append hclient)
    | check h => exact .check h (.inr hall)
  · intro op hop h
    exact hother (hs.mem_pushed hop) ⟨h.1.symm, h.2.symm⟩
  · exact fun h => hother (hs.awaited _ h).pushed ⟨rfl, rfl⟩
  · exact fun h => hother (hs.failed _ h) ⟨rfl, rfl⟩
  · rcases hs.covered x hx with h | h | ⟨o', c', h⟩ | ⟨o', c', h, -⟩
    · exact .inl (mem_pushed_append h)
    · rw [hpush, List.mem_cons, PushOp.update.injEq] at h
      rcases h with ⟨rfl, rfl⟩ | h
      · exact .inl mem_pushed_push
      · exact .inr (.inl h)
    · rw [hpush] at h
      exact .inr (.inr (.inl ⟨o', c', (List.mem_cons.1 h).resolve_left nofun⟩))
    · refine .inr (.inr (.inr ⟨o', c', hidle h, ?_⟩))
      intro f' hf' hfate
      obtain rfl : f = f' := by simpa using hf'
      rw [hf, Option.some.injEq, Prod.mk.injEq] at hfate
      exact hother h.pushed hfate

theorem Delivering.deliver (hpush : s.push = .deliver o c :: rest) :
    Delivering p { s with push := rest, awaited := s.awaited ++ [(o, c)] } := by
  obtain ⟨hidle, hrest⟩ := hs.idle_of_fate hpush rfl
  refine
    { hs with
      nodup := ?_
      awaited := fun x hx => ?_
      handling := hs.handling.of_eq (by simp [hpush]) rfl rfl
      pushing := .inl hrest
      covered := fun x hx => ?_ }
  · rw [List.nodup_append_comm]
    exact List.nodup_cons.2 ⟨hidle.notAwaited, hs.nodup⟩
  · rcases List.mem_append.1 hx with hx | hx
    · exact (hs.awaited x hx).of_eq rfl (hs.awaited x hx).notAtHand
    · obtain rfl := List.mem_singleton.1 hx
      exact hidle.toOpen.of_eq rfl hidle.notAtHand
  · refine covered_of_tail hpush rfl rfl rfl ?_ nofun (hs.covered x hx)
    rintro ⟨o', c', h, hhead⟩
    refine ⟨o', c', ⟨h.toOpen.of_eq rfl h.notAtHand, ?_, h.notFailed⟩, ?_⟩
    · rw [List.mem_append, List.mem_singleton, not_or]
      refine ⟨h.notAwaited, fun heq => hhead (.deliver o c) (by simp [hpush]) ?_⟩
      rw [PushOp.fate, heq]
    · intro f hf
      simp [hrest.fate_head f hf]

theorem Delivering.skip (hpush : s.push = f :: rest) (hf : f.fate = some (o, c)) :
    Delivering p { s with push := rest } := by
  obtain ⟨hidle, hrest⟩ := hs.idle_of_fate hpush hf
  have hhead {o' : Deliverable} {c' : GoString} : ∀ f ∈ rest.head?, f.fate ≠ some (o', c') := by
    intro f hf
    simp [hrest.fate_head f hf]
  refine
    { hs with
      awaited := fun x hx => (hs.awaited x hx).push rest
      handling := hs.handling.of_eq (by simp [hpush]) rfl rfl
      pushing := .inl hrest
      covered := fun x hx => ?_ }
  refine covered_of_tail hpush hf rfl rfl ?_ (fun _ => ⟨o, c, hidle.push rest, hhead⟩)
    (hs.covered x hx)
  rintro ⟨o', c', h, -⟩
  exact ⟨o', c', h.push rest, hhead⟩

theorem Delivering.unsent
    (hpush : s.push = .deliver o c :: rest) : Delivering p { s with push := [] } := by
  obtain ⟨hidle, -⟩ := hs.idle_of_fate hpush rfl
  exact
    { hs with
      awaited := fun x hx => (hs.awaited x hx).push []
      handling := hs.handling.of_eq (by simp [hpush]) rfl rfl
      pushing := .inl .nil
      covered := fun x hx => .inr (.inr (.inr ⟨o, c, hidle.push [], by simp⟩)) }

theorem Delivering.publish {id : ℤ} (hpush : s.push = .publish id :: rest) :
    Delivering p { s with push := rest, loop := [.receive (.own id .successSetTask), .check] } := by
  obtain ⟨hidle, hrest⟩ := hs.idle_of_fate hpush rfl
  -- The event is not one of a client that is awaited.
  have hhand {o : Deliverable} {c : GoString} (hne : (o, c) ≠ (.task id, kairosName)) :
      ∀ op ∈ some (DeliverOp.own id .successSetTask), ¬ (op.object = o ∧ op.client = c) := by
    rintro op hop ⟨rfl, rfl⟩
    obtain rfl : DeliverOp.own id .successSetTask = op := by simpa using hop
    exact hne rfl
  refine
    { hs with
      awaited := fun x hx => (hs.awaited x hx).of_eq rfl (hhand ?_)
      handling := .event _ rfl trivial hidle.pushed
      pushing := .inl hrest
      covered := fun x hx => ?_ }
  · exact fun heq => hidle.notAwaited (heq ▸ hx)
  · refine covered_of_tail hpush rfl rfl rfl ?_ nofun (hs.covered x hx)
    rintro ⟨o, c, h, hhead⟩
    refine ⟨o, c, ⟨h.toOpen.of_eq rfl (hhand fun heq => ?_), h.notAwaited, h.notFailed⟩,
      fun f hf => ?_⟩
    · exact hhead (.publish id) (by simp [hpush]) (by rw [PushOp.fate, heq])
    · simp [hrest.fate_head f hf]

theorem Delivering.of_idle (htriggers : s'.triggers = s.triggers) (hpush : s'.push = s.push)
    (hpushed : ∀ {o c}, c ∈ pushed o s.ledger.history → c ∈ pushed o s'.ledger.history)
    (hidle : ∀ {o c}, Idle s o c → Idle s' o c) (hlisted : ∀ o, ∃ name, s'.ledger.Listed o name)
    (hnodup : s'.awaited.Nodup) (hawaited : ∀ x ∈ s'.awaited, Open s' x.1 x.2)
    (hfailed : ∀ x ∈ s'.failed, x.2 ∈ pushed x.1 s'.ledger.history) (hhandling : Handling s') :
    Delivering p s' where
  triggers := htriggers.trans hs.triggers
  listed := hlisted
  nodup := hnodup
  awaited := hawaited
  failed := hfailed
  handling := hhandling
  pushing := by
    unfold Pushing
    rw [hpush]
    rcases hs.pushing with h | ⟨o, c, f, rest, heq, hf, hrest, h⟩
    · exact .inl h
    · exact .inr ⟨o, c, f, rest, heq, hf, hrest, hidle h⟩
  covered := by
    intro x hx
    rw [hpush]
    rcases hs.covered x hx with h | h | h | ⟨o, c, h, hhead⟩
    · exact .inl (hpushed h)
    · exact .inr (.inl h)
    · exact .inr (.inr (.inl h))
    · exact .inr (.inr (.inr ⟨o, c, hidle h, by rwa [hpush]⟩))

theorem Delivering.receive {rest : List LoopOp} (hloop : s.loop = .receive op :: rest)
    (hrenews : Renews (s.ledger.delivers.entries op.object) op)
    (hcheck : s.push = [] ∨ OtherOpen s.ledger op) :
    Delivering p { s with ledger := s.ledger.after op, loop := rest } := by
  obtain ⟨rfl, hrecorded, hclient⟩ : rest = [.check] ∧ Recorded op ∧
      op.client ∈ pushed op.object s.ledger.history := by
    cases hs.handling with
    | waiting h | check h => simp [h] at hloop
    | event op' h hrecorded hclient =>
      rw [h, List.cons.injEq, LoopOp.receive.injEq] at hloop
      obtain ⟨rfl, rfl⟩ := hloop
      exact ⟨rfl, hrecorded, hclient⟩
  have hopen {o : Deliverable} {c : GoString} (h : Open s o c) :
      Open { s with ledger := s.ledger.after op, loop := [.check] } o c :=
    h.of_after rfl (h.notAtHand op (atHand_eq hloop)) (by simp [atHand])
  refine hs.of_idle rfl rfl mem_pushed_append
    (fun h => ⟨hopen h.toOpen, h.notAwaited, h.notFailed⟩)
    (listed_after hs.listed ⟨hrecorded, .inr hrenews⟩ (.inr hclient)) hs.nodup
    (fun x hx => hopen (hs.awaited x hx)) (fun x hx => mem_pushed_append (hs.failed x hx))
    (.check rfl (hcheck.imp_right fun hother => ?_))
  exact not_allDelivered_of_other hother hrecorded

theorem Delivering.wait {rest : List LoopOp} (hloop : s.loop = .check :: rest) :
    Delivering p { s with loop := rest } := by
  obtain rfl : rest = [] := by
    cases hs.handling with
    | waiting h | event _ h => simp [h] at hloop
    | check h => simpa [h] using hloop
  have hopen {o : Deliverable} {c : GoString} (h : Open s o c) : Open { s with loop := [] } o c :=
    h.of_eq rfl (by simp [atHand])
  exact hs.of_idle rfl rfl id
    (fun h => ⟨hopen h.toOpen, h.notAwaited, h.notFailed⟩) hs.listed hs.nodup
    (fun x hx => hopen (hs.awaited x hx)) hs.failed (.waiting rfl)

theorem Delivering.reply {status : DeliverStatus} (hmem : (o, c) ∈ s.awaited)
    (hrecorded : Recorded (.reply o c status)) : Delivering p { s with
      awaited := s.awaited.erase (o, c), loop := [.receive (.reply o c status), .check] } := by
  have hopen {o' : Deliverable} {c' : GoString} (h : Open s o' c') (hne : (o', c') ≠ (o, c)) :
      Open { s with
        awaited := s.awaited.erase (o, c)
        loop := [.receive (.reply o c status), .check] } o' c' := by
    refine h.of_eq rfl ?_
    rintro op hop ⟨rfl, rfl⟩
    obtain rfl : DeliverOp.reply o c status = op := by simpa [atHand] using hop
    exact hne rfl
  refine hs.of_idle rfl rfl id (fun h => ⟨hopen h.toOpen ?_, fun hx => ?_, h.notFailed⟩) hs.listed
    (hs.nodup.erase _) (fun x hx => ?_) hs.failed
      (.event _ rfl hrecorded (hs.awaited _ hmem).pushed)
  · exact fun heq => h.notAwaited (heq ▸ hmem)
  · exact h.notAwaited (List.mem_of_mem_erase hx)
  · obtain ⟨hne, hx⟩ := hs.nodup.mem_erase_iff.1 hx
    exact hopen (hs.awaited x hx) hne

theorem Delivering.fault (hmem : (o, c) ∈ s.awaited) :
    Delivering p { s with awaited := s.awaited.erase (o, c), failed := s.failed ++ [(o, c)] } := by
  refine hs.of_idle rfl rfl id
    (fun h => ⟨h.toOpen.of_eq rfl h.notAtHand, fun hx => ?_, fun hx => ?_⟩) hs.listed
    (hs.nodup.erase _) (fun x hx => ?_) (fun x hx => ?_) (hs.handling.of_eq id rfl rfl)
  · exact h.notAwaited (List.mem_of_mem_erase hx)
  · rcases List.mem_append.1 hx with hx | hx
    · exact h.notFailed hx
    · exact h.notAwaited (List.mem_singleton.1 hx ▸ hmem)
  · have h := hs.awaited x (List.mem_of_mem_erase hx)
    exact h.of_eq rfl h.notAtHand
  · exact List.forall_mem_append.2
      ⟨hs.failed, List.forall_mem_singleton.2 (hs.awaited _ hmem).pushed⟩ x hx

theorem Delivering.recover (hmem : (o, c) ∈ s.failed) (hnew : (o, c) ∉ s.awaited)
    (hhand : ∀ op ∈ s.atHand, ¬ (op.object = o ∧ op.client = c))
    (hanswered : ¬ Answered s.ledger.history o c) :
    Delivering p { s with awaited := s.awaited ++ [(o, c)] } := by
  refine hs.of_idle rfl rfl id
    (fun h => ⟨h.toOpen.of_eq rfl h.notAtHand, fun hx => ?_, h.notFailed⟩) hs.listed ?_
    (fun x hx => ?_) hs.failed (hs.handling.of_eq id rfl rfl)
  · rcases List.mem_append.1 hx with hx | hx
    · exact h.notAwaited hx
    · exact h.notFailed (List.mem_singleton.1 hx ▸ hmem)
  · rw [List.nodup_append_comm]
    exact List.nodup_cons.2 ⟨hnew, hs.nodup⟩
  · rcases List.mem_append.1 hx with hx | hx
    · exact (hs.awaited x hx).of_eq rfl (hs.awaited x hx).notAtHand
    · obtain rfl := List.mem_singleton.1 hx
      exact ⟨hs.failed _ hmem, fun h => hanswered (answered_of_latest h), hhand⟩

/-! ## The start and after -/

theorem Delivering.trigger {rest : List LoopOp}
    (hloop : s.loop = .check :: rest) (hall : s.ledger.delivers.allDelivered) (ops : List PushOp) :
    Started p { s with loop := ops.map .start, triggers := s.triggers + 1 } := by
  have hlatest {o : Deliverable} {c : GoString} (hc : c ∈ pushed o s.ledger.history) :
      latest o c s.ledger.history = o.success := latest_of_allDelivered hs.listed hall hc
  have hpush : s.push = [] := by
    cases hs.handling with
    | waiting h | event _ h => simp [h] at hloop
    | check _ hcheck => exact hcheck.resolve_right (by simp [hall])
  refine
    { triggers := by rw [hs.triggers]
      push := hpush
      awaited := ?_
      failed := fun x hx => answered_of_latest (hlatest (hs.failed x hx))
      loop := fun op hop => ?_
      answered := fun x hx => ?_ }
  · -- A client that is awaited has not succeeded.
    rw [List.eq_nil_iff_forall_not_mem]
    exact fun x hx => (hs.awaited x hx).latest (hlatest (hs.awaited x hx).pushed)
  · obtain ⟨q, -, rfl⟩ := List.mem_map.1 hop
    exact ⟨q, rfl⟩
  · rcases hs.covered x hx with h | h | ⟨o, c, h⟩ | ⟨o, c, h, -⟩
    · exact answered_of_latest (hlatest h)
    · simp [hpush] at h
    · simp [hpush] at h
    · exact absurd (hlatest h.pushed) h.latest

theorem Delivering.next (ha : Prudent s a) (hnext : p.next s a = some s') :
    Delivering p s' ∨ Started p s' := by
  cases Plan.step_of_next hnext with
  | update hpush => exact .inl (hs.update hpush (ha _ (nextUpdate_eq hpush)))
  | deliver hpush => exact .inl (hs.deliver hpush)
  | unsentTask hpush | abort hpush => exact .inl (hs.skip hpush rfl)
  | unsentBroker hpush => exact .inl (hs.unsent hpush)
  | publish hpush => exact .inl (hs.publish hpush)
  | receive hloop =>
    obtain ⟨hrenews, hcheck⟩ := ha _ (atHand_eq hloop)
    exact .inl (hs.receive hloop hrenews hcheck)
  | trigger hloop hall => exact .inr (hs.trigger hloop hall _)
  | wait hloop => exact .inl (hs.wait hloop)
  | startUpdate hloop | startOther hloop => exact absurd hloop hs.not_start
  | reply hmem _ hrecorded => exact .inl (hs.reply hmem hrecorded)
  | fault hmem => exact .inl (hs.fault hmem)
  | recover hmem => exact .inl (hs.recover hmem ha.1 ha.2.1 ha.2.2)

end

theorem Started.next (hs : Started p s) (ha : Prudent s a) (hnext : p.next s a = some s') :
    Started p s' := by
  have hstart {op : LoopOp} {rest : List LoopOp} (hloop : s.loop = op :: rest) :
      (∃ q, op = .start q) ∧ ∀ op ∈ rest, ∃ q, op = .start q := by
    have hs := hs.loop
    rw [hloop, List.forall_mem_cons] at hs
    exact hs
  cases Plan.step_of_next hnext with
  | update hpush | deliver hpush | unsentTask hpush | unsentBroker hpush | publish hpush
  | abort hpush => simp [hs.push] at hpush
  | receive hloop | trigger hloop | wait hloop =>
    obtain ⟨⟨q, hq⟩, -⟩ := hstart hloop
    exact absurd hq nofun
  | startUpdate hloop =>
    exact
      { hs with
        failed := fun x hx => (hs.failed x hx).append
        loop := (hstart hloop).2
        answered := fun x hx => (hs.answered x hx).append }
  | startOther hloop => exact { hs with loop := (hstart hloop).2 }
  | reply hmem | fault hmem => simp [hs.awaited] at hmem
  | recover hmem => exact absurd (hs.failed _ hmem) ha.2.2

end

end WorkerState

/-- If the steps are prudent, the loop starts the tasks at most once, after every client has replied
with success. -/
theorem starts_once {p : Plan} (hp : p.Regular) {as : List WorkerAct} {s : WorkerState}
    (has : Meets p.next Prudent p.start as) (hrun : run p.next p.start as = some s) :
    s.triggers ≤ 1 ∧
      (0 < s.triggers → ∀ x ∈ p.pairs, .reply x.1 x.2 x.1.success ∈ s.ledger.history) := by
  have hs : s.Delivering p ∨ s.Started p :=
    Transitions.run_invariant (I := fun s => WorkerState.Delivering p s ∨ WorkerState.Started p s)
      (fun _ _ _ hI ha hnext => hI.elim (fun h => h.next ha hnext) fun h => .inr (h.next ha hnext))
      (.inl (WorkerState.delivering_start hp)) has hrun
  rcases hs with hs | hs
  · simp [hs.triggers]
  · refine ⟨hs.triggers.le, fun _ x hx => ?_⟩
    obtain ⟨op, hop, hobject, hclient, hstatus⟩ := hs.answered x hx
    cases op with
    | push => exact absurd hstatus pendingDeliver_ne_success
    | reply o c status =>
      obtain ⟨⟩ : o = x.1 := hobject
      obtain ⟨⟩ : c = x.2 := hclient
      obtain ⟨⟩ : status = x.1.success := hstatus
      exact hop
    | own => exact absurd hclient.symm (hp.2 x hx)

/-- One of the replies does not come in time and is recovered, and the last one starts the tasks. -/
theorem starts_once_after_recovery :
    let p : Plan := ⟨[⟨1, .client, [], ["a", "b"], fun _ => "7"⟩],
      [⟨1, ["a"]⟩], fun _ => true⟩
    let as : List WorkerAct := List.replicate 6 (.push true) ++
      [.reply (.broker 1) "a" .successSetBroker, .loop, .loop,
        .timeout (.task 1) "b", .reply (.task 1) "a" .successSetTask, .loop, .loop,
        .recover (.task 1) "b", .reply (.task 1) "b" .successSetTask, .loop, .loop]
    ∃ s, p.Regular ∧ Meets p.next Prudent p.start as ∧
      run p.next p.start as = some s ∧ 0 < s.triggers ∧ s.triggers ≤ 1 ∧
      ∀ x ∈ p.pairs, .reply x.1 x.2 x.1.success ∈ s.ledger.history := by
  intro p as
  have hp : p.Regular := by
    unfold Plan.Regular
    decide
  have has : Meets p.next Prudent p.start as := by decide +kernel
  have htriggers : (run p.next p.start as).any (0 < ·.triggers) := by
    decide +kernel
  obtain ⟨s, hrun, hs⟩ := (Option.any_eq_true _ _).1 htriggers
  have hpos : 0 < s.triggers := of_decide_eq_true hs
  exact ⟨s, hp, has, hrun, hpos, (starts_once hp has hrun).1, (starts_once hp has hrun).2 hpos⟩

/-- The first broker is set before the second is pushed: the tasks are started then, and again
later. -/
theorem starts_early_and_twice :
    let p : Plan := ⟨[], [⟨1, ["a".toList]⟩, ⟨2, ["b".toList]⟩], fun _ => true⟩
    let as : List WorkerAct :=
      [.push true, .push true, .reply (.broker 1) "a".toList .successSetBroker, .loop, .loop]
    let bs : List WorkerAct :=
      [.push true, .push true, .reply (.broker 2) "b".toList .successSetBroker, .loop, .loop]
    ∃ s s', run p.next p.start as = some s ∧
      run p.next p.start (as ++ bs) = some s' ∧
      s.triggers = 1 ∧ (.broker 2, "b".toList) ∈ p.pairs ∧
      .reply (.broker 2) "b".toList .successSetBroker ∉ s.ledger.history ∧ s'.triggers = 2 := by
  exact ⟨_, _, rfl, rfl, rfl, by decide, by decide, rfl⟩

end Kairos
