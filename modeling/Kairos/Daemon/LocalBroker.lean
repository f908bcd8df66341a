import Kairos.Daemon.Store
import Kairos.Library.Transitions

/-!
# The local broker of the daemon

`kairos-local/kairosdeamon/agent/broker`: subscribers with a channel each, and the topics that they
have subscribed to, on both sides. `setupBroker` replaces the subscriber of a broker,
`DeleteWorkflow` detaches those that `GetWorkflow` lists, and `Broadcast` starts goroutines that
send.
-/

namespace Kairos.Daemon

open Strings

structure Subscriber where
  topics : List GoString
  destroyed : Bool
  closed : Bool
  sending : ℕ
deriving DecidableEq

def Subscriber.new : Subscriber := ⟨[], false, false, 0⟩

/-- `broker.Broker`, and the subscribers in `BrokerWfs`, numbered as they are made. -/
structure LocalBroker where
  made : ℕ
  subs : ℕ → Subscriber
  topics : GoString → Option (List ℕ)
  brokerWfs : ℤ → Option ℕ

namespace LocalBroker

def empty : LocalBroker := ⟨0, fun _ => .new, fun _ => none, fun _ => none⟩

def modify (b : LocalBroker) (i : ℕ) (f : Subscriber → Subscriber) : LocalBroker :=
  { b with subs := Function.update b.subs i (f (b.subs i)) }

def subscribeTopic (i : ℕ) (b : LocalBroker) (topic : GoString) : LocalBroker :=
  { b.modify i fun s => { s with topics := s.topics.insert topic } with
    topics := Function.update b.topics topic (some (((b.topics topic).getD []).insert i)) }

def subscribe (b : LocalBroker) (i : ℕ) (topics : List GoString) : LocalBroker :=
  topics.foldl (subscribeTopic i) b

def unsubscribeTopic (i : ℕ) (b : LocalBroker) (topic : GoString) : LocalBroker :=
  match b.topics topic with
  | none => b
  | some set =>
    { b.modify i fun s => { s with topics := s.topics.filter (· ≠ topic) } with
      topics := Function.update b.topics topic (some (set.filter (· ≠ i))) }

def unsubscribe (b : LocalBroker) (i : ℕ) : LocalBroker :=
  (b.subs i).topics.foldl (unsubscribeTopic i) b

def destroy (b : LocalBroker) (i : ℕ) : LocalBroker :=
  b.modify i fun s => { s with destroyed := true }

def close (b : LocalBroker) (i : ℕ) : LocalBroker := b.modify i fun s => { s with closed := true }

def topicsOf (broker : Broker) : List GoString :=
  broker.listens.map fun l => l ++ '-' :: itoa broker.workflowID

def create (b : LocalBroker) (broker : Broker) : LocalBroker :=
  { b with
    made := b.made + 1
    brokerWfs := Function.update b.brokerWfs broker.id (some b.made) }.subscribe b.made
    (topicsOf broker)

def members (b : LocalBroker) (topic : GoString) : List ℕ := (b.topics topic).getD []

end LocalBroker

inductive CallStep where
  | lookup (brokerID : ℤ)
  | destroy (i : ℕ)
  | close (i : ℕ)
  | unsubscribe (i : ℕ)
  | create (broker : Broker) (ok : Bool)

inductive BrokerAct where
  | setupBroker (broker : Broker) (ok : Bool)
  | deleteWorkflow (brokerIDs : List ℤ)
  | broadcast (topic : GoString)
  | go
  | spread (n : ℕ)
  | signal (n : ℕ)
  | receive (i : ℕ)

/-- The local broker, the call that is made, and the goroutines of `Broadcast` and `Signal`. -/
structure BrokerRun where
  broker : LocalBroker
  steps : List CallStep
  broadcasts : List GoString
  signals : List ℕ
  closedTwice : Bool
  sentToClosed : Bool

namespace BrokerRun

def start : BrokerRun := ⟨.empty, [], [], [], false, false⟩

def go (s : BrokerRun) : Option BrokerRun :=
  match s.steps with
  | [] => none
  | .lookup brokerID :: rest =>
    match s.broker.brokerWfs brokerID with
    | none => some { s with steps := rest }
    | some i => some { s with steps := .destroy i :: .close i :: .unsubscribe i :: rest }
  | .destroy i :: rest =>
    if (s.broker.subs i).sending = 0 then
      some { s with broker := s.broker.destroy i, steps := rest }
    else none
  | .close i :: rest =>
    some { s with
      broker := s.broker.close i
      steps := rest
      closedTwice := s.closedTwice || (s.broker.subs i).closed
      sentToClosed := s.sentToClosed || decide (0 < (s.broker.subs i).sending) }
  | .unsubscribe i :: rest => some { s with broker := s.broker.unsubscribe i, steps := rest }
  | .create broker ok :: rest =>
    if ok then some { s with broker := s.broker.create broker, steps := rest }
    else some { s with steps := rest }

def next (s : BrokerRun) (act : BrokerAct) : Option BrokerRun :=
  if s.closedTwice || s.sentToClosed then none
  else
    match act with
    | .setupBroker broker ok =>
      if s.steps.isEmpty then some { s with steps := [.lookup broker.id, .create broker ok] }
      else none
    | .deleteWorkflow brokerIDs =>
      if s.steps.isEmpty then some { s with steps := brokerIDs.map .lookup } else none
    | .broadcast topic =>
      if s.steps.isEmpty then some { s with broadcasts := s.broadcasts ++ [topic] } else none
    | .go => s.go
    | .spread n =>
      match s.broadcasts[n]? with
      | none => none
      | some topic =>
        some { s with
          broadcasts := s.broadcasts.eraseIdx n
          signals := s.signals ++ s.broker.members topic }
    | .signal n =>
      match s.signals[n]? with
      | none => none
      | some i =>
        if (s.broker.subs i).destroyed then some { s with signals := s.signals.eraseIdx n }
        else
          some { s with
            broker := s.broker.modify i fun sub => { sub with sending := sub.sending + 1 }
            signals := s.signals.eraseIdx n
            sentToClosed := (s.broker.subs i).closed }
    | .receive i =>
      if 0 < (s.broker.subs i).sending then
        some { s with
          broker := s.broker.modify i fun sub => { sub with sending := sub.sending - 1 } }
      else none

end BrokerRun

def LocalBroker.Agrees (b : LocalBroker) : Prop :=
  ∀ i topic, i ∈ b.members topic ↔ topic ∈ (b.subs i).topics ∧ (b.subs i).destroyed = false

/-- No channel was closed twice or sent to when closed, and after a call both sides agree. -/
def BrokerRun.Safe (s : BrokerRun) : Prop :=
  s.closedTwice = false ∧ s.sentToClosed = false ∧ (s.steps = [] → s.broker.Agrees)

def LocalBroker.FindsLive (b : LocalBroker) : List CallStep → Prop
  | .lookup brokerID :: _ => ∀ i ∈ b.brokerWfs brokerID, (b.subs i).destroyed = false
  | _ => True

def BrokerRun.FindsLive (s : BrokerRun) : BrokerAct → Prop
  | .go => s.broker.FindsLive s.steps
  | _ => True

instance (b : LocalBroker) : (steps : List CallStep) → Decidable (b.FindsLive steps)
  | .lookup brokerID :: _ =>
    inferInstanceAs (Decidable (∀ i ∈ b.brokerWfs brokerID, (b.subs i).destroyed = false))
  | [] | .destroy _ :: _ | .close _ :: _ | .unsubscribe _ :: _ | .create _ _ :: _ => .isTrue trivial

instance (s : BrokerRun) : (act : BrokerAct) → Decidable (s.FindsLive act)
  | .go => inferInstanceAs (Decidable (s.broker.FindsLive s.steps))
  | .setupBroker _ _ | .deleteWorkflow _ | .broadcast _ | .spread _ | .signal _ | .receive _ =>
    .isTrue trivial

/-! ## Topics -/

namespace LocalBroker

variable {b : LocalBroker} {i j : ℕ}

@[simp] theorem modify_self (b : LocalBroker) (i : ℕ) (f : Subscriber → Subscriber) :
    (b.modify i f).subs i = f (b.subs i) :=
  Function.update_self _ _ _

theorem modify_of_ne (b : LocalBroker) {i j : ℕ} (h : j ≠ i) (f : Subscriber → Subscriber) :
    (b.modify i f).subs j = b.subs j :=
  Function.update_of_ne h _ _

def Linked (b : LocalBroker) : Prop := ∀ i topic, i ∈ b.members topic ↔ topic ∈ (b.subs i).topics

structure SameBut (b b' : LocalBroker) (i : ℕ) : Prop where
  made : b'.made = b.made
  brokerWfs : b'.brokerWfs = b.brokerWfs
  others : ∀ j, j ≠ i → b'.subs j = b.subs j
  self : b'.subs i = { b.subs i with topics := (b'.subs i).topics }

theorem SameBut.refl (b : LocalBroker) (i : ℕ) : SameBut b b i :=
  ⟨rfl, rfl, fun _ _ => rfl, rfl⟩

theorem SameBut.trans {b b' b'' : LocalBroker} (h : SameBut b b' i) (h' : SameBut b' b'' i) :
    SameBut b b'' i where
  made := h'.made.trans h.made
  brokerWfs := h'.brokerWfs.trans h.brokerWfs
  others := fun j hj => (h'.others j hj).trans (h.others j hj)
  self := by
    have h₁ := h.self
    have h₂ := h'.self
    rw [h₁] at h₂
    exact h₂

theorem subscribeTopic_sameBut (i : ℕ) (b : LocalBroker) (topic : GoString) :
    SameBut b (subscribeTopic i b topic) i where
  made := rfl
  brokerWfs := rfl
  others := fun j hj => Function.update_of_ne hj _ _
  self := by simp [subscribeTopic, modify]

theorem unsubscribeTopic_sameBut (i : ℕ) (b : LocalBroker) (topic : GoString) :
    SameBut b (unsubscribeTopic i b topic) i := by
  unfold unsubscribeTopic
  split
  · exact .refl b i
  · refine ⟨rfl, rfl, fun j hj => Function.update_of_ne hj _ _, ?_⟩
    simp [modify]

theorem Linked.subscribeTopic (h : Linked b) (i : ℕ) (topic : GoString) :
    Linked (subscribeTopic i b topic) := by
  intro j t
  by_cases ht : t = topic
  · subst ht
    by_cases hj : j = i
    · subst hj
      simp [LocalBroker.subscribeTopic, members, modify]
    · have := h j t
      simpa [LocalBroker.subscribeTopic, members, modify, Function.update_of_ne hj, hj] using this
  · by_cases hj : j = i
    · subst hj
      have := h j t
      simpa [LocalBroker.subscribeTopic, members, modify, Function.update_of_ne ht, ht] using this
    · have := h j t
      simpa [LocalBroker.subscribeTopic, members, modify, Function.update_of_ne ht,
        Function.update_of_ne hj] using this

theorem Linked.unsubscribeTopic (h : Linked b) (i : ℕ) (topic : GoString) :
    Linked (unsubscribeTopic i b topic) ∧ ∀ t, t ∈ ((unsubscribeTopic i b topic).subs i).topics ↔
        t ∈ (b.subs i).topics ∧ t ≠ topic := by
  unfold LocalBroker.unsubscribeTopic
  split
  · rename_i hnone
    -- the subscriber does not have a topic that is not there
    have hnot : topic ∉ (b.subs i).topics := by
      rw [← h i topic, members, hnone]
      exact List.not_mem_nil
    refine ⟨h, fun t => ?_⟩
    constructor
    · intro ht
      exact ⟨ht, fun heq => hnot (heq ▸ ht)⟩
    · exact And.left
  · rename_i set hset
    refine ⟨fun j t => ?_, fun t => by simp [modify]⟩
    have hjt := h j t
    by_cases ht : t = topic
    · subst ht
      rw [members, hset] at hjt
      by_cases hj : j = i
      · subst hj
        simp [members, modify]
      · simpa [members, modify, Function.update_of_ne hj, hj] using hjt
    · by_cases hj : j = i
      · subst hj
        simpa [members, modify, Function.update_of_ne ht, ht] using hjt
      · simpa [members, modify, Function.update_of_ne ht, Function.update_of_ne hj] using hjt

theorem subscribe_sameBut (b : LocalBroker) (i : ℕ) (topics : List GoString) :
    SameBut b (b.subscribe i topics) i := by
  unfold subscribe
  induction topics generalizing b with
  | nil => exact .refl b i
  | cons topic topics ih => exact (subscribeTopic_sameBut i b topic).trans (ih _)

theorem Linked.subscribe (h : Linked b) (i : ℕ) (topics : List GoString) :
    Linked (b.subscribe i topics) := by
  unfold LocalBroker.subscribe
  induction topics generalizing b with
  | nil => exact h
  | cons topic topics ih => exact ih (h.subscribeTopic i topic)

variable {topic t : GoString}

theorem create_made (b : LocalBroker) (broker : Broker) : (b.create broker).made = b.made + 1 :=
  (subscribe_sameBut _ _ _).made

theorem unsubscribe_sameBut (b : LocalBroker) (i : ℕ) (topics : List GoString) :
    SameBut b (topics.foldl (unsubscribeTopic i) b) i := by
  induction topics generalizing b with
  | nil => exact .refl b i
  | cons topic topics ih => exact (unsubscribeTopic_sameBut i b topic).trans (ih _)

theorem unsubscribe_loop (h : Linked b) (i : ℕ) (topics : List GoString) :
    Linked (topics.foldl (unsubscribeTopic i) b) ∧
      ∀ t, t ∈ ((topics.foldl (unsubscribeTopic i) b).subs i).topics ↔
        t ∈ (b.subs i).topics ∧ t ∉ topics := by
  induction topics generalizing b with
  | nil => exact ⟨h, fun t => by simp⟩
  | cons topic topics ih =>
    obtain ⟨hround, hround_topics⟩ := h.unsubscribeTopic i topic
    obtain ⟨hlinked, htopics⟩ := ih hround
    refine ⟨hlinked, fun t => ?_⟩
    rw [List.foldl_cons, htopics t, hround_topics t, List.mem_cons, not_or, and_assoc]

theorem unsubscribe_linked (h : Linked b) (i : ℕ) :
    Linked (b.unsubscribe i) ∧ SameBut b (b.unsubscribe i) i ∧
      ((b.unsubscribe i).subs i).topics = [] := by
  obtain ⟨hlinked, htopics⟩ := unsubscribe_loop h i (b.subs i).topics
  refine ⟨hlinked, unsubscribe_sameBut b i _, List.eq_nil_iff_forall_not_mem.mpr fun t ht => ?_⟩
  obtain ⟨hmem, hnot⟩ := (htopics t).mp ht
  exact hnot hmem

theorem notMem_unsubscribeTopic (i : ℕ) (b : LocalBroker) (topic : GoString) :
    i ∉ (unsubscribeTopic i b topic).members topic := by
  unfold unsubscribeTopic members
  split
  · rename_i hnone
    rw [hnone]
    exact List.not_mem_nil
  · simp

theorem mem_of_mem_unsubscribeTopic
    (h : i ∈ (unsubscribeTopic i b topic).members t) : i ∈ b.members t := by
  by_cases ht : t = topic
  · subst ht
    exact absurd h (notMem_unsubscribeTopic i b t)
  · unfold unsubscribeTopic at h
    split at h
    · exact h
    · simpa [members, Function.update_of_ne ht] using h

theorem notMem_unsubscribe (b : LocalBroker) (i : ℕ)
    (h : topic ∈ (b.subs i).topics) : i ∉ (b.unsubscribe i).members topic := by
  have hloop : ∀ (topics : List GoString) (b : LocalBroker), topic ∈ topics ∨ i ∉ b.members topic →
      i ∉ (topics.foldl (unsubscribeTopic i) b).members topic := by
    intro topics
    induction topics with
    | nil => exact fun b h => h.resolve_left List.not_mem_nil
    | cons t topics ih =>
      intro b h
      refine ih _ ?_
      rcases h with h | h
      · rcases List.mem_cons.mp h with rfl | h
        · exact .inr (notMem_unsubscribeTopic i b topic)
        · exact .inl h
      · exact .inr fun hmem => h (mem_of_mem_unsubscribeTopic hmem)
  exact hloop _ b (.inl h)

theorem Linked.modify (h : Linked b) (i : ℕ) {f : Subscriber → Subscriber}
    (hf : ∀ s, (f s).topics = s.topics) : Linked (b.modify i f) := by
  intro j t
  have hjt : j ∈ (b.modify i f).members t ↔ t ∈ (b.subs j).topics := h j t
  rw [hjt]
  by_cases hj : j = i
  · subst hj
    rw [modify_self, hf]
  · rw [modify_of_ne b hj]

end LocalBroker

def CallStep.begins : CallStep → Bool
  | .lookup _ => true
  | .create _ _ => true
  | _ => false

inductive Phase (b : LocalBroker) : List CallStep → Prop
  | between {rest : List CallStep} (hrest : ∀ step ∈ rest, step.begins) : Phase b rest
  | destroying {i : ℕ} {rest : List CallStep} (hrest : ∀ step ∈ rest, step.begins)
      (hi : i < b.made) (hlive : (b.subs i).destroyed = false) :
      Phase b (.destroy i :: .close i :: .unsubscribe i :: rest)
  | closing {i : ℕ} {rest : List CallStep} (hrest : ∀ step ∈ rest, step.begins)
      (hi : i < b.made) (hdestroyed : (b.subs i).destroyed)
      (hopen : (b.subs i).closed = false) : Phase b (.close i :: .unsubscribe i :: rest)
  | leaving {i : ℕ} {rest : List CallStep} (hrest : ∀ step ∈ rest, step.begins)
      (hi : i < b.made) : Phase b (.unsubscribe i :: rest)

structure Subscribed (b : LocalBroker) (steps : List CallStep) : Prop where
  linked : b.Linked
  closed : ∀ i, (b.subs i).closed → (b.subs i).destroyed
  sending : ∀ i, 0 < (b.subs i).sending → (b.subs i).destroyed = false
  left : ∀ i, (b.subs i).destroyed →
    CallStep.unsubscribe i ∈ steps ∨ (b.subs i).topics = []
  unmade : ∀ i, b.made ≤ i → b.subs i = .new
  made : ∀ brokerID, ∀ i ∈ b.brokerWfs brokerID, i < b.made

structure BrokerInv (s : BrokerRun) : Prop where
  closedTwice : s.closedTwice = false
  sentToClosed : s.sentToClosed = false
  subscribed : Subscribed s.broker s.steps
  phase : Phase s.broker s.steps
  signals : ∀ i ∈ s.signals, i < s.broker.made

theorem BrokerInv.start : BrokerInv .start where
  closedTwice := rfl
  sentToClosed := rfl
  subscribed :=
    { linked := fun _ _ => by simp [BrokerRun.start, LocalBroker.empty, LocalBroker.members,
        Subscriber.new]
      closed := fun _ h => by cases h
      sending := fun _ h => absurd h (Nat.lt_irrefl 0)
      left := fun _ h => by cases h
      unmade := fun _ _ => rfl
      made := fun _ _ h => by cases h }
  phase := .between fun _ h => by cases h
  signals := fun _ h => by cases h

theorem BrokerInv.safe {s : BrokerRun} (h : BrokerInv s) : s.Safe := by
  refine ⟨h.closedTwice, h.sentToClosed, fun hsteps i topic => ?_⟩
  rw [h.subscribed.linked i topic]
  cases hd : (s.broker.subs i).destroyed with
  | false => simp
  | true =>
    rcases h.subscribed.left i hd with hmem | htopics
    · rw [hsteps] at hmem
      cases hmem
    · simp [htopics]

section Steps

variable {b : LocalBroker} {steps rest : List CallStep} {i : ℕ}

theorem Subscribed.open_of_live (h : Subscribed b steps) (hlive : (b.subs i).destroyed = false) :
    (b.subs i).closed = false := by
  by_contra hclosed
  rw [h.closed i (by simpa using hclosed)] at hlive
  cases hlive

theorem Subscribed.mono (h : Subscribed b rest)
    (hsteps : ∀ i, CallStep.unsubscribe i ∈ rest → CallStep.unsubscribe i ∈ steps) :
    Subscribed b steps :=
  { h with left := fun i hd => (h.left i hd).imp_left (hsteps i) }

theorem Subscribed.modify (h : Subscribed b steps) (i : ℕ) {f : Subscriber → Subscriber}
    (hi : i < b.made) (htopics : ∀ s, (f s).topics = s.topics)
    (hclosed : (f (b.subs i)).closed → (f (b.subs i)).destroyed)
    (hsending : 0 < (f (b.subs i)).sending → (f (b.subs i)).destroyed = false)
    (hleft : (f (b.subs i)).destroyed → CallStep.unsubscribe i ∈ steps ∨ (b.subs i).topics = []) :
    Subscribed (b.modify i f) steps where
  linked := h.linked.modify i htopics
  closed := by
    intro j
    by_cases hj : j = i
    · subst hj
      rw [LocalBroker.modify_self]
      exact hclosed
    · rw [LocalBroker.modify_of_ne b hj]
      exact h.closed j
  sending := by
    intro j
    by_cases hj : j = i
    · subst hj
      rw [LocalBroker.modify_self]
      exact hsending
    · rw [LocalBroker.modify_of_ne b hj]
      exact h.sending j
  left := by
    intro j
    by_cases hj : j = i
    · subst hj
      rw [LocalBroker.modify_self, htopics]
      exact hleft
    · rw [LocalBroker.modify_of_ne b hj]
      exact h.left j
  unmade := by
    intro j hj
    have hne : j ≠ i := fun heq => absurd hi (Nat.not_lt.mpr (heq ▸ hj))
    rw [LocalBroker.modify_of_ne b hne]
    exact h.unmade j hj
  made := h.made

theorem Subscribed.send (h : Subscribed b steps) (hi : i < b.made)
    (hlive : (b.subs i).destroyed = false) (g : ℕ → ℕ) :
    Subscribed (b.modify i fun s => { s with sending := g s.sending }) steps :=
  h.modify i (f := fun s => { s with sending := g s.sending }) hi (fun _ => rfl) (h.closed i)
    (fun _ => hlive) (h.left i)

theorem Subscribed.lt_made (h : Subscribed b steps) {topic : GoString}
    (hi : i ∈ b.members topic) : i < b.made := by
  by_contra hge
  rw [h.linked i topic, h.unmade i (Nat.not_lt.mp hge)] at hi
  cases hi

theorem Subscribed.destroy (h : Subscribed b (.destroy i :: .close i :: .unsubscribe i :: rest))
    (hi : i < b.made) (hzero : (b.subs i).sending = 0) :
    Subscribed (b.destroy i) (.close i :: .unsubscribe i :: rest) := by
  have hrest : Subscribed b (.close i :: .unsubscribe i :: rest) := h.mono fun j hj => by
    simpa using hj
  refine hrest.modify i hi (fun _ => rfl) (fun _ => rfl) (fun hpos => ?_) fun _ => .inl ?_
  · exact absurd hzero (Nat.pos_iff_ne_zero.mp hpos)
  · simp

theorem Subscribed.close (h : Subscribed b (.close i :: .unsubscribe i :: rest))
    (hi : i < b.made) (hdestroyed : (b.subs i).destroyed) :
    Subscribed (b.close i) (.unsubscribe i :: rest) := by
  have hrest : Subscribed b (.unsubscribe i :: rest) := h.mono fun j hj => by simpa using hj
  exact hrest.modify i hi (fun _ => rfl) (fun _ => hdestroyed) (h.sending i)
    fun _ => .inl List.mem_cons_self

theorem Subscribed.unsubscribe (h : Subscribed b (.unsubscribe i :: rest)) (hi : i < b.made) :
    Subscribed (b.unsubscribe i) rest := by
  obtain ⟨hlinked, hsame, htopics⟩ := LocalBroker.unsubscribe_linked h.linked i
  have hself : (b.unsubscribe i).subs i = { b.subs i with topics := [] } := by
    rw [hsame.self, htopics]
  refine ⟨hlinked, fun j => ?_, fun j => ?_, fun j hd => ?_, fun j hj => ?_, ?_⟩
  · by_cases hj : j = i
    · subst hj
      rw [hself]
      exact h.closed j
    · rw [hsame.others j hj]
      exact h.closed j
  · by_cases hj : j = i
    · subst hj
      rw [hself]
      exact h.sending j
    · rw [hsame.others j hj]
      exact h.sending j
  · by_cases hj : j = i
    · subst hj
      exact .inr htopics
    · rw [hsame.others j hj] at hd ⊢
      refine (h.left j hd).imp_left fun hmem => ?_
      rcases List.mem_cons.mp hmem with heq | hmem
      · exact absurd (CallStep.unsubscribe.inj heq) hj
      · exact hmem
  · rw [hsame.made] at hj
    have hne : j ≠ i := fun heq => absurd hi (Nat.not_lt.mpr (heq ▸ hj))
    rw [hsame.others j hne]
    exact h.unmade j hj
  · rw [hsame.made, hsame.brokerWfs]
    exact h.made

theorem Subscribed.create (h : Subscribed b rest) (broker : Broker) :
    Subscribed (b.create broker) rest := by
  -- the new subscriber is as `NewSubscriber` makes it, before it subscribes
  let b₁ : LocalBroker :=
    { b with
      made := b.made + 1
      brokerWfs := Function.update b.brokerWfs broker.id (some b.made) }
  have hnew : b₁.subs b.made = .new := h.unmade b.made (Nat.le_refl _)
  have hlinked : (b.create broker).Linked :=
    LocalBroker.Linked.subscribe (b := b₁) h.linked b.made (LocalBroker.topicsOf broker)
  have hsame : b₁.SameBut (b.create broker) b.made := LocalBroker.subscribe_sameBut b₁ b.made _
  have hself : (b.create broker).subs b.made =
      { Subscriber.new with topics := ((b.create broker).subs b.made).topics } := by
    conv_lhs => rw [hsame.self, hnew]
  have hothers : ∀ j, j ≠ b.made → (b.create broker).subs j = b.subs j := hsame.others
  refine ⟨hlinked, fun j => ?_, fun j => ?_, fun j hd => ?_, fun j hj => ?_, fun id j hj => ?_⟩
  · by_cases hj : j = b.made
    · subst hj
      rw [hself]
      intro hc
      cases hc
    · rw [hothers j hj]
      exact h.closed j
  · by_cases hj : j = b.made
    · subst hj
      rw [hself]
      exact fun _ => rfl
    · rw [hothers j hj]
      exact h.sending j
  · by_cases hj : j = b.made
    · subst hj
      rw [hself] at hd
      cases hd
    · rw [hothers j hj] at hd ⊢
      exact h.left j hd
  · rw [LocalBroker.create_made] at hj
    rw [hothers j (by omega)]
    exact h.unmade j (by omega)
  · have hwfs : (b.create broker).brokerWfs =
        Function.update b.brokerWfs broker.id (some b.made) := hsame.brokerWfs
    rw [LocalBroker.create_made]
    rw [hwfs] at hj
    by_cases hid : id = broker.id
    · subst hid
      rw [Function.update_self] at hj
      rw [← Option.some.inj hj]
      exact Nat.lt_succ_self _
    · rw [Function.update_of_ne hid] at hj
      exact Nat.lt_succ_of_lt (h.made id j hj)

theorem Phase.send (h : Phase b steps) (j : ℕ) (g : ℕ → ℕ) :
    Phase (b.modify j fun s => { s with sending := g s.sending }) steps := by
  have hsame : ∀ i, ((b.modify j fun s => { s with sending := g s.sending }).subs i).destroyed =
        (b.subs i).destroyed ∧
      ((b.modify j fun s => { s with sending := g s.sending }).subs i).closed =
        (b.subs i).closed := by
    intro i
    by_cases hi : i = j
    · subst hi
      rw [LocalBroker.modify_self]
      exact ⟨rfl, rfl⟩
    · rw [LocalBroker.modify_of_ne b hi]
      exact ⟨rfl, rfl⟩
  cases h with
  | between hrest => exact .between hrest
  | destroying hrest hi hlive => exact .destroying hrest hi ((hsame _).1.trans hlive)
  | closing hrest hi hdestroyed hopen =>
    exact .closing hrest hi ((hsame _).1.trans hdestroyed) ((hsame _).2.trans hopen)
  | leaving hrest hi => exact .leaving hrest hi

end Steps

section Runs

variable {s s' : BrokerRun}

theorem BrokerInv.go_between (h : BrokerInv s) {step : CallStep} {rest : List CallStep}
    (hsteps : s.steps = step :: rest) (hrest : ∀ step ∈ s.steps, step.begins)
    (hlive : s.FindsLive .go) (hgo : s.go = some s') : BrokerInv s' := by
  rw [hsteps] at hrest
  have hbegins := hrest step List.mem_cons_self
  have hrest' : ∀ step ∈ rest, step.begins :=
    fun step hstep => hrest step (List.mem_cons_of_mem _ hstep)
  have hsub : Subscribed s.broker rest := h.subscribed.mono fun i hi => by
    rw [hsteps] at hi
    rcases List.mem_cons.mp hi with rfl | hi
    · cases hbegins
    · exact hi
  unfold BrokerRun.go at hgo
  rw [hsteps] at hgo
  cases step with
  | lookup brokerID =>
    simp only at hgo
    split at hgo
    · cases hgo
      exact { h with subscribed := hsub, phase := .between hrest' }
    · rename_i i hi
      cases hgo
      have hfound : (s.broker.subs i).destroyed = false := by
        rw [BrokerRun.FindsLive, hsteps] at hlive
        exact hlive i hi
      exact { h with
        subscribed := hsub.mono fun j hj => by simp [hj]
        phase := .destroying hrest' (hsub.made brokerID i hi) hfound }
  | create broker ok =>
    simp only at hgo
    split at hgo
    · cases hgo
      exact { h with
        subscribed := hsub.create broker
        phase := .between hrest'
        signals := fun i hi => by
          rw [LocalBroker.create_made]
          exact Nat.lt_succ_of_lt (h.signals i hi) }
    · cases hgo
      exact { h with subscribed := hsub, phase := .between hrest' }
  | destroy i | close i | unsubscribe i => cases hbegins

theorem BrokerInv.begin (h : BrokerInv s) (hempty : s.steps.isEmpty)
    {steps : List CallStep} (hsteps : ∀ step ∈ steps, step.begins) :
    BrokerInv { s with steps := steps } :=
  { h with
    subscribed := h.subscribed.mono fun i hi => by
      rw [List.isEmpty_iff.mp hempty] at hi
      cases hi
    phase := .between hsteps }

theorem BrokerInv.go (h : BrokerInv s) (hlive : s.FindsLive .go) (hgo : s.go = some s') :
    BrokerInv s' := by
  have hphase := h.phase
  have hsub := h.subscribed
  generalize hsteps : s.steps = steps at hphase hsub
  cases hphase with
  | between hrest =>
    cases steps with
    | nil =>
      rw [BrokerRun.go, hsteps] at hgo
      cases hgo
    | cons step rest => exact h.go_between hsteps (hsteps ▸ hrest) hlive hgo
  | @destroying i rest hrest hi hfound =>
    rw [BrokerRun.go, hsteps] at hgo
    simp only at hgo
    split at hgo
    · rename_i hzero
      cases hgo
      exact { h with
        subscribed := hsub.destroy hi hzero
        phase := .closing hrest hi (by simp [LocalBroker.destroy])
          (by simpa [LocalBroker.destroy] using hsub.open_of_live hfound) }
    · cases hgo
  | @closing i rest hrest hi hdestroyed hopen =>
    rw [BrokerRun.go, hsteps] at hgo
    cases hgo
    -- a destroyed subscriber has no senders
    have hzero : ¬ 0 < (s.broker.subs i).sending := fun hpos => by
      rw [hsub.sending i hpos] at hdestroyed
      cases hdestroyed
    exact { h with
      closedTwice := by simp [h.closedTwice, hopen]
      sentToClosed := by simp [h.sentToClosed, hzero]
      subscribed := hsub.close hi hdestroyed
      phase := .leaving hrest hi }
  | @leaving i rest hrest hi =>
    rw [BrokerRun.go, hsteps] at hgo
    cases hgo
    have hmade := (LocalBroker.unsubscribe_linked hsub.linked i).2.1.made
    exact { h with
      subscribed := hsub.unsubscribe hi
      phase := .between hrest
      signals := fun j hj => by
        rw [hmade]
        exact h.signals j hj }

theorem BrokerInv.next (h : BrokerInv s) {act : BrokerAct} (hlive : s.FindsLive act)
    (hnext : s.next act = some s') : BrokerInv s' := by
  unfold BrokerRun.next at hnext
  rw [if_neg (by simp [h.closedTwice, h.sentToClosed])] at hnext
  cases act with
  | setupBroker broker ok | deleteWorkflow brokerIDs =>
    simp only at hnext
    split at hnext
    · rename_i hempty
      cases hnext
      exact h.begin hempty (by simp [CallStep.begins])
    · cases hnext
  | broadcast topic =>
    simp only at hnext
    split at hnext
    · cases hnext
      exact { h with }
    · cases hnext
  | go => exact h.go hlive hnext
  | spread n =>
    simp only at hnext
    split at hnext
    · cases hnext
    · rename_i topic htopic
      cases hnext
      exact { h with
        signals := List.forall_mem_append.mpr ⟨h.signals, fun _ hi => h.subscribed.lt_made hi⟩ }
  | signal n =>
    simp only at hnext
    split at hnext
    · cases hnext
    · rename_i i hi
      have hmade : i < s.broker.made := h.signals i (List.mem_of_getElem? hi)
      have hsignals : ∀ j ∈ s.signals.eraseIdx n, j < s.broker.made :=
        fun j hj => h.signals j (List.mem_of_mem_eraseIdx hj)
      split at hnext
      · cases hnext
        exact { h with signals := hsignals }
      · rename_i hlive
        cases hnext
        rw [Bool.not_eq_true] at hlive
        exact { h with
          sentToClosed := h.subscribed.open_of_live hlive
          subscribed := h.subscribed.send hmade hlive (· + 1)
          phase := h.phase.send i (· + 1)
          signals := hsignals }
  | receive i =>
    simp only at hnext
    split at hnext
    · rename_i hpos
      cases hnext
      -- a channel not made yet holds no signal
      have hmade : i < s.broker.made := by
        by_contra hge
        rw [h.subscribed.unmade i (Nat.not_lt.mp hge)] at hpos
        cases hpos
      exact { h with
        subscribed := h.subscribed.send hmade (h.subscribed.sending i hpos) (· - 1)
        phase := h.phase.send i (· - 1) }
    · cases hnext

end Runs

/-- If calls find only live subscribers, no channel is closed twice or sent to when closed, and
after each call both sides agree. -/
theorem safe_of_run {acts : List BrokerAct} {s : BrokerRun}
    (hlive : Transitions.Meets BrokerRun.next BrokerRun.FindsLive .start acts)
    (hrun : Transitions.run BrokerRun.next .start acts = some s) : s.Safe :=
  (Transitions.run_invariant (I := BrokerInv) (fun _ _ _ h hC hnext => h.next hC hnext) .start
    hlive hrun).safe

def listeningBroker (id : ℤ) : Broker :=
  { id := id
    name := []
    listens := [['t']]
    workflowID := 1 }

def setUpTwiceActs : List BrokerAct :=
  [.setupBroker (listeningBroker 5) true, .go, .go, .broadcast ['t', '-', '1'], .spread 0,
    .signal 0, .receive 0, .setupBroker (listeningBroker 5) true, .go, .go, .go, .go, .go]

theorem setUpTwiceActs_safe : ∃ s, Transitions.run BrokerRun.next .start setUpTwiceActs = some s ∧
      s.broker.members ['t', '-', '1'] = [1] ∧ s.Safe := by
  have hlive : Transitions.Meets BrokerRun.next BrokerRun.FindsLive .start setUpTwiceActs := by
    decide
  exact ⟨_, rfl, by decide, safe_of_run hlive rfl⟩

def detachedTwiceActs : List BrokerAct :=
  [.setupBroker (listeningBroker 5) true, .go, .go, .deleteWorkflow [5], .go, .go, .go, .go,
    .setupBroker (listeningBroker 5) true, .go, .go, .go]

/-- The channel of the first subscriber is closed again. -/
theorem detachedTwiceActs_closed :
    ∃ s, Transitions.run BrokerRun.next .start detachedTwiceActs = some s ∧
      s.closedTwice ∧ ¬ s.Safe := by
  refine ⟨_, rfl, rfl, fun h => ?_⟩
  exact absurd h.1 (by decide)

end Kairos.Daemon
