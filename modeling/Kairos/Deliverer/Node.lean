import Kairos.Deliverer.Hub
import Kairos.Library.Transitions

/-!
# Subscriptions of a node

`Node.addSubscription`, `Node.removeSubscription` and the jobs of the latter
(`server/deliverer/node.go`), run by any number of threads. Each holds the lock of its channel,
which may be that of others too, from its first look at the hub to its end.
-/

namespace Kairos.Deliverer

open List Option

/-- Where a call of `addSubscription` or `removeSubscription`, or a job, stands. -/
inductive Pc where
  | addStart (ch : GoString) (c : Uid)
  | addSub (ch : GoString) (c : Uid)
  | subscribe (ch : GoString) (c : Uid)
  | undo (ch : GoString) (c : Uid)
  | removeStart (ch : GoString) (c : Uid)
  | removeSub (ch : GoString) (c : Uid)
  | submit (ch : GoString)
  | jobStart (ch : GoString)
  | count (ch : GoString)
  | unsubscribe (ch : GoString)
  | unlock (ch : GoString) (failed : Bool)
  | again (ch : GoString)
  | done
deriving DecidableEq

/-- The channel whose mutex the thread holds. -/
def Pc.section? : Pc → Option GoString
  | .addSub ch _ => some ch
  | .subscribe ch _ => some ch
  | .undo ch _ => some ch
  | .removeSub ch _ => some ch
  | .submit ch => some ch
  | .count ch => some ch
  | .unsubscribe ch => some ch
  | .unlock ch _ => some ch
  | _ => none

/-- A node: its threads, the mutexes, the hub, the broker's channels, and the dissolver's jobs. -/
structure NodeState where
  threads : List Pc
  locks : ℕ → Option ℕ
  subs : Subs
  broker : GoString → Bool
  jobs : List GoString
  closed : Bool

inductive NodeAct where
  | add (ch : GoString) (c : Uid)
  | remove (ch : GoString) (c : Uid)
  | take
  | close
  /-- The next step of the thread `t`; `ok` is the success of a call of the broker. -/
  | step (t : ℕ) (ok : Bool)

namespace NodeState

def start : NodeState := ⟨[], fun _ => none, fun _ => none, fun _ => false, [], false⟩

def goto (s : NodeState) (t : ℕ) (p : Pc) : NodeState := { s with threads := s.threads.set t p }

def spawn (s : NodeState) (p : Pc) : NodeState := { s with threads := s.threads ++ [p] }

/-- `subDissolver.Submit`; its error is dropped. -/
def enqueue (s : NodeState) (ch : GoString) : NodeState :=
  if s.closed then s else { s with jobs := s.jobs ++ [ch] }

def setBroker (s : NodeState) (ch : GoString) (b : Bool) : NodeState :=
  { s with broker := Function.update s.broker ch b }

section

variable (lockOf : GoString → ℕ)

def lock (s : NodeState) (t : ℕ) (ch : GoString) (p : Pc) : Option NodeState :=
  if s.locks (lockOf ch) = none then
    some ({ s with locks := Function.update s.locks (lockOf ch) (some t) }.goto t p)
  else none

def release (s : NodeState) (ch : GoString) : NodeState :=
  { s with locks := Function.update s.locks (lockOf ch) none }

def stepAt (s : NodeState) (t : ℕ) (ok : Bool) (p : Pc) : Option NodeState :=
  match p with
  | .addStart ch c => s.lock lockOf t ch (.addSub ch c)
  | .addSub ch c =>
    let r := s.subs.addSub ch c
    some ({ s with subs := r.2 }.goto t (if r.1 then .subscribe ch c else .unlock ch false))
  | .subscribe ch c =>
    some (if ok then (s.setBroker ch true).goto t (.unlock ch false) else s.goto t (.undo ch c))
  | .undo ch c => some ({ s with subs := (s.subs.removeSub ch c).2 }.goto t (.unlock ch false))
  | .removeStart ch c => s.lock lockOf t ch (.removeSub ch c)
  | .removeSub ch c =>
    let r := s.subs.removeSub ch c
    some ({ s with subs := r.2 }.goto t (if r.1 then .submit ch else .unlock ch false))
  | .submit ch => some ((s.enqueue ch).goto t (.unlock ch false))
  | .jobStart ch => s.lock lockOf t ch (.count ch)
  | .count ch =>
    some (s.goto t (if s.subs.numSubscribers ch = 0 then .unsubscribe ch else .unlock ch false))
  | .unsubscribe ch =>
    some (if ok then (s.setBroker ch false).goto t (.unlock ch false)
      else s.goto t (.unlock ch true))
  | .unlock ch failed => some ((s.release lockOf ch).goto t (if failed then .again ch else .done))
  | .again ch => some ((s.enqueue ch).goto t .done)
  | .done => none

def next (s : NodeState) : NodeAct → Option NodeState
  | .add ch c => some (s.spawn (.addStart ch c))
  | .remove ch c => some (s.spawn (.removeStart ch c))
  | .take =>
    match s.jobs with
    | [] => none
    | ch :: jobs => some ({ s with jobs := jobs }.spawn (.jobStart ch))
  | .close => some { s with closed := true, jobs := [] }
  | .step t ok => s.threads[t]?.bind (s.stepAt lockOf t ok)

end

end NodeState

/-- What a thread in the section of a channel knows of the hub's entry and the broker. Only between
a first client and its subscription is there an entry without a subscription. -/
def Pc.Knows (p : Pc) (entry : Option (List Uid)) (subscribed : Bool) : Prop :=
  match p with
  | .subscribe _ c => entry = some [c]
  | .undo _ c => entry = some [c]
  | .unsubscribe _ => entry = none
  | _ => entry ≠ none → subscribed

structure NodeState.Inv (lockOf : GoString → ℕ) (s : NodeState) : Prop where
  proper : s.subs.Proper
  held : ∀ (t : ℕ) (p : Pc) (ch : GoString), s.threads[t]? = some p → p.section? = some ch →
    s.locks (lockOf ch) = some t
  inside : ∀ (t : ℕ) (p : Pc) (ch : GoString), s.threads[t]? = some p → p.section? = some ch →
    p.Knows (s.subs ch) (s.broker ch)
  /-- With no thread in its section, a channel with an entry is subscribed to. -/
  outside : ∀ ch, (∀ p ∈ s.threads, p.section? ≠ some ch) → s.subs ch ≠ none → s.broker ch

namespace NodeState

variable {lockOf : GoString → ℕ} {s s' : NodeState} {t : ℕ} {p p' : Pc} {ch : GoString} {c : Uid}

variable {t' : ℕ}

theorem Inv.unique (h : s.Inv lockOf) (hp : s.threads[t]? = some p)
    (hch : p.section? = some ch) (hp' : s.threads[t']? = some p') (hch' : p'.section? = some ch) :
    t' = t :=
  some.inj ((h.held t' p' ch hp' hch').symm.trans (h.held t p ch hp hch))

variable {q : Pc}

theorem getElem?_set_cases (h : (s.threads.set t p')[t']? = some q) :
    t' = t ∧ q = p' ∨ t' ≠ t ∧ s.threads[t']? = some q := by
  rw [getElem?_set] at h
  split_ifs at h with heq hlt
  · exact .inl ⟨heq.symm, (some.inj h).symm⟩
  · exact .inr ⟨fun h' => heq h'.symm, h⟩

theorem mem_set_of_ne (hp : s.threads[t]? = some p) (hq : q ∈ s.threads) (hne : q ≠ p) :
    q ∈ s.threads.set t p' := by
  obtain ⟨t', ht'⟩ := mem_iff_getElem?.mp hq
  have htt' : t ≠ t' := by
    rintro rfl
    exact hne (some.inj (ht'.symm.trans hp))
  exact mem_of_getElem? ((getElem?_set_ne htt').trans ht')

theorem Inv.move (h : s.Inv lockOf) (hp : s.threads[t]? = some p) (hch : p.section? = some ch)
    (hthreads : s'.threads = s.threads.set t p') (hlocks : s'.locks = s.locks)
    (hproper : s'.subs.Proper) (hsubs : ∀ x ≠ ch, s'.subs x = s.subs x)
    (hbroker : ∀ x ≠ ch, s'.broker x = s.broker x) (hch' : p'.section? = some ch)
    (hknows : p'.Knows (s'.subs ch) (s'.broker ch)) : s'.Inv lockOf := by
  have hlt : t < s.threads.length := (List.getElem?_eq_some_iff.mp hp).1
  refine ⟨hproper, ?_, ?_, ?_⟩
  · intro t' q x hq hx
    rw [hthreads] at hq
    rw [hlocks]
    rcases getElem?_set_cases hq with ⟨rfl, rfl⟩ | ⟨-, hq⟩
    · cases hch'.symm.trans hx
      exact h.held _ p _ hp hch
    · exact h.held t' q x hq hx
  · intro t' q x hq hx
    rw [hthreads] at hq
    rcases getElem?_set_cases hq with ⟨rfl, rfl⟩ | ⟨hne, hq⟩
    · cases hch'.symm.trans hx
      exact hknows
    · -- another thread is within the section of another channel
      have hxch : x ≠ ch := by
        rintro rfl
        exact hne (h.unique hp hch hq hx)
      rw [hsubs x hxch, hbroker x hxch]
      exact h.inside t' q x hq hx
  · intro x hout
    have hxch : x ≠ ch := by
      rintro rfl
      exact hout p' (hthreads ▸ mem_set hlt p') hch'
    rw [hsubs x hxch, hbroker x hxch]
    refine h.outside x fun q hq hx => ?_
    have hne : q ≠ p := by
      rintro rfl
      exact hxch (some.inj (hx.symm.trans hch))
    exact hout q (hthreads ▸ mem_set_of_ne hp hq hne) hx

/-- A thread goes on outside of all sections, or is new, and what the others know stays. -/
theorem Inv.idle (h : s.Inv lockOf) (hlocks : s'.locks = s.locks) (hsubs : s'.subs = s.subs)
    (hbroker : s'.broker = s.broker)
    (hsame : ∀ (t' : ℕ) (q : Pc) (x : GoString), q.section? = some x →
      (s'.threads[t']? = some q ↔ s.threads[t']? = some q)) : s'.Inv lockOf := by
  refine ⟨hsubs ▸ h.proper, ?_, ?_, ?_⟩
  · intro t' q x hq hx
    rw [hlocks]
    exact h.held t' q x ((hsame t' q x hx).mp hq) hx
  · intro t' q x hq hx
    rw [hsubs, hbroker]
    exact h.inside t' q x ((hsame t' q x hx).mp hq) hx
  · intro x hout
    rw [hsubs, hbroker]
    refine h.outside x fun q hq hx => ?_
    obtain ⟨t', ht'⟩ := mem_iff_getElem?.mp hq
    exact hout q (mem_iff_getElem?.mpr ⟨t', (hsame t' q x hx).mpr ht'⟩) hx

theorem Inv.enter (h : s.Inv lockOf) (hp : s.threads[t]? = some p) (hnone : p.section? = none)
    (hlock : s.lock lockOf t ch p' = some s') (hch' : p'.section? = some ch)
    (hknows : (s.subs ch ≠ none → s.broker ch) → p'.Knows (s.subs ch) (s.broker ch)) :
    s'.Inv lockOf := by
  unfold NodeState.lock at hlock
  split_ifs at hlock with hfree
  cases hlock
  have hlt : t < s.threads.length := (List.getElem?_eq_some_iff.mp hp).1
  -- no thread is within a section that has the same lock
  have hnot : ∀ q ∈ s.threads, ∀ x, q.section? = some x → lockOf x ≠ lockOf ch := by
    intro q hq x hx heq
    obtain ⟨t', ht'⟩ := mem_iff_getElem?.mp hq
    have hheld := h.held t' q x ht' hx
    rw [heq, hfree] at hheld
    cases hheld
  refine ⟨h.proper, ?_, ?_, ?_⟩
  · intro t' q x hq hx
    rcases getElem?_set_cases hq with ⟨rfl, rfl⟩ | ⟨-, hq⟩
    · cases hch'.symm.trans hx
      exact Function.update_self ..
    · have hne := hnot q (mem_of_getElem? hq) x hx
      exact (Function.update_of_ne hne ..).trans (h.held t' q x hq hx)
  · intro t' q x hq hx
    rcases getElem?_set_cases hq with ⟨rfl, rfl⟩ | ⟨-, hq⟩
    · cases hch'.symm.trans hx
      exact hknows (h.outside _ fun q hq hx => hnot q hq _ hx rfl)
    · exact h.inside t' q x hq hx
  · intro x hout
    refine h.outside x fun q hq hx => ?_
    have hne : q ≠ p := by
      rintro rfl
      rw [hnone] at hx
      cases hx
    exact hout q (mem_set_of_ne hp hq hne) hx

theorem Inv.leave (h : s.Inv lockOf) {b : Bool} (hp : s.threads[t]? = some (.unlock ch b))
    (hnone : p'.section? = none) : ((s.release lockOf ch).goto t p').Inv lockOf := by
  refine ⟨h.proper, ?_, ?_, ?_⟩
  · intro t' q x hq hx
    rcases getElem?_set_cases hq with ⟨rfl, rfl⟩ | ⟨hne, hq⟩
    · rw [hnone] at hx
      cases hx
    · have hheld := h.held t' q x hq hx
      have hlock : lockOf x ≠ lockOf ch := by
        intro heq
        rw [heq, h.held t _ ch hp rfl] at hheld
        exact hne (some.inj hheld).symm
      exact (Function.update_of_ne hlock ..).trans hheld
  · intro t' q x hq hx
    rcases getElem?_set_cases hq with ⟨rfl, rfl⟩ | ⟨-, hq⟩
    · rw [hnone] at hx
      cases hx
    · exact h.inside t' q x hq hx
  · intro x hout
    by_cases hxch : x = ch
    · subst hxch
      exact h.inside t _ x hp rfl
    · refine h.outside x fun q hq hx => ?_
      have hne : q ≠ .unlock ch b := by
        rintro rfl
        exact hxch (some.inj hx).symm
      exact hout q (mem_set_of_ne hp hq hne) hx

theorem enqueue_eq (s : NodeState) (ch : GoString) :
    (s.enqueue ch).threads = s.threads ∧ (s.enqueue ch).locks = s.locks ∧
      (s.enqueue ch).subs = s.subs ∧ (s.enqueue ch).broker = s.broker := by
  unfold enqueue
  split_ifs <;> exact ⟨rfl, rfl, rfl, rfl⟩

theorem set_section_iff (hp : s.threads[t]? = some p) (hnone : p.section? = none)
    (hnone' : p'.section? = none) {x : GoString} (hx : q.section? = some x) :
    (s.threads.set t p')[t']? = some q ↔ s.threads[t']? = some q := by
  by_cases htt' : t = t'
  · subst htt'
    have hlt : t < s.threads.length := (List.getElem?_eq_some_iff.mp hp).1
    rw [getElem?_set_self hlt, hp]
    constructor
    · intro h
      rw [← some.inj h, hnone'] at hx
      cases hx
    · intro h
      rw [← some.inj h, hnone] at hx
      cases hx
  · rw [getElem?_set_ne htt']

theorem Inv.stepAt (h : s.Inv lockOf) (hp : s.threads[t]? = some p) {ok : Bool}
    (hstep : s.stepAt lockOf t ok p = some s') : s'.Inv lockOf := by
  cases p with
  | addStart ch c | removeStart ch c | jobStart ch =>
    exact h.enter hp rfl hstep rfl fun hout => hout
  | addSub ch c =>
    cases hstep
    have hknown : s.subs ch ≠ none → s.broker ch := h.inside t _ ch hp rfl
    refine h.move hp rfl rfl rfl (h.proper.addSub ch c) (fun x hx => Subs.addSub_of_ne hx)
      (fun _ _ => rfl) ?_ ?_
    · split_ifs <;> rfl
    · -- the client is the first one exactly where the channel had no entry
      cases hentry : s.subs ch with
      | none =>
        have hfirst : (s.subs.addSub ch c).1 := by simp [Subs.addSub, hentry]
        rw [hfirst]
        exact Subs.addSub_first hentry
      | some cs =>
        have hfirst : (s.subs.addSub ch c).1 = false := by simp [Subs.addSub, hentry]
        rw [hfirst]
        exact fun _ => hknown (by simp [hentry])
  | subscribe ch c =>
    cases ok with
    | true =>
      cases hstep
      exact h.move hp rfl rfl rfl h.proper (fun _ _ => rfl)
        (fun x hx => Function.update_of_ne hx ..)
        rfl fun _ => Function.update_self ..
    | false =>
      cases hstep
      have honly : s.subs ch = some [c] := h.inside t _ ch hp rfl
      exact h.move hp rfl rfl rfl h.proper (fun _ _ => rfl) (fun _ _ => rfl) rfl honly
  | undo ch c =>
    cases hstep
    have honly : s.subs ch = some [c] := h.inside t _ ch hp rfl
    exact h.move hp rfl rfl rfl (h.proper.removeSub ch c) (fun x hx => Subs.removeSub_of_ne hx)
      (fun _ _ => rfl) rfl fun hentry => absurd (Subs.removeSub_only honly) hentry
  | removeSub ch c =>
    cases hstep
    have hknown : s.subs ch ≠ none → s.broker ch := h.inside t _ ch hp rfl
    refine h.move hp rfl rfl rfl (h.proper.removeSub ch c) (fun x hx => Subs.removeSub_of_ne hx)
      (fun _ _ => rfl) ?_ ?_
    · split_ifs <;> rfl
    · split_ifs <;> exact fun hentry => hknown (Subs.ne_none_of_removeSub hentry)
  | submit ch =>
    cases hstep
    obtain ⟨hthreads, hlocks, hsubs, hbroker⟩ := s.enqueue_eq ch
    have hset : ((s.enqueue ch).goto t (.unlock ch false)).threads =
        s.threads.set t (.unlock ch false) := by rw [goto, hthreads]
    refine h.move hp rfl hset hlocks (hsubs ▸ h.proper) (fun x _ => congrFun hsubs x)
      (fun x _ => congrFun hbroker x) rfl ?_
    show (s.enqueue ch).subs ch ≠ none → (s.enqueue ch).broker ch
    rw [hsubs, hbroker]
    exact h.inside t _ ch hp rfl
  | count ch =>
    cases hstep
    have hknown : s.subs ch ≠ none → s.broker ch := h.inside t _ ch hp rfl
    refine h.move hp rfl rfl rfl h.proper (fun _ _ => rfl) (fun _ _ => rfl) ?_ ?_
    · split_ifs <;> rfl
    · split_ifs with hzero
      · exact h.proper.eq_none hzero
      · exact hknown
  | unsubscribe ch =>
    have hnone : s.subs ch = none := h.inside t _ ch hp rfl
    cases ok with
    | true =>
      cases hstep
      exact h.move hp rfl rfl rfl h.proper (fun _ _ => rfl)
        (fun x hx => Function.update_of_ne hx ..)
        rfl fun hentry => absurd hnone hentry
    | false =>
      cases hstep
      exact h.move hp rfl rfl rfl h.proper (fun _ _ => rfl) (fun _ _ => rfl) rfl
        fun hentry => absurd hnone hentry
  | unlock ch failed =>
    cases hstep
    refine h.leave hp ?_
    split_ifs <;> rfl
  | again ch =>
    cases hstep
    obtain ⟨hthreads, hlocks, hsubs, hbroker⟩ := s.enqueue_eq ch
    refine h.idle hlocks hsubs hbroker fun t' q x hx => ?_
    show ((s.enqueue ch).threads.set t .done)[t']? = some q ↔ _
    rw [hthreads]
    exact set_section_iff hp rfl rfl hx
  | done => cases hstep

theorem Inv.spawn (h : s.Inv lockOf) (hnone : p.section? = none) : (s.spawn p).Inv lockOf := by
  refine h.idle rfl rfl rfl fun t' q x hx => ?_
  show (s.threads ++ [p])[t']? = some q ↔ _
  rw [getElem?_append]
  split_ifs with hlt
  · rfl
  · rw [getElem?_eq_none (not_lt.mp hlt)]
    constructor
    · intro hq
      obtain rfl : q = p := by simpa using mem_of_getElem? hq
      rw [hnone] at hx
      cases hx
    · intro hq
      cases hq

theorem Inv.next (h : s.Inv lockOf) {a : NodeAct} (hnext : s.next lockOf a = some s') :
    s'.Inv lockOf := by
  cases a with
  | add ch c | remove ch c => exact some.inj hnext ▸ h.spawn rfl
  | take =>
    cases hjobs : s.jobs with
    | nil => simp [NodeState.next, hjobs] at hnext
    | cons ch jobs =>
      simp only [NodeState.next, hjobs, some.injEq] at hnext
      have hpopped : ({ s with jobs := jobs } : NodeState).Inv lockOf :=
        ⟨h.proper, h.held, h.inside, h.outside⟩
      exact hnext ▸ hpopped.spawn rfl
  | close => exact some.inj hnext ▸ ⟨h.proper, h.held, h.inside, h.outside⟩
  | step t ok =>
    obtain ⟨p, hp, hstep⟩ := bind_eq_some_iff.mp hnext
    exact h.stepAt hp hstep

theorem inv_start (lockOf : GoString → ℕ) : start.Inv lockOf where
  proper := fun _ h => by cases h
  held := fun _ _ _ h => by cases h
  inside := fun _ _ _ h => by cases h
  outside := fun _ _ h => absurd rfl h

/-- Whatever the threads do and whichever calls fail: the broker is subscribed to a channel with a
subscriber, unless a thread is in its section. -/
theorem subscribed_of_numSubscribers {acts : List NodeAct}
    (hrun : Transitions.run (NodeState.next lockOf) start acts = some s)
    (hout : ∀ p ∈ s.threads, p.section? ≠ some ch) (hsub : 0 < s.subs.numSubscribers ch) :
    s.broker ch := by
  have hinv : s.Inv lockOf := Transitions.run_invariant (C := fun _ _ => True)
    (fun s a s' h _ hnext => h.next hnext) (inv_start lockOf) (Transitions.meets_true _ _) hrun
  refine hinv.outside ch hout fun hnone => ?_
  simp [Subs.numSubscribers, Subs.of, hnone] at hsub

def againActs : List NodeAct :=
  [.add "a-1" 7, .step 0 true, .step 0 true, .step 0 true, .step 0 true,
    .remove "a-1" 7, .step 1 true, .step 1 true, .step 1 true, .step 1 true,
    .add "a-1" 8, .step 2 true, .step 2 true, .step 2 false, .step 2 true, .step 2 true,
    .add "a-1" 7, .step 3 true, .step 3 true, .step 3 true, .step 3 true,
    .take, .step 4 true, .step 4 true, .step 4 true]

theorem subscribed_again :
    ∃ s, Transitions.run (NodeState.next fun _ => 0) start againActs = some s ∧
    0 < s.subs.numSubscribers "a-1".toList ∧ s.broker "a-1".toList := by
  have hcheck : (Transitions.run (NodeState.next fun _ => 0) start againActs).any (fun s =>
      decide ((∀ p ∈ s.threads, p.section? ≠ some "a-1".toList) ∧
        0 < s.subs.numSubscribers "a-1".toList)) := by decide +kernel
  obtain ⟨s, hrun, hs⟩ := (any_eq_true _ _).mp hcheck
  obtain ⟨hout, hsub⟩ := of_decide_eq_true hs
  exact ⟨s, hrun, hsub, subscribed_of_numSubscribers hrun hout hsub⟩

end NodeState

end Kairos.Deliverer
