import Kairos.Deliverer.Node

/-!
# Subscriptions that nobody needs

The broker does not stay subscribed to a channel without subscribers (`server/deliverer/node.go`).
Whoever leaves a channel vacant submits a job to the dissolver, and a job that fails is submitted
again, so that there always is one more to look at the channel (`Tidy`).
-/

namespace Kairos.Deliverer

open List Option

/-- The channel that a thread has yet to look at, or to have looked at. -/
def Pc.owes : Pc → Option GoString
  | .submit ch | .jobStart ch | .count ch | .unsubscribe ch | .unlock ch true | .again ch => some ch
  | _ => none

/-- The channel whose first client a thread has added, and may have to remove again. -/
def Pc.adds : Pc → Option GoString
  | .subscribe ch _ | .undo ch _ => some ch
  | _ => none

namespace NodeState

def Owed (s : NodeState) (ch : GoString) : Prop :=
  ch ∈ s.jobs ∨ ∃ p ∈ s.threads, p.owes = some ch

def Vacant (s : NodeState) (ch : GoString) : Prop :=
  s.subs ch = none ∨ ∃ p ∈ s.threads, p.adds = some ch

def Tidy (s : NodeState) : Prop :=
  s.closed = false → ∀ ch, s.broker ch → s.Vacant ch → s.Owed ch

variable {lockOf : GoString → ℕ} {s s' : NodeState} {t : ℕ} {p p' : Pc} {ch x : GoString}

theorem section?_of_adds (h : p.adds = some ch) : p.section? = some ch := by
  cases p <;> simp_all [Pc.adds, Pc.section?]

theorem Owed.set (hp : s.threads[t]? = some p) (hthreads : s'.threads = s.threads.set t p')
    (hjobs : s.jobs ⊆ s'.jobs) (h : s.Owed x)
    (howes : p.owes = some x → p'.owes = some x ∨ x ∈ s'.jobs) : s'.Owed x := by
  rcases h with hjob | ⟨q, hq, hqx⟩
  · exact .inl (hjobs hjob)
  · by_cases hqp : q = p
    · subst hqp
      refine (howes hqx).symm.imp_right fun h => ⟨p', ?_, h⟩
      rw [hthreads]
      exact mem_set (List.getElem?_eq_some_iff.1 hp).1 p'
    · exact .inr ⟨q, hthreads ▸ mem_set_of_ne hp hq hqp, hqx⟩

theorem Vacant.of_set (hthreads : s'.threads = s.threads.set t p') (h : s'.Vacant x) :
    s'.subs x = none ∨ p'.adds = some x ∨
      ∃ t' ≠ t, ∃ q, s.threads[t']? = some q ∧ q.adds = some x := by
  rcases h with hnone | ⟨q, hq, hqx⟩
  · exact .inl hnone
  · rw [hthreads] at hq
    obtain ⟨t', ht'⟩ := mem_iff_getElem?.1 hq
    rcases getElem?_set_cases ht' with ⟨-, rfl⟩ | ⟨hne, ht'⟩
    · exact .inr (.inl hqx)
    · exact .inr (.inr ⟨t', hne, q, ht', hqx⟩)

/-- A step that changes neither the hub nor the broker. -/
theorem Tidy.quiet (h : s.Tidy) (hp : s.threads[t]? = some p)
    (hthreads : s'.threads = s.threads.set t p') (hclosed : s'.closed = s.closed)
    (hjobs : s.jobs ⊆ s'.jobs) (hsubs : s'.subs = s.subs) (hbroker : s'.broker = s.broker)
    (hadds : ∀ x, p'.adds = some x → p.adds = some x)
    (howes : s.closed = false → ∀ x, p.owes = some x → p'.owes = some x ∨ x ∈ s'.jobs) :
    s'.Tidy := by
  intro hopen x hb hv
  rw [hclosed] at hopen
  rw [hbroker] at hb
  refine (h hopen x hb ?_).set hp hthreads hjobs (howes hopen x)
  rcases hv.of_set hthreads with hnone | hx | ⟨t', -, q, hq, hqx⟩
  · exact .inl (hsubs ▸ hnone)
  · exact .inr ⟨p, mem_of_getElem? hp, hadds x hx⟩
  · exact .inr ⟨q, mem_of_getElem? hq, hqx⟩

/-- A step within the section of a channel. The other threads are within other sections. -/
theorem Tidy.within (h : s.Tidy) (hinv : s.Inv lockOf) (hp : s.threads[t]? = some p)
    (hch : p.section? = some ch) (hthreads : s'.threads = s.threads.set t p')
    (hclosed : s'.closed = s.closed) (hjobs : s'.jobs = s.jobs)
    (hsubs : ∀ x ≠ ch, s'.subs x = s.subs x) (hbroker : ∀ x ≠ ch, s'.broker x = s.broker x)
    (howes : ∀ x ≠ ch, p.owes ≠ some x) (hadds : ∀ x ≠ ch, p'.adds ≠ some x)
    (hhere : s'.broker ch → s'.subs ch = none ∨ p'.adds = some ch →
      p'.owes = some ch ∨ p.owes ≠ some ch ∧ s.broker ch ∧ s.Vacant ch) : s'.Tidy := by
  intro hopen x hb hv
  rw [hclosed] at hopen
  have hv := hv.of_set hthreads
  by_cases hx : x = ch
  · subst hx
    have hv : s'.subs x = none ∨ p'.adds = some x := by
      rcases hv with hnone | hx | ⟨t', hne, q, hq, hqx⟩
      · exact .inl hnone
      · exact .inr hx
      · exact absurd (hinv.unique hp hch hq (section?_of_adds hqx)) hne
    rcases hhere hb hv with howed | ⟨hnot, hb, hv⟩
    · exact .inr ⟨p', hthreads ▸ mem_set (List.getElem?_eq_some_iff.1 hp).1 p', howed⟩
    · exact (h hopen x hb hv).set hp hthreads (hjobs ▸ Subset.refl _) fun howes => absurd howes hnot
  · rw [hbroker x hx] at hb
    refine (h hopen x hb ?_).set hp hthreads (hjobs ▸ Subset.refl _) fun h => absurd h (howes x hx)
    rcases hv with hnone | hadd | ⟨t', -, q, hq, hqx⟩
    · exact .inl (hsubs x hx ▸ hnone)
    · exact absurd hadd (hadds x hx)
    · exact .inr ⟨q, mem_of_getElem? hq, hqx⟩

theorem removeSub_last {subs : Subs} {c : Uid} (h : (subs.removeSub ch c).2 ch = none) :
    (subs.removeSub ch c).1 := by
  unfold Subs.removeSub at h ⊢
  cases hcs : subs ch with
  | none => rfl
  | some cs =>
    simp only [hcs] at h ⊢
    split_ifs at h ⊢
    · rfl
    · simp at h
    · rfl

theorem enqueue_jobs (s : NodeState) (ch : GoString) : (s.enqueue ch).closed = s.closed ∧
    s.jobs ⊆ (s.enqueue ch).jobs ∧ (s.closed = false → ch ∈ (s.enqueue ch).jobs) := by
  unfold enqueue
  split_ifs with hclosed
  · exact ⟨rfl, Subset.refl _, fun h => absurd hclosed (by simp [h])⟩
  · exact ⟨rfl, subset_append_left _ _, fun _ => by simp⟩

theorem Tidy.lock (h : s.Tidy) (hp : s.threads[t]? = some p)
    (hlock : s.lock lockOf t ch p' = some s') (hadds : p'.adds = none) (howes : p'.owes = p.owes) :
    s'.Tidy := by
  unfold NodeState.lock at hlock
  split_ifs at hlock
  cases hlock
  exact h.quiet hp rfl rfl (Subset.refl _) rfl rfl (by simp [hadds])
    fun _ x hx => .inl (howes.trans hx)

theorem Tidy.enqueue (h : s.Tidy) (hp : s.threads[t]? = some p) (hadds : p'.adds = none)
    (howes : p.owes = some ch) : ((s.enqueue ch).goto t p').Tidy := by
  obtain ⟨hthreads, -, hsubs, hbroker⟩ := s.enqueue_eq ch
  obtain ⟨hclosed, hjobs, hmem⟩ := s.enqueue_jobs ch
  refine h.quiet hp (by rw [goto, hthreads]) hclosed hjobs hsubs hbroker (by simp [hadds])
    fun hopen x hx => .inr ?_
  obtain rfl := some.inj (howes.symm.trans hx)
  exact hmem hopen

theorem Tidy.stepAt (h : s.Tidy) (hinv : s.Inv lockOf) (hp : s.threads[t]? = some p) {ok : Bool}
    (hstep : s.stepAt lockOf t ok p = some s') : s'.Tidy := by
  have refl := Subset.refl s.jobs
  cases p with
  | addStart ch c | removeStart ch c | jobStart ch => exact h.lock hp hstep rfl rfl
  | addSub ch c =>
    cases hstep
    refine h.within hinv hp rfl rfl rfl rfl (fun x hx => Subs.addSub_of_ne hx) (fun _ _ => rfl)
      (by simp [Pc.owes]) (fun x hx => ?_) fun hb hv => .inr ⟨by simp [Pc.owes], hb, .inl ?_⟩
    · split_ifs <;> simp [Pc.adds, hx.symm]
    · -- only where the channel had no entry can the thread have to undo what it does
      have hentry : (s.subs.addSub ch c).2 ch ≠ none := by simp [Subs.addSub_self]
      have hadds := hv.resolve_left hentry
      split_ifs at hadds with hfirst
      · simpa [Subs.addSub] using hfirst
      · cases hadds
  | subscribe ch c =>
    cases ok with
    | true =>
      cases hstep
      have honly : s.subs ch = some [c] := hinv.inside t _ ch hp rfl
      refine h.within hinv hp rfl rfl rfl rfl (fun _ _ => rfl)
        (fun x hx => Function.update_of_ne hx ..) (by simp [Pc.owes]) (by simp [Pc.adds]) ?_
      simp [setBroker, goto, honly, Pc.adds]
    | false =>
      cases hstep
      exact h.quiet hp rfl rfl refl rfl rfl (fun _ hx => hx) (by simp [Pc.owes])
  | undo ch c =>
    cases hstep
    exact h.within hinv hp rfl rfl rfl rfl (fun x hx => Subs.removeSub_of_ne hx) (fun _ _ => rfl)
      (by simp [Pc.owes]) (by simp [Pc.adds])
      fun hb _ => .inr ⟨by simp [Pc.owes], hb, .inr ⟨_, mem_of_getElem? hp, rfl⟩⟩
  | removeSub ch c =>
    cases hstep
    have hadds (x : GoString) : (if (s.subs.removeSub ch c).1 then Pc.submit ch
        else .unlock ch false).adds ≠ some x := by
      split_ifs <;> simp [Pc.adds]
    refine h.within hinv hp rfl rfl rfl rfl (fun x hx => Subs.removeSub_of_ne hx) (fun _ _ => rfl)
      (by simp [Pc.owes]) (fun x _ => hadds x) fun _ hv => .inl ?_
    rw [removeSub_last (hv.resolve_right (hadds ch))]
    rfl
  | submit ch | again ch =>
    cases hstep
    exact h.enqueue hp rfl rfl
  | count ch =>
    cases hstep
    have hadds (x : GoString) : (if s.subs.numSubscribers ch = 0 then Pc.unsubscribe ch
        else .unlock ch false).adds ≠ some x := by
      split_ifs <;> simp [Pc.adds]
    refine h.within hinv hp rfl rfl rfl rfl (fun _ _ => rfl) (fun _ _ => rfl)
      (fun x hx => by simp [Pc.owes, hx.symm]) (fun x _ => hadds x) fun _ hv => .inl ?_
    have hnone : s.subs ch = none := hv.resolve_right (hadds ch)
    rw [if_pos (by simp [Subs.numSubscribers, Subs.of, hnone])]
    rfl
  | unsubscribe ch =>
    cases ok with
    | true =>
      cases hstep
      refine h.within hinv hp rfl rfl rfl rfl (fun _ _ => rfl)
        (fun x hx => Function.update_of_ne hx ..) (fun x hx => by simp [Pc.owes, hx.symm])
        (by simp [Pc.adds]) ?_
      simp [setBroker, goto]
    | false =>
      cases hstep
      exact h.quiet hp rfl rfl refl rfl rfl (by simp [Pc.adds]) fun _ _ hx => .inl hx
  | unlock ch failed =>
    cases hstep
    refine h.quiet hp rfl rfl refl rfl rfl ?_ fun _ x hx => .inl ?_
    · split_ifs <;> simp [Pc.adds]
    · cases failed with
      | true => exact hx
      | false => cases hx
  | done => cases hstep

theorem Tidy.spawn (h : s.Tidy) (hadds : p.adds = none) : (s.spawn p).Tidy := by
  intro hopen x hb hv
  refine (h hopen x hb (hv.imp_right ?_)).imp_right ?_
  · rintro ⟨q, hq, hqx⟩
    rcases mem_append.1 hq with hq | hq
    · exact ⟨q, hq, hqx⟩
    · rw [mem_singleton.1 hq, hadds] at hqx
      cases hqx
  · rintro ⟨q, hq, hqx⟩
    exact ⟨q, mem_append_left _ hq, hqx⟩

theorem Tidy.take (h : s.Tidy) (jobs : List GoString) (hjobs : s.jobs = ch :: jobs) :
    ({ s with jobs := jobs }.spawn (.jobStart ch)).Tidy := by
  intro hopen x hb hv
  rcases (h.spawn (p := .jobStart ch) rfl) hopen x hb hv with hx | hthread
  · rcases mem_cons.1 (hjobs ▸ hx) with rfl | hx
    · exact .inr ⟨.jobStart x, mem_append_right _ (mem_singleton.2 rfl), rfl⟩
    · exact .inl hx
  · exact .inr hthread

theorem Tidy.next (h : s.Tidy) (hinv : s.Inv lockOf) {a : NodeAct}
    (hnext : s.next lockOf a = some s') : s'.Tidy := by
  cases a with
  | add ch c | remove ch c => exact some.inj hnext ▸ h.spawn rfl
  | take =>
    cases hjobs : s.jobs with
    | nil => simp [NodeState.next, hjobs] at hnext
    | cons ch jobs =>
      simp only [NodeState.next, hjobs, some.injEq] at hnext
      exact hnext ▸ h.take jobs hjobs
  | close =>
    obtain rfl := some.inj hnext
    intro hopen
    cases hopen
  | step t ok =>
    obtain ⟨p, hp, hstep⟩ := bind_eq_some_iff.mp hnext
    exact h.stepAt hinv hp hstep

theorem tidy_of_run {acts : List NodeAct}
    (hrun : Transitions.run (NodeState.next lockOf) start acts = some s) :
    s.Inv lockOf ∧ s.Tidy :=
  Transitions.run_invariant (C := fun _ _ => True) (I := fun s => s.Inv lockOf ∧ s.Tidy)
    (fun _ _ _ h _ hnext => ⟨h.1.next hnext, h.2.next h.1 hnext⟩)
    ⟨inv_start lockOf, fun _ _ hb => by cases hb⟩ (Transitions.meets_true _ _) hrun

/-- Whatever the threads do and whichever calls fail: while the dissolver is open, the broker is
subscribed to a channel exactly if that has a subscriber, unless a thread is within its section or
has yet to look at it. -/
theorem broker_iff_numSubscribers {acts : List NodeAct}
    (hrun : Transitions.run (NodeState.next lockOf) start acts = some s) (hopen : s.closed = false)
    (hjobs : ch ∉ s.jobs) (hthreads : ∀ p ∈ s.threads, p.section? ≠ some ch ∧ p.owes ≠ some ch) :
    s.broker ch ↔ 0 < s.subs.numSubscribers ch := by
  obtain ⟨hinv, htidy⟩ := tidy_of_run hrun
  constructor
  · intro hb
    by_contra hzero
    rcases htidy hopen ch hb (.inl (hinv.proper.eq_none (by omega))) with hjob | ⟨p, hp, hpch⟩
    · exact hjobs hjob
    · exact (hthreads p hp).2 hpch
  · intro hsub
    refine hinv.outside ch (fun p hp => (hthreads p hp).1) fun hnone => ?_
    simp [Subs.numSubscribers, Subs.of, hnone] at hsub

theorem broker_again :
    ∃ s, Transitions.run (NodeState.next fun _ => 0) start againActs = some s ∧
      (s.broker "a-1".toList ↔ 0 < s.subs.numSubscribers "a-1".toList) := by
  have hcheck : (Transitions.run (NodeState.next fun _ => 0) start againActs).any (fun s =>
      decide (s.closed = false ∧ "a-1".toList ∉ s.jobs ∧
        ∀ p ∈ s.threads, p.section? ≠ some "a-1".toList ∧ p.owes ≠ some "a-1".toList)) := by
    decide +kernel
  obtain ⟨s, hrun, hs⟩ := (any_eq_true _ _).mp hcheck
  obtain ⟨hopen, hjobs, hthreads⟩ := of_decide_eq_true hs
  exact ⟨s, hrun, broker_iff_numSubscribers hrun hopen hjobs hthreads⟩

end NodeState

end Kairos.Deliverer
