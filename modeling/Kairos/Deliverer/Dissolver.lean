import Kairos.Deliverer.Writer

/-!
# The dissolver of a node

`server/deliverer/internal/dissolve`: jobs are run by a fixed number of workers until they succeed.
The queue of the jobs is the ring of `Queue`, in which a job takes the place of an item. A step is
what happens under its mutex, or the call of a job. `Moved` says what a step of a worker does.
-/

namespace Kairos.Deliverer.Dissolver

open List
open Transitions (run)

/-- Where a worker is: before `Wait`, in `cond.Wait`, before `Remove`, before `Closed`, in its job,
before the `Add` of a job that failed, or at its end. -/
inductive Worker where
  | idle
  | waiting
  | removing
  | missed
  | running (job : Item)
  | failed (job : Item)
  | exited
deriving DecidableEq

def Worker.held : Worker → List Item
  | .running job | .failed job => [job]
  | _ => []

structure State where
  queue : Queue
  workers : List Worker
  accepted : List Item
  finished : List Item
  panicked : Bool
deriving DecidableEq

/-- `wake` is the worker that `Signal` wakes, if there is one to wake. -/
inductive Act where
  | submit (job : Item) (wake : ℕ)
  | close
  | step (w : ℕ) (ok : Bool) (wake : ℕ)

namespace State

/-- `New` and `Run`. -/
def start (numWorkers : ℕ) : State :=
  ⟨.new 2, List.replicate numWorkers .idle, [], [], false⟩

def held (s : State) : List Item := s.workers.flatMap Worker.held

def goto (s : State) (w : ℕ) (p : Worker) : State := { s with workers := s.workers.set w p }

def signal (s : State) (wake : ℕ) : Option State :=
  if .waiting ∈ s.workers then
    if s.workers[wake]? = some .waiting then some (s.goto wake .removing) else none
  else some s

/-- `Add`, with whether the job is accepted. -/
def add (s : State) (job : Item) (wake : ℕ) : Option (Bool × State) :=
  match s.queue.add job with
  | .ok (true, q) => ({ s with queue := q }.signal wake).map (true, ·)
  | .ok (false, q) => some (false, { s with queue := q })
  | _ => some (false, { s with panicked := true })

def remove (s : State) (w : ℕ) : State :=
  match s.queue.remove with
  | .ok ((job, true), q) => { s with queue := q }.goto w (.running job)
  | .ok ((_, false), q) => { s with queue := q }.goto w .missed
  | _ => { s with panicked := true }

/-- The next step of `runWorker`; `ok` says whether the job succeeds. -/
def stepAt (s : State) (w : ℕ) (ok : Bool) (wake : ℕ) : Worker → Option State
  | .idle =>
    some (s.goto w (if s.queue.closed then .missed
      else if s.queue.cnt ≠ 0 then .removing else .waiting))
  | .removing => some (s.remove w)
  | .missed => some (s.goto w (if s.queue.closed then .exited else .idle))
  | .running job =>
    some (if ok then { s with finished := s.finished ++ [job] }.goto w .idle
      else s.goto w (.failed job))
  | .failed job => ((s.goto w .idle).add job wake).map Prod.snd
  | .waiting | .exited => none

def next (s : State) : Act → Option State
  | .submit job wake => (s.add job wake).map fun r =>
    if r.1 then { r.2 with accepted := r.2.accepted ++ [job] } else r.2
  | .close => some { s with
      queue := s.queue.close
      workers := s.workers.map fun p => if p = .waiting then .removing else p }
  | .step w ok wake => s.workers[w]?.bind (s.stepAt w ok wake)

end State

/-- What a step of `runWorker` can do, for the list that the queue stands for: the worker's next
place, and the jobs that are then in the queue, those that are finished and those that are lost. -/
inductive Moved (f : Fifo) (ok : Bool) :
    Worker → Worker → List Item → List Item → List Item → Prop
  | refused : f.closed → Moved f ok .idle .missed f.items [] []
  | ready : f.items ≠ [] → Moved f ok .idle .removing f.items [] []
  | wait : f.closed = false → f.items = [] → Moved f ok .idle .waiting f.items [] []
  | take {job items} : f.items = job :: items → Moved f ok .removing (.running job) items [] []
  | miss : f.items = [] → Moved f ok .removing .missed f.items [] []
  | exit : f.closed → Moved f ok .missed .exited f.items [] []
  | again : f.closed = false → Moved f ok .missed .idle f.items [] []
  | finish {job} : ok → Moved f ok (.running job) .idle f.items [job] []
  | fail {job} : ok = false → Moved f ok (.running job) (.failed job) f.items [] []
  | retry {job} : f.closed = false → Moved f ok (.failed job) .idle (f.items ++ [job]) [] []
  | drop {job} : f.closed → Moved f ok (.failed job) .idle f.items [] [job]

section

variable {n w wake : ℕ} {s s' : State} {f f' : Fifo} {p p' : Worker} {job : Item} {ok : Bool}
  {items done gone lost : List Item}

theorem held_goto (hw : s.workers[w]? = some p) (p' : Worker) (x : Item) :
    (s.goto w p').held.count x + p.held.count x = s.held.count x + p'.held.count x := by
  obtain ⟨hlt, hp⟩ := List.getElem?_eq_some_iff.1 hw
  obtain ⟨before, after, hs, -, hset⟩ := @exists_of_set _ w p' s.workers hlt
  rw [State.goto, State.held, State.held, hset, hs, hp]
  simp only [flatMap_append, flatMap_cons, count_append]
  omega

/-- What every state of a run has, but for the account of the jobs. A queue with a job in it has a
worker that does not wait: no `Signal` is lost. -/
structure Sound (n : ℕ) (s : State) (f : Fifo) : Prop where
  represents : Represents s.queue f
  calm : s.panicked = false
  workers : s.workers.length = n
  woken : f.closed → .waiting ∉ s.workers
  staying : f.closed = false → .exited ∉ s.workers
  awake : f.items ≠ [] → 0 < n → ∃ p ∈ s.workers, p ≠ .waiting

theorem Sound.start (n : ℕ) : Sound n (State.start n) ⟨[], false⟩ where
  represents := new_represents (by decide)
  calm := rfl
  workers := length_replicate
  woken := by simp
  staying := by simp [State.start]
  awake := by simp

theorem Sound.move (h : Sound n s f) (hw : s.workers[w]? = some p)
    (hs' : s'.workers = s.workers.set w p') (hcalm : s'.panicked = s.panicked)
    (hq : Represents s'.queue f') (hclosed : f'.closed = f.closed)
    (hwait : p' = .waiting → f'.closed = false ∧ f'.items = [])
    (hexit : p' = .exited → f'.closed) : Sound n s' f' where
  represents := hq
  calm := hcalm.trans h.calm
  workers := by rw [hs', length_set, h.workers]
  woken hf hmem := by
    rw [hs'] at hmem
    rcases mem_or_eq_of_mem_set hmem with hmem | rfl
    · exact h.woken (hclosed ▸ hf) hmem
    · simp [(hwait rfl).1] at hf
  staying hf hmem := by
    rw [hs'] at hmem
    rcases mem_or_eq_of_mem_set hmem with hmem | rfl
    · exact h.staying (hclosed ▸ hf) hmem
    · simp [hexit rfl] at hf
  awake hitems _ := by
    refine ⟨p', ?_, fun hp' => hitems (hwait hp').2⟩
    rw [hs']
    exact mem_set (List.getElem?_eq_some_iff.1 hw).1 _

theorem Sound.add (h : Sound n s f) (hadd : s.add job wake = some (ok, s')) :
    ok = !f.closed ∧ Sound n s' ⟨if f.closed then f.items else f.items ++ [job], f.closed⟩ ∧
      s'.accepted = s.accepted ∧ s'.finished = s.finished ∧
      ∀ x, s'.held.count x = s.held.count x := by
  obtain ⟨q, hq, hrep⟩ := Writer.add_eq_ok h.represents job
  rw [State.add, hq] at hadd
  obtain ⟨items, closed⟩ := f
  cases closed with
  | true =>
    obtain ⟨rfl, rfl⟩ := Prod.mk.inj (Option.some.inj hadd)
    exact ⟨rfl, ⟨hrep, h.calm, h.workers, h.woken, h.staying, h.awake⟩, rfl, rfl, fun _ => rfl⟩
  | false =>
    simp only [Bool.not_false, Option.map_eq_some_iff, Prod.mk.injEq, State.signal] at hadd
    obtain ⟨s₁, hsignal, rfl, rfl⟩ := hadd
    refine ⟨rfl, ?_⟩
    split_ifs at hsignal with hmem hw
    · obtain rfl := Option.some.inj hsignal
      exact ⟨h.move hw rfl rfl hrep rfl (by simp) (by simp), rfl, rfl,
        held_goto (s := { s with queue := q }) hw .removing⟩
    · obtain rfl := Option.some.inj hsignal
      refine ⟨⟨hrep, h.calm, h.workers, by simp, h.staying, fun _ hn => ?_⟩,
        rfl, rfl, fun _ => rfl⟩
      -- nobody waits, so any worker will do
      obtain ⟨p, hp⟩ := exists_mem_of_length_pos (hn.trans_eq h.workers.symm)
      exact ⟨p, hp, fun hwait => hmem (hwait ▸ hp)⟩

theorem Moved.count_eq (h : Moved f ok p p' items done gone) (x : Item) :
    done.count x + p'.held.count x + items.count x + gone.count x =
      p.held.count x + f.items.count x := by
  cases h with
  | take hitems => simp [hitems, Worker.held, count_cons, Nat.add_comm]
  | _ => simp [Worker.held, Nat.add_comm]

theorem Moved.gone_eq (h : Moved f ok p p' items done gone) (hf : f.closed = false) :
    gone = [] := by
  cases h <;> simp_all

/-- What a step of a worker from `p` to `p'` leaves of a state. -/
structure Result (n : ℕ) (s s' : State) (f : Fifo) (p p' : Worker) (items done : List Item) :
    Prop where
  sound : Sound n s' ⟨items, f.closed⟩
  accepted_eq : s'.accepted = s.accepted
  finished_eq : s'.finished = s.finished ++ done
  held_eq (x : Item) : s'.held.count x + p.held.count x = s.held.count x + p'.held.count x

theorem Sound.goto (h : Sound n s f) (hw : s.workers[w]? = some p)
    (hwait : p' = .waiting → f.closed = false ∧ f.items = []) (hexit : p' = .exited → f.closed) :
    Result n s (s.goto w p') f p p' f.items [] where
  sound := h.move hw rfl rfl h.represents rfl hwait hexit
  accepted_eq := rfl
  finished_eq := (append_nil _).symm
  held_eq := held_goto hw p'

theorem stepAt_moved (h : Sound n s f) (hw : s.workers[w]? = some p)
    (hstep : s.stepAt w ok wake p = some s') : ∃ p' items done gone,
      Moved f ok p p' items done gone ∧ Result n s s' f p p' items done := by
  have hclosed := h.represents.closed_eq
  have hcnt : s.queue.cnt ≠ 0 ↔ f.items ≠ [] := by
    rw [h.represents.cnt_eq, Ne, length_eq_zero_iff]
  cases p with
  | idle =>
    simp only [State.stepAt, Option.some.injEq, hclosed, hcnt] at hstep
    subst hstep
    split_ifs with hf hitems
    · exact ⟨_, _, _, _, .refused hf, h.goto hw (by simp) (by simp)⟩
    · exact ⟨_, _, _, _, .ready hitems, h.goto hw (by simp) (by simp)⟩
    · simp only [Bool.not_eq_true, ne_eq, not_not] at hf hitems
      exact ⟨_, _, _, _, .wait hf hitems, h.goto hw (fun _ => ⟨hf, hitems⟩) (by simp)⟩
  | removing =>
    simp only [State.stepAt, State.remove, Option.some.injEq] at hstep
    obtain ⟨hitems, hq⟩ | ⟨job, items, q, hitems, hq, hrep⟩ := Writer.remove_eq_ok h.represents
    · rw [hq] at hstep
      subst hstep
      exact ⟨_, _, _, _, .miss hitems, h.goto hw (by simp) (by simp)⟩
    · rw [hq] at hstep
      subst hstep
      exact ⟨_, _, _, _, .take hitems, h.move hw rfl rfl hrep rfl (by simp) (by simp), rfl,
        (append_nil _).symm, held_goto (s := { s with queue := q }) hw _⟩
  | missed =>
    simp only [State.stepAt, Option.some.injEq, hclosed] at hstep
    subst hstep
    split_ifs with hf
    · exact ⟨_, _, _, _, .exit hf, h.goto hw (by simp) (fun _ => hf)⟩
    · exact ⟨_, _, _, _, .again (by simpa using hf), h.goto hw (by simp) (by simp)⟩
  | running job =>
    simp only [State.stepAt, Option.some.injEq] at hstep
    subst hstep
    split_ifs with hok
    · exact ⟨_, _, _, _, .finish hok, h.move hw rfl rfl h.represents rfl (by simp) (by simp), rfl,
        rfl, held_goto (s := { s with finished := s.finished ++ [job] }) hw _⟩
    · exact ⟨_, _, _, _, .fail (by simpa using hok), h.goto hw (by simp) (by simp)⟩
  | failed job =>
    simp only [State.stepAt, Option.map_eq_some_iff, Prod.exists, exists_eq_right] at hstep
    obtain ⟨added, hadd⟩ := hstep
    have hidle : Result n s (s.goto w .idle) f _ _ _ _ := h.goto hw (by simp) (by simp)
    obtain ⟨-, hsound, hacc, hfin, hheld⟩ := hidle.sound.add hadd
    have hresult : Result n s s' f (.failed job) .idle
        (if f.closed then f.items else f.items ++ [job]) [] := by
      refine ⟨hsound, hacc, hfin.trans (append_nil _).symm, fun x => ?_⟩
      rw [hheld, held_goto hw]
    cases hf : f.closed with
    | true => exact ⟨_, _, _, _, .drop hf, by simpa [hf] using hresult⟩
    | false => exact ⟨_, _, _, _, .retry hf, by simpa [hf] using hresult⟩
  | waiting => simp [State.stepAt] at hstep
  | exited => simp [State.stepAt] at hstep

/-- Every job that was accepted is finished, with a worker, in the queue or lost, and none is lost
before `Close`. -/
structure Inv (n : ℕ) (s : State) (f : Fifo) (lost : List Item) : Prop extends Sound n s f where
  account (x : Item) : s.accepted.count x =
    s.finished.count x + s.held.count x + f.items.count x + lost.count x
  kept : f.closed = false → lost = []

theorem Inv.start (n : ℕ) : Inv n (State.start n) ⟨[], false⟩ [] where
  toSound := .start n
  account x := by
    have hheld : (State.start n).held = [] := by
      simp +contextual [State.start, State.held, Worker.held]
    rw [hheld]
    rfl
  kept _ := rfl

theorem Inv.submit (h : Inv n s f lost) (hnext : s.next (.submit job wake) = some s') :
    ∃ f', Inv n s' f' lost := by
  simp only [State.next, Option.map_eq_some_iff, Prod.exists] at hnext
  obtain ⟨ok, s₁, hadd, rfl⟩ := hnext
  obtain ⟨rfl, hsound, hacc, hfin, hheld⟩ := h.toSound.add hadd
  have haccount (x : Item) := hheld x ▸ h.account x
  obtain ⟨items, closed⟩ := f
  cases closed with
  | true =>
    refine ⟨⟨items, true⟩, hsound, fun x => ?_, h.kept⟩
    exact (congrArg _ hacc).trans ((haccount x).trans (by rw [← hfin]; rfl))
  | false =>
    refine ⟨⟨items ++ [job], false⟩, ?_, fun x => ?_, h.kept⟩
    · exact ⟨hsound.1, hsound.2, hsound.3, hsound.4, hsound.5, hsound.6⟩
    · have hx := haccount x
      simp only [State.held, Bool.not_false, if_true, hacc, hfin, count_append] at hx ⊢
      omega

theorem Inv.close (h : Inv n s f lost) (hnext : s.next .close = some s') :
    Inv n s' ⟨[], true⟩ (f.items ++ lost) := by
  obtain rfl := Option.some.inj hnext
  refine ⟨⟨.shut _, h.calm, by simpa using h.workers, fun _ hmem => ?_, by simp, by simp⟩,
    fun x => ?_, by simp⟩
  · obtain ⟨p, -, hp⟩ := mem_map.1 hmem
    split_ifs at hp with hwait
    exact hwait hp
  · have hheld : (fun p => Worker.held (if p = .waiting then .removing else p)) = Worker.held := by
      funext p
      split_ifs with hp
      · rw [hp]
        rfl
      · rfl
    have := h.account x
    simp only [State.held, flatMap_map, hheld, count_append, count_nil] at this ⊢
    omega

theorem Inv.step (h : Inv n s f lost) (hnext : s.next (.step w ok wake) = some s') :
    ∃ f' lost', Inv n s' f' lost' ∧ f'.closed = f.closed ∧ s'.accepted = s.accepted := by
  obtain ⟨p, hw, hstep⟩ := Option.bind_eq_some_iff.1 hnext
  obtain ⟨p', items, done, gone, hmoved, hresult⟩ := stepAt_moved h.toSound hw hstep
  refine ⟨_, gone ++ lost, ⟨hresult.sound, fun x => ?_, fun hf => ?_⟩, rfl, hresult.accepted_eq⟩
  · have hheld := hresult.held_eq x
    have hcount := hmoved.count_eq x
    have haccount := h.account x
    simp only [hresult.accepted_eq, hresult.finished_eq, count_append]
    omega
  · rw [hmoved.gone_eq hf, h.kept hf, nil_append]

theorem Inv.next (h : Inv n s f lost) {a : Act} (hnext : s.next a = some s') :
    ∃ f' lost', Inv n s' f' lost' := by
  cases a with
  | submit job wake => exact (h.submit hnext).imp fun _ h' => ⟨lost, h'⟩
  | close => exact ⟨_, _, h.close hnext⟩
  | step w ok wake =>
    obtain ⟨f', lost', h', -⟩ := h.step hnext
    exact ⟨f', lost', h'⟩

theorem Inv.run {acts : List Act} {t : State}
    (hrun : run State.next (State.start n) acts = some t) : ∃ f lost, Inv n t f lost :=
  Transitions.run_invariant (C := fun _ _ => True) (I := fun s => ∃ f lost, Inv n s f lost)
    (fun _ _ _ ⟨_, _, h⟩ _ hnext => h.next hnext) ⟨_, _, .start n⟩ (Transitions.meets_true _ _) hrun

end

/-- In every state of every run nothing has panicked, and each job is finished, with a worker or in
the queue as often as it was accepted. Only after `Close` can one be lost. -/
theorem conserved (n : ℕ) (acts : List Act) (t : State)
    (hrun : run State.next (State.start n) acts = some t) :
    t.panicked = false ∧ ∃ jobs lost, Represents t.queue ⟨jobs, t.queue.closed⟩ ∧
      t.accepted ~ t.finished ++ t.held ++ jobs ++ lost ∧ (t.queue.closed = false → lost = []) := by
  obtain ⟨⟨jobs, closed⟩, lost, h⟩ := Inv.run hrun
  obtain rfl : t.queue.closed = closed := h.represents.closed_eq
  refine ⟨h.calm, jobs, lost, h.represents, perm_iff_count.2 fun x => ?_, h.kept⟩
  simpa [Nat.add_assoc] using h.account x

/-- A worker runs a job that fails, and puts it back while the other one waits. -/
def failing : List Act :=
  [.submit Item.zero 0, .step 0 true 0, .step 0 true 0, .step 1 true 0, .step 0 false 0]

theorem failing_conserved : ∃ t, run State.next (State.start 2) failing = some t ∧
    t.held = [Item.zero] ∧ t.panicked = false := by
  have hcheck : (run State.next (State.start 2) failing).any fun t => t.held = [Item.zero] := by
    decide
  obtain ⟨t, hrun, ht⟩ := (Option.any_eq_true _ _).1 hcheck
  exact ⟨t, hrun, of_decide_eq_true ht, (conserved 2 failing t hrun).1⟩

/-- No `Signal` is lost: when every worker is in `cond.Wait` or at its end, an open dissolver has
finished every job that it has accepted, and the workers of a closed one have all ended. -/
theorem finished_at_rest (n : ℕ) (hn : 0 < n) (acts : List Act) (t : State)
    (hrun : run State.next (State.start n) acts = some t)
    (hrest : ∀ p ∈ t.workers, p = .waiting ∨ p = .exited) :
    (t.queue.closed = false → t.accepted ~ t.finished) ∧
      (t.queue.closed → ∀ p ∈ t.workers, p = .exited) := by
  obtain ⟨f, lost, h⟩ := Inv.run hrun
  rw [h.represents.closed_eq]
  refine ⟨fun hopen => ?_, fun hclosed p hp => ?_⟩
  · have hwaiting (p : Worker) (hp : p ∈ t.workers) : p = .waiting :=
      (hrest p hp).resolve_right fun hexit => h.staying hopen (hexit ▸ hp)
    have hitems : f.items = [] := by
      by_contra hitems
      obtain ⟨p, hp, hne⟩ := h.awake hitems hn
      exact hne (hwaiting p hp)
    have hheld : t.held = [] := flatMap_eq_nil_iff.2 fun p hp => by rw [hwaiting p hp]; rfl
    refine perm_iff_count.2 fun x => ?_
    simpa [hheld, hitems, h.kept hopen] using h.account x
  · exact (hrest p hp).resolve_left fun hwait => h.woken hclosed (hwait ▸ hp)

/-- The other worker is woken, takes the job and finishes it. -/
def retrying : List Act := failing ++
  [.step 0 true 1, .step 1 true 0, .step 1 true 0, .step 0 true 0, .step 1 true 0]

theorem retrying_at_rest : ∃ t, run State.next (State.start 2) retrying = some t ∧
    t.accepted ~ t.finished := by
  have hcheck : (run State.next (State.start 2) retrying).any fun t =>
      t.queue.closed = false ∧ ∀ p ∈ t.workers, p = .waiting ∨ p = .exited := by decide
  obtain ⟨t, hrun, ht⟩ := (Option.any_eq_true _ _).1 hcheck
  obtain ⟨hopen, hrest⟩ := of_decide_eq_true ht
  exact ⟨t, hrun, (finished_at_rest 2 (by decide) retrying t hrun hrest).1 hopen⟩

end Kairos.Deliverer.Dissolver
