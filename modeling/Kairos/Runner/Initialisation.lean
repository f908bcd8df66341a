import Kairos.Library.Transitions
import Mathlib.Data.List.Infix

/-!
# The initialisation of a worker

`Worker.Run` of `server/runner/worker.go` subscribes to messages before it sets the functions, the
points and the callback queue, and starts `run` before the queue is there. A handler or a goroutine
is the list of what it uses. What comes from outside are the statements of `Run` and the messages;
the handlers and goroutines take their steps at any time between them.
-/

namespace Kairos.Initialisation

open List
open Transitions (Meets)

/-- What a step uses: the functions, the points for a look-up or for a receiver, the queue. -/
inductive Use where
  | funcs
  | points
  | receiver
  | queue
deriving DecidableEq

/-- The statements of `Run` that matter here. -/
inductive Op where
  | subscribe
  | subscribeSync
  | setFuncs
  | startRetry
  | setPoints
  | startRun
  | makeQueue
  | makeCond
  | startTriggers
deriving DecidableEq

/-- `Worker.Run` (`worker.go:809`). -/
def program : List Op :=
  [.subscribe, .subscribeSync, .setFuncs, .startRetry, .setPoints, .startRun, .makeQueue, .makeCond,
    .startTriggers]

/-- The statement that assigns what is used: `Push` needs the `Cond` of the queue. -/
def Use.op : Use → Op
  | funcs => .setFuncs
  | points | receiver => .setPoints
  | queue => .makeCond

/-- `deliverAsync` to `n` clients, one after the other. -/
def deliveries (n : ℕ) : List Use := (List.replicate n [.receiver, .queue]).flatten

/-- The two ways of `processBroker`, each with its number of deliveries. -/
inductive Processing where
  | endpoints (n : ℕ)
  | template (n : ℕ)

def Processing.uses : Processing → List Use
  | endpoints n => .points :: .queue :: deliveries n
  | template n => .points :: .queue :: .funcs :: .queue :: deliveries n

/-- What `computeMsg` reads of a reply. -/
structure Reply where
  group : Bool
  taskInput : Bool
  start : Bool
  listened : Bool
  processed : List Processing

/-- `Worker.computeMsg` (`worker.go:1371`). -/
def computeMsg (r : Reply) : List Use :=
  if r.group then
    .points :: ((if r.taskInput then [.queue] else []) ++ r.processed.flatMap Processing.uses ++
      if r.taskInput && r.start || r.listened then [] else [.queue])
  else []

/-- What the subscriptions and the triggers hand to the worker. -/
inductive Message where
  | log
  | reply (r : Reply)
  | sync (r : Reply)
  | trigger (client : Bool)
  | connect (failures : ℕ)
  | scheduled (p : Processing)

/-- The statement from which on a message can come. -/
def Message.op : Message → Op
  | sync _ => .subscribeSync
  | scheduled _ => .startTriggers
  | _ => .subscribe

def Message.uses : Message → List Use
  | log => [.points]
  | reply r | sync r => computeMsg r
  | trigger client => if client then [.points, .receiver, .queue] else []
  | connect failures => List.replicate failures .queue
  | scheduled p => .receiver :: p.uses

/-- The statements that `Run` has yet to come to, and what each goroutine has yet to use. -/
structure State where
  left : List Op
  threads : List (List Use)
  crashed : Bool

def start : State := ⟨program, [], false⟩

/-- The next statement of `Run`, or a message. -/
inductive Input where
  | statement
  | message (m : Message)

/-- An input, or the next step of a goroutine. -/
inductive Act where
  | input (x : Input)
  | use (i : ℕ)

def Act.input? : Act → Option Input
  | .input x => some x
  | .use _ => none

section

-- the numbers of clients of the tasks and of the brokers
variable (tasks brokers : ℕ)

/-- `Worker.run` (`worker.go:401`). -/
def run : List Use := .points :: (deliveries tasks ++ .points :: deliveries brokers)

def take (s : State) : Input → Option State
  | .statement =>
    match s.left with
    | [] => none
    | op :: left =>
      some { s with
        left := left
        threads := s.threads ++ if op = .startRun then [run tasks brokers] else [] }
  | .message m =>
    if m.op ∈ s.left then none else some { s with threads := s.threads ++ [m.uses] }

/-- A message from an unknown sender is dropped, and a nil pointer ends the process. -/
def next (s : State) (a : Act) : Option State :=
  if s.crashed then none
  else
    match a with
    | .input x => take tasks brokers s x
    | .use i =>
      match s.threads[i]? with
      | some (u :: rest) =>
        if u.op ∉ s.left ∨ u = .funcs then some { s with threads := s.threads.set i rest }
        else if u = .points then some { s with threads := s.threads.set i [] }
        else some { s with crashed := true }
      | _ => none

def used (s : State) : Act → Option Use
  | .use i => s.threads[i]?.bind head?
  | _ => none

def InTime (s : State) (a : Act) : Prop := ∀ u ∈ used s a, u.op ∉ s.left

/-- A message comes when all that its handler uses is assigned, and `run` is started for a workflow
whose tasks and brokers have no clients. -/
def Timely (s : State) : Input → Prop
  | .statement => s.left.head? = some .startRun → tasks = 0 ∧ brokers = 0
  | .message m => m.op ∉ s.left → ∀ u ∈ m.uses, u.op ∉ s.left

/-- All that the goroutines have yet to use is assigned. -/
structure Inv (s : State) : Prop where
  left : s.left <:+ program
  running : s.crashed = false
  assigned : ∀ t ∈ s.threads, ∀ u ∈ t, u.op ∉ s.left

variable {tasks brokers} {s s' : State} {x : Input}

/-- `run` is started when the points are set and the queue is not there. -/
theorem startRun_between {left : List Op} (h : .startRun :: left <:+ program) :
    .setPoints ∉ left ∧ .makeCond ∈ left := by
  have hall : ∀ l ∈ program.tails, l.head? = some .startRun →
      .setPoints ∉ l.tail ∧ .makeCond ∈ l.tail := by decide
  exact hall _ ((mem_tails _ _).mpr h) rfl

theorem take_statement {op : Op} {left : List Op} (h : s.left = op :: left) :
    take tasks brokers s .statement = some { s with
      left := left
      threads := s.threads ++ if op = .startRun then [run tasks brokers] else [] } := by
  rw [take, h]

theorem queue_mem_run : .queue ∈ run tasks brokers ↔ ¬ (tasks = 0 ∧ brokers = 0) := by
  simp only [run, deliveries, mem_cons, mem_append, mem_flatten, mem_replicate]
  simp
  omega

theorem Inv.input (hs : Inv s) (hx : Timely tasks brokers s x)
    (htake : take tasks brokers s x = some s') : Inv s' := by
  cases x with
  | statement =>
    cases hleft : s.left with
    | nil => simp [take, hleft] at htake
    | cons op left =>
      rw [take_statement hleft, Option.some.injEq] at htake
      subst htake
      have hsuffix : op :: left <:+ program := hleft ▸ hs.left
      refine ⟨(suffix_cons op left).trans hsuffix, hs.running, fun t ht u hu => ?_⟩
      rcases mem_append.mp ht with ht | ht
      · have hnot := hs.assigned t ht u hu
        rw [hleft] at hnot
        exact fun hmem => hnot (mem_cons_of_mem op hmem)
      · split_ifs at ht with hop
        · obtain rfl := mem_singleton.mp ht
          subst hop
          obtain ⟨rfl, rfl⟩ := hx (by rw [hleft]; rfl)
          have hpoints : u = .points := by simpa [run, deliveries] using hu
          rw [hpoints]
          exact (startRun_between hsuffix).1
        · cases ht
  | message m =>
    rw [take] at htake
    split_ifs at htake with hm
    cases htake
    exact ⟨hs.left, hs.running,
      forall_mem_append.mpr ⟨hs.assigned, forall_mem_singleton.mpr (hx hm)⟩⟩

theorem Inv.inTime (hs : Inv s) (a : Act) : InTime s a := by
  intro u hu
  cases a with
  | input x => cases hu
  | use i =>
    obtain ⟨t, ht, hhead⟩ := Option.bind_eq_some_iff.mp hu
    exact hs.assigned t (mem_of_getElem? ht) u (mem_of_head? hhead)

theorem Inv.use (hs : Inv s) {i : ℕ} (hnext : next tasks brokers s (.use i) = some s') :
    Inv s' ∧ s'.left = s.left := by
  rw [Initialisation.next, if_neg (by simp [hs.running])] at hnext
  cases ht : s.threads[i]? with
  | none => simp [ht] at hnext
  | some t =>
    cases t with
    | nil => simp [ht] at hnext
    | cons u rest =>
      have hthread := hs.assigned _ (mem_of_getElem? ht)
      simp only [ht, hthread u mem_cons_self, not_false_eq_true, true_or, if_true,
        Option.some.injEq] at hnext
      subst hnext
      refine ⟨⟨hs.left, hs.running, fun t' ht' => ?_⟩, rfl⟩
      rcases mem_or_eq_of_mem_set ht' with ht' | rfl
      · exact hs.assigned t' ht'
      · exact fun u hu => hthread u (mem_cons_of_mem _ hu)

theorem take_congr {s₀ : State} (h : s₀.left = s.left) (htake : take tasks brokers s x = some s') :
    ∃ s₀', take tasks brokers s₀ x = some s₀' ∧ s₀'.left = s'.left := by
  cases x with
  | statement =>
    cases hleft : s.left with
    | nil => simp [take, hleft] at htake
    | cons op left =>
      rw [take_statement hleft, Option.some.injEq] at htake
      subst htake
      exact ⟨_, take_statement (h.trans hleft), rfl⟩
  | message m =>
    rw [take] at htake
    split_ifs at htake with hm
    cases htake
    exact ⟨_, if_neg (h ▸ hm), h⟩

theorem timely_congr (h : s'.left = s.left) :
    Timely tasks brokers s' x ↔ Timely tasks brokers s x := by
  cases x <;> simp [Timely, h]

/-- What comes in time keeps every interleaving with the goroutines in time. -/
theorem Inv.meets {s₀ : State} (hs : Inv s) (hleft : s₀.left = s.left) {acts : List Act}
    (hinputs : Meets (take tasks brokers) (Timely tasks brokers) s₀ (acts.filterMap Act.input?)) :
    Meets (next tasks brokers) InTime s acts := by
  induction acts generalizing s s₀ with
  | nil => trivial
  | cons a acts ih =>
    refine ⟨hs.inTime a, fun s' hs' => ?_⟩
    cases a with
    | use i =>
      obtain ⟨hinv, hsame⟩ := hs.use hs'
      exact ih hinv (hleft.trans hsame.symm) hinputs
    | input x =>
      obtain ⟨htimely, hrest⟩ := hinputs
      have htake : take tasks brokers s x = some s' := by
        rwa [Initialisation.next, if_neg (by simp [hs.running])] at hs'
      obtain ⟨s₀', hs₀', hleft'⟩ := take_congr hleft htake
      exact ih (hs.input ((timely_congr hleft.symm).2 htimely) htake) hleft' (hrest s₀' hs₀')

/-- A goroutine that has yet to use what is not assigned does so if nothing comes between. -/
theorem not_meets_use {i : ℕ} {t : List Use} (hrunning : s.crashed = false)
    (ht : s.threads[i]? = some t) {u : Use} (hu : u ∈ t) (hleft : u.op ∈ s.left)
    (acts : List Act) :
    ¬ Meets (next tasks brokers) InTime s (List.replicate t.length (.use i) ++ acts) := by
  induction t generalizing s with
  | nil => cases hu
  | cons v rest ih =>
    rintro ⟨hin, hrest⟩
    have hv : v.op ∉ s.left := hin v (by simp [used, ht])
    have hlt := (List.getElem?_eq_some_iff.mp ht).1
    refine ih hrunning (s := { s with threads := s.threads.set i rest }) (by simp [hlt]) ?_ hleft
      (hrest _ ?_)
    · exact (mem_cons.mp hu).resolve_left fun heq => hv (heq ▸ hleft)
    · simp [Initialisation.next, hrunning, ht, hv]

/-- An input that does not come in time starts a goroutine that uses what is not assigned. -/
theorem Inv.exists_early (hs : Inv s) (hx : ¬ Timely tasks brokers s x) :
    ∃ s' t, take tasks brokers s x = some s' ∧ s'.crashed = false ∧
      s'.threads[s.threads.length]? = some t ∧ ∃ u ∈ t, u.op ∈ s'.left := by
  cases x with
  | statement =>
    simp only [Timely, not_forall] at hx
    obtain ⟨hhead, hclients⟩ := hx
    obtain ⟨left, hleft⟩ := head?_eq_some_iff.mp hhead
    have hsuffix : .startRun :: left <:+ program := hleft ▸ hs.left
    exact ⟨_, run tasks brokers, take_statement hleft, hs.running, by simp, .queue,
      queue_mem_run.2 hclients, (startRun_between hsuffix).2⟩
  | message m =>
    simp only [Timely, not_forall, not_not] at hx
    obtain ⟨hm, u, hu, hleft⟩ := hx
    exact ⟨_, m.uses, if_neg hm, hs.running, by simp, u, hu, hleft⟩

theorem Inv.exists_interleaving (hs : Inv s) {inputs : List Input}
    (h : ¬ Meets (take tasks brokers) (Timely tasks brokers) s inputs) :
    ∃ acts, acts.filterMap Act.input? = inputs ∧ ¬ Meets (next tasks brokers) InTime s acts := by
  induction inputs generalizing s with
  | nil => exact absurd trivial h
  | cons x inputs ih =>
    have hnext {s' : State} (htake : take tasks brokers s x = some s') :
        next tasks brokers s (.input x) = some s' := by
      rwa [Initialisation.next, if_neg (by simp [hs.running])]
    by_cases hx : Timely tasks brokers s x
    · simp only [Meets, hx, true_and, not_forall] at h
      obtain ⟨s', htake, hrest⟩ := h
      obtain ⟨acts, hacts, hnot⟩ := ih (hs.input hx htake) hrest
      exact ⟨.input x :: acts, by simp [Act.input?, hacts],
        fun hmeets => hnot (hmeets.2 s' (hnext htake))⟩
    · obtain ⟨s', t, htake, hrunning, ht, u, hu, hleft⟩ := hs.exists_early hx
      refine ⟨.input x :: (List.replicate t.length (.use s.threads.length) ++
        inputs.map .input), ?_, fun hmeets => ?_⟩
      · simp [Act.input?, filterMap_map, Function.comp_def]
      · exact not_meets_use hrunning ht hu hleft _ (hmeets.2 s' (hnext htake))

instance : DecidableRel InTime := fun s a => inferInstanceAs (Decidable (∀ u ∈ used s a, _))

end

end Kairos.Initialisation
