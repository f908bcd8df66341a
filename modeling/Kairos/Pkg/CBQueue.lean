import Kairos.Library.Transitions
import Mathlib.Data.List.Infix

/-!
# The queue of callbacks

`pkg/cbqueue`: callbacks are pushed by any goroutine and run by the one in `Dispatch`, until it
comes to the marker of `Close`. What happens under `Mu` is one step. Nodes are numbered as they are
made, so that those in the queue are the last ones (`Inv`).
-/

namespace Kairos.CBQueue

open List
open Function (update update_apply)
open Transitions (run)

variable {F : Type}

/-- Where `Dispatch` is: before the mutex, in `Wait`, in a callback, or at its end. -/
inductive Phase (F : Type) where
  | ready
  | waiting
  | running (f : F)
  | returned

def Phase.wake : Phase F → Phase F
  | .waiting => .ready
  | p => p

def Phase.current : Phase F → List F
  | .running f => [f]
  | _ => []

/-- What the dispatcher takes from the queue last. -/
def Phase.marker : Phase F → List (Option F)
  | .returned => [none]
  | _ => []

structure State (F : Type) where
  /-- The field `fn` of each node, none in that of `Close`. -/
  fns : List (Option F)
  next : ℕ → Option ℕ
  head : Option ℕ
  tail : Option ℕ
  phase : Phase F
  started : List F
  finished : List F

inductive Act (F : Type) where
  | push (f : Option F)
  | close
  | dispatch

namespace State

def start : State F := ⟨[], fun _ => none, none, none, .ready, [], []⟩

/-- `PushOrClose`. Only the dispatcher waits, so `Signal` is `Broadcast`. -/
def pushOrClose (s : State F) (f : Option F) : State F :=
  let cb := s.fns.length
  { s with
    fns := s.fns ++ [f]
    next := match s.tail with
      | some t => update (update s.next cb none) t (some cb)
      | none => update s.next cb none
    head := if s.tail.isSome then s.head else some cb
    tail := some cb
    phase := s.phase.wake }

/-- The dispatcher takes the first node and calls its function. -/
def take (s : State F) (curr : ℕ) (fn : Option F) : State F :=
  { s with
    head := s.next curr
    tail := if s.tail = some curr then none else s.tail
    phase := fn.elim .returned .running
    started := s.started ++ fn.toList }

/-- The dispatcher tests the queue, or comes back from a callback. -/
def dispatch (s : State F) : Option (State F) :=
  match s.phase with
  | .ready =>
    match s.head with
    | none => some { s with phase := .waiting }
    | some curr => (s.fns[curr]?).map (s.take curr)
  | .running f => some { s with phase := .ready, finished := s.finished ++ [f] }
  | .waiting | .returned => none

def step (s : State F) : Act F → Option (State F)
  -- a callback that is nil makes `Push` panic, after which the mutex is free again
  | .push none => some s
  | .push (some f) => some (s.pushOrClose (some f))
  | .close => some (s.pushOrClose none)
  | .dispatch => s.dispatch

end State

/-- The functions of the nodes that an action adds. -/
def Act.fns : Act F → List (Option F)
  | .push (some f) => [some f]
  | .close => [none]
  | _ => []

def Act.isDispatch : Act F → Bool
  | .dispatch => true
  | _ => false

def beforeClose : List (Option F) → List F
  | some f :: fns => f :: beforeClose fns
  | _ => []

/-- The callbacks that are pushed before the first `Close`. -/
def pushed (acts : List (Act F)) : List F := beforeClose (acts.flatMap Act.fns)

/-- What is asked of a state. Once the queue is closed, the dispatcher can go on until it returns,
in no more steps than the callbacks before `Close` account for. -/
structure Serves (acts : List (Act F)) (s : State F) : Prop where
  order : s.started <+: pushed acts
  one : s.started = s.finished ++ s.phase.current
  ends : s.head = none ↔ s.tail = none
  all : s.phase = .returned → s.started = pushed acts ∧ .close ∈ acts
  goes : .close ∈ acts → s.phase ≠ .returned → ∃ t, s.dispatch = some t
  stops : acts.countP Act.isDispatch ≤ 3 * (pushed acts).length + 3

theorem beforeClose_append (fs : List F) (rest : List (Option F)) :
    beforeClose (fs.map some ++ rest) = fs ++ beforeClose rest := by
  induction fs with
  | nil => rfl
  | cons f fs ih => exact congrArg (f :: ·) ih

theorem none_mem_fns_iff {acts : List (Act F)} : none ∈ acts.flatMap Act.fns ↔ .close ∈ acts := by
  rw [mem_flatMap]
  constructor
  · rintro ⟨a, ha, hfns⟩
    match a with
    | .close => exact ha
    | .push (some f) => simp [Act.fns] at hfns
  · exact fun h => ⟨.close, h, by simp [Act.fns]⟩

/-- The nodes from `k` on are in the queue, after `d` steps of the dispatcher. -/
structure Inv (s : State F) (k d : ℕ) : Prop where
  le : k ≤ s.fns.length
  head : s.head = if k < s.fns.length then some k else none
  tail : s.tail = if k < s.fns.length then some (s.fns.length - 1) else none
  next : ∀ i, k ≤ i → i < s.fns.length →
    s.next i = if i + 1 < s.fns.length then some (i + 1) else none
  taken : s.fns.take k = s.started.map some ++ s.phase.marker
  waits : s.phase = .waiting → k = s.fns.length
  one : s.started = s.finished ++ s.phase.current
  -- after a `Wait` there is a node to take before the next one
  steps : d ≤ 2 * k + s.finished.length + 1
  idle : s.phase = .ready → k = s.fns.length → d ≤ 2 * k + s.finished.length
  busy : s.phase.current ≠ [] → d ≤ 2 * k + s.finished.length

variable {s t : State F} {k d : ℕ} {acts : List (Act F)}

@[simp] theorem Phase.marker_wake (p : Phase F) : p.wake.marker = p.marker := by
  cases p <;> rfl

@[simp] theorem Phase.current_wake (p : Phase F) : p.wake.current = p.current := by
  cases p <;> rfl

theorem Phase.wake_ne_waiting (p : Phase F) : p.wake ≠ .waiting := by
  cases p <;> nofun

theorem Inv.pushOrClose (h : Inv s k d) (f : Option F) : Inv (s.pushOrClose f) k d := by
  have hle := h.le
  have hlength : (s.pushOrClose f).fns.length = s.fns.length + 1 := length_append
  have hlinks : (s.pushOrClose f).head = some k ∧ ∀ i, k ≤ i → i < s.fns.length + 1 →
      (s.pushOrClose f).next i = if i + 1 < s.fns.length + 1 then some (i + 1) else none := by
    rcases Nat.lt_or_ge k s.fns.length with hk | hk
    · -- the new node is linked to the last one
      have htail : s.tail = some (s.fns.length - 1) := by rw [h.tail, if_pos hk]
      refine ⟨by simp [State.pushOrClose, htail, h.head, hk], fun i hi hlt => ?_⟩
      have hold := h.next i hi
      simp only [State.pushOrClose, htail, update_apply]
      grind
    · have htail : s.tail = none := by rw [h.tail, if_neg (by omega)]
      refine ⟨by simp [State.pushOrClose, htail]; omega, fun i hi hlt => ?_⟩
      simp only [State.pushOrClose, htail, update_apply]
      grind
  refine ⟨by omega, ?_, ?_, fun i hi hlt => ?_, ?_, fun hwait => ?_, ?_, h.steps,
    fun _ hk => ?_, ?_⟩
  · rw [hlinks.1, if_pos (by omega)]
  · rw [hlength, if_pos (by omega)]
    rfl
  · rw [hlength] at hlt ⊢
    exact hlinks.2 i hi hlt
  · simpa [State.pushOrClose, take_append_of_le_length hle] using h.taken
  · exact absurd hwait s.phase.wake_ne_waiting
  · simpa [State.pushOrClose] using h.one
  · omega
  · simpa [State.pushOrClose] using h.busy

theorem Inv.take (h : Inv s k d) (hphase : s.phase = .ready) (hk : k < s.fns.length)
    {fn : Option F} (hfn : s.fns[k]? = some fn) : Inv (s.take k fn) (k + 1) (d + 1) := by
  have htaken := h.taken
  have hone := h.one
  have hsteps := h.steps
  rw [hphase] at htaken hone
  refine ⟨hk, h.next k le_rfl hk, ?_, fun i hi => h.next i (by omega), ?_, ?_, ?_, ?_, ?_, ?_⟩
  · simp only [State.take, h.tail, if_pos hk]
    grind
  · rw [State.take, take_add_one, hfn, htaken]
    cases fn <;> simp [Phase.marker]
  · cases fn <;> nofun
  · rw [State.take, hone]
    cases fn <;> simp [Phase.current]
  · simp only [State.take]
    omega
  · cases fn <;> nofun
  · simp only [State.take]
    omega

theorem Inv.dispatch_eq (h : Inv s k d) (hphase : s.phase = .ready) :
    s.dispatch = if k < s.fns.length then (s.fns[k]?).map (s.take k)
      else some { s with phase := .waiting } := by
  simp only [State.dispatch, hphase, h.head]
  split_ifs <;> rfl

theorem Inv.dispatch (h : Inv s k d) (ht : s.dispatch = some t) :
    ∃ k', Inv t k' (d + 1) ∧ t.fns = s.fns := by
  have htaken := h.taken
  have hone := h.one
  cases hphase : s.phase with
  | ready =>
    rw [hphase] at htaken hone
    rw [h.dispatch_eq hphase] at ht
    split_ifs at ht with hk
    · obtain ⟨fn, hfn, rfl⟩ := Option.map_eq_some_iff.1 ht
      exact ⟨k + 1, h.take hphase hk hfn, rfl⟩
    · cases ht
      have hend : k = s.fns.length := le_antisymm h.le (not_lt.1 hk)
      have hidle := h.idle hphase hend
      exact ⟨k, { h with
        taken := htaken
        waits := fun _ => hend
        one := hone
        steps := by simp only; omega
        idle := nofun
        busy := fun hne => absurd rfl hne }, rfl⟩
  | running f =>
    have hbusy := h.busy (by simp [hphase, Phase.current])
    rw [hphase] at htaken hone
    simp only [State.dispatch, hphase, Option.some.injEq] at ht
    subst ht
    exact ⟨k, { h with
      taken := htaken
      waits := nofun
      one := by simpa [Phase.current] using hone
      steps := by simp; omega
      idle := by simp; omega
      busy := fun hne => absurd rfl hne }, rfl⟩
  | waiting | returned => simp [State.dispatch, hphase] at ht

theorem Inv.step (h : Inv s k d) {a : Act F} (ht : s.step a = some t) :
    ∃ k', Inv t k' (d + [a].countP Act.isDispatch) ∧ t.fns = s.fns ++ a.fns := by
  match a with
  | .push none =>
    cases ht
    exact ⟨k, h, (append_nil _).symm⟩
  | .push (some f) =>
    cases ht
    exact ⟨k, h.pushOrClose _, rfl⟩
  | .close =>
    cases ht
    exact ⟨k, h.pushOrClose _, rfl⟩
  | .dispatch =>
    obtain ⟨k', hk', hfns⟩ := h.dispatch ht
    exact ⟨k', hk', hfns.trans (append_nil _).symm⟩

theorem Inv.run (h : Inv s k d) (hrun : run State.step s acts = some t) :
    ∃ k', Inv t k' (d + acts.countP Act.isDispatch) ∧ t.fns = s.fns ++ acts.flatMap Act.fns := by
  induction acts generalizing s k d with
  | nil =>
    cases hrun
    exact ⟨k, h, (append_nil _).symm⟩
  | cons a acts ih =>
    obtain ⟨s₁, hs₁, hrun⟩ := Option.bind_eq_some_iff.1 hrun
    obtain ⟨k₁, h₁, hfns₁⟩ := h.step hs₁
    obtain ⟨k', h', hfns⟩ := ih h₁ hrun
    refine ⟨k', ?_, by rw [hfns, hfns₁, flatMap_cons, append_assoc]⟩
    rwa [Nat.add_assoc, ← countP_append] at h'

theorem Inv.start : Inv (State.start : State F) 0 0 :=
  ⟨le_rfl, rfl, rfl, fun _ _ => nofun, rfl, nofun, rfl, Nat.zero_le _, fun _ _ => le_rfl,
    fun _ => le_rfl⟩

/-- Whatever the interleaving, the dispatcher runs the callbacks pushed before `Close`, in their
order, and no others. -/
theorem dispatcher_serves (acts : List (Act F)) (s : State F)
    (hrun : run State.step State.start acts = some s) : Serves acts s := by
  obtain ⟨k, h, hfns⟩ := Inv.start.run hrun
  have hsplit : s.fns = s.started.map some ++ (s.phase.marker ++ s.fns.drop k) := by
    rw [← append_assoc, ← h.taken, take_append_drop]
  have hpushed : pushed acts = s.started ++ beforeClose (s.phase.marker ++ s.fns.drop k) := by
    rw [pushed, ← beforeClose_append, ← hsplit, hfns]
    rfl
  have hclosed : .close ∈ acts ↔ none ∈ s.fns := by rw [hfns, ← none_mem_fns_iff]; rfl
  refine ⟨⟨_, hpushed.symm⟩, h.one, ?_, fun hreturned => ?_, fun hclose hnot => ?_, ?_⟩
  · rw [h.head, h.tail]
    split_ifs <;> simp
  · rw [hreturned] at hsplit hpushed
    refine ⟨by rw [hpushed]; exact (append_nil _).symm, hclosed.2 ?_⟩
    rw [hsplit]
    simp [Phase.marker]
  · cases hphase : s.phase with
    | ready =>
      rw [h.dispatch_eq hphase]
      split_ifs with hk
      · exact ⟨_, by rw [getElem?_eq_getElem hk]; rfl⟩
      · exact ⟨_, rfl⟩
    | running f => exact ⟨_, by simp only [State.dispatch, hphase]; rfl⟩
    | waiting =>
      -- all nodes have been taken, and none of them was the marker
      rw [hclosed, hsplit, h.waits hphase, hphase] at hclose
      simp [Phase.marker] at hclose
    | returned => exact absurd hphase hnot
  · have hk := congrArg List.length h.taken
    have hone := congrArg List.length h.one
    have hlength := congrArg List.length hpushed
    have hmarker : s.phase.marker.length ≤ 1 := by cases s.phase <;> simp [Phase.marker]
    have hsteps := h.steps
    have hle := h.le
    simp only [length_append, length_take, length_map] at hk hone hlength
    omega

/-- The second callback is pushed behind `Close`. -/
theorem first_callback_served : ∃ s : State ℕ, run State.step State.start
    [.dispatch, .push (some 1), .close, .push (some 2), .dispatch, .dispatch, .dispatch] = some s ∧
      s.started = [1] ∧ Serves
        [.dispatch, .push (some 1), .close, .push (some 2), .dispatch, .dispatch, .dispatch] s :=
  ⟨_, rfl, rfl, dispatcher_serves _ _ rfl⟩

end Kairos.CBQueue
