import Mathlib.Data.List.Count
import Kairos.Library.Transitions
import Kairos.Runner.Routes

/-!
# The `DeliverID`s of a broker's deliveries

Each goroutine that delivers for a broker draws a `DeliverID` for its request struct if that has
none, and registers its callback under it. The struct is shared by the clients of a task and by all
endpoints, and its `DeliverID` may be inherited from the request that set the broker off.
-/

namespace Kairos.Worker

open List Option
open Transitions (Meets run)
open Function (update update_apply update_of_ne update_self)

/-- Where the goroutine of a delivery stands. -/
inductive Progress where
  | reading
  | drawing
  | writing (id : ℕ)
  | assigned
  | late
  | registering (id : ℕ)
  | inFlight (id : ℕ)
  /-- The callback has been invoked. -/
  | settled
  | done
  deriving DecidableEq

namespace Progress

def held : Progress → Option ℕ
  | .writing id => some id
  | .registering id => some id
  | .inFlight id => some id
  | _ => none

def Async : Progress → Prop
  | .late => True
  | .registering _ => True
  | .inFlight _ => True
  | _ => False

/-- The delivery is not in flight, and will not be. -/
def Over : Progress → Prop
  | .settled => True
  | .done => True
  | _ => False

end Progress

def Spawn.registers (broker : Point) (sp : Spawn) : Bool := sp.sync || sp.receiver ≠ broker

def Request.deliveries (broker : Point) (r : Request) : ℕ := r.spawns.countP (·.registers broker)

def Request.inherits (broker : Point) (r : Request) : Bool := !r.drawn && r.deliveries broker ≠ 0

/-- The counter, and the requests with their ids, deliveries and goroutines. -/
structure DeliverState where
  deliverCmd : ℕ
  count : ℕ
  deliverID : ℕ → ℕ
  spawns : ℕ → List Spawn
  progress : ℕ × ℕ → Progress

inductive DeliverAct where
  | draw
  | step (g : ℕ × ℕ)
  /-- The callback of a delivery is invoked, or invoked again, where the reply and the timeout both
  found it. After a `sendsync` the template goes on, with these flows. -/
  | settle (g : ℕ × ℕ) (flows : List DeliverFlow)

namespace DeliverState

/-- A request struct, its `DeliverID` drawn or inherited, and its goroutines started. -/
def make (id : ℕ) (s : DeliverState) (r : Request) : DeliverState where
  deliverCmd := if r.drawn then s.deliverCmd + 1 else s.deliverCmd
  count := s.count + 1
  deliverID := update s.deliverID s.count (if r.drawn then s.deliverCmd + 1 else id)
  spawns := update s.spawns s.count r.spawns
  progress := fun g =>
    if g.1 = s.count then if g.2 < r.spawns.length then .reading else .done else s.progress g

def makeAll (id : ℕ) (s : DeliverState) (rs : List Request) : DeliverState := rs.foldl (make id) s

def empty (c : ℕ) : DeliverState := ⟨c, 0, fun _ => 0, fun _ => [], fun _ => .done⟩

def start (R : Routes) (broker : Point) (es : List GoString) (flows : List DeliverFlow) (c id : ℕ) :
    Option DeliverState :=
  (R.processBroker broker es flows).map (makeAll id (empty c))

def spawn (s : DeliverState) (g : ℕ × ℕ) : Option Spawn := (s.spawns g.1)[g.2]?

def registers (broker : Point) (s : DeliverState) (g : ℕ × ℕ) : Bool :=
  (s.spawn g).any (·.registers broker)

def move (s : DeliverState) (g : ℕ × ℕ) (c id : ℕ) (p : Progress) : DeliverState :=
  { s with
    deliverCmd := c
    deliverID := update s.deliverID g.1 id
    progress := update s.progress g p }

def step (broker : Point) (s : DeliverState) (g : ℕ × ℕ) : Option DeliverState :=
  let c := s.deliverCmd
  let id := s.deliverID g.1
  match s.progress g with
  | .reading => some (s.move g c id (if id = 0 then .drawing else .assigned))
  | .drawing => some (s.move g (c + 1) id (.writing (c + 1)))
  | .writing new => some (s.move g c new .assigned)
  | .assigned =>
    some (s.move g c id
      (if s.registers broker g then if id = 0 then .late else .registering id else .done))
  | .late => some (s.move g (c + 1) id (.registering (c + 1)))
  | .registering copied => some (s.move g c id (.inFlight copied))
  | .inFlight _ => none
  | .settled => none
  | .done => none

def settle (R : Routes) (broker : Point) (s : DeliverState) (g : ℕ × ℕ) (flows : List DeliverFlow) :
    DeliverState :=
  let s' := s.move g s.deliverCmd (s.deliverID g.1) .settled
  if (s.spawn g).any Spawn.sync ∧ flows ≠ [] then
    makeAll (s.deliverID g.1) s' (R.handleDeliver broker flows).requests
  else s'

def next (R : Routes) (broker : Point) (s : DeliverState) : DeliverAct → Option DeliverState
  | .draw => some { s with deliverCmd := s.deliverCmd + 1 }
  | .step g => s.step broker g
  | .settle g flows =>
    match s.progress g with
    | .inFlight _ => some (s.settle R broker g flows)
    | .settled => some (s.settle R broker g flows)
    | _ => none

/-- Each request has at most one delivery, and an inherited `DeliverID` goes to one at most. -/
def Separate (broker : Point) (id : ℕ) (rs : List Request) : Prop :=
  (∀ r ∈ rs, r.deliveries broker ≤ 1) ∧ (id ≠ 0 → rs.countP (·.inherits broker) ≤ 1)

/-- A callback is invoked that has not been invoked before, and its requests are separate. -/
def Separated (R : Routes) (broker : Point) (s : DeliverState) : DeliverAct → Prop
  | .settle g flows => s.progress g ≠ .settled ∧
      Separate broker (s.deliverID g.1) (R.handleDeliver broker flows).requests
  | .draw => True
  | .step _ => True

instance (broker : Point) (id : ℕ) (rs : List Request) : Decidable (Separate broker id rs) :=
  inferInstanceAs (Decidable (_ ∧ _))

instance (R : Routes) (broker : Point) (s : DeliverState) : DecidablePred (s.Separated R broker)
  | .settle g flows =>
    inferInstanceAs (Decidable (s.progress g ≠ .settled ∧
      Separate broker (s.deliverID g.1) (R.handleDeliver broker flows).requests))
  | .draw | .step _ => .isTrue trivial

/-- The id is the request's, or some goroutine's of it. -/
def Has (s : DeliverState) (k v : ℕ) : Prop :=
  v ≠ 0 ∧ (s.deliverID k = v ∨ ∃ j, (s.progress (k, j)).held = some v)

/-- A delivery of the request is not over. -/
def Live (broker : Point) (s : DeliverState) (k : ℕ) : Prop :=
  ∃ j, s.registers broker (k, j) ∧ ¬ (s.progress (k, j)).Over

structure Apart (broker : Point) (s : DeliverState) : Prop where
  bound : ∀ {k v}, s.Has k v → v ≤ s.deliverCmd
  apart : ∀ {k l v}, k ≠ l → s.Has k v → s.Has l v → s.Live broker k → ¬ s.Live broker l
  single : ∀ {k i j}, s.registers broker (k, i) → s.registers broker (k, j) → i = j
  async : ∀ {g}, (s.progress g).Async → s.registers broker g
  positive : ∀ {g v}, (s.progress g).held = some v → v ≠ 0

variable {R : Routes} {broker : Point} {s s' : DeliverState} {g : ℕ × ℕ} {c id k v : ℕ}
  {p : Progress} {r : Request} {rs : List Request}

/-! ### The goroutines -/

theorem has_move (hv : ∀ v ≠ 0, id = v ∨ p.held = some v → s.Has g.1 v ∨ s.deliverCmd < v ∧ v ≤ c)
    (h : (s.move g c id p).Has k v) : s.Has k v ∨ k = g.1 ∧ s.deliverCmd < v ∧ v ≤ c := by
  obtain ⟨hv0, h⟩ := h
  by_cases hk : k = g.1
  · subst hk
    rcases h with h | ⟨j, h⟩
    · have h : id = v := by simpa [move] using h
      exact (hv v hv0 (.inl h)).imp_right (⟨rfl, ·⟩)
    · have h : (update s.progress g p (g.1, j)).held = some v := h
      rw [update_apply] at h
      split_ifs at h
      · exact (hv v hv0 (.inr h)).imp_right (⟨rfl, ·⟩)
      · exact .inl ⟨hv0, .inr ⟨j, h⟩⟩
  · rcases h with h | ⟨j, h⟩
    · exact .inl ⟨hv0, .inl ((update_of_ne hk _ _).symm.trans h)⟩
    · have hne : (k, j) ≠ g := fun h => hk (congrArg Prod.fst h)
      have h : (update s.progress g p (k, j)).held = some v := h
      rw [update_of_ne hne] at h
      exact .inl ⟨hv0, .inr ⟨j, h⟩⟩

theorem live_move (hg : ¬ (s.progress g).Over) (h : (s.move g c id p).Live broker k) :
    s.Live broker k := by
  obtain ⟨j, hreg, h⟩ := h
  refine ⟨j, hreg, ?_⟩
  by_cases hj : (k, j) = g
  · rwa [hj]
  · rwa [← show (s.move g c id p).progress (k, j) = s.progress (k, j) from
      update_of_ne hj _ _]

theorem Apart.move (hs : s.Apart broker) (hg : ¬ (s.progress g).Over) (hc : s.deliverCmd ≤ c)
    (hv : ∀ v ≠ 0, id = v ∨ p.held = some v → s.Has g.1 v ∨ s.deliverCmd < v ∧ v ≤ c)
    (hasync : p.Async → s.registers broker g) (hpos : ∀ v, p.held = some v → v ≠ 0) :
    (s.move g c id p).Apart broker where
  bound := by
    intro k v h
    rcases has_move hv h with h | ⟨-, -, h⟩
    · exact (hs.bound h).trans hc
    · exact h
  apart := by
    intro k l v hkl hk hl hlk hll
    rcases has_move hv hk with hk | ⟨rfl, hk, -⟩
    · rcases has_move hv hl with hl | ⟨rfl, hl, -⟩
      · exact hs.apart hkl hk hl (live_move hg hlk) (live_move hg hll)
      · -- The other request does not have a number that has just been drawn.
        exact absurd (hs.bound hk) (Nat.not_le.2 hl)
    · rcases has_move hv hl with hl | ⟨rfl, -, -⟩
      · exact absurd (hs.bound hl) (Nat.not_le.2 hk)
      · exact absurd rfl hkl
  single := hs.single
  async := by
    intro h hh
    have hh : (update s.progress g p h).Async := hh
    rw [update_apply] at hh
    split_ifs at hh with heq
    · exact heq ▸ hasync hh
    · exact hs.async hh
  positive := by
    intro h v hh
    have hh : (update s.progress g p h).held = some v := hh
    rw [update_apply] at hh
    split_ifs at hh
    · exact hpos v hh
    · exact hs.positive hh

theorem Apart.pass (hs : s.Apart broker) (hg : ¬ (s.progress g).Over) (hp : p.held = none)
    (hasync : p.Async → s.registers broker g) :
    (s.move g s.deliverCmd (s.deliverID g.1) p).Apart broker := by
  refine hs.move hg le_rfl (fun v hv h => .inl ⟨hv, .inl ?_⟩) hasync (by simp [hp])
  exact h.elim id (by simp [hp])

theorem Apart.carry (hs : s.Apart broker) (hg : ¬ (s.progress g).Over) (hv : s.Has g.1 v)
    (hp : p.held = some v) (hasync : p.Async → s.registers broker g) :
    (s.move g s.deliverCmd (s.deliverID g.1) p).Apart broker := by
  refine hs.move hg le_rfl (fun w hw h => .inl ?_) hasync ?_
  · rcases h with h | h
    · exact ⟨hw, .inl h⟩
    · cases hp.symm.trans h
      exact hv
  · intro w h
    cases hp.symm.trans h
    exact hv.1

theorem Apart.draw (hs : s.Apart broker) (hg : ¬ (s.progress g).Over)
    (hp : p.held = some (s.deliverCmd + 1)) (hasync : p.Async → s.registers broker g) :
    (s.move g (s.deliverCmd + 1) (s.deliverID g.1) p).Apart broker := by
  have hnew {w : ℕ} (h : p.held = some w) : s.deliverCmd + 1 = w :=
    some.inj (hp.symm.trans h)
  refine hs.move hg (Nat.le_succ _) (fun w hw h => ?_) hasync ?_
  · rcases h with h | h
    · exact .inl ⟨hw, .inl h⟩
    · exact .inr (hnew h ▸ ⟨Nat.lt_succ_self _, le_rfl⟩)
  · intro w h
    exact hnew h ▸ Nat.succ_ne_zero _

theorem Apart.step (hs : s.Apart broker) (h : s.step broker g = some s') : s'.Apart broker := by
  unfold DeliverState.step at h
  cases hg : s.progress g with
  | reading =>
    simp only [hg, some.injEq] at h
    rw [← h]
    refine hs.pass (by simp [hg, Progress.Over]) ?_ ?_ <;> split_ifs <;>
      simp [Progress.held, Progress.Async]
  | drawing =>
    simp only [hg, some.injEq] at h
    exact h ▸ hs.draw (by simp [hg, Progress.Over]) rfl (by simp [Progress.Async])
  | writing new =>
    simp only [hg, some.injEq] at h
    have hnew : s.Has g.1 new := ⟨hs.positive (by rw [hg]; rfl), .inr ⟨g.2, by rw [hg]; rfl⟩⟩
    refine h ▸ hs.move (by simp [hg, Progress.Over]) le_rfl (fun v _ hv => .inl ?_)
      (by simp [Progress.Async]) (by simp [Progress.held])
    rcases hv with rfl | hv
    · exact hnew
    · exact absurd hv nofun
  | assigned =>
    simp only [hg, some.injEq] at h
    rw [← h]
    split_ifs with hreg hid
    · exact hs.pass (by simp [hg, Progress.Over]) rfl fun _ => hreg
    · exact hs.carry (by simp [hg, Progress.Over]) ⟨hid, .inl rfl⟩ rfl fun _ => hreg
    · exact hs.pass (by simp [hg, Progress.Over]) rfl (by simp [Progress.Async])
  | late =>
    simp only [hg, some.injEq] at h
    exact h ▸ hs.draw (by simp [hg, Progress.Over]) rfl fun _ => hs.async (by rw [hg]; trivial)
  | registering copied =>
    simp only [hg, some.injEq] at h
    have hcopied : s.Has g.1 copied := ⟨hs.positive (by rw [hg]; rfl), .inr ⟨g.2, by rw [hg]; rfl⟩⟩
    exact h ▸ hs.carry (by simp [hg, Progress.Over]) hcopied rfl fun _ =>
      hs.async (by rw [hg]; trivial)
  | inFlight v | settled | done => simp [hg] at h

/-! ### The requests -/

def Free (broker : Point) (s : DeliverState) (v : ℕ) : Prop := ∀ l, s.Has l v → ¬ s.Live broker l

theorem has_make (h : (s.make id r).Has k v) :
    k ≠ s.count ∧ s.Has k v ∨ k = s.count ∧ v = if r.drawn then s.deliverCmd + 1 else id := by
  obtain ⟨hv0, h⟩ := h
  by_cases hk : k = s.count
  · refine .inr ⟨hk, ?_⟩
    subst hk
    rcases h with h | ⟨j, h⟩
    · exact h.symm.trans (update_self ..)
    · -- Its goroutines have not drawn anything.
      simp only [make, if_true] at h
      split_ifs at h <;> exact absurd h nofun
  · refine .inl ⟨hk, hv0, ?_⟩
    rcases h with h | ⟨j, h⟩
    · exact .inl ((update_of_ne hk _ _).symm.trans h)
    · simp only [make, if_neg hk] at h
      exact .inr ⟨j, h⟩

theorem deliverCmd_make :
    (s.make id r).deliverCmd = if r.drawn then s.deliverCmd + 1 else s.deliverCmd := rfl

theorem deliverCmd_le_make : s.deliverCmd ≤ (s.make id r).deliverCmd := by
  rw [deliverCmd_make]
  split_ifs <;> omega

theorem registers_make (hk : k ≠ s.count) (j : ℕ) :
    (s.make id r).registers broker (k, j) = s.registers broker (k, j) := by
  simp only [registers, spawn, make, update_of_ne hk]

theorem registers_make_new (j : ℕ) :
    (s.make id r).registers broker (s.count, j) = (r.spawns[j]?).any (·.registers broker) := by
  simp only [registers, spawn, make, update_self]

theorem live_make (hk : k ≠ s.count) (h : (s.make id r).Live broker k) : s.Live broker k := by
  obtain ⟨j, hreg, h⟩ := h
  rw [registers_make hk] at hreg
  simp only [make, if_neg hk] at h
  exact ⟨j, hreg, h⟩

theorem deliveries_of_live (h : (s.make id r).Live broker s.count) : r.deliveries broker ≠ 0 := by
  obtain ⟨j, hreg, -⟩ := h
  rw [registers_make_new, Option.any_eq_true] at hreg
  obtain ⟨sp, hsp, hreg⟩ := hreg
  exact fun h => countP_eq_zero.1 h sp (mem_of_getElem? hsp) hreg

theorem index_unique {sps : List Spawn} (h : sps.countP (·.registers broker) ≤ 1) {i j : ℕ}
    (hi : (sps[i]?).any (·.registers broker)) (hj : (sps[j]?).any (·.registers broker)) :
    i = j := by
  -- One that registers leaves none for the rest.
  have hrest {sp : Spawn} {sps : List Spawn} {n : ℕ}
      (h : (sp :: sps).countP (·.registers broker) ≤ 1) (hsp : sp.registers broker)
      (hn : (sps[n]?).any (·.registers broker)) : False := by
    rw [countP_cons_of_pos hsp] at h
    obtain ⟨sp', hmem, hreg⟩ := (Option.any_eq_true _ _).1 hn
    exact countP_eq_zero.1 (Nat.le_zero.1 (Nat.le_of_succ_le_succ h)) sp'
      (mem_of_getElem? hmem) hreg
  induction sps generalizing i j with
  | nil => simp at hi
  | cons sp sps ih =>
    cases i with
    | zero =>
      cases j with
      | zero => rfl
      | succ j => exact (hrest h hi hj).elim
    | succ i =>
      cases j with
      | zero => exact (hrest h hj hi).elim
      | succ j => rw [ih ((sublist_cons_self sp sps).countP_le.trans h) hi hj]

theorem Apart.make (hs : s.Apart broker) (hid : id ≤ s.deliverCmd) (hr : r.deliveries broker ≤ 1)
    (hfree : r.inherits broker → s.Free broker id) : (s.make id r).Apart broker where
  bound := by
    intro k v h
    rcases has_make h with ⟨-, h⟩ | ⟨-, rfl⟩
    · exact (hs.bound h).trans deliverCmd_le_make
    · rw [deliverCmd_make]
      split_ifs <;> omega
  apart := by
    -- The new request and another one do not have a number in common and live deliveries.
    have hnew {l v : ℕ} (hv : v = if r.drawn then s.deliverCmd + 1 else id) (hl : s.Has l v)
        (hcount : (s.make id r).Live broker s.count) : ¬ s.Live broker l := by
      split_ifs at hv with hdrawn
      · exact absurd (hs.bound hl) (by omega)
      · refine hfree ?_ l (hv ▸ hl)
        simp [Request.inherits, hdrawn, deliveries_of_live hcount]
    intro k l v hkl hk hl hlk hll
    rcases has_make hk with ⟨hkne, hk⟩ | ⟨rfl, hkv⟩
    · rcases has_make hl with ⟨hlne, hl⟩ | ⟨rfl, hlv⟩
      · exact hs.apart hkl hk hl (live_make hkne hlk) (live_make hlne hll)
      · exact hnew hlv hk hll (live_make hkne hlk)
    · rcases has_make hl with ⟨hlne, hl⟩ | ⟨rfl, -⟩
      · exact hnew hkv hl hlk (live_make hlne hll)
      · exact absurd rfl hkl
  single := by
    intro k i j hi hj
    by_cases hk : k = s.count
    · subst hk
      rw [registers_make_new] at hi hj
      exact index_unique hr hi hj
    · rw [registers_make hk] at hi hj
      exact hs.single hi hj
  async := by
    rintro ⟨k, j⟩ h
    by_cases hk : k = s.count
    · simp only [DeliverState.make, if_pos hk] at h
      split_ifs at h <;> exact absurd h nofun
    · simp only [DeliverState.make, if_neg hk] at h
      rw [registers_make hk]
      exact hs.async h
  positive := by
    rintro ⟨k, j⟩ v h
    by_cases hk : k = s.count
    · simp only [DeliverState.make, if_pos hk] at h
      split_ifs at h <;> exact absurd h nofun
    · simp only [DeliverState.make, if_neg hk] at h
      exact hs.positive h

theorem Free.make (hfree : s.Free broker id) (hid : id ≤ s.deliverCmd) (hr : ¬ r.inherits broker) :
    (s.make id r).Free broker id := by
  intro l hl hlive
  rcases has_make hl with ⟨hlne, hl⟩ | ⟨rfl, hv⟩
  · exact hfree l hl (live_make hlne hlive)
  · split_ifs at hv with hdrawn
    · omega
    · exact hr (by simp [Request.inherits, hdrawn, deliveries_of_live hlive])

theorem free_zero : s.Free broker 0 := fun _ h => absurd rfl h.1

theorem Apart.makeAll (hs : s.Apart broker) (hid : id ≤ s.deliverCmd) (hrs : Separate broker id rs)
    (hfree : s.Free broker id) : (s.makeAll id rs).Apart broker := by
  -- The induction needs the number to be free only for as long as a request is to inherit it.
  replace hfree : rs.countP (·.inherits broker) ≠ 0 → s.Free broker id := fun _ => hfree
  induction rs generalizing s with
  | nil => exact hs
  | cons r rs ih =>
    obtain ⟨hone, hcount⟩ := hrs
    have hr : r.inherits broker → s.Free broker id := by
      intro h
      refine hfree ?_
      rw [countP_cons_of_pos h]
      exact Nat.succ_ne_zero _
    refine ih (hs.make hid (hone r mem_cons_self) hr) (hid.trans deliverCmd_le_make)
      ⟨fun r' h => hone r' (mem_cons_of_mem _ h), fun h =>
        (sublist_cons_self r rs).countP_le.trans (hcount h)⟩ fun hrest => ?_
    by_cases hid0 : id = 0
    · exact hid0 ▸ free_zero
    by_cases h : r.inherits broker
    · have := hcount hid0
      rw [countP_cons_of_pos h] at this
      exact absurd (Nat.le_zero.1 (Nat.le_of_succ_le_succ this)) hrest
    · refine (hfree ?_).make hid h
      rwa [countP_cons_of_neg h]

theorem apart_empty : (empty c).Apart broker where
  bound := fun ⟨hv, h⟩ => h.elim (fun h => absurd h.symm hv) fun ⟨_, h⟩ => absurd h nofun
  apart := fun _ _ _ ⟨_, _, h⟩ => absurd trivial h
  single := fun h => absurd h (by simp [registers, spawn, empty])
  async := False.elim
  positive := nofun

theorem Apart.free (hs : s.Apart broker) (hg : s.progress g = .inFlight v) :
    (s.move g s.deliverCmd (s.deliverID g.1) .settled).Free broker (s.deliverID g.1) := by
  have hne : ¬ (s.progress g).Over := by simp [hg, Progress.Over]
  have hreg : s.registers broker g := hs.async (by rw [hg]; trivial)
  intro l hl hlive
  by_cases hlg : l = g.1
  · obtain ⟨j, hj, hdone⟩ := hlive
    subst hlg
    obtain rfl := hs.single hreg hj
    exact hdone (by simp [DeliverState.move, Progress.Over])
  · have hl : s.Has l (s.deliverID g.1) := by
      have hkept (w : ℕ) (hw : w ≠ 0) (h : s.deliverID g.1 = w ∨ Progress.settled.held = some w) :
          s.Has g.1 w :=
        ⟨hw, .inl (h.resolve_right (by simp [Progress.held]))⟩
      rcases has_move (fun w hw h => .inl (hkept w hw h)) hl with h | ⟨h, -⟩
      · exact h
      · exact absurd h hlg
    exact hs.apart hlg hl ⟨hl.1, .inl rfl⟩ (live_move hne hlive) ⟨g.2, hreg, hne⟩

theorem Apart.settle (hs : s.Apart broker) (hg : s.progress g = .inFlight v)
    {flows : List DeliverFlow}
    (ha : s.Separated R broker (.settle g flows)) : (s.settle R broker g flows).Apart broker := by
  have hpass : (s.move g s.deliverCmd (s.deliverID g.1) .settled).Apart broker :=
    hs.pass (by simp [hg, Progress.Over]) rfl (by simp [Progress.Async])
  unfold DeliverState.settle
  split_ifs
  · refine hpass.makeAll ?_ ha.2 (hs.free hg)
    by_cases hid : s.deliverID g.1 = 0
    · exact hid ▸ Nat.zero_le _
    · exact hs.bound ⟨hid, .inl rfl⟩
  · exact hpass

theorem Apart.next {a : DeliverAct} (hs : s.Apart broker) (ha : s.Separated R broker a)
    (h : s.next R broker a = some s') : s'.Apart broker := by
  cases a with
  | draw =>
    cases h
    exact { hs with bound := fun h => (hs.bound h).trans (Nat.le_succ _) }
  | step g => exact hs.step h
  | settle g flows =>
    simp only [DeliverState.next] at h
    split at h
    · next v hg => exact some.inj h ▸ hs.settle hg ha
    · next hg => exact absurd hg ha.1
    · exact absurd h nofun

def sampleBroker : Point := ⟨1, .broker, "route"⟩

end DeliverState

end Kairos.Worker
