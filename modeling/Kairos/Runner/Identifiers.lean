import Mathlib.Data.List.Pairwise
import Kairos.Go.Strings
import Kairos.Library.Transitions

/-!
# Parts and `DeliverID`s across nodes and restarts

The worker of a workflow and its daemons name the parts of a flow by numbers, and the worker numbers
its deliveries. The counter of a node starts at the second in which the node does, and nothing tells
the counters of two nodes apart, nor of two starts.
-/

namespace Kairos.Identifiers

open List Option
open Transitions (run Meets)
open Function (update update_self update_of_ne update_apply)
open Strings (itoa natDigits)

/-- A process that draws numbers: the worker or a daemon. -/
inductive Node where
  | worker
  | daemon (n : ℕ)
  deriving DecidableEq

/-- What a number is drawn for. -/
inductive Kind where
  | part
  | daemonPart
  | deliverID
  deriving DecidableEq

/-- The kind of a part that follows no other: only `Agent.getPart` has one of its own. -/
def Node.rootKind : Node → Kind
  | .worker => .part
  | .daemon _ => .daemonPart

def Kind.lead : Kind → GoString
  | .part => "part-"
  | .daemonPart => "daemonpart-"
  | .deliverID => []

/-- The name `getPart` builds from the counter. -/
def partName (k : Kind) (wid : ℤ) (id : ℕ) : GoString :=
  k.lead ++ itoa wid ++ "-" ++ natDigits id

/-- The key of `flowMap` for a part and a receiver. -/
def flowKey (part : GoString) (rvID rvType : ℤ) : GoString :=
  part ++ "@" ++ itoa rvID ++ "-" ++ itoa rvType

/-- One run of a process: its counter, the time it was seeded with, and its `flowMap`. -/
structure Life where
  node : Node
  seed : ℕ
  counter : ℕ
  flowMap : GoString → Option GoString

namespace Life

/-- A process that starts at `now` seeds its counter with the time. -/
def start (node : Node) (now : ℕ) : Life := ⟨node, now, now, fun _ => none⟩

/-- `getPart` of the worker and of a daemon: the part, and the process after it. -/
def getPart (wid : ℤ) (life : Life) (replyPart : GoString) (rvID rvType : ℤ) : GoString × Life :=
  let id := life.counter + 1
  if replyPart = [] then (partName life.node.rootKind wid id, { life with counter := id })
  else
    let my := flowKey replyPart rvID rvType
    match life.flowMap my with
    | some reqPart => (reqPart, life)
    | none =>
      let p := partName .part wid id
      (p, { life with counter := id, flowMap := update life.flowMap my (some p) })

/-- What `getPart` draws a number for, if it draws one. -/
def draws (life : Life) (replyPart : GoString) (rvID rvType : ℤ) : Option Kind :=
  if replyPart = [] then some life.node.rootKind
  else if (life.flowMap (flowKey replyPart rvID rvType)).isNone then some .part
  else none

end Life

/-- A call of `getPart` with the part it returned. -/
structure PartCall where
  life : ℕ
  replyPart : GoString
  rvID : ℤ
  rvType : ℤ
  part : GoString

namespace PartCall

def key (c : PartCall) : GoString := flowKey c.replyPart c.rvID c.rvType

/-- The calls pass one part on to one receiver in one run of a process. -/
def Same (c d : PartCall) : Prop :=
  c.life = d.life ∧ c.replyPart ≠ [] ∧ c.replyPart = d.replyPart ∧ c.rvID = d.rvID ∧
    c.rvType = d.rvType

end PartCall

/-- The clock, the starts of nodes, the last of each; the calls of `getPart`, last first, and the
numbers drawn for each use. -/
structure State where
  now : ℕ
  count : ℕ
  lives : ℕ → Life
  current : Node → Option ℕ
  calls : List PartCall
  drawn : Kind → List ℕ

/-- Time passes, a process starts, or draws a number. -/
inductive Act where
  | tick (seconds : ℕ)
  | start (node : Node) (located : Bool)
  | getPart (node : Node) (replyPart : GoString) (rvID rvType : ℤ)
  | deliverID
  | draw (node : Node)

namespace State

def init : State := ⟨0, 0, fun _ => .start .worker 0, fun _ => none, [], fun _ => []⟩

def record (use : Option Kind) (id : ℕ) (drawn : Kind → List ℕ) : Kind → List ℕ :=
  use.elim drawn fun k => update drawn k (id :: drawn k)

def getPart (wid : ℤ) (s : State) (replyPart : GoString) (rvID rvType : ℤ) (l : ℕ) : State :=
  let r := (s.lives l).getPart wid replyPart rvID rvType
  { s with
    lives := update s.lives l r.2
    calls := ⟨l, replyPart, rvID, rvType, r.1⟩ :: s.calls
    drawn := record ((s.lives l).draws replyPart rvID rvType) ((s.lives l).counter + 1) s.drawn }

def draw (s : State) (use : Option Kind) (l : ℕ) : State :=
  { s with
    lives := update s.lives l { s.lives l with counter := (s.lives l).counter + 1 }
    drawn := record use ((s.lives l).counter + 1) s.drawn }

def next (wid : ℤ) (s : State) : Act → Option State
  | .tick seconds => some { s with now := s.now + seconds }
  | .start node located => some
    { s with
      count := s.count + 1
      lives := update s.lives s.count (.start node (if located then s.now else 0))
      current := update s.current node (some s.count) }
  | .getPart node replyPart rvID rvType =>
    (s.current node).map (s.getPart wid replyPart rvID rvType)
  | .deliverID => (s.current .worker).map (s.draw (some .deliverID))
  | .draw node => (s.current node).map (s.draw none)

/-- Parts are shared by the same calls only, and no deliver id is drawn twice. -/
structure Unique (s : State) : Prop where
  parts : s.calls.Pairwise fun c d => c.part = d.part ↔ c.Same d
  deliverIDs : (s.drawn .deliverID).Nodup

def draws (s : State) : Act → Option (ℕ × Kind)
  | .getPart node replyPart rvID rvType =>
    (s.current node).bind fun l => ((s.lives l).draws replyPart rvID rvType).map (l, ·)
  | .deliverID => (s.current .worker).map (·, .deliverID)
  | _ => none

/-- No other start of a node has gone through the number that is next for the node that draws. -/
def Apart (s : State) (a : Act) : Prop :=
  ∀ d ∈ s.draws a, ∀ l < s.count, l ≠ d.1 →
    ¬ ((s.lives l).seed < (s.lives d.1).counter + 1 ∧
      (s.lives d.1).counter + 1 ≤ (s.lives l).counter)

instance (s : State) (a : Act) : Decidable (s.Apart a) :=
  inferInstanceAs (Decidable (∀ d ∈ s.draws a, ∀ l < s.count, l ≠ d.1 → ¬ (_ ∧ _)))

end State

/-! ## The texts -/

theorem dash_notMem_natDigits (n : ℕ) : '-' ∉ natDigits n := fun hmem =>
  absurd (Strings.isDigit_of_mem_natDigits hmem) (by decide)

theorem natDigits_append_ne (n : ℕ) (s t : GoString) : natDigits n ++ s ≠ '-' :: t := by
  obtain ⟨c, cs, hcs⟩ := exists_cons_of_ne_nil (Nat.toDigits_ne_nil (b := 10) (n := n))
  intro h
  have hdigits : natDigits n = c :: cs := hcs
  rw [hdigits, cons_append] at h
  cases h
  exact dash_notMem_natDigits n (hdigits ▸ mem_cons_self)

theorem itoa_dash_inj {m n : ℤ} {s t : GoString}
    (h : itoa m ++ '-' :: s = itoa n ++ '-' :: t) : m = n ∧ s = t := by
  have hdigits {a b : ℕ} (h : natDigits a ++ '-' :: s = natDigits b ++ '-' :: t) :
      a = b ∧ s = t := by
    obtain ⟨hab, hst⟩ :=
      Strings.eq_of_append_sep (dash_notMem_natDigits a) (dash_notMem_natDigits b) h
    exact ⟨Strings.natDigits_injective hab, hst⟩
  cases m with
  | ofNat m =>
    cases n with
    | ofNat n => exact (hdigits h).imp_left (congrArg _)
    | negSucc n => exact absurd h (natDigits_append_ne m _ _)
  | negSucc m =>
    cases n with
    | ofNat n => exact absurd h.symm (natDigits_append_ne n _ _)
    | negSucc n =>
      obtain ⟨hmn, hst⟩ := hdigits (List.cons.inj h).2
      exact ⟨by rw [Nat.add_right_cancel hmn], hst⟩

theorem flowKey_eq (p : GoString) (a b : ℤ) :
    flowKey p a b = p ++ '@' :: (itoa a ++ '-' :: itoa b) := by
  unfold flowKey
  rw [append_assoc, append_assoc, append_assoc]
  rfl

theorem flowKey_inj {p q : GoString} {a b c d : ℤ} (h : flowKey p a b = flowKey q c d) :
    p = q ∧ a = c ∧ b = d := by
  have hat (a b : ℤ) : '@' ∉ (itoa a ++ '-' :: itoa b).reverse := by
    have hitoa (n : ℤ) : '@' ∉ itoa n := fun hmem =>
      absurd (Strings.isDigit_of_mem_itoa hmem) (by decide)
    simp [hitoa]
  -- the last character `@` of a key is the one behind the part
  have hrev : (itoa a ++ '-' :: itoa b).reverse ++ '@' :: p.reverse =
      (itoa c ++ '-' :: itoa d).reverse ++ '@' :: q.reverse := by
    rw [flowKey_eq, flowKey_eq] at h
    simpa using congrArg List.reverse h
  obtain ⟨hreceiver, hpart⟩ := Strings.eq_of_append_sep (hat a b) (hat c d) hrev
  obtain ⟨hac, hbd⟩ := itoa_dash_inj (reverse_injective hreceiver)
  exact ⟨reverse_injective hpart, hac, Strings.itoa_injective hbd⟩

theorem partName_inj {k k' : Kind} (hk : k ≠ .deliverID) (hk' : k' ≠ .deliverID) {wid : ℤ}
    {m n : ℕ} (h : partName k wid m = partName k' wid n) : k = k' ∧ m = n := by
  have hpart (n : ℕ) : (partName .part wid n).head? = some 'p' := rfl
  have hdaemon (n : ℕ) : (partName .daemonPart wid n).head? = some 'd' := rfl
  have hkind : k = k' := by
    have hhead := congrArg head? h
    cases k <;> cases k' <;> simp only [hpart, hdaemon, ne_eq, not_true_eq_false] at *
    all_goals exact absurd hhead (by decide)
  subst hkind
  exact ⟨rfl, Strings.natDigits_injective (append_cancel_left h)⟩

namespace State

def advance (s : State) (l : ℕ) (flowMap : GoString → Option GoString) : State :=
  { s with
    lives := update s.lives l
      { s.lives l with counter := (s.lives l).counter + 1, flowMap := flowMap } }

def named (s : State) (k : Kind) (c : PartCall) (flowMap : GoString → Option GoString) : State :=
  { s.advance c.life flowMap with
    calls := c :: s.calls
    drawn := record (some k) ((s.lives c.life).counter + 1) s.drawn }

/-- Some run of a process has drawn the number. -/
def Covers (s : State) (n : ℕ) : Prop :=
  ∃ l < s.count, (s.lives l).seed < n ∧ n ≤ (s.lives l).counter

/-- The numbers drawn are those of the parts returned, among those that a start has gone through,
and the tables hold what calls with a part before them gave. -/
structure Sound (wid : ℤ) (s : State) : Prop where
  current : ∀ node, ∀ l ∈ s.current node, l < s.count
  call : ∀ c ∈ s.calls, c.life < s.count
  part : ∀ c ∈ s.calls, ∃ k n, k ≠ .deliverID ∧ n ∈ s.drawn k ∧ c.part = partName k wid n
  remembered : ∀ c ∈ s.calls, c.replyPart ≠ [] → (s.lives c.life).flowMap c.key = some c.part
  table : ∀ l < s.count, ∀ key, ∀ p ∈ (s.lives l).flowMap key,
    ∃ c ∈ s.calls, c.life = l ∧ c.replyPart ≠ [] ∧ c.key = key ∧ c.part = p
  covers : ∀ k, ∀ n ∈ s.drawn k, s.Covers n
  seed_le : ∀ l, (s.lives l).seed ≤ (s.lives l).counter

variable {wid : ℤ} {s s' : State} {replyPart : GoString} {rvID rvType : ℤ} {l n : ℕ} {a : Act}
  {flowMap : GoString → Option GoString}

theorem sound_init (wid : ℤ) : init.Sound wid := by
  constructor <;> simp [init, Life.start]

structure Extends (life : Life) (c : PartCall) (flowMap : GoString → Option GoString) : Prop where
  keeps : ∀ key, ∀ p ∈ life.flowMap key, flowMap key = some p
  stores : c.replyPart ≠ [] → flowMap c.key = some c.part
  only : ∀ key, ∀ p ∈ flowMap key, life.flowMap key = some p ∨
    c.replyPart ≠ [] ∧ c.key = key ∧ c.part = p

theorem extends_update {life : Life} {c : PartCall} (hne : c.replyPart ≠ [])
    (hnone : life.flowMap c.key = none) :
    Extends life c (update life.flowMap c.key (some c.part)) := by
  refine ⟨fun key p hp => ?_, fun _ => update_self .., fun key p hp => ?_⟩
  · have hkey : key ≠ c.key := by
      rintro rfl
      rw [hnone] at hp
      cases hp
    rw [update_of_ne hkey]
    exact hp
  · rw [update_apply] at hp
    split_ifs at hp with hkey
    · exact .inr ⟨hne, hkey.symm, some.inj hp⟩
    · exact .inl hp

theorem getPart_cases (wid : ℤ) (s : State) (replyPart : GoString) (rvID rvType : ℤ) (l : ℕ) :
    (∃ p ∈ (s.lives l).flowMap (flowKey replyPart rvID rvType), replyPart ≠ [] ∧
      (s.lives l).draws replyPart rvID rvType = none ∧ s.getPart wid replyPart rvID rvType l =
        { s with calls := ⟨l, replyPart, rvID, rvType, p⟩ :: s.calls }) ∨
    ∃ k ≠ .deliverID, ∃ c flowMap,
      c = ⟨l, replyPart, rvID, rvType, partName k wid ((s.lives l).counter + 1)⟩ ∧
      (replyPart ≠ [] → (s.lives l).flowMap c.key = none) ∧ Extends (s.lives l) c flowMap ∧
      (s.lives l).draws replyPart rvID rvType = some k ∧
      s.getPart wid replyPart rvID rvType l = s.named k c flowMap := by
  by_cases hroot : replyPart = []
  · refine .inr ⟨(s.lives l).node.rootKind, ?_, _, (s.lives l).flowMap, rfl,
      fun hne => absurd hroot hne, ⟨fun _ _ => id, fun hne => absurd hroot hne, fun _ _ => .inl⟩,
      if_pos hroot, ?_⟩
    · cases (s.lives l).node <;> simp [Node.rootKind]
    · simp [getPart, Life.getPart, Life.draws, hroot, named, advance]
  cases hmemo : (s.lives l).flowMap (flowKey replyPart rvID rvType) with
  | some p =>
    refine .inl ⟨p, rfl, hroot, ?_, ?_⟩
    · simp [Life.draws, hroot, hmemo]
    · simp [getPart, Life.getPart, Life.draws, hroot, hmemo, record]
  | none =>
    refine .inr ⟨.part, by decide, _, _, rfl, fun _ => hmemo, extends_update hroot hmemo, ?_, ?_⟩
    · simp [Life.draws, hroot, hmemo]
    · simp [getPart, Life.getPart, Life.draws, hroot, hmemo, named, advance, PartCall.key]

theorem Sound.start (h : s.Sound wid) (node : Node) (now : ℕ) : ({ s with
      count := s.count + 1
      lives := update s.lives s.count (.start node now)
      current := update s.current node (some s.count) } : State).Sound wid := by
  have hlives {l : ℕ} (hl : l < s.count) :
      update s.lives s.count (.start node now) l = s.lives l :=
    update_of_ne (Nat.ne_of_lt hl) _ _
  refine ⟨fun node' l hl => ?_, fun c hc => Nat.lt_succ_of_lt (h.call c hc), h.part,
    fun c hc hne => ?_, fun l hl key p hp => ?_, fun k n hn => ?_, fun l => ?_⟩
  · dsimp only at hl ⊢
    rw [update_apply] at hl
    split_ifs at hl
    · cases hl
      exact Nat.lt_succ_self _
    · exact Nat.lt_succ_of_lt (h.current node' l hl)
  · dsimp only
    rw [hlives (h.call c hc)]
    exact h.remembered c hc hne
  · dsimp only at hp
    rcases Nat.lt_succ_iff_lt_or_eq.1 hl with hl | rfl
    · rw [hlives hl] at hp
      exact h.table l hl key p hp
    · rw [update_self] at hp
      cases hp
  · obtain ⟨l, hl, hrange⟩ := h.covers k n hn
    refine ⟨l, Nat.lt_succ_of_lt hl, ?_⟩
    dsimp only
    rw [hlives hl]
    exact hrange
  · dsimp only
    rw [update_apply]
    split_ifs
    · exact Nat.le_refl _
    · exact h.seed_le l

theorem mem_record {use : Option Kind} {id : ℕ} {drawn : Kind → List ℕ} {k : Kind} :
    n ∈ record use id drawn k ↔ use = some k ∧ n = id ∨ n ∈ drawn k := by
  cases use with
  | none => simp [record]
  | some k' =>
    by_cases hk : k' = k
    · subst hk
      simp [record]
    · simp [record, hk, update_of_ne (Ne.symm hk)]

theorem mem_drawn_named {k k' : Kind} {c : PartCall} : n ∈ (s.named k c flowMap).drawn k' ↔
    some k = some k' ∧ n = (s.lives c.life).counter + 1 ∨ n ∈ s.drawn k' := by
  change n ∈ record (some k) ((s.lives c.life).counter + 1) s.drawn k' ↔ _
  exact mem_record

theorem lives_advance (s : State) (l l' : ℕ) (flowMap : GoString → Option GoString) :
    (s.advance l flowMap).lives l' = if l' = l then
      { s.lives l with counter := (s.lives l).counter + 1, flowMap := flowMap } else s.lives l' :=
  update_apply ..

theorem Covers.advance (h : s.Covers n) (l : ℕ) (flowMap : GoString → Option GoString) :
    (s.advance l flowMap).Covers n := by
  obtain ⟨l', hl', hseed, hcounter⟩ := h
  refine ⟨l', hl', ?_⟩
  rw [lives_advance]
  split_ifs with heq
  · subst heq
    exact ⟨hseed, Nat.le_succ_of_le hcounter⟩
  · exact ⟨hseed, hcounter⟩

section

variable (h : s.Sound wid)
include h

theorem Sound.covers_advance (hl : l < s.count) :
    (s.advance l flowMap).Covers ((s.lives l).counter + 1) := by
  refine ⟨l, hl, ?_⟩
  rw [lives_advance, if_pos rfl]
  exact ⟨Nat.lt_succ_of_le (h.seed_le l), Nat.le_refl _⟩

theorem Sound.seed_le_advance (l' : ℕ) :
    ((s.advance l flowMap).lives l').seed ≤ ((s.advance l flowMap).lives l').counter := by
  rw [lives_advance]
  split_ifs with heq
  · exact Nat.le_succ_of_le (h.seed_le l)
  · exact h.seed_le l'

theorem Sound.draw (hl : l < s.count) (use : Option Kind)
    (huse : ∀ k ∈ use, k = .deliverID) : (s.draw use l).Sound wid := by
  have hflow (l' : ℕ) : ((s.draw use l).lives l').flowMap = (s.lives l').flowMap := by
    change ((s.advance l (s.lives l).flowMap).lives l').flowMap = _
    rw [lives_advance]
    split_ifs with heq
    · rw [heq]
    · rfl
  have hdrawn {k : Kind} (hk : k ≠ .deliverID) (n : ℕ) :
      n ∈ (s.draw use l).drawn k ↔ n ∈ s.drawn k := by
    refine mem_record.trans (or_iff_right ?_)
    exact fun hnew => hk (huse k hnew.1)
  refine ⟨h.current, h.call, fun c hc => ?_, fun c hc hne => ?_,
    fun l' hl' key p hp => ?_, fun k n hn => ?_, h.seed_le_advance⟩
  · obtain ⟨k, n, hk, hn, heq⟩ := h.part c hc
    exact ⟨k, n, hk, (hdrawn hk n).2 hn, heq⟩
  · rw [hflow]
    exact h.remembered c hc hne
  · rw [hflow] at hp
    exact h.table l' hl' key p hp
  · rcases mem_record.1 hn with ⟨-, rfl⟩ | hn
    · exact h.covers_advance hl
    · exact (h.covers k n hn).advance l _

theorem Sound.hit (hl : l < s.count) {p : GoString}
    (hp : p ∈ (s.lives l).flowMap (flowKey replyPart rvID rvType)) :
    ({ s with calls := ⟨l, replyPart, rvID, rvType, p⟩ :: s.calls } : State).Sound wid := by
  refine ⟨h.current, fun c hc => ?_, fun c hc => ?_, fun c hc hroot => ?_,
    fun l' hl' key q hq => ?_, h.covers, h.seed_le⟩
  · rcases mem_cons.1 hc with rfl | hc
    · exact hl
    · exact h.call c hc
  · rcases mem_cons.1 hc with rfl | hc
    · obtain ⟨d, hd, -, -, -, hpart⟩ := h.table l hl _ p hp
      obtain ⟨k, n, hk, hn, heq⟩ := h.part d hd
      exact ⟨k, n, hk, hn, hpart ▸ heq⟩
    · exact h.part c hc
  · rcases mem_cons.1 hc with rfl | hc
    · exact hp
    · exact h.remembered c hc hroot
  · obtain ⟨c, hc, hrest⟩ := h.table l' hl' key q hq
    exact ⟨c, mem_cons_of_mem _ hc, hrest⟩

theorem Sound.named {c : PartCall} {k : Kind} (hk : k ≠ .deliverID)
    (hlife : c.life < s.count) (hpart : c.part = partName k wid ((s.lives c.life).counter + 1))
    (hext : Extends (s.lives c.life) c flowMap) : (s.named k c flowMap).Sound wid := by
  refine ⟨h.current, fun d hd => ?_, fun d hd => ?_, fun d hd hroot => ?_,
    fun l' hl' key p hp => ?_, fun k' n hn => ?_, h.seed_le_advance⟩
  · rcases mem_cons.1 hd with rfl | hd
    · exact hlife
    · exact h.call d hd
  · rcases mem_cons.1 hd with rfl | hd
    · exact ⟨k, _, hk, mem_drawn_named.2 (.inl ⟨rfl, rfl⟩), hpart⟩
    · obtain ⟨k', n, hk', hn, heq⟩ := h.part d hd
      exact ⟨k', n, hk', mem_drawn_named.2 (.inr hn), heq⟩
  · change ((s.advance c.life flowMap).lives d.life).flowMap d.key = some d.part
    rw [lives_advance]
    rcases mem_cons.1 hd with rfl | hd
    · rw [if_pos rfl]
      exact hext.stores hroot
    · have hold := h.remembered d hd hroot
      split_ifs with heq
      · exact hext.keeps d.key d.part (heq ▸ hold)
      · exact hold
  · change p ∈ ((s.advance c.life flowMap).lives l').flowMap key at hp
    have hold (hp : p ∈ (s.lives l').flowMap key) : ∃ d ∈ c :: s.calls,
        d.life = l' ∧ d.replyPart ≠ [] ∧ d.key = key ∧ d.part = p := by
      obtain ⟨d, hd, hrest⟩ := h.table l' hl' key p hp
      exact ⟨d, mem_cons_of_mem _ hd, hrest⟩
    rw [lives_advance] at hp
    split_ifs at hp with heq
    · rcases hext.only key p hp with hp | hnew
      · exact hold (heq ▸ hp)
      · exact ⟨c, mem_cons_self, heq.symm, hnew⟩
    · exact hold hp
  · rcases mem_drawn_named.1 hn with ⟨-, rfl⟩ | hn
    · exact h.covers_advance hlife
    · exact (h.covers k' n hn).advance c.life flowMap

theorem Sound.getPart (hl : l < s.count) (replyPart : GoString)
    (rvID rvType : ℤ) : (s.getPart wid replyPart rvID rvType l).Sound wid := by
  obtain ⟨p, hp, -, -, heq⟩ | ⟨k, hk, c, flowMap, rfl, -, hext, -, heq⟩ :=
    getPart_cases wid s replyPart rvID rvType l
  · exact heq ▸ h.hit hl hp
  · rw [heq]
    exact h.named hk hl rfl hext

theorem Sound.next (hnext : s.next wid a = some s') : s'.Sound wid := by
  cases a with
  | tick seconds =>
    cases hnext
    exact ⟨h.current, h.call, h.part, h.remembered, h.table, h.covers, h.seed_le⟩
  | start node located =>
    cases hnext
    exact h.start node _
  | getPart node replyPart rvID rvType =>
    obtain ⟨l, hl, rfl⟩ := map_eq_some_iff.1 hnext
    exact h.getPart (h.current node l hl) replyPart rvID rvType
  | deliverID =>
    obtain ⟨l, hl, rfl⟩ := map_eq_some_iff.1 hnext
    exact h.draw (h.current .worker l hl) _ (by simp)
  | draw node =>
    obtain ⟨l, hl, rfl⟩ := map_eq_some_iff.1 hnext
    exact h.draw (h.current node l hl) _ (by simp)

end

/-! ## When the identifiers are unique -/

theorem same_symm {c d : PartCall} (h : c.Same d) : d.Same c := by
  obtain ⟨hlife, hne, hpart, hid, htype⟩ := h
  exact ⟨hlife.symm, hpart ▸ hne, hpart.symm, hid.symm, htype.symm⟩

/-- A part that the table has was returned by a call with the same part, receiver and type. -/
theorem Sound.unique_hit (h : s.Sound wid) (hu : s.Unique) (hl : l < s.count)
    (hne : replyPart ≠ []) {p : GoString}
    (hp : p ∈ (s.lives l).flowMap (flowKey replyPart rvID rvType)) :
    ({ s with calls := ⟨l, replyPart, rvID, rvType, p⟩ :: s.calls } : State).Unique := by
  have hmem : (⟨l, replyPart, rvID, rvType, p⟩ : PartCall) ∈ s.calls := by
    obtain ⟨⟨l', part, a, b, q⟩, hc, rfl, -, hkey, rfl⟩ := h.table l hl _ p hp
    obtain ⟨rfl, rfl, rfl⟩ := flowKey_inj hkey
    exact hc
  refine ⟨pairwise_cons.2 ⟨fun d hd => ?_, hu.parts⟩, hu.deliverIDs⟩
  by_cases heq : (⟨l, replyPart, rvID, rvType, p⟩ : PartCall) = d
  · subst heq
    exact iff_of_true rfl ⟨rfl, hne, rfl, rfl, rfl⟩
  · have : Std.Symm fun c d : PartCall => (c.part = d.part ↔ c.Same d) :=
      ⟨fun c d hcd => eq_comm.trans (hcd.trans ⟨same_symm, same_symm⟩)⟩
    exact hu.parts.forall hmem hd heq

/-- A part with a number that was not drawn for a part before is new. -/
theorem Sound.unique_named (h : s.Sound wid) (hu : s.Unique) {c : PartCall} {k : Kind}
    (hk : k ≠ .deliverID) (hpart : c.part = partName k wid ((s.lives c.life).counter + 1))
    (hnone : c.replyPart ≠ [] → (s.lives c.life).flowMap c.key = none)
    (hnew : (s.lives c.life).counter + 1 ∉ s.drawn k) : (s.named k c flowMap).Unique := by
  have hids : (s.named k c flowMap).drawn .deliverID = s.drawn .deliverID :=
    update_of_ne (Ne.symm hk) _ _
  refine ⟨pairwise_cons.2 ⟨fun d hd => iff_of_false ?_ ?_, hu.parts⟩,
    hids.symm ▸ hu.deliverIDs⟩
  · intro heq
    obtain ⟨k', n, hk', hn, hname⟩ := h.part d hd
    obtain ⟨rfl, rfl⟩ := partName_inj hk hk' (hpart.symm.trans (heq.trans hname))
    exact hnew hn
  · rintro ⟨hlife, hne, hreply, hid, htype⟩
    have hkey : c.key = d.key := by rw [PartCall.key, PartCall.key, hreply, hid, htype]
    have hsome := h.remembered d hd (hreply ▸ hne)
    rw [← hlife, ← hkey, hnone hne] at hsome
    cases hsome

/-- A number outside what the other starts have gone through was not drawn before: a start goes
through its numbers upwards. -/
theorem Sound.notMem_drawn (h : s.Sound wid) (hapart : s.Apart a) {k : Kind}
    (hdraws : s.draws a = some (l, k)) : (s.lives l).counter + 1 ∉ s.drawn k := by
  intro hdrawn
  obtain ⟨l', hl', hseed, hcounter⟩ := h.covers k _ hdrawn
  by_cases heq : l' = l
  · subst heq
    omega
  · exact hapart (l, k) hdraws l' hl' heq ⟨hseed, hcounter⟩

theorem Sound.unique_next (h : s.Sound wid) (hu : s.Unique) (hapart : s.Apart a)
    (hnext : s.next wid a = some s') : s'.Unique := by
  cases a with
  | tick seconds | start node located =>
    cases hnext
    exact ⟨hu.parts, hu.deliverIDs⟩
  | getPart node replyPart rvID rvType =>
    obtain ⟨l, hl, rfl⟩ := map_eq_some_iff.1 hnext
    obtain ⟨p, hp, hne, -, heq⟩ | ⟨k, hk, c, flowMap, rfl, hnone, -, hdraws, heq⟩ :=
      getPart_cases wid s replyPart rvID rvType l
    · rw [heq]
      exact h.unique_hit hu (h.current node l hl) hne hp
    · rw [heq]
      exact h.unique_named hu hk rfl hnone
        (h.notMem_drawn hapart (by simp [State.draws, hl, hdraws]))
  | deliverID =>
    obtain ⟨l, hl, rfl⟩ := map_eq_some_iff.1 hnext
    have hnew : (s.lives l).counter + 1 ∉ s.drawn .deliverID :=
      h.notMem_drawn hapart (by simp [State.draws, hl])
    exact ⟨hu.parts, nodup_cons.2 ⟨hnew, hu.deliverIDs⟩⟩
  | draw node =>
    obtain ⟨l, hl, rfl⟩ := map_eq_some_iff.1 hnext
    exact ⟨hu.parts, hu.deliverIDs⟩

/-- The identifiers of a run are unique where no number is drawn that another start of a node has
gone through. -/
theorem identifiers_unique (wid : ℤ) (acts : List Act) (s : State)
    (hrun : run (next wid) init acts = some s) (hapart : Meets (next wid) Apart init acts) :
    s.Unique := by
  have hboth : s.Sound wid ∧ s.Unique := by
    refine Transitions.run_invariant (I := fun s => s.Sound wid ∧ s.Unique) ?_
      ⟨sound_init wid, .nil, .nil⟩ hapart hrun
    rintro s a s' ⟨hsound, hu⟩ hapart hnext
    exact ⟨hsound.next hnext, hsound.unique_next hu hapart hnext⟩
  exact hboth.2

/-- A daemon that is started ten seconds after the worker. -/
theorem later_daemon_unique : ∃ s, run (next 7) init [.tick 100, .start .worker true, .tick 10,
        .start (.daemon 0) true, .getPart .worker [] (-1) (-1),
        .getPart (.daemon 0) "part-7-101" 3 1, .deliverID] = some s ∧ s.Unique := by
  refine ⟨_, rfl, identifiers_unique 7 [.tick 100, .start .worker true, .tick 10,
    .start (.daemon 0) true, .getPart .worker [] (-1) (-1),
    .getPart (.daemon 0) "part-7-101" 3 1, .deliverID] _ rfl ?_⟩
  decide

/-- A daemon started in the same second names a part as the worker does, and a worker restarted
within a second issues a `DeliverID` twice. -/
theorem same_second_repeats :
    (∀ s, run (next 7) init [.tick 100, .start .worker true, .start (.daemon 0) true,
        .getPart .worker [] (-1) (-1), .getPart (.daemon 0) "part-7-100" 3 1] = some s →
      ¬ s.calls.Pairwise fun c d => c.part = d.part ↔ c.Same d) ∧
    ∀ s, run (next 7) init [.tick 100, .start .worker true, .deliverID,
        .start .worker true, .deliverID] = some s → ¬ (s.drawn .deliverID).Nodup := by
  constructor
  · intro s hs hparts
    cases hs
    obtain ⟨hfirst, -⟩ := pairwise_cons.1 hparts
    have hsame := (hfirst _ mem_cons_self).1 rfl
    exact absurd hsame.1 (by decide)
  · intro s hs hids
    cases hs
    exact absurd hids (by decide)

end State

end Kairos.Identifiers
