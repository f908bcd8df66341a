import Kairos.Go.Strings
import Kairos.Library.RingBuffer

/-!
# The queue of a connection

`queue.Queue` of `server/deliverer/internal/queue`: a ring of slots that doubles when full and
halves when half empty. Each operation holds the lock, so a run is a sequence of operations. What
the queue is for is `Fifo`. `Represents` says that the list is the window of the ring from `head`
on, and that a larger ring is more than half full, which `resize` needs.
-/

namespace Kairos.Deliverer

open List

structure Item where
  data : List UInt8
  channel : GoString
  frameType : UInt8
deriving DecidableEq

def Item.zero : Item := ⟨[], [], 0⟩

structure Queue where
  nodes : List Item
  head : ℕ
  tail : ℕ
  cnt : ℕ
  size : ℤ
  closed : Bool
  initCap : ℕ
deriving DecidableEq

def sliceOf {α : Type} (xs : List α) (low high : ℕ) : Res (List α) :=
  if low ≤ high ∧ high ≤ xs.length then .ok ((xs.take high).drop low) else .panic

def copyAt {α : Type} (dst : List α) (low : ℕ) (src : List α) : Res (List α) :=
  if low ≤ dst.length then
    .ok (dst.take low ++ src.take (dst.length - low) ++ dst.drop (low + src.length))
  else .panic

def modulo (m n : ℕ) : Res ℕ := if n = 0 then .panic else .ok (m % n)

namespace Queue

def new (initialCapacity : ℕ) : Queue :=
  { nodes := List.replicate initialCapacity Item.zero
    head := 0
    tail := 0
    cnt := 0
    size := 0
    closed := false
    initCap := initialCapacity }

def resize (q : Queue) (n : ℕ) : Res Queue := do
  let nodes := List.replicate n Item.zero
  let nodes ←
    if q.head < q.tail then do
      copyAt nodes 0 (← sliceOf q.nodes q.head q.tail)
    else do
      let nodes ← copyAt nodes 0 (← sliceOf q.nodes q.head q.nodes.length)
      copyAt nodes (q.nodes.length - q.head) (← sliceOf q.nodes 0 q.tail)
  let tail ← modulo q.cnt n
  pure { q with nodes := nodes, head := 0, tail := tail }

/-- The end of `Remove`: a ring at most half full is halved, down to the initial capacity. -/
def shrink (q : Queue) : Res Queue :=
  if q.initCap ≤ q.nodes.length / 2 ∧ q.cnt ≤ q.nodes.length / 2 then q.resize (q.nodes.length / 2)
  else pure q

def remove (q : Queue) : Res ((Item × Bool) × Queue) :=
  if q.cnt = 0 then pure ((Item.zero, false), q)
  else do
    let i ← Res.ofOption q.nodes[q.head]?
    let head ← modulo (q.head + 1) q.nodes.length
    let q ← { q with head := head, cnt := q.cnt - 1, size := q.size - i.data.length }.shrink
    pure ((i, true), q)

def grow (q : Queue) : Res Queue :=
  if q.cnt = q.nodes.length then q.resize (q.cnt * 2) else pure q

def store (xs : List Item) (k : ℕ) (x : Item) : Res (List Item) :=
  if k < xs.length then pure (xs.set k x) else .panic

def add (q : Queue) (i : Item) : Res (Bool × Queue) :=
  if q.closed then pure (false, q)
  else do
    let q ← q.grow
    let nodes ← store q.nodes q.tail i
    let tail ← modulo (q.tail + 1) nodes.length
    pure (true,
      { q with nodes := nodes, tail := tail, size := q.size + i.data.length, cnt := q.cnt + 1 })

def len (q : Queue) : ℤ := q.cnt

def shut (q : Queue) : Queue := { q with closed := true, cnt := 0, nodes := [], size := 0 }

def close (q : Queue) : Queue := q.shut

def drain (nodes : List Item) : ℕ → ℕ → Res (List Item × ℕ)
  | head, 0 => pure ([], head)
  | head, cnt + 1 => do
    let i ← Res.ofOption nodes[head]?
    let head ← modulo (head + 1) nodes.length
    let (rem, head) ← drain nodes head cnt
    pure (i :: rem, head)

def closeRemaining (q : Queue) : Res (List Item × Queue) :=
  if q.closed then pure ([], q)
  else do
    let (rem, head) ← drain q.nodes q.head q.cnt
    pure (rem, { q with head := head }.shut)

end Queue

inductive Op where
  | add (i : Item)
  | remove
  | len
  | size
  | close
  | closeRemaining
deriving DecidableEq

inductive Ret where
  | added (ok : Bool)
  | removed (i : Item) (ok : Bool)
  | number (n : ℤ)
  | closed
  | remaining (items : List Item)
deriving DecidableEq

def Queue.exec (q : Queue) : Op → Res (Ret × Queue)
  | .add i => (q.add i).bind fun r => pure (.added r.1, r.2)
  | .remove => q.remove.bind fun r => pure (.removed r.1.1 r.1.2, r.2)
  | .len => pure (.number q.len, q)
  | .size => pure (.number q.size, q)
  | .close => pure (.closed, q.close)
  | .closeRemaining => q.closeRemaining.bind fun r => pure (.remaining r.1, r.2)

def Queue.run : Queue → List Op → Res (List Ret)
  | _, [] => pure []
  | q, op :: ops => do
    let (r, q) ← q.exec op
    let rs ← q.run ops
    pure (r :: rs)

structure Fifo where
  items : List Item
  closed : Bool

namespace Fifo

def size (f : Fifo) : ℕ := (f.items.map fun i => i.data.length).sum

/-- Items come out as they went in, none goes in after a close, and a close takes out the rest. -/
def exec (f : Fifo) : Op → Ret × Fifo
  | .add i => if f.closed then (.added false, f) else
      (.added true, { f with items := f.items ++ [i] })
  | .remove =>
    match f.items with
    | [] => (.removed Item.zero false, f)
    | i :: items => (.removed i true, { f with items := items })
  | .len => (.number f.items.length, f)
  | .size => (.number f.size, f)
  | .close => (.closed, ⟨[], true⟩)
  | .closeRemaining => if f.closed then (.remaining [], f) else (.remaining f.items, ⟨[], true⟩)

def run : Fifo → List Op → List Ret
  | _, [] => []
  | f, op :: ops => (f.exec op).1 :: (f.exec op).2.run ops

end Fifo

/-! ## The representation -/

open RingBuffer (window)

structure Slots (q : Queue) (items : List Item) : Prop where
  head_lt : q.head < q.nodes.length
  cnt_le : q.cnt ≤ q.nodes.length
  tail_eq : q.tail = (q.head + q.cnt) % q.nodes.length
  items_eq : items = window q.nodes q.head q.cnt

structure Filled (q : Queue) : Prop where
  initCap_pos : 0 < q.initCap
  half_lt : q.initCap ≤ q.nodes.length / 2 → q.nodes.length / 2 < q.cnt

structure Represents (q : Queue) (f : Fifo) : Prop where
  closed_eq : q.closed = f.closed
  cnt_eq : q.cnt = f.items.length
  size_eq : q.size = f.size
  ring : q.closed = false → Slots q f.items ∧ Filled q
  nil : q.closed → f.items = []

section

variable {α : Type} {q q' : Queue} {f : Fifo} {items : List Item} {n : ℕ}

theorem modulo_of_pos (m : ℕ) {n : ℕ} (hn : 0 < n) : modulo m n = .ok (m % n) := if_neg hn.ne'

variable {low : ℕ}

theorem sliceOf_of_le {xs : List α} {high : ℕ} (hlow : low ≤ high) (hhigh : high ≤ xs.length) :
    sliceOf xs low high = .ok ((xs.take high).drop low) := if_pos ⟨hlow, hhigh⟩

theorem copyAt_of_le {dst src : List α} (h : low + src.length ≤ dst.length) :
    copyAt dst low src = .ok (dst.take low ++ src ++ dst.drop (low + src.length)) := by
  have hsrc : src.take (dst.length - low) = src := take_of_length_le (by omega)
  unfold copyAt
  rw [if_pos (by omega), hsrc]

theorem Slots.tail_cases (h : Slots q items) (hpos : 0 < q.cnt) :
    q.head < q.tail ∧ q.tail = q.head + q.cnt ∧ q.head + q.cnt ≤ q.nodes.length ∨
      q.tail ≤ q.head ∧ q.tail + q.nodes.length = q.head + q.cnt := by
  have hhead := h.head_lt
  have hcnt := h.cnt_le
  rcases lt_or_ge (q.head + q.cnt) q.nodes.length with hlt | hge
  · left
    rw [h.tail_eq, Nat.mod_eq_of_lt hlt]
    omega
  · right
    rw [h.tail_eq, Nat.mod_eq_sub_mod hge, Nat.mod_eq_of_lt (by omega)]
    omega

theorem resize_eq_ok (h : Slots q items) (hpos : 0 < q.cnt) (hn : q.cnt ≤ n) :
    ∃ nodes, q.resize n = .ok { q with nodes := nodes, head := 0, tail := q.cnt % n } ∧
      nodes.length = n ∧ nodes.take q.cnt = items := by
  have hmod : modulo q.cnt n = .ok (q.cnt % n) := modulo_of_pos _ (by omega)
  have hhead := h.head_lt
  have hcnt := h.cnt_le
  unfold Queue.resize
  rw [hmod]
  rcases h.tail_cases hpos with ⟨hlt, htail, hle⟩ | ⟨hge, htail⟩
  · have hslice : (q.nodes.take q.tail).drop q.head = items := by
      rw [h.items_eq, RingBuffer.window_straight hle, drop_take, htail,
        Nat.add_sub_cancel_left]
    have hlen : items.length = q.cnt := by rw [h.items_eq, RingBuffer.length_window h.cnt_le]
    rw [if_pos hlt, sliceOf_of_le hlt.le (by omega), hslice]
    simp only [Res.ok_bind]
    rw [copyAt_of_le (by simp; omega)]
    refine ⟨_, rfl, ?_, ?_⟩
    · simp; omega
    · simp [← hlen]
  · have hlen : (q.nodes.drop q.head).length = q.nodes.length - q.head := length_drop
    have hitems : q.nodes.drop q.head ++ q.nodes.take q.tail = items := by
      rw [h.items_eq, RingBuffer.window_wrapped h.head_lt.le (by omega) h.cnt_le]
      congr 2
      omega
    have htake : (q.nodes.take q.tail).length = q.tail := length_take_of_le (by omega)
    rw [if_neg (not_lt.mpr hge), sliceOf_of_le h.head_lt.le le_rfl, take_length,
      sliceOf_of_le (Nat.zero_le _) (by omega), drop_zero]
    simp only [Res.ok_bind]
    rw [copyAt_of_le (by simp; omega)]
    simp only [Res.ok_bind, take_zero, nil_append, Nat.zero_add]
    rw [copyAt_of_le (by simp; omega)]
    refine ⟨_, rfl, ?_, ?_⟩
    · simp; omega
    · -- the first copy ends where the second one begins
      rw [← hlen, take_left, hitems, take_append_of_le_length (by simp [← hitems]; omega),
        take_of_length_le (by simp [← hitems]; omega)]

variable {nodes : List Item}

theorem Slots.resized (hlen : nodes.length = n) (hpos : 0 < q.cnt)
    (hn : q.cnt ≤ n) (hitems : nodes.take q.cnt = items) :
    Slots { q with nodes := nodes, head := 0, tail := q.cnt % n } items where
  head_lt := by simp only; omega
  cnt_le := by simp only; omega
  tail_eq := by simp only [hlen, Nat.zero_add]
  items_eq := by rw [RingBuffer.window_zero_head, hitems]

def SameBut (q q' : Queue) : Prop :=
  q'.cnt = q.cnt ∧ q'.size = q.size ∧ q'.closed = q.closed ∧ q'.initCap = q.initCap

theorem grow_eq_ok (h : Slots q items) (hfilled : Filled q) :
    ∃ q', q.grow = .ok q' ∧ SameBut q q' ∧ Slots q' items ∧ q'.cnt < q'.nodes.length ∧
      (q'.initCap ≤ q'.nodes.length / 2 → q'.nodes.length / 2 < q'.cnt + 1) := by
  have hhead := h.head_lt
  have hcnt := h.cnt_le
  unfold Queue.grow
  by_cases hfull : q.cnt = q.nodes.length
  · obtain ⟨nodes, hresize, hlen, hitems⟩ := resize_eq_ok h (by omega)
      (show q.cnt ≤ q.cnt * 2 by omega)
    rw [if_pos hfull, hresize]
    refine ⟨_, rfl, ⟨rfl, rfl, rfl, rfl⟩, Slots.resized hlen (by omega) (by omega) hitems, ?_, ?_⟩
    · simp only
      omega
    · intro _
      simp only
      omega
  · have hhalf := hfilled.half_lt
    rw [if_neg hfull]
    exact ⟨q, rfl, ⟨rfl, rfl, rfl, rfl⟩, h, by omega, by omega⟩

theorem shrink_eq_ok (h : Slots q items) (hpos : 0 < q.initCap)
    (hhalf : q.initCap ≤ q.nodes.length / 2 → q.nodes.length / 2 < q.cnt + 1) :
    ∃ q', q.shrink = .ok q' ∧ SameBut q q' ∧ Slots q' items ∧ Filled q' := by
  unfold Queue.shrink
  by_cases hsmall : q.initCap ≤ q.nodes.length / 2 ∧ q.cnt ≤ q.nodes.length / 2
  · have hcnt := hhalf hsmall.1
    obtain ⟨nodes, hresize, hlen, hitems⟩ := resize_eq_ok h (by omega) hsmall.2
    rw [if_pos hsmall, hresize]
    refine ⟨_, rfl, ⟨rfl, rfl, rfl, rfl⟩, Slots.resized hlen (by omega) hsmall.2 hitems, hpos, ?_⟩
    intro _
    simp only
    omega
  · rw [if_neg hsmall]
    exact ⟨q, rfl, ⟨rfl, rfl, rfl, rfl⟩, h, hpos, by omega⟩

theorem Slots.add (h : Slots q items) (hfree : q.cnt < q.nodes.length) (i : Item) : Slots { q with
      nodes := q.nodes.set q.tail i
      tail := (q.tail + 1) % q.nodes.length
      size := q.size + i.data.length
      cnt := q.cnt + 1 } (items ++ [i]) where
  head_lt := by simpa using h.head_lt
  cnt_le := by simpa using Nat.succ_le_of_lt hfree
  tail_eq := by
    rw [length_set, h.tail_eq, Nat.mod_add_mod, Nat.add_assoc]
  items_eq := by
    rw [h.tail_eq, RingBuffer.window_set hfree, h.items_eq]

variable {i : Item}

theorem Slots.remove (h : Slots q (i :: items)) : q.nodes[q.head]? = some i ∧ Slots { q with
      head := (q.head + 1) % q.nodes.length
      cnt := q.cnt - 1
      size := q.size - i.data.length } items := by
  have hlen : q.cnt = items.length + 1 := by
    rw [← RingBuffer.length_window h.cnt_le, ← h.items_eq, length_cons]
  have hcnt := h.cnt_le
  have hwin := h.items_eq
  rw [hlen, RingBuffer.window_succ h.head_lt (by omega)] at hwin
  obtain ⟨hi, hitems⟩ := List.cons.inj hwin
  refine ⟨by rw [hi, getElem?_eq_getElem h.head_lt], ⟨?_, ?_, ?_, ?_⟩⟩
  · exact Nat.mod_lt _ (by have := h.head_lt; omega)
  · simp only
    omega
  · simp only
    rw [h.tail_eq, Nat.mod_add_mod]
    congr 1
    omega
  · simp only
    rwa [hlen, Nat.add_sub_cancel]

theorem drain_eq_ok {head cnt : ℕ} (hhead : head < nodes.length) (hcnt : cnt ≤ nodes.length) :
    ∃ head', Queue.drain nodes head cnt = .ok (window nodes head cnt, head') := by
  induction cnt generalizing head with
  | zero => exact ⟨head, by rw [Queue.drain, RingBuffer.window_zero]; rfl⟩
  | succ cnt ih =>
    have hpos : 0 < nodes.length := by omega
    obtain ⟨head', hrest⟩ := ih (Nat.mod_lt (head + 1) hpos) (by omega)
    refine ⟨head', ?_⟩
    rw [Queue.drain, getElem?_eq_getElem hhead, modulo_of_pos _ hpos,
      RingBuffer.window_succ hhead (by omega)]
    simp only [Res.ofOption, Res.ok_bind, hrest, Res.pure_eq]

theorem Represents.shut (q : Queue) : Represents q.shut ⟨[], true⟩ where
  closed_eq := rfl
  cnt_eq := rfl
  size_eq := rfl
  ring := fun h => by cases h
  nil := fun _ => rfl

theorem new_represents {cap : ℕ} (hcap : 0 < cap) : Represents (Queue.new cap) ⟨[], false⟩ where
  closed_eq := rfl
  cnt_eq := rfl
  size_eq := rfl
  ring := fun _ =>
    ⟨⟨by simpa [Queue.new] using hcap, Nat.zero_le _, by simp [Queue.new],
      (RingBuffer.window_zero _ _).symm⟩, hcap, by simp [Queue.new]; omega⟩
  nil := fun h => by cases h

theorem add_open (h : Represents q f) (hopen : q.closed = false) (i : Item) :
    ∃ q', q.add i = .ok (true, q') ∧ Represents q' { f with items := f.items ++ [i] } := by
  obtain ⟨hslots, hfilled⟩ := h.ring hopen
  obtain ⟨q₁, hgrow, ⟨hcnt, hsize, hclosed, hcap⟩, hslots₁, hfree, hhalf⟩ :=
    grow_eq_ok hslots hfilled
  have hpos : 0 < q₁.nodes.length := by omega
  have htail : q₁.tail < q₁.nodes.length := by
    rw [hslots₁.tail_eq]
    exact Nat.mod_lt _ hpos
  have hadd : q.add i = .ok (true, { q₁ with
      nodes := q₁.nodes.set q₁.tail i
      tail := (q₁.tail + 1) % q₁.nodes.length
      size := q₁.size + i.data.length
      cnt := q₁.cnt + 1 }) := by
    unfold Queue.add Queue.store
    simp only [hopen, Bool.false_eq_true, if_false, hgrow, Res.ok_bind, if_pos htail, Res.pure_eq,
      length_set, modulo_of_pos _ hpos]
  refine ⟨_, hadd, ?_, ?_, ?_, fun _ => ⟨hslots₁.add hfree i, ?_, ?_⟩, ?_⟩
  · rw [← h.closed_eq]
    exact hclosed
  · simp [hcnt, h.cnt_eq]
  · simp [hsize, h.size_eq, Fifo.size]
  · exact hcap ▸ hfilled.initCap_pos
  · simpa using hhalf
  · intro hc
    have : q₁.closed := hc
    rw [hclosed, hopen] at this
    cases this

theorem remove_cons {b : Bool} (h : Represents q ⟨i :: items, b⟩) :
    ∃ q', q.remove = .ok ((i, true), q') ∧ Represents q' ⟨items, b⟩ := by
  have hopen : q.closed = false := by
    cases hc : q.closed with
    | true => cases h.nil hc
    | false => rfl
  obtain ⟨hslots, hpos, hhalf⟩ := h.ring hopen
  obtain ⟨hi, hslots₁⟩ := hslots.remove
  have hcnt : q.cnt = items.length + 1 := h.cnt_eq
  obtain ⟨q₂, hshrink, ⟨hcnt₂, hsize₂, hclosed₂, -⟩, hslots₂, hfilled₂⟩ :=
    shrink_eq_ok hslots₁ hpos (by simp only; omega)
  have hlen : 0 < q.nodes.length := by have := hslots.head_lt; omega
  have hremove : q.remove = .ok ((i, true), q₂) := by
    unfold Queue.remove
    rw [if_neg (by omega), hi]
    simp only [Res.ofOption, Res.ok_bind, modulo_of_pos _ hlen, hshrink, Res.pure_eq]
  refine ⟨q₂, hremove, ?_, ?_, ?_, fun _ => ⟨hslots₂, hfilled₂⟩, ?_⟩
  · rw [hclosed₂]
    exact h.closed_eq
  · rw [hcnt₂]
    simp only
    omega
  · have hsize : q.size = (i.data.length : ℤ) + (items.map fun i => i.data.length).sum := by
      rw [h.size_eq]
      simp [Fifo.size]
    rw [hsize₂]
    simp only [hsize, Fifo.size]
    omega
  · intro hc
    rw [hclosed₂] at hc
    exact absurd (hc.symm.trans hopen) (by simp)

theorem closeRemaining_open (h : Represents q f) (hopen : q.closed = false) :
    ∃ q', q.closeRemaining = .ok (f.items, q') ∧ Represents q' ⟨[], true⟩ := by
  obtain ⟨hslots, -⟩ := h.ring hopen
  obtain ⟨head, hdrain⟩ := drain_eq_ok hslots.head_lt hslots.cnt_le
  refine ⟨{ q with head := head }.shut, ?_, .shut _⟩
  unfold Queue.closeRemaining
  simp only [hopen, Bool.false_eq_true, if_false, hdrain, Res.ok_bind, Res.pure_eq, hslots.items_eq]

theorem exec_eq_ok (h : Represents q f) (op : Op) :
    ∃ q', q.exec op = .ok ((f.exec op).1, q') ∧ Represents q' (f.exec op).2 := by
  cases op with
  | add i =>
    cases hc : q.closed with
    | true =>
      have hf : f.closed := h.closed_eq ▸ hc
      exact ⟨q, by simp [Queue.exec, Queue.add, hc, Fifo.exec, hf, Res.bind],
        by simpa [Fifo.exec, hf] using h⟩
    | false =>
      have hf : f.closed = false := h.closed_eq ▸ hc
      obtain ⟨q', hadd, hq'⟩ := add_open h hc i
      exact ⟨q', by simp [Queue.exec, hadd, Fifo.exec, hf, Res.bind],
        by simpa [Fifo.exec, hf] using hq'⟩
  | remove =>
    obtain ⟨items, b⟩ := f
    cases items with
    | nil =>
      have hcnt : q.cnt = 0 := h.cnt_eq
      exact ⟨q, by simp [Queue.exec, Queue.remove, hcnt, Fifo.exec, Res.bind], h⟩
    | cons i items =>
      obtain ⟨q', hremove, hq'⟩ := remove_cons h
      exact ⟨q', by simp [Queue.exec, hremove, Fifo.exec, Res.bind], hq'⟩
  | len => exact ⟨q, by simp [Queue.exec, Queue.len, Fifo.exec, h.cnt_eq], h⟩
  | size => exact ⟨q, by simp [Queue.exec, Fifo.exec, h.size_eq], h⟩
  | close => exact ⟨q.close, rfl, .shut q⟩
  | closeRemaining =>
    cases hc : q.closed with
    | true =>
      have hf : f.closed := h.closed_eq ▸ hc
      exact ⟨q, by simp [Queue.exec, Queue.closeRemaining, hc, Fifo.exec, hf, Res.bind],
        by simpa [Fifo.exec, hf] using h⟩
    | false =>
      have hf : f.closed = false := h.closed_eq ▸ hc
      obtain ⟨q', hclose, hq'⟩ := closeRemaining_open h hc
      exact ⟨q', by simp [Queue.exec, hclose, Fifo.exec, hf, Res.bind],
        by simpa [Fifo.exec, hf] using hq'⟩

theorem Represents.run_eq (h : Represents q f) (ops : List Op) : q.run ops = .ok (f.run ops) := by
  induction ops generalizing q f with
  | nil => rfl
  | cons op ops ih =>
    obtain ⟨q', hexec, hq'⟩ := exec_eq_ok h op
    rw [Queue.run, hexec]
    simp only [Res.ok_bind, ih hq', Res.pure_eq, Fifo.run]

end

/-- A new queue of any capacity behaves as a list, whatever is done with it, and nothing panics.
Lengths, the capacity and the size are natural numbers: memory does not run out, and the lengths of
the items in the queue add up to less than `2 ^ 63`, as they do wherever the items fit in memory. -/
theorem refines_fifo (initialCapacity : ℕ) (hcap : 1 ≤ initialCapacity) (ops : List Op) :
    (Queue.new initialCapacity).run ops = .ok (Fifo.run ⟨[], false⟩ ops) :=
  (new_represents hcap).run_eq ops

/-- Three items in a ring of one slot, which doubles twice and halves twice. -/
theorem refines_fifo_one : (Queue.new 1).run
    [.add ⟨[1], [], 1⟩, .add ⟨[2, 2], [], 1⟩, .add ⟨[3], [], 1⟩, .remove, .size, .remove, .len,
      .close] = .ok [.added true, .added true, .added true, .removed ⟨[1], [], 1⟩ true, .number 3,
        .removed ⟨[2, 2], [], 1⟩ true, .number 1, .closed] :=
  refines_fifo 1 le_rfl _

end Kairos.Deliverer
