import Kairos.Library.Transitions
import Kairos.Protocol.Buffers

/-!
# Histories of the buffer pools

The pools of `bpool.go` with the lengths of their buffers, over any sequence of calls. A buffer is
handed back with whatever length and capacity its owner has given it, and `Reset` makes it empty.
`Pools` keeps the capacities alone.
-/

namespace Kairos.Protocol

open Option
open Transitions (Meets meets_iff_of_invariant)

structure ByteBuffer where
  len : ℕ
  cap : ℕ

def ByteBuffer.reset (bb : ByteBuffer) : ByteBuffer := { bb with len := 0 }

abbrev PoolState := Fin 19 → List ByteBuffer

namespace PoolState

def take (s : PoolState) (idx : Fin 19) (pick : Option ℕ) : Option (ByteBuffer × PoolState) := do
  let k ← pick
  let bb ← (s idx)[k]?
  pure (bb, Function.update s idx ((s idx).eraseIdx k))

/-- `getByteBuffer`, where `pick` is what the pool hands out. -/
def get (limit : AllocLimit) (s : PoolState) (pick : Option ℕ) (length : ℤ) :
    Res (ByteBuffer × PoolState) :=
  if length = 0 then .ok (⟨0, 0⟩, s)
  else if length > maxBufferLength then
    if length > limit.bytes then .panic else .ok (⟨0, length.toNat⟩, s)
  else if h : nextLogBase2 (uint32 length) < 19 then
    match s.take ⟨nextLogBase2 (uint32 length), h⟩ pick with
    | some r => .ok r
    | none => .ok (⟨0, 2 ^ nextLogBase2 (uint32 length)⟩, s)
  else .panic

/-- `putByteBuffer`. -/
def put (s : PoolState) (bb : ByteBuffer) : Res PoolState :=
  if bb.cap = 0 ∨ bb.cap > maxBufferLength then .ok s
  else if h : prevLogBase2 bb.cap < 19 then
    .ok (Function.update s ⟨prevLogBase2 bb.cap, h⟩ (bb.reset :: s ⟨prevLogBase2 bb.cap, h⟩))
  else .panic

inductive Call where
  | get (length : ℕ) (pick : Option ℕ)
  | put (bb : ByteBuffer)

section

variable (limit : AllocLimit)

def next (s : PoolState) : Call → Option PoolState
  | .get length pick => (s.get limit pick length).toOption.map Prod.snd
  | .put bb => (s.put bb).toOption

def Right (s : PoolState) : Call → Prop
  | .get length pick =>
    ∃ bb s', s.get limit pick length = .ok (bb, s') ∧ bb.len = 0 ∧ length ≤ bb.cap
  | .put bb => ∃ s', s.put bb = .ok s'

def Allocates : Call → Prop
  | .get length _ => length ≤ limit.bytes
  | .put _ => True

end

structure Sound (s : PoolState) : Prop where
  empty : ∀ idx, ∀ bb ∈ s idx, bb.len = 0
  fits : ∀ idx, ∀ bb ∈ s idx, 2 ^ (idx : ℕ) ≤ bb.cap

variable {limit : AllocLimit} {s s' : PoolState} {bb : ByteBuffer} {pick : Option ℕ}

theorem Sound.update (hs : s.Sound) {idx : Fin 19} {pool : List ByteBuffer}
    (hpool : ∀ bb ∈ pool, bb ∈ s idx ∨ bb.len = 0 ∧ 2 ^ (idx : ℕ) ≤ bb.cap) :
    Sound (Function.update s idx pool) := by
  have hbuf : ∀ i, ∀ bb ∈ Function.update s idx pool i, bb.len = 0 ∧ 2 ^ (i : ℕ) ≤ bb.cap := by
    intro i bb hbb
    rw [Function.update_apply] at hbb
    split_ifs at hbb with hi
    · subst hi
      rcases hpool bb hbb with hold | hnew
      · exact ⟨hs.empty i bb hold, hs.fits i bb hold⟩
      · exact hnew
    · exact ⟨hs.empty i bb hbb, hs.fits i bb hbb⟩
  exact ⟨fun i bb hbb => (hbuf i bb hbb).1, fun i bb hbb => (hbuf i bb hbb).2⟩

theorem Sound.take (hs : s.Sound) {idx : Fin 19} (h : s.take idx pick = some (bb, s')) :
    bb.len = 0 ∧ 2 ^ (idx : ℕ) ≤ bb.cap ∧ s'.Sound := by
  simp only [PoolState.take, bind_eq_bind, bind_eq_some_iff, pure_def,
    some.injEq, Prod.mk.injEq] at h
  obtain ⟨k, -, bb, hbb, rfl, rfl⟩ := h
  have hmem := List.mem_of_getElem? hbb
  exact ⟨hs.empty idx bb hmem, hs.fits idx bb hmem,
    hs.update fun b hb => .inl (List.mem_of_mem_eraseIdx hb)⟩

theorem Sound.put (hs : s.Sound) (bb : ByteBuffer) : ∃ s', s.put bb = .ok s' ∧ s'.Sound := by
  unfold PoolState.put
  split_ifs with hdrop hidx
  · exact ⟨s, rfl, hs⟩
  · have hcap := (two_pow_prevLogBase2_le (v := bb.cap) (by omega) (by omega)).1
    refine ⟨_, rfl, hs.update fun b hb => ?_⟩
    rcases List.mem_cons.1 hb with rfl | hb
    · exact .inr ⟨rfl, hcap⟩
    · exact .inl hb
  · exact absurd (two_pow_prevLogBase2_le (by omega) (by omega)).2 hidx

theorem Sound.get (hs : s.Sound) (pick : Option ℕ) {length : ℕ}
    (hlength : length ≤ limit.bytes) : ∃ bb s', s.get limit pick length = .ok (bb, s') ∧
      bb.len = 0 ∧ length ≤ bb.cap ∧ s'.Sound := by
  unfold PoolState.get
  split_ifs with hzero hbig hmax hidx
  · exact ⟨_, s, rfl, rfl, by omega, hs⟩
  · omega
  · exact ⟨_, s, rfl, rfl, by simp, hs⟩
  · have hnext : length ≤ 2 ^ nextLogBase2 (uint32 length) := by
      rw [uint32_natCast (by omega)]
      exact (le_two_pow_nextLogBase2 (by omega) (by omega)).1
    split
    · next r htake =>
      obtain ⟨hlen, hcap, hs'⟩ := hs.take htake
      exact ⟨r.1, r.2, rfl, hlen, hnext.trans hcap, hs'⟩
    · exact ⟨_, s, rfl, rfl, hnext, hs⟩
  · rw [uint32_natCast (by omega)] at hidx
    exact absurd (le_two_pow_nextLogBase2 (by omega) (by omega)).2 hidx

theorem get_eq_panic (s : PoolState) (pick : Option ℕ) {length : ℤ} (h : length > limit.bytes) :
    s.get limit pick length = .panic := by
  have hbytes := limit.le_bytes
  rw [get, if_neg (by omega), if_pos (by unfold maxBufferLength; omega), if_pos h]

theorem Sound.right_iff (hs : s.Sound) (call : Call) :
    s.Right limit call ↔ Allocates limit call := by
  cases call with
  | put bb =>
    obtain ⟨s', hput, -⟩ := hs.put bb
    exact iff_of_true ⟨s', hput⟩ trivial
  | get length pick =>
    by_cases hlength : length ≤ limit.bytes
    · obtain ⟨bb, s', hget, hlen, hcap, -⟩ := hs.get pick hlength
      exact iff_of_true ⟨bb, s', hget, hlen, hcap⟩ hlength
    · refine iff_of_false ?_ hlength
      rintro ⟨bb, s', hget, -⟩
      rw [get_eq_panic s pick (by omega)] at hget
      cases hget

theorem Sound.next (hs : s.Sound) {call : Call} (hcall : s.Right limit call)
    (h : s.next limit call = some s') : s'.Sound := by
  cases call with
  | put bb =>
    obtain ⟨s₁, hput, hs₁⟩ := hs.put bb
    simp only [PoolState.next, hput, Res.toOption, some.injEq] at h
    exact h ▸ hs₁
  | get length pick =>
    obtain ⟨bb, s₁, hget, -, -, hs₁⟩ := hs.get pick ((hs.right_iff _).1 hcall)
    simp only [PoolState.next, hget, Res.toOption, Option.map_some, some.injEq] at h
    exact h ▸ hs₁

/-- All calls return what they should exactly when no length is asked for that `make` cannot
allocate. -/
theorem history_right_iff (limit : AllocLimit) (calls : List Call) :
    Meets (next limit) (Right limit) (fun _ => []) calls ↔
      Meets (next limit) (fun _ call => Allocates limit call) (fun _ => []) calls :=
  meets_iff_of_invariant (I := Sound) (fun _ _ _ hs => hs.next) (fun _ call hs => hs.right_iff call)
    ⟨by simp, by simp⟩ calls

/-- The message length of a stream may be too long for `make`. -/
theorem long_message_panics : ¬Right .max (fun _ => []) (.get (2 ^ 48 + 1) none) := by
  rintro ⟨bb, s', hget, -⟩
  rw [get_eq_panic _ _ (by decide)] at hget
  cases hget

end PoolState

end Kairos.Protocol
