import Kairos.Go.Memory

/-!
# Pools of byte buffers

`pkg/protocol/deliverprotocol/bpool.go`: one pool for each power of two up to `maxBufferLength`. A
buffer is taken from the pool of the next power of two above the length, and given back to that of
the power of two below its capacity (`Pools.fits`).
-/

namespace Kairos.Protocol

def len32 (v : ℕ) : ℕ := if v = 0 then 0 else v.log2 + 1

def uint32 (n : ℤ) : ℕ := (n % 2 ^ 32).toNat

def nextLogBase2 (v : ℕ) : ℕ := len32 (uint32 ((v : ℤ) - 1))

def prevLogBase2 (num : ℕ) : ℕ :=
  if num = 2 ^ nextLogBase2 num % 2 ^ 32 then nextLogBase2 num else nextLogBase2 num - 1

def maxBufferLength : ℕ := 262144

theorem uint32_natCast {v : ℕ} (h : v ≤ maxBufferLength) : uint32 v = v := by
  unfold maxBufferLength at h
  unfold uint32
  omega

theorem lt_two_pow_len32 (v : ℕ) : v < 2 ^ len32 v := by
  unfold len32
  split_ifs with h
  · rw [h]
    decide
  · exact Nat.lt_log2_self

theorem two_pow_len32_le {v : ℕ} (h : v ≠ 0) : 2 ^ (len32 v - 1) ≤ v := by
  rw [len32, if_neg h, Nat.add_sub_cancel]
  exact Nat.log2_self_le h

theorem len32_le {v k : ℕ} (h : v < 2 ^ k) : len32 v ≤ k := by
  unfold len32
  split_ifs with hv
  · exact Nat.zero_le _
  · exact (Nat.log2_lt hv).mpr h

section

variable {v : ℕ} (hpos : 0 < v) (hle : v ≤ maxBufferLength)
include hpos hle

theorem nextLogBase2_eq : nextLogBase2 v = len32 (v - 1) := by
  have h : (v : ℤ) - 1 = (v - 1 : ℕ) := by omega
  rw [nextLogBase2, h, uint32_natCast (by omega)]

theorem le_two_pow_nextLogBase2 : v ≤ 2 ^ nextLogBase2 v ∧ nextLogBase2 v < 19 := by
  rw [nextLogBase2_eq hpos hle]
  unfold maxBufferLength at hle
  have hlt := lt_two_pow_len32 (v - 1)
  have hlen : len32 (v - 1) ≤ 18 := len32_le (by omega)
  exact ⟨by omega, by omega⟩

theorem two_pow_prevLogBase2_le : 2 ^ prevLogBase2 v ≤ v ∧ prevLogBase2 v < 19 := by
  obtain ⟨-, hidx⟩ := le_two_pow_nextLogBase2 hpos hle
  have hsmall : 2 ^ nextLogBase2 v % 2 ^ 32 = 2 ^ nextLogBase2 v :=
    Nat.mod_eq_of_lt (Nat.pow_lt_pow_right (by decide) (by omega))
  unfold prevLogBase2
  rw [hsmall]
  split_ifs with heq
  · exact ⟨heq.symm.le, hidx⟩
  · refine ⟨?_, by omega⟩
    rw [nextLogBase2_eq hpos hle] at heq ⊢
    rcases Nat.eq_or_lt_of_le hpos with hone | hgt
    · rw [← hone] at heq
      exact absurd rfl heq
    · have h := two_pow_len32_le (v := v - 1) (by omega)
      omega

end

structure Pools where
  buffers : Fin 19 → List ℕ
  fits : ∀ idx, ∀ c ∈ buffers idx, 2 ^ (idx : ℕ) ≤ c

def Pools.empty : Pools := ⟨fun _ => [], by simp⟩

def Pools.get (pools : Pools) (idx : Fin 19) (pick : Option ℕ) : Option (ℕ × Pools) := do
  let k ← pick
  let c ← (pools.buffers idx)[k]?
  pure (c,
    { buffers := Function.update pools.buffers idx ((pools.buffers idx).eraseIdx k)
      fits := by
        intro i c hc
        rw [Function.update_apply] at hc
        split_ifs at hc with hi
        · rw [hi]
          exact pools.fits idx c (List.mem_of_mem_eraseIdx hc)
        · exact pools.fits i c hc })

/-- `getByteBuffer`, where `pick` is what the pool hands out. -/
def getByteBuffer (limit : AllocLimit) (pools : Pools) (pick : Option ℕ) (length : ℤ) :
    Res (ℕ × Pools) :=
  if length = 0 then .ok (0, pools)
  else if length > maxBufferLength then
    if length > limit.bytes then .panic else .ok (length.toNat, pools)
  else if h : nextLogBase2 (uint32 length) < 19 then
    match pools.get ⟨nextLogBase2 (uint32 length), h⟩ pick with
    | some r => .ok r
    | none => .ok (2 ^ nextLogBase2 (uint32 length), pools)
  else .panic

/-- `putByteBuffer`. -/
def putByteBuffer (pools : Pools) (capacity : ℕ) : Res Pools :=
  if h : capacity = 0 ∨ capacity > maxBufferLength then .ok pools
  else if hidx : prevLogBase2 capacity < 19 then
    .ok
      { buffers := Function.update pools.buffers ⟨prevLogBase2 capacity, hidx⟩
          (capacity :: pools.buffers ⟨prevLogBase2 capacity, hidx⟩)
        fits := by
          intro i c hc
          rw [Function.update_apply] at hc
          split_ifs at hc with hi
          · rw [hi]
            rcases List.mem_cons.mp hc with rfl | hc
            · exact (two_pow_prevLogBase2_le (by omega) (by omega)).1
            · exact pools.fits _ c hc
          · exact pools.fits i c hc }
  else .panic

theorem Pools.le_of_get {pools pools' : Pools} {idx : Fin 19} {pick : Option ℕ} {c : ℕ}
    (h : pools.get idx pick = some (c, pools')) : 2 ^ (idx : ℕ) ≤ c := by
  simp only [Pools.get, Option.bind_eq_bind, Option.bind_eq_some_iff, Option.pure_def,
    Option.some.injEq, Prod.mk.injEq] at h
  obtain ⟨k, -, c', hc', rfl, -⟩ := h
  exact pools.fits idx c' (List.mem_of_getElem? hc')

theorem getByteBuffer_eq_ok (limit : AllocLimit) (pools : Pools) (pick : Option ℕ) {length : ℕ}
    (h : length ≤ limit.bytes) : ∃ capacity pools',
      getByteBuffer limit pools pick length = .ok (capacity, pools') ∧ length ≤ capacity := by
  unfold getByteBuffer
  split_ifs with hzero hbig hmax hidx
  · exact ⟨0, pools, rfl, by omega⟩
  · omega
  · exact ⟨_, pools, rfl, by simp⟩
  · have hnext : length ≤ 2 ^ nextLogBase2 (uint32 length) := by
      rw [uint32_natCast (by omega)]
      exact (le_two_pow_nextLogBase2 (by omega) (by omega)).1
    split
    · next r hget => exact ⟨r.1, r.2, rfl, hnext.trans (Pools.le_of_get hget)⟩
    · exact ⟨_, pools, rfl, hnext⟩
  · rw [uint32_natCast (by omega)] at hidx
    exact absurd (le_two_pow_nextLogBase2 (by omega) (by omega)).2 hidx

theorem getByteBuffer_ne_err (limit : AllocLimit) (pools : Pools) (pick : Option ℕ) (length : ℤ)
    (msg : GoString) : getByteBuffer limit pools pick length ≠ .err msg := by
  intro h
  unfold getByteBuffer at h
  split_ifs at h
  split at h <;> cases h

theorem getByteBuffer_eq_panic (limit : AllocLimit) (pools : Pools) (pick : Option ℕ) {length : ℤ}
    (h : length > limit.bytes) : getByteBuffer limit pools pick length = .panic := by
  have hbytes := limit.le_bytes
  rw [getByteBuffer, if_neg (by omega), if_pos (by unfold maxBufferLength; omega), if_pos h]

theorem putByteBuffer_eq_ok (pools : Pools) (capacity : ℕ) :
    ∃ pools', putByteBuffer pools capacity = .ok pools' := by
  unfold putByteBuffer
  split_ifs with h hidx
  · exact ⟨pools, rfl⟩
  · exact ⟨_, rfl⟩
  · exact absurd (two_pow_prevLogBase2_le (by omega) (by omega)).2 hidx

end Kairos.Protocol
