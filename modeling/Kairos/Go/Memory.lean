import Kairos.Go.Strings

/-!
# Go integers and byte slices

The `int` of a 64-bit platform and slices of bytes, none longer than what can be allocated. Go lets
a slice expression reach into the array behind the slice.
-/

namespace Kairos

def wrap64 (n : ℤ) : ℤ := Int.bmod n (2 ^ 64)

theorem wrap64_of_lt {n : ℤ} (hlow : -2 ^ 63 ≤ n) (hhigh : n < 2 ^ 63) : wrap64 n = n := by
  simp only [wrap64, Int.bmod]
  split_ifs <;> omega

theorem wrap64_zero : wrap64 0 = 0 := wrap64_of_lt (by decide) (by decide)

theorem wrap64_of_ge {n : ℤ} (hlow : 2 ^ 63 ≤ n) (hhigh : n < 2 ^ 64 + 2 ^ 63) :
    wrap64 n = n - 2 ^ 64 := by
  simp only [wrap64, Int.bmod]
  split_ifs <;> omega

def maxAlloc : ℕ := 2 ^ 48

/-- How many bytes one `make` can allocate. A longer one panics or, where the machine has not the
memory, ends the process; buffers of `2 ^ 18` bytes are always to be had. -/
structure AllocLimit where
  bytes : ℕ
  le_maxAlloc : bytes ≤ maxAlloc
  le_bytes : 2 ^ 18 ≤ bytes

/-- What the addresses of a 64-bit platform allow. -/
def AllocLimit.max : AllocLimit := ⟨maxAlloc, le_rfl, by decide⟩

structure ByteSlice where
  array : List UInt8
  len : ℕ
  len_le : len ≤ array.length
  array_le : array.length ≤ maxAlloc

namespace ByteSlice

def bytes (b : ByteSlice) : List UInt8 := b.array.take b.len

def ofBytes (bytes : List UInt8) (h : bytes.length ≤ maxAlloc) : ByteSlice :=
  ⟨bytes, bytes.length, le_rfl, h⟩

def cap (b : ByteSlice) : ℕ := b.array.length

def slice (b : ByteSlice) (low high : ℤ) : Res (List UInt8) :=
  if 0 ≤ low ∧ low ≤ high ∧ high ≤ b.cap then .ok ((b.array.take high.toNat).drop low.toNat)
  else .panic

@[simp] theorem length_bytes (b : ByteSlice) : b.bytes.length = b.len := by
  rw [bytes, List.length_take, Nat.min_eq_left b.len_le]

theorem take_bytes (b : ByteSlice) {high : ℕ} (h : high ≤ b.len) :
    b.bytes.take high = b.array.take high := by
  rw [bytes, List.take_take, Nat.min_eq_left h]

theorem slice_of_le (b : ByteSlice) {low high : ℕ} (hlow : low ≤ high) (hhigh : high ≤ b.cap) :
    b.slice low high = .ok ((b.array.take high).drop low) := by
  rw [slice, if_pos (by omega)]
  rfl

theorem slice_to_len (b : ByteSlice) {low : ℕ} (hlow : low ≤ b.len) :
    b.slice low b.len = .ok (b.bytes.drop low) :=
  b.slice_of_le hlow b.len_le

theorem slice_of_lt (b : ByteSlice) {low high : ℤ} (h : high < low) :
    b.slice low high = .panic := by
  rw [slice, if_neg (by omega)]

end ByteSlice

end Kairos
