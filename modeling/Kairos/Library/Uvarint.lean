import Mathlib.Tactic.Ring

/-!
# Unsigned numbers of variable length

`PutUvarint`, `Uvarint` and `ReadUvarint` of Go's `encoding/binary`: a 64-bit number as bytes of
seven bits each, the lowest first, all but the last with the highest bit set. Where Go drops bits at
the tenth byte the number is not returned.
-/

namespace Kairos.Uvarint

def maxVarintLen64 : ℕ := 10

/-- `PutUvarint` into a buffer of so many bytes; none if it panics. -/
def putUvarint : ℕ → ℕ → Option (List UInt8)
  | 0, _ => none
  | room + 1, x =>
    if 0x80 ≤ x then (putUvarint room (x >>> 7)).map ((UInt8.ofNat (x % 256) ||| 0x80) :: ·)
    else some [UInt8.ofNat x]

def uvarintFrom : List UInt8 → ℕ → ℕ → ℕ → ℕ × ℤ
  | [], _, _, _ => (0, 0)
  | b :: bs, i, s, x =>
    if i = maxVarintLen64 then (0, -(i + 1))
    else if b < 0x80 then
      if i = maxVarintLen64 - 1 ∧ b > 1 then (0, -(i + 1)) else (x ||| b.toNat <<< s, i + 1)
    else uvarintFrom bs (i + 1) (s + 7) (x ||| (b.toNat &&& 0x7f) <<< s)

def uvarint (buf : List UInt8) : ℕ × ℤ := uvarintFrom buf 0 0 0

inductive ReadError where
  | eof
  | unexpectedEOF
  | overflow
deriving DecidableEq

def readUvarintFrom : List UInt8 → ℕ → ℕ → ℕ → Except ReadError ℕ × List UInt8
  | [], i, _, _ =>
    (.error (if i = maxVarintLen64 then .overflow else if i > 0 then .unexpectedEOF else .eof), [])
  | b :: bs, i, s, x =>
    if i = maxVarintLen64 then (.error .overflow, b :: bs)
    else if b < 0x80 then
      if i = maxVarintLen64 - 1 ∧ b > 1 then (.error .overflow, bs)
      else (.ok (x ||| b.toNat <<< s), bs)
    else readUvarintFrom bs (i + 1) (s + 7) (x ||| (b.toNat &&& 0x7f) <<< s)

def readUvarint (r : List UInt8) : Except ReadError ℕ × List UInt8 := readUvarintFrom r 0 0 0

theorem or_shiftLeft {x s : ℕ} (hx : x < 2 ^ s) (y : ℕ) : x ||| y <<< s = x + y * 2 ^ s := by
  rw [Nat.shiftLeft_eq, Nat.mul_comm y, Nat.or_comm, ← Nat.two_pow_add_eq_or_of_lt hx]
  exact Nat.add_comm _ _

theorem and_0x7f (x : ℕ) : x &&& 0x7f = x % 128 := Nat.and_two_pow_sub_one_eq_mod x 7

theorem add_mul_lt {x y s : ℕ} (hx : x < 2 ^ s) (hy : y < 128) : x + y * 2 ^ s < 2 ^ (s + 7) := by
  have hpow : 2 ^ (s + 7) = 2 ^ s * 128 := by rw [Nat.pow_add]
  have hle : y * 2 ^ s ≤ 127 * 2 ^ s := Nat.mul_le_mul_right _ (by omega)
  omega

theorem toNat_or_0x80 (x : ℕ) : (UInt8.ofNat (x % 256) ||| 0x80).toNat = x % 128 + 128 := by
  have hor : ∀ y : Fin 256, (UInt8.ofNat y ||| 0x80).toNat = y % 128 + 128 := by decide +kernel
  rw [hor ⟨x % 256, by omega⟩]
  simp only
  omega

/-! ## What was put is read -/

theorem putUvarint_eq_some {room x : ℕ} (h : x < 2 ^ (7 * (room + 1))) :
    ∃ bs, putUvarint (room + 1) x = some bs ∧ 1 ≤ bs.length ∧ bs.length ≤ room + 1 := by
  induction room generalizing x with
  | zero => exact ⟨[UInt8.ofNat x], by rw [putUvarint, if_neg (by omega)], le_rfl, le_rfl⟩
  | succ room ih =>
    rw [putUvarint]
    split_ifs with hx
    · have hlt : x >>> 7 < 2 ^ (7 * (room + 1)) := by
        rw [Nat.shiftRight_eq_div_pow, Nat.div_lt_iff_lt_mul (by decide), ← Nat.pow_add]
        exact h
      obtain ⟨bs, hput, -, hle⟩ := ih hlt
      exact ⟨_, by rw [hput]; rfl, by simp, by simpa using hle⟩
    · exact ⟨_, rfl, le_rfl, by simp⟩

section

variable {room n i s x l : ℕ} {k : ℤ} {bs rest : List UInt8}

/-- The loop of `Uvarint` reads on, with what it has read in the lower bits. -/
theorem uvarintFrom_putUvarint (hput : putUvarint room n = some bs)
    (hi : i + room ≤ maxVarintLen64) (hs : s = 7 * i) (hx : x < 2 ^ s)
    (hlt : x + n * 2 ^ s < 2 ^ 64) (rest : List UInt8) :
    uvarintFrom (bs ++ rest) i s x = (x + n * 2 ^ s, (i : ℤ) + bs.length) := by
  induction room generalizing n i s x bs with
  | zero => cases hput
  | succ room ih =>
    have hi9 : i + room ≤ 9 := by
      have : i + (room + 1) ≤ 10 := hi
      omega
    rw [putUvarint] at hput
    split_ifs at hput with hn
    · rw [Option.map_eq_some_iff] at hput
      obtain ⟨bs, hput, rfl⟩ := hput
      have hb := toNat_or_0x80 n
      have hbig : ¬ (UInt8.ofNat (n % 256) ||| 0x80 < 0x80) := by
        rw [UInt8.lt_iff_toNat_lt, hb]
        simp
      -- the seven bits that are read and the rest of the number
      have hsplit : x + n % 128 * 2 ^ s + n / 128 * 2 ^ (s + 7) = x + n * 2 ^ s := by
        have hpow : 2 ^ (s + 7) = 2 ^ s * 128 := by rw [Nat.pow_add]
        have hdiv : n % 128 + 128 * (n / 128) = n := Nat.mod_add_div n 128
        calc x + n % 128 * 2 ^ s + n / 128 * 2 ^ (s + 7)
            = x + (n % 128 + 128 * (n / 128)) * 2 ^ s := by rw [hpow]; ring
          _ = x + n * 2 ^ s := by rw [hdiv]
      have hshift : n >>> 7 = n / 128 := Nat.shiftRight_eq_div_pow n 7
      have hbits : (n % 128 + 128) % 128 = n % 128 := by omega
      rw [hshift] at hput
      rw [List.cons_append, uvarintFrom, if_neg (by unfold maxVarintLen64; omega), if_neg hbig, hb,
        and_0x7f, hbits, or_shiftLeft hx,
        ih hput (by unfold maxVarintLen64; omega) (by omega) (add_mul_lt hx (by omega)) (by omega),
        hsplit, List.length_cons]
      congr 1
      push_cast
      omega
    · cases hput
      have hb : (UInt8.ofNat n).toNat = n := by
        rw [UInt8.toNat_ofNat']
        omega
      have hsmall : UInt8.ofNat n < 0x80 := by
        rw [UInt8.lt_iff_toNat_lt, hb]
        simpa using hn
      have hlast : ¬ (i = maxVarintLen64 - 1 ∧ UInt8.ofNat n > 1) := by
        rintro ⟨hi', hgt⟩
        have hgt' : 1 < n := by simpa [UInt8.lt_iff_toNat_lt, hb] using hgt
        have hs63 : s = 63 := by
          rw [hs, hi']
          rfl
        rw [hs63] at hlt
        omega
      rw [List.cons_append, uvarintFrom, if_neg (by unfold maxVarintLen64; omega), if_pos hsmall,
        if_neg hlast, hb, or_shiftLeft hx]
      simp

/-- `Uvarint` reads a number that was put, whatever follows it. -/
theorem uvarint_putUvarint (hput : putUvarint room n = some bs) (hroom : room ≤ maxVarintLen64)
    (hn : n < 2 ^ 64) (rest : List UInt8) : uvarint (bs ++ rest) = (n, (bs.length : ℤ)) := by
  have h := uvarintFrom_putUvarint hput (i := 0) (s := 0) (x := 0) (by omega) rfl (by decide)
    (by omega) rest
  simpa [uvarint] using h

/-- `Uvarint` counts the bytes from where it is, and no more than there are. -/
theorem uvarintFrom_size (bs : List UInt8) (i s x : ℕ) :
    (uvarintFrom bs i s x).2 ≤ 0 ∧ (uvarintFrom bs i s x).1 = 0 ∨
      (i : ℤ) < (uvarintFrom bs i s x).2 ∧ (uvarintFrom bs i s x).2 ≤ i + bs.length := by
  induction bs generalizing i s x with
  | nil => exact .inl ⟨le_rfl, rfl⟩
  | cons b bs ih =>
    rw [uvarintFrom]
    split_ifs with hi hb hlast
    · exact .inl ⟨by simp only; omega, rfl⟩
    · exact .inl ⟨by simp only; omega, rfl⟩
    · exact .inr ⟨by simp only; omega, by simp only [List.length_cons]; push_cast; omega⟩
    · rcases ih (i + 1) (s + 7) (x ||| (b.toNat &&& 0x7f) <<< s) with h | ⟨hlt, hle⟩
      · exact .inl h
      · right
        push_cast at hlt hle
        rw [List.length_cons]
        push_cast
        exact ⟨by omega, by omega⟩

/-- A count that is not positive says at which byte there turned out to be no number. -/
theorem uvarintFrom_ge (hi : i ≤ maxVarintLen64) :
    -(maxVarintLen64 + 1 : ℤ) ≤ (uvarintFrom bs i s x).2 := by
  unfold maxVarintLen64 at hi ⊢
  induction bs generalizing i s x with
  | nil =>
    rw [uvarintFrom]
    omega
  | cons b bs ih =>
    rw [uvarintFrom, maxVarintLen64]
    split_ifs with hlimit hb hlast
    · simp only
      omega
    · simp only
      omega
    · simp only
      omega
    · exact ih (by omega)

theorem uvarintFrom_lt (hi : i ≤ maxVarintLen64) (hs : s = 7 * i) (hx : x < 2 ^ s) :
    (uvarintFrom bs i s x).1 < 2 ^ 64 := by
  unfold maxVarintLen64 at hi
  induction bs generalizing i s x with
  | nil => exact Nat.two_pow_pos 64
  | cons b bs ih =>
    rw [uvarintFrom, maxVarintLen64]
    split_ifs with hlimit hb hlast
    · exact Nat.two_pow_pos 64
    · exact Nat.two_pow_pos 64
    · simp only [or_shiftLeft hx]
      rcases Nat.lt_or_ge i 9 with hlt | hge
      · have hb128 : b.toNat < 128 := by simpa [UInt8.lt_iff_toNat_lt] using hb
        calc x + b.toNat * 2 ^ s < 2 ^ (s + 7) := add_mul_lt hx hb128
          _ ≤ 2 ^ 64 := Nat.pow_le_pow_right (by decide) (by omega)
      · -- one bit is left for the tenth byte
        have hone : b.toNat ≤ 1 := by
          by_contra hgt
          exact hlast ⟨by omega, by simpa [UInt8.lt_iff_toNat_lt] using hgt⟩
        have hs63 : s = 63 := by omega
        subst hs63
        omega
    · rw [or_shiftLeft hx, and_0x7f]
      exact ih (by omega) (by omega) (add_mul_lt hx (Nat.mod_lt _ (by decide)))

/-- `ReadUvarint` returns a number where `Uvarint` does, and leaves the rest. -/
theorem readUvarintFrom_eq_ok : readUvarintFrom bs i s x = (.ok l, rest) ↔
      0 < (uvarintFrom bs i s x).2 ∧ (uvarintFrom bs i s x).1 = l ∧
        bs.drop ((uvarintFrom bs i s x).2 - i).toNat = rest := by
  induction bs generalizing i s x with
  | nil => simp [readUvarintFrom, uvarintFrom]
  | cons b bs ih =>
    rw [readUvarintFrom, uvarintFrom]
    split_ifs with hi hb hlast
    · simp only [Prod.mk.injEq, reduceCtorEq, false_and, false_iff, not_and]
      intro hpos
      omega
    · simp only [Prod.mk.injEq, reduceCtorEq, false_and, false_iff, not_and]
      intro hpos
      omega
    · have hpos : (0 : ℤ) < i + 1 := by omega
      simp [hpos]
    · rw [ih]
      refine and_congr_right fun hpos => and_congr_right fun _ => ?_
      -- the count is beyond the byte that was read
      rcases uvarintFrom_size bs (i + 1) (s + 7) (x ||| (b.toNat &&& 0x7f) <<< s) with h | ⟨hlt, -⟩
      · omega
      · have hsucc :
            (((uvarintFrom bs (i + 1) (s + 7) (x ||| (b.toNat &&& 0x7f) <<< s)).2 - i).toNat)
            = ((uvarintFrom bs (i + 1) (s + 7) (x ||| (b.toNat &&& 0x7f) <<< s)).2
              - (i + 1 : ℕ)).toNat + 1 := by
          omega
        rw [hsucc, List.drop_succ_cons]

theorem uvarint_lt (buf : List UInt8) : (uvarint buf).1 < 2 ^ 64 :=
  uvarintFrom_lt (Nat.zero_le _) rfl (by decide)

theorem uvarint_ge (buf : List UInt8) : -(maxVarintLen64 + 1 : ℤ) ≤ (uvarint buf).2 :=
  uvarintFrom_ge (Nat.zero_le _)

theorem uvarint_size (buf : List UInt8) : (uvarint buf).2 ≤ 0 ∧ (uvarint buf).1 = 0 ∨
      0 < (uvarint buf).2 ∧ (uvarint buf).2 ≤ buf.length := by
  simpa [uvarint] using uvarintFrom_size buf 0 0 0

/-- `ReadUvarint` and `Uvarint` agree on the numbers. -/
theorem readUvarint_eq_ok : readUvarint bs = (.ok l, rest) ↔
      0 < (uvarint bs).2 ∧ (uvarint bs).1 = l ∧ bs.drop (uvarint bs).2.toNat = rest := by
  have h : readUvarintFrom bs 0 0 0 = (.ok l, rest) ↔ _ := readUvarintFrom_eq_ok
  simpa [uvarint, readUvarint] using h

theorem readUvarint_putUvarint (hput : putUvarint room n = some bs) (hroom : room ≤ maxVarintLen64)
    (hn : n < 2 ^ 64) (rest : List UInt8) : readUvarint (bs ++ rest) = (.ok n, rest) := by
  have h := uvarint_putUvarint hput hroom hn rest
  have hpos : 0 < bs.length := by
    rw [List.length_pos_iff]
    rintro rfl
    cases room with
    | zero => cases hput
    | succ room =>
      rw [putUvarint] at hput
      split_ifs at hput <;> simp at hput
  rw [readUvarint_eq_ok, h]
  refine ⟨by simpa using hpos, rfl, ?_⟩
  simp

end

end Kairos.Uvarint
