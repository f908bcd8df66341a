import Kairos.Deliverer.Queue
import Kairos.Go.Memory
import Mathlib.Data.List.DropRight

/-!
# Circular buffers of bytes

`pkg/circbuf`: a buffer of a fixed size whose writes overwrite the oldest bytes. Read in a circle
from the cursor on, its array holds the last bytes that were ever written (`Holds.circle`). The
count of the bytes written since the last `Reset` is an `int64` and wraps, and `Bytes` tells by it
whether the array is full.
-/

namespace Kairos.Circbuf

open List
open Deliverer (copyAt sliceOf modulo copyAt_of_le sliceOf_of_le modulo_of_pos)

/-- `circbuf.Buffer`. -/
structure Buffer where
  data : List UInt8
  size : ℕ
  writeCursor : ℕ
  /-- An `int64`. -/
  written : ℤ

/-- `NewBuffer`. -/
def newBuffer (size : ℕ) : Buffer := ⟨List.replicate size 0, size, 0, 0⟩

/-- Of more bytes than the size, `Write` only cares about the last ones. -/
def cut (size : ℕ) (buf : List UInt8) : Res (List UInt8) :=
  if buf.length > size then sliceOf buf (buf.length - size) buf.length else pure buf

/-- The two copies of `Write`, the second beyond the end of the array. -/
def copyIn (data : List UInt8) (writeCursor remain : ℕ) (buf : List UInt8) : Res (List UInt8) := do
  let data ← copyAt data writeCursor buf
  if buf.length > remain then do
    copyAt data 0 (← sliceOf buf remain buf.length)
  else pure data

namespace Buffer

/-- `Buffer.Write`. -/
def write (b : Buffer) (buf : List UInt8) : Res (ℕ × Buffer) := do
  let n := buf.length
  let buf ← cut b.size buf
  let data ← copyIn b.data b.writeCursor (b.size - b.writeCursor) buf
  let writeCursor ← modulo (b.writeCursor + buf.length) b.size
  pure (n, ⟨data, b.size, writeCursor, wrap64 (b.written + n)⟩)

/-- `Buffer.Bytes`. -/
def bytes (b : Buffer) : Res (List UInt8) :=
  if b.written ≥ b.size ∧ b.writeCursor = 0 then pure b.data
  else if b.written > b.size then do
    let out ← copyAt (List.replicate b.size 0) 0 (← sliceOf b.data b.writeCursor b.data.length)
    copyAt out (b.size - b.writeCursor) (← sliceOf b.data 0 b.writeCursor)
  else sliceOf b.data 0 b.writeCursor

/-- `Buffer.Reset`: the bytes stay in the array. -/
def reset (b : Buffer) : Buffer := { b with writeCursor := 0, written := 0 }

end Buffer

/-- The calls on a buffer. -/
inductive Op where
  | write (buf : List UInt8)
  | reset
  | bytes
  | string
  | totalWritten

/-- What a call returns. -/
inductive Ret where
  | wrote (n : ℕ)
  | reset
  | bytes (bs : List UInt8)
  | total (n : ℤ)

/-- One call. -/
def Buffer.exec (b : Buffer) : Op → Res (Ret × Buffer)
  | .write buf => do
    let (n, b) ← b.write buf
    pure (.wrote n, b)
  | .reset => pure (.reset, b.reset)
  | .bytes | .string => do pure (.bytes (← b.bytes), b)
  | .totalWritten => pure (.total b.written, b)

/-- A sequence of calls, with what each returns. -/
def Buffer.run : Buffer → List Op → Res (List Ret)
  | _, [] => pure []
  | b, op :: ops => do
    let (r, b) ← b.exec op
    let rs ← b.run ops
    pure (r :: rs)

/-- An operation on the bytes written since the last `Reset`. -/
def execLog (size : ℕ) (log : List UInt8) : Op → Ret × List UInt8
  | .write buf => (.wrote buf.length, log ++ buf)
  | .reset => (.reset, [])
  | .bytes | .string => (.bytes (log.rtake size), log)
  | .totalWritten => (.total log.length, log)

/-- A sequence of operations on the bytes written since the last `Reset`. -/
def runLog (size : ℕ) : List UInt8 → List Op → List Ret
  | _, [] => []
  | log, op :: ops => (execLog size log op).1 :: runLog size (execLog size log op).2 ops

/-- Fewer than `2 ^ 63` bytes are written between two `Reset`s, `total` of them so far. -/
def Countable : ℕ → List Op → Prop
  | _, [] => True
  | total, .write buf :: ops =>
    total + buf.length < 2 ^ 63 ∧ Countable (total + buf.length) ops
  | _, .reset :: ops => Countable 0 ops
  | total, _ :: ops => Countable total ops

/-! ## The representation -/

/-- The buffer after the bytes of the log, whatever was written before the last `Reset`. -/
structure Holds (size : ℕ) (b : Buffer) (log : List UInt8) : Prop where
  size_eq : b.size = size
  length : b.data.length = size
  cursor : b.writeCursor < size
  written : b.written = wrap64 log.length
  circle : ∃ old, b.data.rotate b.writeCursor = (old ++ log).rtake size
  short : log.length ≤ size → b.writeCursor = log.length % size

variable {size : ℕ} {b : Buffer} {log : List UInt8}

theorem length_rtake (l : List UInt8) (n : ℕ) : (l.rtake n).length = min n l.length := by
  rw [rtake, length_drop]
  omega

theorem rtake_rtake (l : List UInt8) (m n : ℕ) : (l.rtake m).rtake n = l.rtake (min n m) := by
  simp only [rtake_eq_reverse_take_reverse, reverse_reverse, take_take]

theorem rtake_append_of_le {m : List UInt8} {n : ℕ} (h : n ≤ m.length) (l : List UInt8) :
    (l ++ m).rtake n = m.rtake n := by
  rw [rtake, rtake, length_append, Nat.add_sub_assoc h, drop_append,
    drop_of_length_le (by omega), nil_append, Nat.add_sub_cancel_left]

theorem rtake_append_eq {r : List UInt8} {n : ℕ} (h : r.length = n) (l : List UInt8) :
    (r ++ l).rtake n = r.drop (l.rtake n).length ++ l.rtake n := by
  have hdrop : r.drop (l.rtake n).length = r.drop l.length := by
    rw [length_rtake, drop_eq_drop_iff]
    omega
  rw [hdrop, rtake, rtake, length_append, h, Nat.add_sub_cancel_left,
    drop_append, h]

theorem rtake_rtake_append (l m : List UInt8) (n : ℕ) :
    (l.rtake n ++ m).rtake n = (l ++ m).rtake n := by
  simp only [rtake_eq_reverse_take_reverse, reverse_append, reverse_reverse,
    take_append, take_take]
  congr 3
  omega

/-- A write of no more bytes than the array has drops the oldest ones. -/
theorem copyIn_eq_ok {data : List UInt8} {c : ℕ} (hc : c < data.length) (buf : List UInt8)
    (hbuf : buf.length ≤ data.length) : ∃ data', copyIn data c (data.length - c) buf = .ok data' ∧
      data'.length = data.length ∧
      data'.rotate (c + buf.length) = (data.rotate c).drop buf.length ++ buf := by
  obtain ⟨p, q, rfl, rfl⟩ : ∃ p q, data = p ++ q ∧ p.length = c :=
    ⟨_, _, (take_append_drop c data).symm, length_take_of_le hc.le⟩
  rw [length_append] at hbuf
  have hrest : (p ++ q).length - p.length = q.length := by simp
  rw [copyIn, hrest, rotate_append_length_eq]
  rcases Nat.lt_or_ge q.length buf.length with hwrap | hfits
  · -- the write goes on at the beginning of the array
    obtain ⟨b₁, b₂, rfl, hb⟩ : ∃ b₁ b₂, buf = b₁ ++ b₂ ∧ b₁.length = q.length :=
      ⟨_, _, (take_append_drop q.length buf).symm, length_take_of_le hwrap.le⟩
    rw [length_append] at hbuf hwrap
    obtain ⟨p₁, p₂, rfl, hp⟩ : ∃ p₁ p₂, p = p₁ ++ p₂ ∧ p₁.length = b₂.length :=
      ⟨_, _, (take_append_drop b₂.length p).symm, length_take_of_le (by omega)⟩
    have hcopy : copyAt (p₁ ++ p₂ ++ q) (p₁ ++ p₂).length (b₁ ++ b₂) = .ok (p₁ ++ p₂ ++ b₁) := by
      rw [copyAt, if_pos (by simp), take_left, hrest, ← hb, take_left,
        drop_of_length_le (by simp; omega), append_nil]
    have hagain : copyAt (p₁ ++ p₂ ++ b₁) 0 b₂ = .ok (b₂ ++ (p₂ ++ b₁)) := by
      rw [copyAt_of_le (by simp; omega), ← hp]
      simp
    refine ⟨b₂ ++ (p₂ ++ b₁), ?_, by simp; omega, ?_⟩
    · rw [hcopy, Res.ok_bind, if_pos (by simpa using hwrap), sliceOf_of_le (by simp; omega) le_rfl,
        take_length, ← hb, drop_left, Res.ok_bind, hagain]
    · have hturn : (p₁ ++ p₂).length + (b₁ ++ b₂).length =
          (b₂ ++ (p₂ ++ b₁)).length + b₂.length := by simp; omega
      rw [hturn, ← rotate_rotate, rotate_length, rotate_append_length_eq]
      have hdrop : (q ++ (p₁ ++ p₂)).drop (b₁ ++ b₂).length = p₂ := by
        rw [← append_assoc, drop_left' (by simp; omega)]
      rw [hdrop, append_assoc]
  · obtain ⟨q₁, q₂, rfl, hq⟩ : ∃ q₁ q₂, q = q₁ ++ q₂ ∧ q₁.length = buf.length :=
      ⟨_, _, (take_append_drop buf.length q).symm, length_take_of_le hfits⟩
    have hcopy : copyAt (p ++ (q₁ ++ q₂)) p.length buf = .ok (p ++ buf ++ q₂) := by
      rw [copyAt_of_le (by simp; omega), take_left, ← append_assoc,
        drop_left' (by simp; omega)]
    refine ⟨p ++ buf ++ q₂, ?_, by simp; omega, ?_⟩
    · rw [hcopy, Res.ok_bind, if_neg (by omega)]
      rfl
    · rw [← length_append, rotate_append_length_eq, append_assoc q₁, ← hq,
        drop_left, append_assoc]

theorem cut_eq_ok (size : ℕ) (buf : List UInt8) : cut size buf = .ok (buf.rtake size) := by
  rw [cut, rtake]
  split_ifs with hlong
  · rw [sliceOf_of_le (by omega) le_rfl, take_length]
  · rw [Nat.sub_eq_zero_of_le (by omega), drop_zero]
    rfl

theorem Holds.write (h : Holds size b log) (buf : List UInt8) :
    ∃ b', b.write buf = .ok (buf.length, b') ∧ Holds size b' (log ++ buf) := by
  obtain ⟨old, hcircle⟩ := h.circle
  have hpos : 0 < size := Nat.zero_lt_of_lt h.cursor
  have hlen := length_rtake buf size
  obtain ⟨data, hdata, hlength, hrotate⟩ := copyIn_eq_ok
    (h.length ▸ h.cursor) (buf.rtake size) (by rw [h.length]; omega)
  rw [h.length] at hdata hlength
  refine ⟨⟨data, size, (b.writeCursor + (buf.rtake size).length) % size,
    wrap64 (b.written + buf.length)⟩, ?_, rfl, hlength, Nat.mod_lt _ hpos, ?_, ⟨old, ?_⟩,
    fun hshort => ?_⟩
  · simp only [Buffer.write, cut_eq_ok, Res.ok_bind, h.size_eq, hdata, modulo_of_pos _ hpos]
    rfl
  · rw [h.written, length_append, Nat.cast_add, wrap64, wrap64, wrap64, Int.bmod_add_bmod]
  · have hsize : (b.data.rotate b.writeCursor).length = size := by rw [length_rotate, h.length]
    calc data.rotate ((b.writeCursor + (buf.rtake size).length) % size)
        = data.rotate (b.writeCursor + (buf.rtake size).length) := by
          rw [← hlength, rotate_mod]
      _ = (b.data.rotate b.writeCursor ++ buf).rtake size := by rw [hrotate, rtake_append_eq hsize]
      _ = (old ++ (log ++ buf)).rtake size := by
          rw [hcircle, rtake_rtake_append, append_assoc]
  · rw [length_append] at hshort ⊢
    rw [hlen, min_eq_right (by omega), h.short (by omega), Nat.mod_add_mod]

/-- The count of fewer than `2 ^ 63` bytes tells whether the array is full. -/
theorem Holds.bytes (h : Holds size b log) (hlog : log.length < 2 ^ 63) :
    b.bytes = .ok (log.rtake size) := by
  obtain ⟨old, hcircle⟩ := h.circle
  have hlength := h.length
  have hcursor := h.cursor
  have hwritten : b.written = log.length := by
    rw [h.written, wrap64_of_lt (by omega) (by exact_mod_cast hlog)]
  unfold Buffer.bytes
  rw [h.size_eq, hwritten]
  simp only [ge_iff_le, gt_iff_lt, Nat.cast_le, Nat.cast_lt]
  split_ifs with hfull hmore
  · rw [hfull.2, rotate_zero, rtake_append_of_le hfull.1] at hcircle
    rw [hcircle]
    rfl
  · have hturn : b.data.drop b.writeCursor ++ b.data.take b.writeCursor = log.rtake size := by
      rw [← rotate_eq_drop_append_take (by omega), hcircle, rtake_append_of_le hmore.le]
    have hdrop : (b.data.drop b.writeCursor).length = size - b.writeCursor := by
      rw [length_drop, hlength]
    have hfirst : copyAt (List.replicate size 0) 0 (b.data.drop b.writeCursor) =
        .ok (b.data.drop b.writeCursor ++ List.replicate b.writeCursor 0) := by
      rw [copyAt_of_le (by simp; omega), hdrop, drop_replicate]
      simp [Nat.sub_sub_self hcursor.le]
    have hsecond : copyAt (b.data.drop b.writeCursor ++ List.replicate b.writeCursor 0)
        (size - b.writeCursor) (b.data.take b.writeCursor) = .ok (log.rtake size) := by
      rw [copyAt_of_le (by simp; omega), take_left' hdrop, ← hturn,
        drop_of_length_le (l := _ ++ List.replicate _ _) (by simp; omega), append_nil]
    rw [sliceOf_of_le (by omega) le_rfl, take_length, Res.ok_bind, hfirst, Res.ok_bind,
      sliceOf_of_le (Nat.zero_le _) (by omega), drop_zero, Res.ok_bind, hsecond]
  · -- less than the size has been written, and the cursor has not come round
    have hshort := h.short (by omega)
    have hlt : log.length < size := by
      by_contra hge
      have heq : log.length = size := by omega
      rw [heq, Nat.mod_self] at hshort
      exact hfull ⟨by omega, hshort⟩
    rw [Nat.mod_eq_of_lt hlt] at hshort
    have hlast : b.data.take log.length = log := by
      have hlen : (b.data.take log.length).length = log.length :=
        length_take_of_le (by omega)
      rw [hshort, rotate_eq_drop_append_take (by omega)] at hcircle
      calc b.data.take log.length
          = (b.data.drop log.length ++ b.data.take log.length).rtake log.length := by
            rw [rtake_append_of_le hlen.ge, rtake, hlen, Nat.sub_self, drop_zero]
        _ = (old ++ log).rtake log.length := by rw [hcircle, rtake_rtake, min_eq_left hlt.le]
        _ = log := by
            rw [rtake_append_of_le le_rfl, rtake, Nat.sub_self, drop_zero]
    rw [hshort, sliceOf_of_le (Nat.zero_le _) (by omega), drop_zero, hlast, rtake,
      Nat.sub_eq_zero_of_le hlt.le, drop_zero]

theorem Holds.exec (h : Holds size b log) (op : Op) (hlog : log.length < 2 ^ 63) :
    ∃ b', b.exec op = .ok ((execLog size log op).1, b') ∧
      Holds size b' (execLog size log op).2 := by
  cases op with
  | write buf =>
    obtain ⟨b', hwrite, hb'⟩ := h.write buf
    exact ⟨b', by rw [Buffer.exec, hwrite]; rfl, hb'⟩
  | reset =>
    refine ⟨b.reset, rfl, h.size_eq, h.length, Nat.zero_lt_of_lt h.cursor,
      wrap64_zero.symm, ⟨b.data, ?_⟩, fun _ => (Nat.zero_mod size).symm⟩
    simp [Buffer.reset, execLog, rtake, h.length]
  | bytes | string => exact ⟨b, by rw [Buffer.exec, h.bytes hlog]; rfl, h⟩
  | totalWritten =>
    have hwritten : b.written = log.length := by
      rw [h.written, wrap64_of_lt (by omega) (by exact_mod_cast hlog)]
    exact ⟨b, by rw [Buffer.exec, hwritten]; rfl, h⟩

theorem holds_newBuffer (hsize : 0 < size) : Holds size (newBuffer size) [] := by
  refine ⟨rfl, length_replicate, hsize, wrap64_zero.symm,
    ⟨List.replicate size 0, ?_⟩, fun _ => (Nat.zero_mod size).symm⟩
  simp [newBuffer, rtake]

theorem Countable.exec (size : ℕ) {op : Op} {ops : List Op} (h : Countable log.length (op :: ops))
    (hlog : log.length < 2 ^ 63) : (execLog size log op).2.length < 2 ^ 63 ∧
      Countable (execLog size log op).2.length ops := by
  cases op with
  | write buf =>
    rw [execLog, length_append]
    exact h
  | reset => exact ⟨Nat.two_pow_pos 63, h⟩
  | bytes | string | totalWritten => exact ⟨hlog, h⟩

/-- A new buffer returns what the bytes written since the last `Reset` say, and nothing panics,
where fewer than `2 ^ 63` bytes are written between two `Reset`s. -/
theorem run_eq_runLog (size : ℕ) (hsize : 0 < size) (ops : List Op) (hops : Countable 0 ops) :
    (newBuffer size).run ops = .ok (runLog size [] ops) := by
  have hrun : ∀ b log, Holds size b log → log.length < 2 ^ 63 → Countable log.length ops →
      b.run ops = .ok (runLog size log ops) := by
    clear hops
    induction ops with
    | nil => exact fun b log h _ _ => rfl
    | cons op ops ih =>
      intro b log h hlog hops
      obtain ⟨b', hexec, hb'⟩ := h.exec op hlog
      obtain ⟨hlog', hops'⟩ := hops.exec size hlog
      simp only [Buffer.run, hexec, Res.ok_bind, ih b' _ hb' hlog' hops']
      rfl
  exact hrun _ _ (holds_newBuffer hsize) (Nat.two_pow_pos 63) hops

/-- Five bytes in two writes to a buffer of three, and a `Reset`. -/
theorem run_three : (newBuffer 3).run
    [.write [1, 2], .bytes, .write [3, 4, 5], .bytes, .totalWritten, .reset, .string] =
      .ok [.wrote 2, .bytes [1, 2], .wrote 3, .bytes [3, 4, 5], .total 5, .reset, .bytes []] :=
  run_eq_runLog 3 (by decide) _ (by simp [Countable])

/-! ## The count overflows -/

theorem Holds.run_writes (h : Holds size b log) (buf : List UInt8) (n : ℕ) (ops : List Op) :
    ∃ b', Holds size b' (log ++ (List.replicate n buf).flatten) ∧
      b.run (List.replicate n (.write buf) ++ ops) =
        b'.run ops >>= fun rs => pure (List.replicate n (.wrote buf.length) ++ rs) := by
  induction n generalizing b log with
  | zero =>
    refine ⟨b, by simpa using h, ?_⟩
    simp only [List.replicate_zero, nil_append]
    cases b.run ops <;> rfl
  | succ n ih =>
    obtain ⟨b₁, hwrite, hb₁⟩ := h.write buf
    obtain ⟨b', hb', hrun⟩ := ih hb₁
    refine ⟨b', by simpa [List.replicate_succ] using hb', ?_⟩
    rw [List.replicate_succ, cons_append, Buffer.run, Buffer.exec, hwrite]
    simp only [Res.ok_bind, Res.pure_eq, hrun]
    cases b'.run ops <;> rfl

theorem runLog_writes (log buf : List UInt8) (n : ℕ) (ops : List Op) :
    runLog size log (List.replicate n (.write buf) ++ ops) = List.replicate n (.wrote buf.length) ++
      runLog size (log ++ (List.replicate n buf).flatten) ops := by
  induction n generalizing log with
  | zero => simp
  | succ n ih =>
    rw [List.replicate_succ, cons_append, runLog, execLog, ih, List.replicate_succ,
      List.replicate_succ, flatten_cons, append_assoc, cons_append]

/-- Where `2 ^ 63` bytes are written to a buffer of one byte, the count is negative, so that the
array does not count as full, and `Bytes` returns no byte. -/
theorem run_ne_runLog_of_mul_eq {n : ℕ} {buf : List UInt8} (h : n * buf.length = 2 ^ 63) :
    (newBuffer 1).run (List.replicate n (.write buf) ++ [.bytes]) ≠
      .ok (runLog 1 [] (List.replicate n (.write buf) ++ [.bytes])) := by
  obtain ⟨b, hb, hrun⟩ := (holds_newBuffer one_pos).run_writes buf n [.bytes]
  rw [hrun, runLog_writes]
  have hlength : ([] ++ (List.replicate n buf).flatten).length = 2 ^ 63 := by simpa using h
  generalize [] ++ (List.replicate n buf).flatten = log at hb hlength
  have hwritten : b.written = -2 ^ 63 := by
    rw [hb.written, hlength]
    decide
  have hcursor : b.writeCursor = 0 := Nat.lt_one_iff.1 hb.cursor
  have hbytes : b.bytes = .ok [] := by
    rw [Buffer.bytes, hwritten, hb.size_eq, hcursor, if_neg (by simp), if_neg (by simp),
      sliceOf_of_le le_rfl (Nat.zero_le _)]
    rfl
  have hlast : log.rtake 1 ≠ [] := by
    rw [← length_pos_iff, length_rtake, hlength]
    exact Nat.lt_min.2 ⟨one_pos, Nat.two_pow_pos 63⟩
  simp [Buffer.run, Buffer.exec, hbytes, runLog, execLog, Ne.symm hlast]

/-- `2 ^ 33` writes of one slice of `2 ^ 30` bytes to a buffer of one byte. -/
theorem bytes_lost : (newBuffer 1).run
      (List.replicate (2 ^ 33) (.write (List.replicate (2 ^ 30) 7)) ++ [.bytes]) ≠
    .ok (runLog 1 [] (List.replicate (2 ^ 33) (.write (List.replicate (2 ^ 30) 7)) ++
      [.bytes])) :=
  run_ne_runLog_of_mul_eq (by rw [length_replicate]; rfl)

end Kairos.Circbuf
