import Kairos.Go.Strings

/-!
# The buffer with a callback

`pkg/bufcb`: a writer that is meant to hand its bytes to a callback in chunks of at most its size.
`Write` hands over its argument as a whole, goes on with what is behind the end of the slice
(`loop`), and returns zero.
-/

namespace Kairos.Bufcb

open List

/-- A slice, and the bytes of its array behind it. -/
structure Slice where
  bytes : List UInt8
  spare : List UInt8

/-- `buf[:n]`. -/
def Slice.upTo (buf : Slice) (n : ℕ) : Res Slice :=
  if n ≤ (buf.bytes ++ buf.spare).length then
    .ok ⟨(buf.bytes ++ buf.spare).take n, (buf.bytes ++ buf.spare).drop n⟩
  else .panic

/-- The buffer, with the chunks that its callback has been called with. -/
structure Buffer where
  data : Slice
  size : ℕ
  written : ℕ
  chunks : List (List UInt8)

/-- A call returns a number, and whether there is an error. -/
abbrev Ret := ℕ × Bool

def newBuffer (size : ℕ) : Buffer := ⟨⟨List.replicate size 0, []⟩, size, 0, []⟩

namespace Buffer

def call (b : Buffer) (chunk : List UInt8) : Buffer := { b with chunks := b.chunks ++ [chunk] }

-- whether the callback returns an error, by all that it has been called with
variable (cb : List (List UInt8) → Bool)

/-- The loop of `Write`. The slice `buf[n:]` ends where `buf` does, so `n` cannot be beyond. -/
def loop (buf : Slice) (n : ℕ) (b : Buffer) : Res (Ret × Buffer) :=
  if _hn : 0 < n then do
    let chunk ← buf.upTo n
    if cb (b.call chunk.bytes).chunks then pure ((b.written, true), b.call chunk.bytes)
    else if _hle : n ≤ buf.bytes.length then
      loop ⟨buf.bytes.drop n, buf.spare⟩ (n - min b.size n) (b.call chunk.bytes)
    else .panic
  else pure ((0, false), b)
termination_by buf.bytes.length
decreasing_by simp; omega

def flush (b : Buffer) : Res (Ret × Buffer) := do
  let f ← b.data.upTo b.written
  if f.bytes.length > 0 ∧ cb (b.call f.bytes).chunks then
    pure ((b.written, true), b.call f.bytes)
  else
    let b := if f.bytes.length > 0 then b.call f.bytes else b
    pure ((0, false), { b with data := f, written := 0 })

/-- `Write`, of a slice or of nil. -/
def write (b : Buffer) : Option Slice → Res (Ret × Buffer)
  | none => pure ((0, cb (b.call []).chunks), b.call [])
  | some buf => if buf.bytes.length = 0 then b.flush cb else loop cb buf buf.bytes.length b

inductive Op where
  | write (buf : Option Slice)
  | flush

def Op.bytes : Op → List UInt8
  | .write (some buf) => buf.bytes
  | _ => []

def exec (b : Buffer) : Op → Res (Ret × Buffer)
  | .write buf => b.write cb buf
  | .flush => b.flush cb

def run : Buffer → List Op → Res (List Ret × Buffer)
  | b, [] => pure ([], b)
  | b, op :: ops => do
    let (r, b) ← b.exec cb op
    let (rs, b) ← b.run ops
    pure (r :: rs, b)

/-- No call panics, and the callback gets the bytes in chunks of at most the size. -/
def Delivers (size : ℕ) (ops : List Op) : Prop :=
  ∃ rs b, (newBuffer size).run cb ops = .ok (rs, b) ∧
    b.chunks.flatten = ops.flatMap Op.bytes ∧ ∀ chunk ∈ b.chunks, chunk.length ≤ size

/-- Every call returns the number of bytes that it is given. -/
def Counts (size : ℕ) (ops : List Op) : Prop :=
  ∀ rs b, (newBuffer size).run cb ops = .ok (rs, b) →
    rs.map Prod.fst = ops.map fun op => op.bytes.length

/-- The state that every call leaves, as `written` is never increased. -/
structure Idle (size : ℕ) (b : Buffer) : Prop where
  size_eq : b.size = size
  written : b.written = 0

variable {cb} {size : ℕ} {b b' : Buffer} {r : Ret} {op : Op} {ops : List Op}

@[simp] theorem call_chunks (b : Buffer) (chunk : List UInt8) :
    (b.call chunk).chunks = b.chunks ++ [chunk] := rfl

theorem Idle.call (h : Idle size b) (chunk : List UInt8) : Idle size (b.call chunk) :=
  ⟨h.size_eq, h.written⟩

variable (cb) in
theorem Idle.flush (h : Idle size b) :
    ∃ f, b.flush cb = .ok ((0, false), { b with data := f, written := 0 }) := by
  refine ⟨⟨[], b.data.bytes ++ b.data.spare⟩, ?_⟩
  simp [Buffer.flush, h.written, Slice.upTo]

/-- Whatever a loop comes to, it returns zero and has handed over more chunks. -/
theorem Idle.of_loop (h : Idle size b) {buf : Slice} {n : ℕ}
    (hloop : loop cb buf n b = .ok (r, b')) :
    r.1 = 0 ∧ Idle size b' ∧ b.chunks <+: b'.chunks := by
  fun_induction loop cb buf n b with
  | case1 buf n b hn ih =>
    obtain ⟨chunk, -, hnext⟩ := Res.bind_eq_ok.1 hloop
    split_ifs at hnext with herr hle
    · cases hnext
      exact ⟨h.written, h.call _, prefix_append ..⟩
    · obtain ⟨hr, hb', hpre⟩ := ih chunk hle (h.call _) hnext
      exact ⟨hr, hb', (prefix_append ..).trans hpre⟩
  | case2 buf n b hn =>
    cases hloop
    exact ⟨rfl, h, prefix_rfl⟩

theorem loop_eq {buf : Slice} (hpos : 0 < buf.bytes.length) :
    loop cb buf buf.bytes.length b =
      if cb (b.call buf.bytes).chunks then .ok ((b.written, true), b.call buf.bytes)
      else loop cb ⟨[], buf.spare⟩ (buf.bytes.length - min b.size buf.bytes.length)
        (b.call buf.bytes) := by
  have hupTo : buf.upTo buf.bytes.length = .ok ⟨buf.bytes, buf.spare⟩ := by simp [Slice.upTo]
  rw [loop, dif_pos hpos, hupTo, Res.ok_bind, dif_pos le_rfl, drop_length]
  rfl

theorem Idle.exec (h : Idle size b) (hexec : b.exec cb op = .ok (r, b')) :
    r.1 = 0 ∧ Idle size b' ∧ b.chunks <+: b'.chunks ∧
      (op.bytes ≠ [] → op.bytes ∈ b'.chunks) := by
  have hflush : b.flush cb = .ok (r, b') → r.1 = 0 ∧ Idle size b' ∧ b.chunks <+: b'.chunks := by
    obtain ⟨f, hf⟩ := h.flush cb
    rw [hf]
    rintro ⟨⟩
    exact ⟨rfl, ⟨h.size_eq, rfl⟩, prefix_rfl⟩
  match op with
  | .flush =>
    obtain ⟨hr, hb', hpre⟩ := hflush hexec
    exact ⟨hr, hb', hpre, fun hne => absurd rfl hne⟩
  | .write none =>
    cases hexec
    exact ⟨rfl, h.call _, prefix_append .., fun hne => absurd rfl hne⟩
  | .write (some buf) =>
    rw [Buffer.exec, write] at hexec
    split_ifs at hexec with hlen
    · obtain ⟨hr, hb', hpre⟩ := hflush hexec
      exact ⟨hr, hb', hpre, fun hne => absurd (length_eq_zero_iff.1 hlen) hne⟩
    · obtain ⟨hr, hb', hpre⟩ := h.of_loop hexec
      refine ⟨hr, hb', hpre, fun _ => ?_⟩
      -- the first chunk is the whole slice, and stays the first
      have hmem : buf.bytes ∈ (b.call buf.bytes).chunks := mem_append_right _ (by simp)
      rw [loop_eq (by omega)] at hexec
      split_ifs at hexec
      · cases hexec
        exact hmem
      · exact ((h.call _).of_loop hexec).2.2.subset hmem

variable (cb) in
theorem Idle.exec_of_le (h : Idle size b) (hle : op.bytes.length ≤ size) :
    ∃ r b', b.exec cb op = .ok (r, b') ∧ b'.chunks.flatten = b.chunks.flatten ++ op.bytes ∧
      ∀ chunk ∈ b'.chunks, chunk ∈ b.chunks ∨ chunk.length ≤ size := by
  obtain ⟨f, hf⟩ := h.flush cb
  match op with
  | .flush => exact ⟨_, _, hf, by simp [Op.bytes], fun _ => .inl⟩
  | .write none => exact ⟨_, _, rfl, by simp [Op.bytes], by simp; grind⟩
  | .write (some buf) =>
    rw [Buffer.exec, write]
    split_ifs with hlen
    · exact ⟨_, _, hf, by simp [Op.bytes, length_eq_zero_iff.1 hlen], fun _ => .inl⟩
    · have hrest : buf.bytes.length - min b.size buf.bytes.length = 0 := by
        rw [h.size_eq]
        exact Nat.sub_eq_zero_of_le (le_min hle le_rfl)
      have hwhole : ∃ r, loop cb buf buf.bytes.length b = .ok (r, b.call buf.bytes) := by
        rw [loop_eq (by omega), hrest, loop, dif_neg (by omega)]
        split_ifs
        · exact ⟨_, rfl⟩
        · exact ⟨_, rfl⟩
      obtain ⟨r, hr⟩ := hwhole
      exact ⟨r, _, hr, by simp [Op.bytes], by simp; grind [Op.bytes]⟩

theorem Idle.run (h : Idle size b) {rs : List Ret} (hrun : b.run cb ops = .ok (rs, b')) :
    (rs.map Prod.fst = ops.map fun _ => 0) ∧ b.chunks <+: b'.chunks ∧
      ∀ op ∈ ops, op.bytes ≠ [] → op.bytes ∈ b'.chunks := by
  induction ops generalizing b rs with
  | nil =>
    cases hrun
    exact ⟨rfl, prefix_rfl, by simp⟩
  | cons op ops ih =>
    obtain ⟨⟨r, b₁⟩, hexec, hrun⟩ := Res.bind_eq_ok.1 hrun
    obtain ⟨⟨rs', b₂⟩, hrest, heq⟩ := Res.bind_eq_ok.1 hrun
    cases heq
    obtain ⟨hr, hb₁, hpre, hmem⟩ := h.exec hexec
    obtain ⟨hrs, hpre', hmems⟩ := ih hb₁ hrest
    refine ⟨by rw [map_cons, map_cons, hr, hrs], hpre.trans hpre',
      forall_mem_cons.2 ⟨fun hne => hpre'.subset (hmem hne), hmems⟩⟩

variable (cb) in
theorem Idle.run_of_le (h : Idle size b) (hle : ∀ op ∈ ops, op.bytes.length ≤ size) :
    ∃ rs b', b.run cb ops = .ok (rs, b') ∧
      b'.chunks.flatten = b.chunks.flatten ++ ops.flatMap Op.bytes ∧
      ∀ chunk ∈ b'.chunks, chunk ∈ b.chunks ∨ chunk.length ≤ size := by
  induction ops generalizing b with
  | nil => exact ⟨[], b, rfl, by simp, fun _ => .inl⟩
  | cons op ops ih =>
    obtain ⟨hop, hops⟩ := forall_mem_cons.1 hle
    obtain ⟨r, b₁, hexec, hflat, hshort⟩ := h.exec_of_le cb hop
    obtain ⟨rs, b₂, hrun, hflat', hshort'⟩ := ih (h.exec hexec).2.1 hops
    refine ⟨r :: rs, b₂, ?_, by rw [hflat', hflat, append_assoc]; rfl, fun chunk hc => ?_⟩
    · simp only [Buffer.run, hexec, Res.ok_bind, hrun]
      rfl
    · exact (hshort' chunk hc).elim (hshort chunk) .inr

theorem idle_newBuffer (size : ℕ) : Idle size (newBuffer size) := ⟨rfl, rfl⟩

theorem delivers_iff : Delivers cb size ops ↔ ∀ op ∈ ops, op.bytes.length ≤ size := by
  constructor
  · rintro ⟨rs, b, hrun, -, hshort⟩ op hop
    by_cases hempty : op.bytes = []
    · simp [hempty]
    · exact hshort _ (((idle_newBuffer size).run hrun).2.2 op hop hempty)
  · intro hle
    obtain ⟨rs, b, hrun, hflat, hshort⟩ := (idle_newBuffer size).run_of_le cb hle
    exact ⟨rs, b, hrun, hflat, fun chunk hc => (hshort chunk hc).resolve_left (by simp [newBuffer])⟩

/-- The bytes before a `Flush` are delivered exactly when no slice is longer than the size, and the
numbers returned are right as well only when there are no bytes. -/
theorem buffer_right_iff (cb : List (List UInt8) → Bool) (size : ℕ) (ops : List Op) :
    (Delivers cb size (ops ++ [.flush]) ↔ ∀ op ∈ ops, op.bytes.length ≤ size) ∧
    (Delivers cb size (ops ++ [.flush]) ∧ Counts cb size (ops ++ [.flush]) ↔
      ∀ op ∈ ops, op.bytes = []) := by
  have hdelivers : Delivers cb size (ops ++ [.flush]) ↔ ∀ op ∈ ops, op.bytes.length ≤ size := by
    rw [delivers_iff]
    simp [or_imp, forall_and, Op.bytes]
  refine ⟨hdelivers, ?_, fun hempty => ?_⟩
  · rintro ⟨⟨rs, b, hrun, -⟩, hcounts⟩ op hop
    have hzero := ((idle_newBuffer size).run hrun).1
    rw [hcounts rs b hrun, map_inj_left] at hzero
    exact length_eq_zero_iff.1 (hzero op (mem_append_left _ hop))
  · refine ⟨hdelivers.2 fun op hop => by simp [hempty op hop], fun rs b hrun => ?_⟩
    rw [((idle_newBuffer size).run hrun).1, map_inj_left]
    intro op hop
    rcases mem_append.1 hop with hop | hop
    · simp [hempty op hop]
    · simp [mem_singleton.1 hop, Op.bytes]

/-- One byte is counted as none, and two that do not fit make `Write` panic. -/
theorem byte_not_counted : ¬Counts (fun _ => false) 1 [.write (some ⟨[7], []⟩), .flush] ∧
    (newBuffer 1).run (fun _ => false) [.write (some ⟨[7, 8], []⟩), .flush] = .panic := by
  constructor
  · intro hcounts
    have hnext := hcounts [(0, false), (0, false)] ⟨⟨[], [0]⟩, 1, 0, [[7]]⟩ (by
      simp [Buffer.run, exec, write, loop, Slice.upTo, newBuffer, flush, call])
    cases hnext
  · simp [Buffer.run, exec, write, loop, Slice.upTo, newBuffer, call]

end Buffer

end Kairos.Bufcb
