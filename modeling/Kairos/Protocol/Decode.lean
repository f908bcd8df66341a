import Kairos.Library.Uvarint
import Kairos.Protocol.Buffers

/-!
# Frames with a length in front

The protobuf decoders of `pkg/protocol/deliverprotocol`. A frame is the length of its payload, as a
number of variable length, and the payload. The length is what the other side has sent. As an `int`
it may be negative, and added to an offset it may wrap around.
-/

namespace Kairos.Protocol

open Uvarint (uvarint readUvarint ReadError)

inductive DecodeError where
  | eof
  | unexpectedEOF
  | shortBuffer
  | overflow
  | codec
deriving DecidableEq

structure Returned (C : Type) where
  payload : Option (List UInt8)
  command : Option C
  err : Option DecodeError

structure ProtobufCommandDecoder where
  data : ByteSlice
  offset : ℤ

structure ProtobufReplyDecoder where
  data : ByteSlice
  offset : ℤ

structure ProtobufStreamCommandDecoder where
  reader : List UInt8

section

-- `UnmarshalVT` of a command or a reply
variable {C : Type} (unmarshalVT : List UInt8 → Option C)

def newProtobufCommandDecoder (data : ByteSlice) : ProtobufCommandDecoder := ⟨data, 0⟩

def newProtobufReplyDecoder (data : ByteSlice) : ProtobufReplyDecoder := ⟨data, 0⟩

def newProtobufStreamCommandDecoder (reader : List UInt8) : ProtobufStreamCommandDecoder := ⟨reader⟩

def ProtobufCommandDecoder.decode (d : ProtobufCommandDecoder) :
    Res (Returned C × ProtobufCommandDecoder) :=
  if d.offset < d.data.len then do
    let header := uvarint (← d.data.slice d.offset d.data.len)
    if header.2 ≤ 0 then pure (⟨none, none, some .eof⟩, d)
    else
      let low := wrap64 (d.offset + header.2)
      let high := wrap64 (d.offset + header.2 + wrap64 header.1)
      if high > 0 ∧ high ≤ d.data.len then do
        let cmdBytes ← d.data.slice low high
        match unmarshalVT cmdBytes with
        | none => pure (⟨some cmdBytes, none, some .codec⟩, d)
        | some c =>
          pure (⟨some cmdBytes, some c, if high = d.data.len then some .eof else none⟩,
            { d with offset := high })
      else pure (⟨none, none, some .shortBuffer⟩, d)
  else pure (⟨none, none, some .eof⟩, d)

def ProtobufReplyDecoder.decode (d : ProtobufReplyDecoder) :
    Res (Returned C × ProtobufReplyDecoder) :=
  if d.offset < d.data.len then do
    let header := uvarint (← d.data.slice d.offset d.data.len)
    let replyBytes ← d.data.slice (wrap64 (d.offset + header.2))
      (wrap64 (d.offset + header.2 + wrap64 header.1))
    match unmarshalVT replyBytes with
    | none => pure (⟨some replyBytes, none, some .codec⟩, d)
    | some c =>
      pure (⟨some replyBytes, some c, none⟩,
        { d with offset := wrap64 (d.offset + header.2 + wrap64 header.1) })
  else pure (⟨none, none, some .eof⟩, d)

def ofReadError : ReadError → DecodeError
  | .eof => .eof
  | .unexpectedEOF => .unexpectedEOF
  | .overflow => .overflow

/-- `ProtobufStreamCommandDecoder.Decode`: what it returns, the size it reports, and the pools. -/
def ProtobufStreamCommandDecoder.decode (limit : AllocLimit) (pools : Pools) (pick : Option ℕ)
    (d : ProtobufStreamCommandDecoder) :
    Res ((Returned C × ℤ) × ProtobufStreamCommandDecoder × Pools) :=
  match readUvarint d.reader with
  | (.error e, reader) => pure ((⟨none, none, some (ofReadError e)⟩, 0), ⟨reader⟩, pools)
  | (.ok msgLength, reader) => do
    let (capacity, pools) ← getByteBuffer limit pools pick (wrap64 msgLength)
    if wrap64 msgLength < 0 ∨ capacity < wrap64 msgLength then .panic
    else
      -- `io.ReadFull`, into the first `msgLength` bytes of the buffer
      let n := (wrap64 msgLength).toNat
      let bytes := reader.take n
      let pools ← putByteBuffer pools capacity
      if bytes.length < n then
        pure ((⟨none, none, some (if bytes.length = 0 then .eof else .unexpectedEOF)⟩, 0), ⟨[]⟩,
          pools)
      else if n ≠ msgLength then
        pure ((⟨none, none, some .shortBuffer⟩, 0), ⟨reader.drop n⟩, pools)
      else
        match unmarshalVT bytes with
        | none => pure ((⟨some bytes, none, some .codec⟩, 0), ⟨reader.drop n⟩, pools)
        | some c =>
          pure ((⟨some bytes, some c, none⟩, wrap64 (wrap64 msgLength + 8)), ⟨reader.drop n⟩, pools)

inductive Called {D R : Type} (Call : D → Res (R × D) → Prop) (d : D) : D → Prop
  | never : Called Call d d
  | again {d' d'' : D} {r : R} (h : Called Call d d') (hcall : Call d' (.ok (r, d''))) :
      Called Call d d''

def Safe {D : Type} (Call : D → Res (Returned C × D) → Prop) (position : D → ℤ) (d : D) : Prop :=
  ∀ d', Called Call d d' → ∀ result, Call d' result →
    ∃ r d'', result = .ok (r, d'') ∧ (r.command.isSome → position d' + 1 ≤ position d'')

/-- A decoder is safe exactly when it fits wherever calls lead: then a call returns and leads on. -/
theorem safe_iff {D K : Type} {Call : D → Res (Returned C × D) → Prop} {position : D → ℤ}
    (place : K → D) {At Fits : K → Prop} {k₀ : K} (first : At k₀)
    (called : ∀ k, At k → Called Call (place k₀) (place k))
    (fits : ∀ k, At k → Fits k → ∀ result, Call (place k) result →
      ∃ r k', result = .ok (r, place k') ∧ At k' ∧
        (r.command.isSome → position (place k) + 1 ≤ position (place k')))
    (returns : ∀ k, At k → (∀ result, Call (place k) result →
      ∃ r d, result = .ok (r, d) ∧ (r.command.isSome → position (place k) + 1 ≤ position d)) →
      Fits k) : Safe Call position (place k₀) ↔ ∀ k, At k → Fits k := by
  constructor
  · exact fun hsafe k hk => returns k hk (hsafe _ (called k hk))
  · intro hfits
    have hplace : ∀ d, Called Call (place k₀) d → ∃ k, d = place k ∧ At k := by
      intro d hd
      induction hd with
      | never => exact ⟨k₀, rfl, first⟩
      | again _ hcall ih =>
        obtain ⟨k, rfl, hk⟩ := ih
        obtain ⟨r, k', hresult, hk', -⟩ := fits k hk (hfits k hk) _ hcall
        cases hresult
        exact ⟨k', rfl, hk'⟩
    intro d hd result hcall
    obtain ⟨k, rfl, hk⟩ := hplace d hd
    obtain ⟨r, k', hresult, -, hread⟩ := fits k hk (hfits k hk) result hcall
    exact ⟨r, place k', hresult, hread⟩

def ProtobufCommandDecoder.Call (d : ProtobufCommandDecoder)
    (result : Res (Returned C × ProtobufCommandDecoder)) : Prop :=
  d.decode unmarshalVT = result

def ProtobufReplyDecoder.Call (d : ProtobufReplyDecoder)
    (result : Res (Returned C × ProtobufReplyDecoder)) : Prop :=
  d.decode unmarshalVT = result

/-- A call of the stream decoder, with whatever others have left in the pools. -/
def ProtobufStreamCommandDecoder.Call (limit : AllocLimit) (d : ProtobufStreamCommandDecoder)
    (result : Res (Returned C × ProtobufStreamCommandDecoder)) : Prop :=
  ∃ pools pick, (d.decode unmarshalVT limit pools pick >>= fun r => pure (r.1.1, r.2.1)) = result

/-! ## Where lengths are read -/

def header (data : ByteSlice) (p : ℕ) : ℕ × ℤ := uvarint (data.bytes.drop p)

def between (data : ByteSlice) (low high : ℕ) : List UInt8 := (data.array.take high).drop low

/-- Where a frame begins, if every frame before ends within the limit and the codec accepted it. -/
inductive FrameAt (data : ByteSlice) (limit : ℕ) : ℕ → Prop
  | first : FrameAt data limit 0
  | next {p n l : ℕ} (h : FrameAt data limit p) (hp : p < data.len)
      (hheader : header data p = (l, (n : ℤ))) (hn : 0 < n) (hend : p + n + l ≤ limit)
      (hcodec : (unmarshalVT (between data (p + n) (p + n + l))).isSome) :
      FrameAt data limit (p + n + l)

def CommandFits (data : ByteSlice) (p : ℕ) : Prop :=
  0 < (header data p).2 → p + (header data p).2 + (header data p).1 ≤ 2 ^ 64

/-- The frame ends within the array. Where there is no length, the codec refuses the empty
payload. -/
def ReplyFits (data : ByteSlice) (p : ℕ) : Prop :=
  0 < (header data p).2 ∧ p + (header data p).2 + (header data p).1 ≤ data.cap ∨
    (header data p).2 ≤ 0 ∧ 0 ≤ p + (header data p).2 ∧ unmarshalVT [] = none

def StreamFits (limit : AllocLimit) (r : List UInt8) : Prop :=
  ∀ l r', readUvarint r = (.ok l, r') → l ≤ limit.bytes

inductive StreamAt (limit : AllocLimit) (stream : List UInt8) : List UInt8 → Prop
  | first : StreamAt limit stream stream
  | failed {r r' : List UInt8} {e : ReadError} (h : StreamAt limit stream r)
      (hread : readUvarint r = (.error e, r')) : StreamAt limit stream r'
  | next {r r' : List UInt8} {l : ℕ} (h : StreamAt limit stream r)
      (hread : readUvarint r = (.ok l, r')) (hl : l ≤ limit.bytes) :
      StreamAt limit stream (r'.drop l)

section Header

variable {data : ByteSlice} {p : ℕ} {n : ℤ} {l : ℕ}

theorem header_bounds (hp : p < data.len) (h : header data p = (l, n)) :
    l < 2 ^ 64 ∧ (-11 ≤ n ∧ n ≤ 0 ∧ l = 0 ∨ 0 < n ∧ p + n ≤ data.len) ∧ data.len ≤ maxAlloc := by
  have hl := Uvarint.uvarint_lt (data.bytes.drop p)
  have hge : -11 ≤ (uvarint (data.bytes.drop p)).2 := Uvarint.uvarint_ge (data.bytes.drop p)
  have hn := Uvarint.uvarint_size (data.bytes.drop p)
  rw [header] at h
  rw [h] at hl hge hn
  rw [List.length_drop, data.length_bytes] at hn
  refine ⟨hl, ?_, data.len_le.trans data.array_le⟩
  rcases hn with hn | ⟨hpos, hle⟩
  · exact .inl ⟨hge, hn⟩
  · exact .inr ⟨hpos, by simp only at hle; omega⟩

theorem wrap64_end {q : ℤ} (hq : 0 ≤ q) (hmax : q ≤ maxAlloc) (hl : l < 2 ^ 64) :
    wrap64 (q + wrap64 l) = if q + l < 2 ^ 63 then q + l else q + l - 2 ^ 64 := by
  unfold maxAlloc at hmax
  rcases lt_or_ge (l : ℤ) (2 ^ 63) with hsmall | hbig
  · rw [wrap64_of_lt (by omega) hsmall]
    split_ifs with h
    · exact wrap64_of_lt (by omega) h
    · exact wrap64_of_ge (by omega) (by omega)
  · rw [wrap64_of_ge hbig (by omega), if_neg (by omega), wrap64_of_lt (by omega) (by omega)]
    omega

end Header

/-! ## The decoder of commands -/

def frameReturned (data : ByteSlice) (p low high : ℕ) :
    Returned C × ProtobufCommandDecoder :=
  match unmarshalVT (between data low high) with
  | none => (⟨some (between data low high), none, some .codec⟩, ⟨data, p⟩)
  | some c =>
    (⟨some (between data low high), some c, if high = data.len then some .eof else none⟩,
      ⟨data, high⟩)

section Command

variable {data : ByteSlice} {p : ℕ} {n : ℤ} {l : ℕ}

theorem command_decode_end (hp : data.len ≤ p) :
    ProtobufCommandDecoder.decode unmarshalVT ⟨data, p⟩ =
      .ok (⟨none, none, some .eof⟩, ⟨data, p⟩) := by
  rw [ProtobufCommandDecoder.decode, if_neg (by simp only; omega)]
  rfl

theorem command_decode_nonpos (hp : p < data.len) (h : header data p = (l, n)) (hn : n ≤ 0) :
    ProtobufCommandDecoder.decode unmarshalVT ⟨data, p⟩ =
      .ok (⟨none, none, some .eof⟩, ⟨data, p⟩) := by
  have hslice : data.slice p data.len = .ok (data.bytes.drop p) := data.slice_to_len hp.le
  rw [header] at h
  rw [ProtobufCommandDecoder.decode, if_pos (by simp only; omega)]
  simp only [hslice, Res.ok_bind, h, if_pos hn]
  rfl

theorem command_decode_pos {n : ℕ} (hp : p < data.len) (h : header data p = (l, (n : ℤ)))
    (hn : 0 < n) (high : ℤ) (hhigh : high =
      if (p : ℤ) + n + l < 2 ^ 63 then (p : ℤ) + n + l else (p : ℤ) + n + l - 2 ^ 64) :
    ProtobufCommandDecoder.decode unmarshalVT ⟨data, p⟩ = if high > 0 ∧ high ≤ data.len then
        data.slice (p + n : ℕ) high >>= fun cmdBytes => match unmarshalVT cmdBytes with
          | none => pure (⟨some cmdBytes, none, some .codec⟩, ⟨data, p⟩)
          | some c => pure (⟨some cmdBytes, some c, if high = data.len then some .eof else none⟩,
              ⟨data, high⟩) else .ok (⟨none, none, some .shortBuffer⟩, ⟨data, p⟩) := by
  obtain ⟨hl, hbounds, hlen⟩ := header_bounds hp h
  have hslice : data.slice p data.len = .ok (data.bytes.drop p) := data.slice_to_len hp.le
  have hle : (p : ℤ) + n ≤ data.len := by omega
  have hlow : wrap64 ((p : ℤ) + n) = (p + n : ℕ) := by
    rw [wrap64_of_lt (by omega) (by unfold maxAlloc at hlen; omega)]
    push_cast
    rfl
  have hend : wrap64 ((p : ℤ) + n + wrap64 l) = high := by
    rw [wrap64_end (by omega) (by omega) hl, hhigh]
  rw [header] at h
  rw [ProtobufCommandDecoder.decode, if_pos (by simp only; omega)]
  simp only [hslice, Res.ok_bind, h, hlow, hend]
  rw [if_neg (by omega)]
  rfl

theorem command_decode_frame {n : ℕ} (hp : p < data.len) (h : header data p = (l, (n : ℤ)))
    (hn : 0 < n) (hend : p + n + l ≤ data.len) :
    ProtobufCommandDecoder.decode unmarshalVT ⟨data, p⟩ =
      .ok (frameReturned unmarshalVT data p (p + n) (p + n + l)) := by
  have hlen := (header_bounds hp h).2.2
  have hcap : data.len ≤ data.cap := data.len_le
  unfold maxAlloc at hlen
  have hhigh : ((p + n + l : ℕ) : ℤ) =
      if (p : ℤ) + n + l < 2 ^ 63 then (p : ℤ) + n + l else (p : ℤ) + n + l - 2 ^ 64 := by
    rw [if_pos (by omega)]
    push_cast
    rfl
  rw [command_decode_pos unmarshalVT hp h hn _ hhigh, if_pos (by omega),
    data.slice_of_le (by omega) (by omega), Res.ok_bind, frameReturned, between]
  simp only [Nat.cast_inj]
  split <;> rfl

theorem command_decode_short {n : ℕ} (hp : p < data.len) (h : header data p = (l, (n : ℤ)))
    (hn : 0 < n) (hend : data.len < p + n + l) (hle : p + n + l ≤ 2 ^ 64) :
    ProtobufCommandDecoder.decode unmarshalVT ⟨data, p⟩ =
      .ok (⟨none, none, some .shortBuffer⟩, ⟨data, p⟩) := by
  rw [command_decode_pos unmarshalVT hp h hn _ rfl, if_neg (by split_ifs <;> omega)]

theorem command_decode_panic {n : ℕ} (hp : p < data.len) (h : header data p = (l, (n : ℤ)))
    (hn : 0 < n) (hend : 2 ^ 64 < p + n + l) :
    ProtobufCommandDecoder.decode unmarshalVT ⟨data, p⟩ = .panic := by
  obtain ⟨hl, hbounds, hlen⟩ := header_bounds hp h
  rw [command_decode_pos unmarshalVT hp h hn ((p : ℤ) + n + l - 2 ^ 64) (by rw [if_neg (by omega)]),
    if_pos (by omega), data.slice_of_lt (by push_cast; omega)]
  rfl

theorem command_decode_cases (data : ByteSlice) (p : ℕ) : (p < data.len ∧ ¬ CommandFits data p ∧
      ProtobufCommandDecoder.decode unmarshalVT ⟨data, p⟩ = .panic) ∨
    (∃ payload e, ProtobufCommandDecoder.decode unmarshalVT ⟨data, p⟩ =
      .ok (⟨payload, none, some e⟩, ⟨data, p⟩)) ∨
    ∃ (n : ℕ) (l : ℕ) (c : C) (r : Returned C), p < data.len ∧ header data p = (l, (n : ℤ)) ∧
      0 < n ∧ p + n + l ≤ data.len ∧ unmarshalVT (between data (p + n) (p + n + l)) = some c ∧
      ProtobufCommandDecoder.decode unmarshalVT ⟨data, p⟩ = .ok (r, ⟨data, (p + n + l : ℕ)⟩) := by
  rcases Nat.lt_or_ge p data.len with hp | hp
  swap
  · exact .inr (.inl ⟨_, _, command_decode_end unmarshalVT hp⟩)
  obtain ⟨⟨l, n⟩, h⟩ : ∃ x, header data p = x := ⟨_, rfl⟩
  rcases lt_or_ge 0 n with hpos | hneg
  swap
  · exact .inr (.inl ⟨_, _, command_decode_nonpos unmarshalVT hp h hneg⟩)
  lift n to ℕ using hpos.le
  have hn : 0 < n := by omega
  rcases Nat.lt_or_ge (2 ^ 64) (p + n + l) with hwrap | hwrap
  · refine .inl ⟨hp, fun hfits => ?_, command_decode_panic unmarshalVT hp h hn hwrap⟩
    rw [CommandFits, h] at hfits
    have := hfits hpos
    simp only at this
    omega
  rcases Nat.lt_or_ge data.len (p + n + l) with hend | hend
  · exact .inr (.inl ⟨_, _, command_decode_short unmarshalVT hp h hn hend hwrap⟩)
  have hdecode := command_decode_frame unmarshalVT hp h hn hend
  rw [frameReturned] at hdecode
  cases hc : unmarshalVT (between data (p + n) (p + n + l)) with
  | none =>
    rw [hc] at hdecode
    exact .inr (.inl ⟨_, _, hdecode⟩)
  | some c =>
    rw [hc] at hdecode
    exact .inr (.inr ⟨n, l, c, _, hp, h, hn, hend, hc, hdecode⟩)

theorem FrameAt.command_called (h : FrameAt unmarshalVT data data.len p) :
    Called (ProtobufCommandDecoder.Call unmarshalVT) (newProtobufCommandDecoder data)
      ⟨data, (p : ℕ)⟩ := by
  induction h with
  | first => exact .never
  | next _ hp hheader hn hend hcodec ih =>
    have hdecode := command_decode_frame unmarshalVT hp hheader hn hend
    obtain ⟨c, hc⟩ := Option.isSome_iff_exists.mp hcodec
    rw [frameReturned, hc] at hdecode
    exact .again ih hdecode

theorem command_safe_iff (data : ByteSlice) :
    Safe (ProtobufCommandDecoder.Call unmarshalVT) (fun d => d.offset)
        (newProtobufCommandDecoder data) ↔
      ∀ p, FrameAt unmarshalVT data data.len p → p < data.len → CommandFits data p := by
  refine safe_iff (fun p : ℕ => (⟨data, p⟩ : ProtobufCommandDecoder)) .first
    (fun p hframe => hframe.command_called unmarshalVT) ?_ ?_
  · intro p hframe hfits result hcall
    obtain ⟨hp, hno, -⟩ | ⟨_, _, hdecode⟩ | ⟨n, l, c, r, hp, hheader, hn, hend, hc, hdecode⟩ :=
      command_decode_cases unmarshalVT data p
    · exact absurd (hfits hp) hno
    · exact ⟨_, p, hcall.symm.trans hdecode, hframe, by simp⟩
    · refine ⟨r, p + n + l, hcall.symm.trans hdecode,
        .next hframe hp hheader hn hend (by rw [hc]; rfl), fun _ => ?_⟩
      simp only
      omega
  · intro p hframe hreturns hp hpos
    obtain ⟨⟨l, n⟩, h⟩ : ∃ x, header data p = x := ⟨_, rfl⟩
    rw [h] at hpos ⊢
    lift n to ℕ using le_of_lt hpos
    by_contra hwrap
    obtain ⟨r, d', hresult, -⟩ := hreturns _ (command_decode_panic unmarshalVT hp h
      (by simpa using hpos) (by simp only at hwrap; omega))
    cases hresult

end Command

/-! ## The decoder of replies -/

section Reply

variable {data : ByteSlice} {p : ℕ} {n : ℤ} {l : ℕ}

theorem reply_decode_end (hp : data.len ≤ p) : ProtobufReplyDecoder.decode unmarshalVT ⟨data, p⟩ =
      .ok (⟨none, none, some .eof⟩, ⟨data, p⟩) := by
  rw [ProtobufReplyDecoder.decode, if_neg (by simp only; omega)]
  rfl

theorem reply_decode_header (hp : p < data.len) (h : header data p = (l, n)) {low high : ℤ}
    (hlow : wrap64 (p + n) = low) (hhigh : wrap64 (p + n + wrap64 l) = high) :
    ProtobufReplyDecoder.decode unmarshalVT ⟨data, p⟩ = data.slice low high >>= fun replyBytes =>
        match unmarshalVT replyBytes with
        | none => pure (⟨some replyBytes, none, some .codec⟩, ⟨data, p⟩)
        | some c => pure (⟨some replyBytes, some c, none⟩, ⟨data, high⟩) := by
  have hslice : data.slice p data.len = .ok (data.bytes.drop p) := data.slice_to_len hp.le
  rw [header] at h
  rw [ProtobufReplyDecoder.decode, if_pos (by simp only; omega)]
  simp only [hslice, Res.ok_bind, h, hlow, hhigh]

theorem reply_decode_frame {n : ℕ} (hp : p < data.len) (h : header data p = (l, (n : ℤ)))
    (hend : p + n + l ≤ data.cap) : ProtobufReplyDecoder.decode unmarshalVT ⟨data, p⟩ =
      match unmarshalVT (between data (p + n) (p + n + l)) with
      | none => .ok (⟨some (between data (p + n) (p + n + l)), none, some .codec⟩, ⟨data, p⟩)
      | some c =>
        .ok (⟨some (between data (p + n) (p + n + l)), some c, none⟩, ⟨data, (p + n + l : ℕ)⟩) := by
  obtain ⟨hl, hbounds, hlen⟩ := header_bounds hp h
  have hcap : data.cap ≤ maxAlloc := data.array_le
  have hlow : wrap64 ((p : ℤ) + n) = (p + n : ℕ) := by
    unfold maxAlloc at hcap
    rw [wrap64_of_lt (by omega) (by omega)]
    push_cast
    rfl
  have hhigh : wrap64 ((p : ℤ) + n + wrap64 l) = (p + n + l : ℕ) := by
    rw [wrap64_end (by omega) (by omega) hl, if_pos (by unfold maxAlloc at hcap; omega)]
    push_cast
    rfl
  rw [reply_decode_header unmarshalVT hp h hlow hhigh, data.slice_of_le (by omega) (by omega),
    Res.ok_bind, between]
  split <;> rfl

theorem reply_decode_panic {n : ℕ} (hp : p < data.len) (h : header data p = (l, (n : ℤ)))
    (hend : data.cap < p + n + l) : ProtobufReplyDecoder.decode unmarshalVT ⟨data, p⟩ = .panic := by
  obtain ⟨hl, hbounds, hlen⟩ := header_bounds hp h
  have hcap : data.len ≤ data.cap := data.len_le
  have hhigh := wrap64_end (q := (p : ℤ) + n) (by omega) (by omega) hl
  have hlow : wrap64 ((p : ℤ) + n) = p + n :=
    wrap64_of_lt (by omega) (by unfold maxAlloc at hlen; omega)
  rw [reply_decode_header unmarshalVT hp h hlow hhigh, ByteSlice.slice, if_neg ?_]
  · rfl
  · split_ifs <;> omega

theorem reply_decode_nonpos (hp : p < data.len) (h : header data p = (l, n)) (hn : n ≤ 0) :
    ProtobufReplyDecoder.decode unmarshalVT ⟨data, p⟩ = if p + n < 0 then .panic else
        match unmarshalVT [] with
        | none => .ok (⟨some [], none, some .codec⟩, ⟨data, p⟩)
        | some c => .ok (⟨some [], some c, none⟩, ⟨data, p + n⟩) := by
  obtain ⟨hl, hbounds, hlen⟩ := header_bounds hp h
  have hcap : data.len ≤ data.cap := data.len_le
  have hl0 : l = 0 := by omega
  subst hl0
  have hlow : wrap64 (p + n) = p + n :=
    wrap64_of_lt (by omega) (by unfold maxAlloc at hlen; omega)
  have hhigh : wrap64 (p + n + wrap64 (0 : ℕ)) = p + n := by
    rw [wrap64_of_lt (n := ((0 : ℕ) : ℤ)) (by omega) (by omega)]
    simpa using hlow
  rw [reply_decode_header unmarshalVT hp h hlow hhigh, ByteSlice.slice]
  split_ifs with hin hneg hneg
  · omega
  · have hnil : (data.array.take (p + n).toNat).drop (p + n).toNat = [] := by simp
    rw [hnil, Res.ok_bind]
    split <;> rfl
  · rfl
  · omega

theorem reply_decode_cases (hfits : p < data.len → ReplyFits unmarshalVT data p) :
    (∃ payload e, ProtobufReplyDecoder.decode unmarshalVT ⟨data, p⟩ =
      .ok (⟨payload, none, some e⟩, ⟨data, p⟩)) ∨
    ∃ (n : ℕ) (l : ℕ) (c : C) (r : Returned C), p < data.len ∧ header data p = (l, (n : ℤ)) ∧
      0 < n ∧ p + n + l ≤ data.cap ∧ unmarshalVT (between data (p + n) (p + n + l)) = some c ∧
      ProtobufReplyDecoder.decode unmarshalVT ⟨data, p⟩ = .ok (r, ⟨data, (p + n + l : ℕ)⟩) := by
  rcases Nat.lt_or_ge p data.len with hp | hp
  swap
  · exact .inl ⟨_, _, reply_decode_end unmarshalVT hp⟩
  obtain ⟨⟨l, n⟩, h⟩ : ∃ x, header data p = x := ⟨_, rfl⟩
  have hfit := hfits hp
  rw [ReplyFits, h] at hfit
  obtain ⟨hpos, hend⟩ | ⟨hneg, hback, hc⟩ := hfit
  · lift n to ℕ using le_of_lt hpos
    simp only at hpos hend
    have hdecode := reply_decode_frame unmarshalVT hp h (by omega)
    cases hc : unmarshalVT (between data (p + n) (p + n + l)) with
    | none =>
      rw [hc] at hdecode
      exact .inl ⟨_, _, hdecode⟩
    | some c =>
      rw [hc] at hdecode
      exact .inr ⟨n, l, c, _, hp, h, by omega, by omega, hc, hdecode⟩
  · have hdecode := reply_decode_nonpos unmarshalVT hp h hneg
    rw [if_neg (by simp only at hback; omega), hc] at hdecode
    exact .inl ⟨_, _, hdecode⟩

theorem FrameAt.reply_called (h : FrameAt unmarshalVT data data.cap p) :
    Called (ProtobufReplyDecoder.Call unmarshalVT) (newProtobufReplyDecoder data)
      ⟨data, (p : ℕ)⟩ := by
  induction h with
  | first => exact .never
  | next _ hp hheader hn hend hcodec ih =>
    have hdecode := reply_decode_frame unmarshalVT hp hheader hend
    obtain ⟨c, hc⟩ := Option.isSome_iff_exists.mp hcodec
    rw [hc] at hdecode
    exact .again ih hdecode

theorem reply_safe_iff (data : ByteSlice) :
    Safe (ProtobufReplyDecoder.Call unmarshalVT) (fun d => d.offset)
        (newProtobufReplyDecoder data) ↔
      ∀ p, FrameAt unmarshalVT data data.cap p → p < data.len → ReplyFits unmarshalVT data p := by
  refine safe_iff (fun p : ℕ => (⟨data, p⟩ : ProtobufReplyDecoder)) .first
    (fun p hframe => hframe.reply_called unmarshalVT) ?_ ?_
  · intro p hframe hfits result hcall
    obtain ⟨_, _, hdecode⟩ | ⟨n, l, c, r, hp, hheader, hn, hend, hc, hdecode⟩ :=
      reply_decode_cases unmarshalVT hfits
    · exact ⟨_, p, hcall.symm.trans hdecode, hframe, by simp⟩
    · refine ⟨r, p + n + l, hcall.symm.trans hdecode,
        .next hframe hp hheader hn hend (by rw [hc]; rfl), fun _ => ?_⟩
      simp only
      omega
  · intro p hframe hreturns hp
    have hcall := hreturns _ rfl
    obtain ⟨⟨l, n⟩, h⟩ : ∃ x, header data p = x := ⟨_, rfl⟩
    rw [ReplyFits, h]
    rcases lt_or_ge 0 n with hpos | hneg
    · left
      refine ⟨hpos, ?_⟩
      lift n to ℕ using hpos.le
      by_contra hend
      rw [reply_decode_panic unmarshalVT hp h (by simp only at hend; omega)] at hcall
      obtain ⟨r, d', hresult, -⟩ := hcall
      cases hresult
    · right
      rw [reply_decode_nonpos unmarshalVT hp h hneg] at hcall
      refine ⟨hneg, ?_, ?_⟩
      · by_contra hback
        rw [if_pos (by simpa using hback)] at hcall
        obtain ⟨r, d', hresult, -⟩ := hcall
        cases hresult
      · -- a reply that was read there is one that no byte was read for
        by_contra hc
        obtain ⟨c, hc⟩ := Option.ne_none_iff_exists'.mp hc
        rw [hc] at hcall
        split_ifs at hcall
        · obtain ⟨r, d', hresult, -⟩ := hcall
          cases hresult
        · obtain ⟨r, d', hresult, hadvance⟩ := hcall
          cases hresult
          have := hadvance rfl
          simp only at this
          omega

end Reply

/-! ## The decoder of a stream -/

section Stream

variable (limit : AllocLimit) {r r' : List UInt8} {l : ℕ}

theorem stream_decode_failed {e : ReadError} (h : readUvarint r = (.error e, r')) (pools : Pools)
    (pick : Option ℕ) : ProtobufStreamCommandDecoder.decode unmarshalVT limit pools pick ⟨r⟩ =
      .ok ((⟨none, none, some (ofReadError e)⟩, 0), ⟨r'⟩, pools) := by
  rw [ProtobufStreamCommandDecoder.decode]
  simp only [h, Res.pure_eq]

section

variable (h : readUvarint r = (.ok l, r'))
include h

theorem stream_decode_ok (hl : l ≤ limit.bytes) (pools : Pools) (pick : Option ℕ) :
    ∃ pools', ProtobufStreamCommandDecoder.decode unmarshalVT limit pools pick ⟨r⟩ =
      if min l r'.length < l then
        .ok ((⟨none, none, some (if min l r'.length = 0 then .eof else .unexpectedEOF)⟩, 0), ⟨[]⟩,
          pools') else
        match unmarshalVT (r'.take l) with
        | none => .ok ((⟨some (r'.take l), none, some .codec⟩, 0), ⟨r'.drop l⟩, pools')
        | some c => .ok ((⟨some (r'.take l), some c, none⟩, l + 8), ⟨r'.drop l⟩, pools') := by
  have hmax : l ≤ 2 ^ 48 := hl.trans limit.le_maxAlloc
  have hwrap : wrap64 l = l := wrap64_of_lt (by omega) (by omega)
  have hwrap8 : wrap64 ((l : ℤ) + 8) = l + 8 := wrap64_of_lt (by omega) (by omega)
  obtain ⟨capacity, pools₁, hget, hle⟩ := getByteBuffer_eq_ok limit pools pick hl
  obtain ⟨pools₂, hput⟩ := putByteBuffer_eq_ok pools₁ capacity
  have hcut : ¬ ((l : ℤ) < 0 ∨ (capacity : ℤ) < l) := by omega
  refine ⟨pools₂, ?_⟩
  rw [ProtobufStreamCommandDecoder.decode]
  simp only [h, hwrap, hwrap8, hget, hput, Res.ok_bind, if_neg hcut, Int.toNat_natCast,
    List.length_take, ne_eq, not_true_eq_false, if_false, Res.pure_eq]

theorem stream_decode_short (hl : l ≤ limit.bytes)
    (hshort : r'.length < l) (pools : Pools) (pick : Option ℕ) :
    ∃ e pools', ProtobufStreamCommandDecoder.decode unmarshalVT limit pools pick ⟨r⟩ =
      .ok ((⟨none, none, some e⟩, 0), ⟨r'.drop l⟩, pools') := by
  obtain ⟨pools', hdecode⟩ := stream_decode_ok unmarshalVT limit h hl pools pick
  rw [if_pos (by omega)] at hdecode
  exact ⟨_, pools', by rw [hdecode, List.drop_eq_nil_of_le hshort.le]⟩

theorem stream_decode_full (hl : l ≤ limit.bytes)
    (hlong : l ≤ r'.length) (pools : Pools) (pick : Option ℕ) :
    ∃ pools', ProtobufStreamCommandDecoder.decode unmarshalVT limit pools pick ⟨r⟩ =
      match unmarshalVT (r'.take l) with
      | none => .ok ((⟨some (r'.take l), none, some .codec⟩, 0), ⟨r'.drop l⟩, pools')
      | some c => .ok ((⟨some (r'.take l), some c, none⟩, l + 8), ⟨r'.drop l⟩, pools') := by
  obtain ⟨pools', hdecode⟩ := stream_decode_ok unmarshalVT limit h hl pools pick
  rw [if_neg (by omega)] at hdecode
  exact ⟨pools', hdecode⟩

theorem stream_decode_next (hl : l ≤ limit.bytes) (pools : Pools) (pick : Option ℕ) :
    ∃ ret size pools', ProtobufStreamCommandDecoder.decode unmarshalVT limit pools pick ⟨r⟩ =
      .ok ((ret, size), ⟨r'.drop l⟩, pools') := by
  rcases Nat.lt_or_ge r'.length l with hshort | hlong
  · obtain ⟨e, pools', hdecode⟩ := stream_decode_short unmarshalVT limit h hl hshort pools pick
    exact ⟨_, _, pools', hdecode⟩
  · obtain ⟨pools', hdecode⟩ := stream_decode_full unmarshalVT limit h hl hlong pools pick
    cases hc : unmarshalVT (r'.take l) with
    | none | some c =>
      rw [hc] at hdecode
      exact ⟨_, _, pools', hdecode⟩

theorem stream_decode_panic (hl : limit.bytes < l) (pools : Pools) (pick : Option ℕ) :
    ProtobufStreamCommandDecoder.decode unmarshalVT limit pools pick ⟨r⟩ = .panic := by
  have hlt : l < 2 ^ 64 := by
    rw [Uvarint.readUvarint_eq_ok] at h
    exact h.2.1 ▸ Uvarint.uvarint_lt r
  rw [ProtobufStreamCommandDecoder.decode]
  simp only [h]
  rcases lt_or_ge (l : ℤ) (2 ^ 63) with hsmall | hbig
  · rw [wrap64_of_lt (by omega) hsmall, getByteBuffer_eq_panic limit pools pick (by omega)]
    rfl
  · have hneg : wrap64 l < 0 := by
      rw [wrap64_of_ge hbig (by omega)]
      omega
    cases hget : getByteBuffer limit pools pick (wrap64 l) with
    | ok b => simp only [Res.ok_bind, if_pos (Or.inl hneg)]
    | err msg => exact absurd hget (getByteBuffer_ne_err limit pools pick _ msg)
    | panic => rfl

end

variable {stream : List UInt8}

theorem stream_call_cases (hfits : StreamFits limit r) (hat : StreamAt limit stream r)
    {result : Res (Returned C × ProtobufStreamCommandDecoder)}
    (hcall : ProtobufStreamCommandDecoder.Call unmarshalVT limit ⟨r⟩ result) :
    ∃ ret r', result = .ok (ret, ⟨r'⟩) ∧ StreamAt limit stream r' ∧
      (ret.command.isSome → r'.length < r.length) := by
  obtain ⟨pools, pick, rfl⟩ := hcall
  cases hread : readUvarint r with
  | mk answer r' =>
    cases answer with
    | error e =>
      rw [stream_decode_failed unmarshalVT limit hread]
      exact ⟨_, _, rfl, .failed hat hread, by simp⟩
    | ok l =>
      have hl := hfits l r' hread
      obtain ⟨ret, size, pools', hdecode⟩ :=
        stream_decode_next unmarshalVT limit hread hl pools pick
      rw [hdecode]
      refine ⟨ret, r'.drop l, rfl, .next hat hread hl, fun _ => ?_⟩
      -- the length itself has at least one byte
      rw [Uvarint.readUvarint_eq_ok] at hread
      obtain ⟨hpos, -, rfl⟩ := hread
      have hsize := Uvarint.uvarint_size r
      simp only [List.length_drop]
      omega

theorem StreamAt.called (h : StreamAt limit stream r) :
    Called (ProtobufStreamCommandDecoder.Call unmarshalVT limit)
      (newProtobufStreamCommandDecoder stream) ⟨r⟩ := by
  induction h with
  | first => exact .never
  | failed _ hread ih =>
    have hdecode := stream_decode_failed unmarshalVT limit hread .empty none
    exact .again ih ⟨.empty, none, by rw [hdecode]; rfl⟩
  | next _ hread hl ih =>
    obtain ⟨ret, size, pools', hdecode⟩ := stream_decode_next unmarshalVT limit hread hl .empty none
    exact .again ih ⟨.empty, none, by rw [hdecode]; rfl⟩

theorem stream_safe_iff (stream : List UInt8) :
    Safe (ProtobufStreamCommandDecoder.Call unmarshalVT limit) (fun d => -(d.reader.length : ℤ))
        (newProtobufStreamCommandDecoder stream) ↔
      ∀ r, StreamAt limit stream r → StreamFits limit r := by
  refine safe_iff ProtobufStreamCommandDecoder.mk .first
    (fun r hat => hat.called unmarshalVT limit) ?_ ?_
  · intro r hat hfits result hcall
    obtain ⟨ret, r', hresult, hat', hadvance⟩ := stream_call_cases unmarshalVT limit hfits hat hcall
    refine ⟨ret, r', hresult, hat', fun hc => ?_⟩
    have := hadvance hc
    simp only
    omega
  · intro r hat hreturns l r' hread
    by_contra hl
    have hdecode := stream_decode_panic unmarshalVT limit hread (by omega) .empty none
    obtain ⟨ret, d', hresult, -⟩ := hreturns .panic ⟨.empty, none, by rw [hdecode]; rfl⟩
    cases hresult

end Stream

end

/-- When repeated calls of each decoder return, and read a byte at least for every command: where no
frame ends beyond what can be counted or allocated. -/
theorem decoders_safe_iff {Command Reply : Type} (unmarshalCommand : List UInt8 → Option Command)
    (unmarshalReply : List UInt8 → Option Reply) (limit : AllocLimit) (data : ByteSlice) :
    (Safe (ProtobufCommandDecoder.Call unmarshalCommand) (fun d => d.offset)
        (newProtobufCommandDecoder data) ↔
      ∀ p, FrameAt unmarshalCommand data data.len p → p < data.len → CommandFits data p) ∧
    (Safe (ProtobufReplyDecoder.Call unmarshalReply) (fun d => d.offset)
        (newProtobufReplyDecoder data) ↔
      ∀ p, FrameAt unmarshalReply data data.cap p → p < data.len →
        ReplyFits unmarshalReply data p) ∧
    (Safe (ProtobufStreamCommandDecoder.Call unmarshalCommand limit)
        (fun d => -(d.reader.length : ℤ)) (newProtobufStreamCommandDecoder data.bytes) ↔
      ∀ r, StreamAt limit data.bytes r → StreamFits limit r) :=
  ⟨command_safe_iff unmarshalCommand data, reply_safe_iff unmarshalReply data,
    stream_safe_iff unmarshalCommand limit data.bytes⟩

def lengthMinusOne : ByteSlice :=
  .ofBytes [0xff, 0xff, 0xff, 0xff, 0xff, 0xff, 0xff, 0xff, 0xff, 0x01] (by decide)

theorem lengthMinusOne_panics {C : Type} (unmarshalVT : List UInt8 → Option C)
    (limit : AllocLimit) (pools : Pools) (pick : Option ℕ) :
    (newProtobufCommandDecoder lengthMinusOne).decode unmarshalVT = .panic ∧
    (newProtobufReplyDecoder lengthMinusOne).decode unmarshalVT = .panic ∧
    (newProtobufStreamCommandDecoder lengthMinusOne.bytes).decode unmarshalVT limit pools pick =
      .panic := by
  have hheader : header lengthMinusOne 0 = (2 ^ 64 - 1, ((10 : ℕ) : ℤ)) := by decide
  have hread : readUvarint lengthMinusOne.bytes = (.ok (2 ^ 64 - 1), []) := by rfl
  refine ⟨command_decode_panic unmarshalVT (by decide) hheader (by decide) (by decide),
    reply_decode_panic unmarshalVT (by decide) hheader (by decide),
    stream_decode_panic unmarshalVT limit hread (limit.le_maxAlloc.trans_lt (by decide)) pools pick⟩

/-- No decoder is safe for it, whatever the codec. And a decoder of replies returns an empty reply
for an unfinished length, again and again. -/
theorem lengthMinusOne_not_safe :
    ¬ Safe (ProtobufCommandDecoder.Call fun _ => some ()) (fun d => d.offset)
      (newProtobufCommandDecoder lengthMinusOne) ∧
    ¬ Safe (ProtobufReplyDecoder.Call fun _ => some ()) (fun d => d.offset)
      (newProtobufReplyDecoder lengthMinusOne) ∧
    ¬ Safe (ProtobufStreamCommandDecoder.Call (fun _ => some ()) .max)
      (fun d => -(d.reader.length : ℤ)) (newProtobufStreamCommandDecoder lengthMinusOne.bytes) ∧
    (newProtobufReplyDecoder (.ofBytes [0x80] (by decide))).decode (fun _ => some ()) =
      .ok (⟨some [], some (), none⟩, newProtobufReplyDecoder (.ofBytes [0x80] (by decide))) := by
  obtain ⟨hcommand, hreply, hstream⟩ := lengthMinusOne_panics (fun _ => some ()) .max .empty none
  refine ⟨fun h => ?_, fun h => ?_, fun h => ?_, rfl⟩
  · obtain ⟨_, _, hresult, -⟩ := h _ .never _ hcommand
    cases hresult
  · obtain ⟨_, _, hresult, -⟩ := h _ .never _ hreply
    cases hresult
  · obtain ⟨_, _, hresult, -⟩ := h _ .never .panic ⟨.empty, none, by rw [hstream]; rfl⟩
    cases hresult

end Kairos.Protocol
