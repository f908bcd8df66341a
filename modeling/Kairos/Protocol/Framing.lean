import Kairos.Protocol.Decode
import Mathlib.Algebra.Order.BigOperators.Group.List

/-!
# Frames are split where they were joined

`ProtobufDataEncoder` and `JSONDataEncoder` of `pkg/protocol/deliverprotocol` join messages, the one
with the length of each in front of it, the other with newlines between them. Each has two decoders,
one for bytes in memory and one for a stream.
-/

namespace Kairos.Protocol

open List Option
open Uvarint (putUvarint uvarint readUvarint)

def newline : UInt8 := 10

structure JSONDataEncoder where
  count : ℕ
  buffer : List UInt8

def JSONDataEncoder.encode (e : JSONDataEncoder) (data : List UInt8) : JSONDataEncoder :=
  let buffer := if e.count > 0 then e.buffer ++ [newline] else e.buffer
  ⟨e.count + 1, buffer ++ data⟩

def jsonFrames (msgs : List (List UInt8)) : List UInt8 :=
  (msgs.foldl JSONDataEncoder.encode ⟨0, []⟩).buffer

def ProtobufDataEncoder.encode (buffer data : List UInt8) : Res (List UInt8) := do
  let bs ← Res.ofOption (putUvarint 8 data.length)
  pure (buffer ++ bs ++ data)

def protobufFrames (msgs : List (List UInt8)) : Res (List UInt8) :=
  msgs.foldlM ProtobufDataEncoder.encode []

structure JSONCommandDecoder where
  data : ByteSlice
  messageCount : ℕ
  prevNewLine : ℕ
  numMessagesRead : ℕ

def newJSONCommandDecoder (data : ByteSlice) : JSONCommandDecoder :=
  { data := data
    messageCount :=
      if data.len = 0 ∨ data.bytes.getLast? = some newline then data.bytes.count newline
      else data.bytes.count newline + 1
    prevNewLine := 0
    numMessagesRead := 0 }

structure JSONStreamCommandDecoder where
  reader : List UInt8

section

-- `json.Parse` of a command
variable {C : Type} (parse : List UInt8 → Option C)

def JSONCommandDecoder.nextNewLine (d : JSONCommandDecoder) : Res (Option ℕ) :=
  if d.numMessagesRead = d.messageCount - 1 then do
    let rest ← d.data.slice d.prevNewLine d.data.len
    pure (some rest.length)
  else if d.data.len > d.prevNewLine then do
    let rest ← d.data.slice d.prevNewLine d.data.len
    pure (rest.idxOf? newline)
  else pure none

def JSONCommandDecoder.decode (d : JSONCommandDecoder) : Res (Returned C × JSONCommandDecoder) :=
  if d.messageCount = 0 then pure (⟨none, none, some .unexpectedEOF⟩, d)
  else if d.messageCount = 1 then
    match parse d.data.bytes with
    | none => pure (⟨some d.data.bytes, none, some .codec⟩, d)
    | some c => pure (⟨some d.data.bytes, some c, some .eof⟩, d)
  else do
    match ← d.nextNewLine with
    | none => pure (⟨none, none, some .shortBuffer⟩, d)
    | some nextNewLine =>
      if d.data.len ≥ d.prevNewLine + nextNewLine then do
        let bytes ← d.data.slice d.prevNewLine (d.prevNewLine + nextNewLine)
        match parse bytes with
        | none => pure (⟨some bytes, none, some .codec⟩, d)
        | some c =>
          let d := { d with
            numMessagesRead := d.numMessagesRead + 1
            prevNewLine := d.prevNewLine + nextNewLine + 1 }
          pure (⟨some bytes, some c,
            if d.numMessagesRead = d.messageCount then some .eof else none⟩, d)
      else pure (⟨none, none, some .shortBuffer⟩, d)

/-- `ReadBytes('\n')`: the bytes up to the newline, whether the input ended before one, and the
rest. -/
def readBytes : List UInt8 → List UInt8 × Bool × List UInt8
  | [] => ([], true, [])
  | b :: reader =>
    if b = newline then ([b], false, reader)
    else
      let (bytes, eof, reader) := readBytes reader
      (b :: bytes, eof, reader)

def JSONStreamCommandDecoder.decode (d : JSONStreamCommandDecoder) :
    (Returned C × ℕ) × JSONStreamCommandDecoder :=
  let (cmdBytes, eof, reader) := readBytes d.reader
  if eof ∧ cmdBytes.length = 0 then ((⟨none, none, some .eof⟩, 0), ⟨reader⟩)
  else
    match parse cmdBytes with
    | none => ((⟨some cmdBytes, none, some .codec⟩, 0), ⟨reader⟩)
    | some c => ((⟨some cmdBytes, some c, none⟩, cmdBytes.length), ⟨reader⟩)

end

/-- The payloads that the codec gets in at most so many calls up to the first error, and that error.
Calls are numbered from the end. -/
def drain {C D : Type} (decode : ℕ → D → Res (Returned C × D)) :
    ℕ → D → Res (List (List UInt8) × Option DecodeError)
  | 0, _ => pure ([], none)
  | calls + 1, d => do
    let (r, d) ← decode calls d
    match r.err with
    | some e => pure (r.payload.toList, some e)
    | none => do
      let rest ← drain decode calls d
      pure (r.payload.toList ++ rest.1, rest.2)

/-- Repeated calls hand these payloads to the codec, and then report the end of the input. -/
def Drains {C D : Type} (decode : ℕ → D → Res (Returned C × D)) (d : D)
    (payloads : List (List UInt8)) : Prop :=
  ∀ calls, payloads.length < calls → drain decode calls d = .ok (payloads, some .eof)

section Drain

variable {C D : Type} {decode : ℕ → D → Res (Returned C × D)} {d d' : D}
  {payload : List UInt8} {payloads : List (List UInt8)} {c : C}

theorem drains_nil (d' : D) (h : ∀ k, decode k d = .ok (⟨none, none, some .eof⟩, d')) :
    Drains decode d [] := by
  intro calls hcalls
  obtain ⟨k, rfl⟩ := Nat.exists_eq_succ_of_ne_zero (Nat.ne_of_gt hcalls)
  rw [drain, h]
  rfl

theorem drains_singleton (h : ∀ k, decode k d = .ok (⟨some payload, some c, some .eof⟩, d')) :
    Drains decode d [payload] := by
  intro calls hcalls
  obtain ⟨k, rfl⟩ := Nat.exists_eq_succ_of_ne_zero (n := calls) (by omega)
  rw [drain, h]
  rfl

theorem Drains.cons (h : ∀ k, decode k d = .ok (⟨some payload, some c, none⟩, d'))
    (hrest : Drains decode d' payloads) : Drains decode d (payload :: payloads) := by
  intro calls hcalls
  rw [length_cons] at hcalls
  obtain ⟨k, rfl⟩ := Nat.exists_eq_succ_of_ne_zero (n := calls) (by omega)
  rw [drain, h, Res.ok_bind]
  simp only [hrest k (by omega), Res.ok_bind]
  rfl

end Drain

/-! ## Lengths -/

def frameOf (m : List UInt8) : List UInt8 := (putUvarint 8 m.length).getD [] ++ m

variable {m : List UInt8}

theorem putUvarint_length (h : m.length ≤ maxAlloc) :
    ∃ bs, putUvarint 8 m.length = some bs ∧ 1 ≤ bs.length ∧ bs.length ≤ 8 :=
  Uvarint.putUvarint_eq_some (by unfold maxAlloc at h; omega)

theorem protobufFrames_eq {msgs : List (List UInt8)} (h : ∀ m ∈ msgs, m.length ≤ maxAlloc) :
    protobufFrames msgs = .ok (msgs.flatMap frameOf) := by
  have hfold : ∀ buffer, msgs.foldlM ProtobufDataEncoder.encode buffer =
      (Res.ok (buffer ++ msgs.flatMap frameOf) : Res (List UInt8)) := by
    induction msgs with
    | nil => simp
    | cons m msgs ih =>
      rw [forall_mem_cons] at h
      intro buffer
      obtain ⟨bs, hput, -⟩ := putUvarint_length h.1
      have hencode : ProtobufDataEncoder.encode buffer m = .ok (buffer ++ frameOf m) := by
        simp [ProtobufDataEncoder.encode, frameOf, hput, Res.ofOption]
      rw [foldlM_cons, hencode, Res.ok_bind, ih h.2, flatMap_cons, append_assoc]
  simpa [protobufFrames] using hfold []

theorem frameOf_ne_nil (h : m.length ≤ maxAlloc) : frameOf m ≠ [] := by
  obtain ⟨bs, hput, hpos, -⟩ := putUvarint_length h
  rw [frameOf, hput, getD_some]
  intro hnil
  simp [append_eq_nil_iff.mp hnil |>.1] at hpos

theorem length_frameOf_le (h : m.length ≤ maxAlloc) : (frameOf m).length ≤ m.length + 8 := by
  obtain ⟨bs, hput, -, hle⟩ := putUvarint_length h
  rw [frameOf, hput, getD_some, length_append]
  omega

section Protobuf

variable {C : Type} {unmarshalVT : List UInt8 → Option C} {msgs : List (List UInt8)}
  {data : ByteSlice}

variable {before : List UInt8}

theorem command_decode_message {bs m rest : List UInt8} {c : C}
    (hdata : data.bytes = before ++ (bs ++ (m ++ rest)))
    (hput : putUvarint 8 m.length = some bs) (hpos : 1 ≤ bs.length) (hc : unmarshalVT m = some c) :
    ProtobufCommandDecoder.decode unmarshalVT ⟨data, before.length⟩ =
      .ok (⟨some m, some c, if rest = [] then some .eof else none⟩,
        ⟨data, (before ++ (bs ++ m)).length⟩) := by
  have hlen : data.len = before.length + (bs.length + (m.length + rest.length)) := by
    rw [← data.length_bytes, hdata]
    simp
  have hmax : data.len ≤ maxAlloc := data.len_le.trans data.array_le
  have hm : m.length < 2 ^ 64 := by
    unfold maxAlloc at hmax
    omega
  have hheader : header data before.length = (m.length, (bs.length : ℤ)) := by
    rw [header, hdata, drop_left, Uvarint.uvarint_putUvarint hput (by decide) hm]
  have hbetween : between data (before.length + bs.length)
      (before.length + bs.length + m.length) = m := by
    have htake : (before ++ bs ++ m ++ rest).take (before.length + bs.length + m.length) =
        before ++ bs ++ m := take_left' (by simp; omega)
    have hsplit : before ++ (bs ++ (m ++ rest)) = before ++ bs ++ m ++ rest := by simp
    rw [between, ← data.take_bytes (by omega), hdata, hsplit, htake]
    exact drop_left' (by simp)
  have hend : before.length + (bs.length + m.length) = data.len ↔ rest = [] := by
    rw [← length_eq_zero_iff, hlen]
    omega
  rw [command_decode_frame unmarshalVT (by omega) hheader (by omega) (by omega), frameReturned,
    hbetween, hc]
  simp only [length_append, Nat.add_assoc, hend]

theorem drains_command (hdata : data.bytes = before ++ msgs.flatMap frameOf)
    (hmsgs : ∀ m ∈ msgs, m.length ≤ maxAlloc) (hcodec : ∀ m ∈ msgs, (unmarshalVT m).isSome) :
    Drains (fun _ d => ProtobufCommandDecoder.decode unmarshalVT d) ⟨data, before.length⟩ msgs := by
  induction msgs generalizing before with
  | nil =>
    refine drains_nil _ fun _ => command_decode_end unmarshalVT ?_
    rw [← data.length_bytes, hdata]
    simp
  | cons m msgs ih =>
    rw [forall_mem_cons] at hmsgs hcodec
    obtain ⟨c, hc⟩ := isSome_iff_exists.mp hcodec.1
    obtain ⟨bs, hput, hpos, -⟩ := putUvarint_length hmsgs.1
    have hframes : (m :: msgs).flatMap frameOf = bs ++ (m ++ msgs.flatMap frameOf) := by
      rw [flatMap_cons, frameOf, hput, getD_some, append_assoc]
    rw [hframes] at hdata
    have hdecode := command_decode_message hdata hput hpos hc
    cases msgs with
    | nil => exact drains_singleton fun _ => hdecode
    | cons m' msgs =>
      have hmore : (m' :: msgs).flatMap frameOf ≠ [] := by
        rw [flatMap_cons]
        exact append_ne_nil_of_left_ne_nil (frameOf_ne_nil (hmsgs.2 m' (by simp))) _
      rw [if_neg hmore] at hdecode
      exact .cons (fun _ => hdecode) (ih (by rw [hdata]; simp) hmsgs.2 hcodec.2)

theorem drains_stream (limit : AllocLimit) (pools : ℕ → Pools) (pick : ℕ → Option ℕ)
    (hmsgs : ∀ m ∈ msgs, m.length ≤ limit.bytes) (hcodec : ∀ m ∈ msgs, (unmarshalVT m).isSome) :
    Drains (fun k d =>
        ProtobufStreamCommandDecoder.decode unmarshalVT limit (pools k) (pick k) d >>= fun r =>
          pure (r.1.1, r.2.1)) ⟨msgs.flatMap frameOf⟩ msgs := by
  induction msgs with
  | nil =>
    have hread : readUvarint [] = (.error .eof, []) := rfl
    refine drains_nil ⟨[]⟩ fun k => ?_
    rw [flatMap_nil, stream_decode_failed unmarshalVT limit hread]
    rfl
  | cons m msgs ih =>
    rw [forall_mem_cons] at hmsgs hcodec
    obtain ⟨c, hc⟩ := isSome_iff_exists.mp hcodec.1
    have hm := hmsgs.1.trans limit.le_maxAlloc
    obtain ⟨bs, hput, -, -⟩ := putUvarint_length hm
    have hread : readUvarint ((m :: msgs).flatMap frameOf) =
        (.ok m.length, m ++ msgs.flatMap frameOf) := by
      unfold maxAlloc at hm
      rw [flatMap_cons, frameOf, hput, getD_some, append_assoc]
      exact Uvarint.readUvarint_putUvarint hput (by decide) (by omega) _
    refine .cons (c := c) (fun k => ?_) (ih hmsgs.2 hcodec.2)
    obtain ⟨pools', hdecode⟩ :=
      stream_decode_full unmarshalVT limit hread hmsgs.1 (by simp) (pools k) (pick k)
    simp only [take_left, hc] at hdecode
    rw [hdecode, drop_left]
    rfl

end Protobuf

/-! ## Newlines -/

theorem foldl_encode (msgs : List (List UInt8)) (count : ℕ) (buffer : List UInt8) :
    (msgs.foldl JSONDataEncoder.encode ⟨count + 1, buffer⟩).buffer =
      buffer ++ msgs.flatMap (newline :: ·) := by
  induction msgs generalizing count buffer with
  | nil => simp
  | cons m msgs ih =>
    rw [foldl_cons, JSONDataEncoder.encode, if_pos (Nat.succ_pos count), ih]
    simp

theorem jsonFrames_cons (m : List UInt8) (msgs : List (List UInt8)) :
    jsonFrames (m :: msgs) = m ++ msgs.flatMap (newline :: ·) := by
  rw [jsonFrames, foldl_cons, JSONDataEncoder.encode, if_neg (Nat.lt_irrefl 0), foldl_encode]
  rfl

theorem jsonFrames_cons_cons (m m' : List UInt8) (msgs : List (List UInt8)) :
    jsonFrames (m :: m' :: msgs) = m ++ newline :: jsonFrames (m' :: msgs) := by
  rw [jsonFrames_cons, jsonFrames_cons, flatMap_cons]
  rfl

def trimNewline (payload : List UInt8) : List UInt8 :=
  if payload.getLast? = some newline then payload.dropLast else payload

theorem trimNewline_append (m : List UInt8) : trimNewline (m ++ [newline]) = m := by
  simp [trimNewline]

theorem trimNewline_of_notMem (h : newline ∉ m) : trimNewline m = m := by
  rw [trimNewline, if_neg]
  exact fun hlast => h (mem_of_getLast? hlast)

section JSON

variable {C : Type} {parse : List UInt8 → Option C} {msgs : List (List UInt8)} {data : ByteSlice}

theorem count_jsonFrames (m : List UInt8) (msgs : List (List UInt8))
    (h : ∀ x ∈ m :: msgs, newline ∉ x) : (jsonFrames (m :: msgs)).count newline = msgs.length := by
  induction msgs generalizing m with
  | nil =>
    rw [jsonFrames_cons, flatMap_nil, append_nil]
    exact count_eq_zero.mpr (h m (by simp))
  | cons m' msgs ih =>
    rw [forall_mem_cons] at h
    rw [jsonFrames_cons_cons, count_append, count_eq_zero.mpr h.1, count_cons_self,
      ih m' h.2, length_cons]
    omega

theorem getLast?_jsonFrames (m : List UInt8) (msgs : List (List UInt8))
    (hne : ∀ x ∈ m :: msgs, x ≠ []) (h : ∀ x ∈ m :: msgs, newline ∉ x) :
    (jsonFrames (m :: msgs)).getLast? ≠ some newline ∧ jsonFrames (m :: msgs) ≠ [] := by
  induction msgs generalizing m with
  | nil =>
    rw [jsonFrames_cons, flatMap_nil, append_nil]
    exact ⟨fun hlast => h m (by simp) (mem_of_getLast? hlast), hne m (by simp)⟩
  | cons m' msgs ih =>
    rw [forall_mem_cons] at hne h
    obtain ⟨hlast, hnil⟩ := ih m' hne.2 h.2
    rw [jsonFrames_cons_cons, ← singleton_append, ← append_assoc]
    refine ⟨?_, by simp⟩
    rwa [getLast?_append_of_ne_nil _ hnil]

variable {m : List UInt8}

theorem idxOf?_newline (h : newline ∉ m) (rest : List UInt8) :
    (m ++ newline :: rest).idxOf? newline = some m.length := by
  induction m with
  | nil => simp [idxOf?_cons]
  | cons b m ih =>
    rw [mem_cons, not_or] at h
    rw [cons_append, idxOf?_cons, if_neg (by simpa using Ne.symm h.1), ih h.2]
    rfl

variable {before rest : List UInt8} {c : C} {messageCount numMessagesRead : ℕ}

theorem jsonCommand_decode_message (hdata : data.bytes = before ++ (m ++ rest))
    (hcount : 2 ≤ messageCount)
    (hnext : JSONCommandDecoder.nextNewLine ⟨data, messageCount, before.length, numMessagesRead⟩ =
      .ok (some m.length)) (hc : parse m = some c) :
    JSONCommandDecoder.decode parse ⟨data, messageCount, before.length, numMessagesRead⟩ =
      .ok (⟨some m, some c, if numMessagesRead + 1 = messageCount then some .eof else none⟩,
        ⟨data, messageCount, before.length + m.length + 1, numMessagesRead + 1⟩) := by
  have hlen : data.len = before.length + (m.length + rest.length) := by
    rw [← data.length_bytes, hdata]
    simp
  have hcap : data.len ≤ data.cap := data.len_le
  have hslice : data.slice before.length (before.length + m.length) = .ok m := by
    have htake : (before ++ m ++ rest).take (before.length + m.length) = before ++ m :=
      take_left' (by simp)
    have h : data.slice before.length (before.length + m.length : ℕ) = _ :=
      data.slice_of_le (by omega) (by omega)
    rw [← data.take_bytes (by omega), hdata, ← append_assoc, htake, drop_left] at h
    simpa using h
  rw [JSONCommandDecoder.decode, if_neg (by simp only; omega), if_neg (by simp only; omega), hnext,
    Res.ok_bind]
  simp only [hslice, Res.ok_bind, hc]
  rw [if_pos (by omega)]
  rfl

theorem drains_jsonCommand
    (hdata : data.bytes = before ++ jsonFrames (m :: msgs)) (hcount : 2 ≤ messageCount)
    (hread : numMessagesRead + (msgs.length + 1) = messageCount)
    (hnl : ∀ x ∈ m :: msgs, newline ∉ x) (hcodec : ∀ x ∈ m :: msgs, (parse x).isSome) :
    Drains (fun _ d => JSONCommandDecoder.decode parse d)
      ⟨data, messageCount, before.length, numMessagesRead⟩ (m :: msgs) := by
  induction msgs generalizing before m numMessagesRead with
  | nil =>
    -- the last message ends with the data, not with a newline
    obtain ⟨c, hc⟩ := isSome_iff_exists.mp (hcodec m (by simp))
    rw [jsonFrames_cons, flatMap_nil] at hdata
    have hlen : before.length ≤ data.len := by
      rw [← data.length_bytes, hdata]
      simp
    have hnext : JSONCommandDecoder.nextNewLine
        ⟨data, messageCount, before.length, numMessagesRead⟩ = .ok (some m.length) := by
      rw [JSONCommandDecoder.nextNewLine, if_pos (by simp at hread ⊢; omega),
        data.slice_to_len hlen, hdata]
      simp
    have hdecode := jsonCommand_decode_message hdata hcount hnext hc
    rw [if_pos (by simpa using hread)] at hdecode
    exact drains_singleton fun _ => hdecode
  | cons m' msgs ih =>
    rw [forall_mem_cons] at hnl hcodec
    obtain ⟨c, hc⟩ := isSome_iff_exists.mp hcodec.1
    rw [jsonFrames_cons_cons] at hdata
    have hlen : before.length < data.len := by
      rw [← data.length_bytes, hdata]
      simp
    rw [length_cons] at hread
    have hnext : JSONCommandDecoder.nextNewLine
        ⟨data, messageCount, before.length, numMessagesRead⟩ = .ok (some m.length) := by
      rw [JSONCommandDecoder.nextNewLine, if_neg (by simp only; omega), if_pos hlen,
        data.slice_to_len hlen.le, hdata, drop_left, Res.ok_bind, idxOf?_newline hnl.1]
      rfl
    have hdecode := jsonCommand_decode_message hdata hcount hnext hc
    rw [if_neg (by omega)] at hdecode
    have hrest : data.bytes = (before ++ (m ++ [newline])) ++ jsonFrames (m' :: msgs) := by
      rw [hdata]
      simp
    have h : Drains (fun _ d => JSONCommandDecoder.decode parse d)
        ⟨data, messageCount, (before ++ (m ++ [newline])).length, numMessagesRead + 1⟩
        (m' :: msgs) := ih hrest (by omega) hnl.2 hcodec.2
    rw [length_append, length_append, length_singleton, ← Nat.add_assoc] at h
    exact .cons (fun _ => hdecode) h

theorem readBytes_newline (h : newline ∉ m) (rest : List UInt8) :
    readBytes (m ++ newline :: rest) = (m ++ [newline], false, rest) := by
  induction m with
  | nil => rfl
  | cons b m ih =>
    rw [mem_cons, not_or] at h
    rw [cons_append, readBytes, if_neg (Ne.symm h.1), ih h.2]
    rfl

theorem readBytes_eof (h : newline ∉ m) : readBytes m = (m, true, []) := by
  induction m with
  | nil => rfl
  | cons b m ih =>
    rw [mem_cons, not_or] at h
    rw [readBytes, if_neg (Ne.symm h.1), ih h.2]

theorem jsonStream_decode_bytes {reader bytes : List UInt8} {eof : Bool}
    (hread : readBytes reader = (bytes, eof, rest)) (hbytes : bytes ≠ [])
    (hc : parse bytes = some c) : JSONStreamCommandDecoder.decode parse ⟨reader⟩ =
      ((⟨some bytes, some c, none⟩, bytes.length), ⟨rest⟩) := by
  rw [JSONStreamCommandDecoder.decode]
  simp only [hread, length_eq_zero_iff, hbytes, and_false, if_false, hc]

def JSONStreamCommandDecoder.call (parse : List UInt8 → Option C) (d : JSONStreamCommandDecoder) :
    Res (Returned C × JSONStreamCommandDecoder) :=
  .ok ((d.decode parse).1.1, (d.decode parse).2)

theorem drains_jsonStream (m : List UInt8) (msgs : List (List UInt8))
    (hne : ∀ x ∈ m :: msgs, x ≠ []) (hnl : ∀ x ∈ m :: msgs, newline ∉ x)
    (hcodec : ∀ x ∈ m :: msgs, (parse x).isSome)
    (htrim : ∀ x ∈ m :: msgs, parse (x ++ [newline]) = parse x) :
    ∃ payloads, payloads.map trimNewline = m :: msgs ∧
      Drains (fun _ d => JSONStreamCommandDecoder.call parse d) ⟨jsonFrames (m :: msgs)⟩
        payloads := by
  induction msgs generalizing m with
  | nil =>
    obtain ⟨c, hc⟩ := isSome_iff_exists.mp (hcodec m (by simp))
    have hm := hnl m (by simp)
    have hdecode := jsonStream_decode_bytes (readBytes_eof hm) (hne m (by simp)) hc
    refine ⟨[m], by rw [map_singleton, trimNewline_of_notMem hm], ?_⟩
    rw [jsonFrames_cons, flatMap_nil, append_nil]
    refine .cons (fun _ => by rw [JSONStreamCommandDecoder.call, hdecode]) ?_
    exact drains_nil ⟨[]⟩ fun _ => rfl
  | cons m' msgs ih =>
    rw [forall_mem_cons] at hne hnl hcodec htrim
    obtain ⟨c, hc⟩ := isSome_iff_exists.mp hcodec.1
    obtain ⟨payloads, hpayloads, hdrains⟩ := ih m' hne.2 hnl.2 hcodec.2 htrim.2
    have hdecode := jsonStream_decode_bytes (readBytes_newline hnl.1 (jsonFrames (m' :: msgs)))
      (by simp) (htrim.1.trans hc)
    refine ⟨(m ++ [newline]) :: payloads, by rw [map_cons, trimNewline_append, hpayloads], ?_⟩
    rw [jsonFrames_cons_cons]
    exact .cons (fun _ => by rw [JSONStreamCommandDecoder.call, hdecode]) hdrains

end JSON

def framedSize (msgs : List (List UInt8)) : ℕ := (msgs.map fun m => m.length + 8).sum

theorem length_le_framedSize {msgs : List (List UInt8)} (hm : m ∈ msgs) :
    m.length ≤ framedSize msgs := by
  have hle := single_le_sum (fun _ _ => Nat.zero_le _) _
    (mem_map_of_mem (f := fun m : List UInt8 => m.length + 8) hm)
  exact (Nat.le_add_right _ 8).trans hle

theorem length_flatMap_frameOf_le {msgs : List (List UInt8)}
    (hmsgs : ∀ m ∈ msgs, m.length ≤ maxAlloc) :
    (msgs.flatMap frameOf).length ≤ framedSize msgs := by
  induction msgs with
  | nil => exact Nat.zero_le _
  | cons m msgs ih =>
    rw [forall_mem_cons] at hmsgs
    have hm := length_frameOf_le hmsgs.1
    have hrest := ih hmsgs.2
    simp only [framedSize, map_cons, sum_cons, flatMap_cons,
      length_append] at hrest ⊢
    omega

theorem length_jsonFrames_le (m : List UInt8) (msgs : List (List UInt8)) :
    (jsonFrames (m :: msgs)).length ≤ framedSize (m :: msgs) := by
  induction msgs generalizing m with
  | nil => simp [jsonFrames_cons, framedSize]
  | cons m' msgs ih =>
    have hrest := ih m'
    rw [jsonFrames_cons_cons]
    simp only [framedSize, map_cons, sum_cons, length_append,
      length_cons] at hrest ⊢
    omega

theorem drains_newJSONCommandDecoder {C : Type} {parse : List UInt8 → Option C} {data : ByteSlice}
    {msgs : List (List UInt8)} (hdata : data.bytes = jsonFrames (m :: msgs))
    (hne : ∀ x ∈ m :: msgs, x ≠ []) (hnl : ∀ x ∈ m :: msgs, newline ∉ x)
    (hcodec : ∀ x ∈ m :: msgs, (parse x).isSome) :
    Drains (fun _ d => JSONCommandDecoder.decode parse d) (newJSONCommandDecoder data)
      (m :: msgs) := by
  obtain ⟨hlast, hnil⟩ := getLast?_jsonFrames m msgs hne hnl
  have hlen : data.len ≠ 0 := by
    rw [← data.length_bytes, hdata]
    exact length_eq_zero_iff.not.mpr hnil
  have hnew : newJSONCommandDecoder data = ⟨data, msgs.length + 1, 0, 0⟩ := by
    rw [newJSONCommandDecoder, hdata, if_neg (by simp [hlen, hlast]), count_jsonFrames m msgs hnl]
  rw [hnew]
  cases msgs with
  | nil =>
    obtain ⟨c, hc⟩ := isSome_iff_exists.mp (hcodec m (by simp))
    rw [jsonFrames_cons, flatMap_nil, append_nil] at hdata
    have hdecode : JSONCommandDecoder.decode parse ⟨data, 1, 0, 0⟩ =
        .ok (⟨some m, some c, some .eof⟩, ⟨data, 1, 0, 0⟩) := by
      rw [JSONCommandDecoder.decode, if_neg (by simp), if_pos (by simp), hdata, hc]
      rfl
    exact drains_singleton fun _ => hdecode
  | cons m' msgs =>
    have hbytes : data.bytes = [] ++ jsonFrames (m :: m' :: msgs) := hdata
    exact drains_jsonCommand hbytes (by simp) (by simp) hnl hcodec

/-- Messages that were joined are split again, in memory and from a stream. -/
theorem messages_split {C : Type} (unmarshalVT parse : List UInt8 → Option C) (limit : AllocLimit)
    (msgs : List (List UInt8)) (hnonempty : msgs ≠ []) (hne : ∀ m ∈ msgs, m ≠ [])
    (hmem : framedSize msgs ≤ limit.bytes) : ((∀ m ∈ msgs, (unmarshalVT m).isSome) →
      ∃ bytes, protobufFrames msgs = .ok bytes ∧ bytes.length ≤ limit.bytes ∧
        (∀ data : ByteSlice, data.bytes = bytes →
          Drains (fun _ d => ProtobufCommandDecoder.decode unmarshalVT d)
            (newProtobufCommandDecoder data) msgs) ∧ ∀ (pools : ℕ → Pools) (pick : ℕ → Option ℕ),
          Drains (fun k d =>
            ProtobufStreamCommandDecoder.decode unmarshalVT limit (pools k) (pick k) d >>=
              fun r => pure (r.1.1, r.2.1)) (newProtobufStreamCommandDecoder bytes) msgs) ∧
    ((∀ m ∈ msgs, newline ∉ m) → (∀ m ∈ msgs, (parse m).isSome ∧ parse (m ++ [newline]) = parse m) →
      (jsonFrames msgs).length ≤ limit.bytes ∧ (∀ data : ByteSlice, data.bytes = jsonFrames msgs →
          Drains (fun _ d => JSONCommandDecoder.decode parse d) (newJSONCommandDecoder data) msgs) ∧
        ∃ payloads, payloads.map trimNewline = msgs ∧
          Drains (fun _ d => JSONStreamCommandDecoder.call parse d) ⟨jsonFrames msgs⟩
            payloads) := by
  have hfit : ∀ m ∈ msgs, m.length ≤ limit.bytes := fun m hm => (length_le_framedSize hm).trans hmem
  have hmsgs : ∀ m ∈ msgs, m.length ≤ maxAlloc := fun m hm => (hfit m hm).trans limit.le_maxAlloc
  constructor
  · intro hcodec
    refine ⟨msgs.flatMap frameOf, protobufFrames_eq hmsgs,
      (length_flatMap_frameOf_le hmsgs).trans hmem, fun data hdata => ?_, fun pools pick => ?_⟩
    · have hbytes : data.bytes = [] ++ msgs.flatMap frameOf := hdata
      exact drains_command hbytes hmsgs hcodec
    · exact drains_stream limit pools pick hfit hcodec
  · intro hnl hcodec
    obtain ⟨m, msgs, rfl⟩ := exists_cons_of_ne_nil hnonempty
    have hparse : ∀ x ∈ m :: msgs, (parse x).isSome := fun x hx => (hcodec x hx).1
    refine ⟨(length_jsonFrames_le m msgs).trans hmem, fun data hdata => ?_, ?_⟩
    · exact drains_newJSONCommandDecoder hdata hne hnl hparse
    · exact drains_jsonStream m msgs hne hnl hparse fun x hx => (hcodec x hx).2

/-- Two messages of one and of two bytes. -/
theorem messages_split_two : Drains (fun _ d => ProtobufCommandDecoder.decode (fun _ => some ()) d)
      (newProtobufCommandDecoder (.ofBytes [1, 7, 2, 8, 9] (by decide))) [[7], [8, 9]] ∧
    Drains (fun _ d => JSONCommandDecoder.decode (fun _ => some ()) d)
      (newJSONCommandDecoder (.ofBytes [7, 10, 8, 9] (by decide))) [[7], [8, 9]] := by
  have h := messages_split (fun _ => some ()) (fun _ => some ()) .max [[7], [8, 9]] (by decide)
    (by decide) (by decide)
  obtain ⟨bytes, hbytes, -, hcommand, -⟩ := h.1 (by decide)
  have hframes : protobufFrames [[7], [8, 9]] = .ok [1, 7, 2, 8, 9] := rfl
  cases hframes.symm.trans hbytes
  obtain ⟨-, hjson, -⟩ := h.2 (by decide) (by decide)
  exact ⟨hcommand _ rfl, hjson _ rfl⟩

end Kairos.Protocol
