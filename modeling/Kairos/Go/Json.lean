import Kairos.Go.Values

/-!
# Encoding, decoding and comparing values

`json.Marshal` and `json.Unmarshal`, which the interpreter mostly uses one after the other to turn a
value into a map or an array of its own, and `reflect.DeepEqual`.
-/

namespace Kairos

open List

def maxNestingDepth : ℕ := 10000

section

variable (H : Host)

/-- `json.Marshal` of at most `fuel` levels. A cyclic value cannot be encoded, nor an infinity, a
NaN or a map whose keys are not strings. -/
def encode (h : Heap) : ℕ → Val → Option Json
  | 0, _ => none
  | fuel + 1, v =>
    match v with
    | .nil => some .null
    | .bool b => some (.bool b)
    | .float x => if x.isSpecial then none else some (.float x)
    | .int n => some (.int n)
    | .int64 n => some (.int n)
    | .str s => some (.str s)
    | .slice none _ => some .null
    | .slice (some a) len => ((h.elems (some a) len).mapM (encode h fuel)).map .arr
    | .map .any _ => none
    | .map _ base => encodeMap base fun e => (encode h fuel e.value).map (e.key, ·)
    | .mapPtr .any _ => none
    | .mapPtr _ base => encodeMap base fun e => (encode h fuel e.value).map (e.key, ·)
    | .result r => some r.toJson
    | .foreign v => v.json.map H.foreignJson
where
  encodeMap (base : Option Addr) (field : Kv → Option (GoString × Json)) : Option Json :=
    match base with
    | none => some .null
    | some a => ((h.entries a).mapM field).map .obj

def allocSlice (vs : List Val) (h : Heap) : Val × Heap :=
  (.slice (some h.fresh) vs.length, h.alloc (.arr (vs ++ List.replicate (H.spare vs.length) .nil)))

mutual

def decode : Json → Heap → Val × Heap
  | .null, h => (.nil, h)
  | .bool b, h => (.bool b, h)
  | .int n, h => (.float (H.ofInt n), h)
  | .float x, h => (.float x, h)
  | .str s, h => (.str s, h)
  | .arr js, h => allocSlice H (decodeList js h).1 (decodeList js h).2
  | .obj fs, h =>
    (.map .plain (some (decodeFields fs [] h).2.fresh),
      (decodeFields fs [] h).2.alloc (.map (decodeFields fs [] h).1))

def decodeList : List Json → Heap → List Val × Heap
  | [], h => ([], h)
  | j :: js, h =>
    ((decode j h).1 :: (decodeList js (decode j h).2).1, (decodeList js (decode j h).2).2)

def decodeFields : List (GoString × Json) → List Kv → Heap → List Kv × Heap
  | [], es, h => (es, h)
  | (k, j) :: fs, es, h => decodeFields fs (insertKey es k (decode j h).1) (decode j h).2

end

/-- `json.Unmarshal` into a `ReplyData`: null is the nil map, anything but an object an error. -/
def decodeReply (j : Json) (h : Heap) : Option (Option Addr × Heap) :=
  match j with
  | .null => some (none, h)
  | .obj fs =>
    some (some (decodeFields H fs [] h).2.fresh,
      (decodeFields H fs [] h).2.alloc (.map (decodeFields H fs [] h).1))
  | _ => none

/-- `json.Unmarshal` into a `[]interface{}`: null is the nil slice, anything but an array an
error. -/
def decodeArray (j : Json) (h : Heap) : Option ((Option Addr × ℕ) × Heap) :=
  match j with
  | .null => some ((none, 0), h)
  | .arr js =>
    some ((some (decodeList H js h).2.fresh, (decodeList H js h).1.length),
      (allocSlice H (decodeList H js h).1 (decodeList H js h).2).2)
  | _ => none

/-- `convertInterfaceToReply`: encoded, and decoded into a `ReplyData` of its own. -/
def convertInterfaceToReply (v : Val) (h : Heap) : Option (Option Addr × Heap) :=
  (encode H h maxNestingDepth v).bind fun j => decodeReply H j h

/-- `convertInterfaceToArray`: likewise, but a string is the text to decode. -/
def convertInterfaceToArray (v : Val) (h : Heap) : Option ((Option Addr × ℕ) × Heap) :=
  (match v with
    | .str s => H.jsonText s
    | _ => encode H h maxNestingDepth v).bind fun j => decodeArray H j h

/-- `append(source, v)`: in place where the array has a free slot, and in a new one otherwise. -/
def appendVal (base : Option Addr) (len : ℕ) (v : Val) (h : Heap) : Val × Heap :=
  match base with
  | some a =>
    if len < (h.slots a).length then (.slice (some a) (len + 1), h.setSlot a len v)
    else allocSlice H (h.elems base len ++ [v]) h
  | none => allocSlice H [v] h

end

/-! ## What decoding adds to the heap -/

section

variable {H : Host}

variable {h h' : Heap}

theorem grows_alloc (hh : h <+: h') (c : Cell) : h <+: h'.alloc c :=
  hh.trans (prefix_append h' [c])

theorem grows_set (hh : h <+: h') {a : Addr} (ha : h.length ≤ a) (c : Cell) : h <+: h'.set a c := by
  obtain ⟨added, rfl⟩ := hh
  rw [set_append_right _ _ ha]
  exact prefix_append h _

mutual

theorem decode_grows : ∀ (j : Json) (h : Heap), h <+: (decode H j h).2
  | .null, _ => prefix_rfl
  | .bool _, _ => prefix_rfl
  | .int _, _ => prefix_rfl
  | .float _, _ => prefix_rfl
  | .str _, _ => prefix_rfl
  | .arr js, h => grows_alloc (decodeList_grows js h) _
  | .obj fs, h => grows_alloc (decodeFields_grows fs [] h) _

theorem decodeList_grows : ∀ (js : List Json) (h : Heap), h <+: (decodeList H js h).2
  | [], _ => prefix_rfl
  | j :: js, h => (decode_grows j h).trans (decodeList_grows js _)

theorem decodeFields_grows :
    ∀ (fs : List (GoString × Json)) (es : List Kv) (h : Heap), h <+: (decodeFields H fs es h).2
  | [], _, _ => prefix_rfl
  | (_, j) :: fs, _, h => (decode_grows j h).trans (decodeFields_grows fs _ _)

end

variable {j : Json} {r : Option Addr × Heap}

theorem decodeReply_grows
    (hr : decodeReply H j h = some r) : h <+: r.2 ∧ ∀ a ∈ r.1, h.length ≤ a := by
  cases j with
  | null =>
    cases hr
    exact ⟨prefix_rfl, by simp⟩
  | obj fs =>
    cases hr
    have hfields := decodeFields_grows (H := H) fs [] h
    refine ⟨grows_alloc hfields _, fun a ha => ?_⟩
    cases ha
    exact hfields.length_le
  | _ => cases hr

theorem decodeArray_grows {r : (Option Addr × ℕ) × Heap}
    (hr : decodeArray H j h = some r) : h <+: r.2 ∧ ∀ a ∈ r.1.1, h.length ≤ a := by
  cases j with
  | null =>
    cases hr
    exact ⟨prefix_rfl, by simp⟩
  | arr js =>
    cases hr
    have hlist := decodeList_grows (H := H) js h
    refine ⟨grows_alloc hlist _, fun a ha => ?_⟩
    cases ha
    exact hlist.length_le
  | _ => cases hr

variable {v : Val}

theorem convertInterfaceToReply_grows
    (hr : convertInterfaceToReply H v h = some r) : h <+: r.2 ∧ ∀ a ∈ r.1, h.length ≤ a := by
  obtain ⟨j, -, hj⟩ := Option.bind_eq_some_iff.mp hr
  exact decodeReply_grows hj

theorem convertInterfaceToArray_grows {r : (Option Addr × ℕ) × Heap}
    (hr : convertInterfaceToArray H v h = some r) : h <+: r.2 ∧ ∀ a ∈ r.1.1, h.length ≤ a := by
  obtain ⟨j, -, hj⟩ := Option.bind_eq_some_iff.mp hr
  exact decodeArray_grows hj

end

/-- `reflect.DeepEqual` of at most `fuel` levels: deeper, a pair has come up before and is taken as
equal. -/
def deepEqualFuel (h : Heap) : ℕ → Val → Val → Bool
  | 0, _, _ => true
  | fuel + 1, v, w =>
    match v, w with
    | .float x, .float y => x.eq y
    | .slice b m, .slice b' n =>
      b.isSome == b'.isSome && m == n &&
        (b == b' || ((h.elems b m).zip (h.elems b' n)).all fun p => deepEqualFuel h fuel p.1 p.2)
    | .map t b, .map t' b' => t == t' && equalMaps b b' fun x y => deepEqualFuel h fuel x y
    | .mapPtr t b, .mapPtr t' b' => t == t' && equalMaps b b' fun x y => deepEqualFuel h fuel x y
    | _, _ => v == w
where
  equalMaps (b b' : Option Addr) (eq : Val → Val → Bool) : Bool :=
    b.isSome == b'.isSome &&
      (b == b' || (h.mapEntries b).length == (h.mapEntries b').length &&
        (h.mapEntries b).all fun e =>
          match lookup (h.mapEntries b') e.key with
          | some w => eq e.value w
          | none => false)

def Heap.size (h : Heap) : ℕ :=
  (h.map fun c => match c with | .arr vs => vs.length + 1 | .map _ => 1).sum + 1

def deepEqual (h : Heap) (v w : Val) : Bool := deepEqualFuel h (h.size * h.size) v w

end Kairos
