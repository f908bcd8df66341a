import Mathlib.Data.List.Nodup
import Kairos.Go.Aliasing
import Kairos.Template.Expressions

/-!
# What `merge` computes

`merge` folds its arguments by the kind of the first one. Numbers are added and strings
concatenated. Arrays become the elements of the result (`merge_arrays`). Maps are merged with the
last value of each key, but into a `map[interface{}]interface{}`, which cannot be sent
(`send_fails`).
-/

namespace Kairos

open List
open Effects (Comp Eff)

/-! ## Inserting entries -/

theorem lookup_insertKey_self (es : List Kv) (key : GoString) (v : Val) :
    lookup (insertKey es key v) key = some v := by
  unfold insertKey lookup
  split_ifs with hany
  · induction es with
    | nil => cases hany
    | cons e es ih =>
      rw [map_cons, find?_cons]
      by_cases he : e.key = key
      · simp [he]
      · have hrest : (es.any fun e => e.key == key) := by simpa [he] using hany
        rw [if_neg he, beq_eq_false_iff_ne.mpr he]
        exact ih hrest
  · have hnone : (es.find? fun e => e.key == key) = none := by simpa using hany
    rw [find?_append, hnone]
    simp

variable {key : GoString}

theorem lookup_insertKey_of_ne {k : GoString} (hne : k ≠ key) (es : List Kv) (v : Val) :
    lookup (insertKey es key v) k = lookup es k := by
  unfold insertKey lookup
  split_ifs with hany
  · clear hany
    induction es with
    | nil => rfl
    | cons e es ih =>
      rw [map_cons, find?_cons, find?_cons]
      by_cases he : e.key = key
      · have hek : (e.key == k) = false := beq_eq_false_iff_ne.mpr (he ▸ Ne.symm hne)
        rw [if_pos he, hek, beq_eq_false_iff_ne.mpr (Ne.symm hne)]
        exact ih
      · rw [if_neg he]
        cases e.key == k with
        | true => rfl
        | false => exact ih
  · rw [find?_append]
    have hsingle : ([⟨key, v⟩] : List Kv).find? (fun e => e.key == k) = none := by
      simpa using Ne.symm hne
    rw [hsingle, Option.or_none]

theorem lookup_append (es es' : List Kv) (key : GoString) :
    lookup (es ++ es') key = (lookup es key).or (lookup es' key) := by
  unfold lookup
  rw [find?_append]
  cases es.find? fun e => e.key == key with
  | none | some _ => rfl

def insertAll (es new : List Kv) : List Kv := new.foldl (fun es e => insertKey es e.key e.value) es

variable {es : List Kv}

theorem lookup_eq_none (h : key ∉ es.map Kv.key) : lookup es key = none := by
  unfold lookup
  rw [Option.map_eq_none_iff, find?_eq_none]
  intro e he heq
  exact h (mem_map.mpr ⟨e, he, by simpa using heq⟩)

/-! ## The folds -/

/-- The kinds of values that are merged with each other. -/
inductive MergeClass where
  | number
  | string
  | array
  | map
deriving DecidableEq

def Val.isFloat (v : Val) : Bool := v.kind == some .float64

def Val.isInt (v : Val) : Bool := v.kind == some .int || v.kind == some .int64

def MergeClass.has : MergeClass → Val → Bool
  | .number, v => v.isFloat || v.isInt
  | .string, v => v.kind == some .string
  | .array, .slice _ _ => true
  | .map, .map _ _ => true
  | _, _ => false

theorem entriesOf_alloc (h : Heap) (es : List Kv) :
    (h.alloc (.map es)).entriesOf (.map .any (some h.fresh)) = es := by
  unfold Heap.entriesOf Heap.mapEntries Heap.entries Heap.alloc Heap.fresh
  simp

section

variable {H : Host} {m : Mem} {vs : List Val}

theorem mergeFold_eq_ok {α : Type} {first : Kind} {same : Kind → Bool}
    {after : Val → Option GoString} {add : α → Val → α}
    (h : ∀ v ∈ vs, ∃ k, v.kind = some k ∧ same k) (acc : α) :
    mergeFold first same after add acc vs = .ok (vs.foldl add acc) := by
  induction vs generalizing acc with
  | nil => rfl
  | cons v vs ih =>
    obtain ⟨⟨k, hkind, hsame⟩, hvs⟩ := forall_mem_cons.mp h
    unfold mergeFold
    rw [hkind]
    simp only [hsame, if_true]
    exact ih hvs (add acc v)

/-- The loop ends well only on values of kinds that go with the first. -/
theorem kind_of_mergeFold {α : Type} {first : Kind} {same : Kind → Bool}
    {after : Val → Option GoString} {add : α → Val → α} {acc r : α}
    (h : mergeFold first same after add acc vs = .ok r) :
    ∀ v ∈ vs, ∃ k, v.kind = some k ∧ same k := by
  induction vs generalizing acc with
  | nil => simp
  | cons v vs ih =>
    unfold mergeFold at h
    cases hkind : v.kind with
    | none => rw [hkind] at h; cases h
    | some k =>
      simp only [hkind] at h
      by_cases hsame : same k
      · rw [if_pos hsame] at h
        exact forall_mem_cons.mpr ⟨⟨k, hkind, hsame⟩, ih h⟩
      · rw [if_neg hsame] at h
        cases hafter : after v <;> rw [hafter] at h <;> cases h

def sumFloats (H : Host) (x : Float64) (vs : List Val) : Float64 :=
  vs.foldl (fun x v => H.add x v.toFloat) x

def sumInts (n : ℤ) (vs : List Val) : ℤ := vs.foldl (fun n v => wrap64 (n + v.toInt)) n

def concatStrings (s : GoString) (vs : List Val) : GoString := vs.foldl (fun s v => s ++ v.toStr) s

theorem kind_of_isFloat {v : Val} (h : v.isFloat) :
    ∃ k, v.kind = some k ∧ (k == Kind.float64) :=
  ⟨.float64, by simpa [Val.isFloat] using h, rfl⟩

theorem kind_of_isInt {v : Val} (h : v.isInt) :
    ∃ k, v.kind = some k ∧ (k == Kind.int || k == Kind.int64) := by
  rcases (by simpa [Val.isInt] using h : v.kind = some .int ∨ v.kind = some .int64) with hk | hk
  · exact ⟨_, hk, rfl⟩
  · exact ⟨_, hk, rfl⟩

theorem merge_floats (hne : vs ≠ []) (h : ∀ v ∈ vs, v.isFloat) :
    merge H vs m = .ok (.float (sumFloats H .zero vs)) m := by
  have hfold : ∀ v ∈ vs, ∃ k, v.kind = some k ∧ (k == Kind.float64) :=
    fun v hv => kind_of_isFloat (h v hv)
  obtain ⟨v, vs, rfl⟩ := exists_cons_of_ne_nil hne
  have hv : v.kind = some .float64 := by simpa [Val.isFloat] using h v mem_cons_self
  simp only [merge, hv, mergeFold_eq_ok hfold]
  rfl

theorem merge_ints (hne : vs ≠ []) (h : ∀ v ∈ vs, v.isInt) :
    merge H vs m = .ok (.int64 (sumInts 0 vs)) m := by
  have hfold : ∀ v ∈ vs, ∃ k, v.kind = some k ∧ (k == Kind.int || k == Kind.int64) :=
    fun v hv => kind_of_isInt (h v hv)
  obtain ⟨v, vs, rfl⟩ := exists_cons_of_ne_nil hne
  rcases (by simpa [Val.isInt] using h v mem_cons_self :
    v.kind = some .int ∨ v.kind = some .int64) with hv | hv
  · simp only [merge, hv, merge.mergeInts, mergeFold_eq_ok hfold]
    rfl
  · simp only [merge, hv, merge.mergeInts, mergeFold_eq_ok hfold]
    rfl

theorem merge_strings (hne : vs ≠ []) (h : ∀ v ∈ vs, MergeClass.string.has v) :
    merge H vs m = .ok (.str (concatStrings [] vs)) m := by
  have hkind : ∀ v ∈ vs, v.kind = some .string := fun v hv => by
    simpa [MergeClass.has] using h v hv
  have hfold : ∀ v ∈ vs, ∃ k, v.kind = some k ∧ (k == Kind.string) :=
    fun v hv => ⟨_, hkind v hv, rfl⟩
  obtain ⟨v, vs, rfl⟩ := exists_cons_of_ne_nil hne
  simp only [merge, hkind v mem_cons_self, mergeFold_eq_ok hfold]
  rfl

/-- Numbers are added only where all are `float64`, or none is. -/
theorem numbers_of_merge {w : Val} {m' : Mem} (hne : vs ≠ [])
    (h : ∀ v ∈ vs, MergeClass.number.has v) (hok : merge H vs m = .ok w m') :
    (∀ v ∈ vs, v.isFloat) ∨ ∀ v ∈ vs, v.isInt := by
  obtain ⟨v, vs, rfl⟩ := exists_cons_of_ne_nil hne
  have hlift {x : Res Val} (hx : merge.lift m x = .ok w m') : ∃ r, x = .ok r := by
    cases x with
    | ok r => exact ⟨r, rfl⟩
    | err | panic => cases hx
  have hfirst : v.isFloat ∨ v.isInt := by simpa [MergeClass.has] using h v mem_cons_self
  rcases hfirst with hv | hv
  · left
    have hkind : v.kind = some .float64 := by simpa [Val.isFloat] using hv
    simp only [merge, hkind] at hok
    obtain ⟨r, hr⟩ := hlift hok
    obtain ⟨x, hx, -⟩ := Res.bind_eq_ok.mp hr
    intro u hu
    obtain ⟨k, hk, hsame⟩ := kind_of_mergeFold hx u hu
    rw [Val.isFloat, hk]
    simpa using hsame
  · right
    -- `merge` takes either kind of integer behind the first
    have hints : merge.lift m (merge.mergeInts (v :: vs) .int) = .ok w m' ∨
        merge.lift m (merge.mergeInts (v :: vs) .int64) = .ok w m' := by
      rcases (by simpa [Val.isInt] using hv : v.kind = some .int ∨ v.kind = some .int64)
        with hkind | hkind
      · simp only [merge, hkind] at hok
        exact .inl hok
      · simp only [merge, hkind] at hok
        exact .inr hok
    have hall {first : Kind} (hx : merge.lift m (merge.mergeInts (v :: vs) first) = .ok w m') :
        ∀ u ∈ v :: vs, u.isInt := by
      obtain ⟨r, hr⟩ := hlift hx
      obtain ⟨x, hx, -⟩ := Res.bind_eq_ok.mp hr
      intro u hu
      obtain ⟨k, hk, hsame⟩ := kind_of_mergeFold hx u hu
      rw [Val.isInt, hk]
      simpa using hsame
    exact hints.elim hall hall

theorem merge_arrays (hne : vs ≠ []) (h : ∀ v ∈ vs, MergeClass.array.has v) : merge H vs m =
      .ok (allocSlice H vs m.heap).1 { m with heap := (allocSlice H vs m.heap).2 } := by
  have hfold : ∀ v ∈ vs, ∃ k, v.kind = some k ∧ (k == Kind.slice) := by
    intro v hv
    have hhas := h v hv
    cases v <;> simp [MergeClass.has] at hhas
    exact ⟨_, rfl, rfl⟩
  have happend : ∀ acc ws : List Val, ws.foldl (fun vs v => vs ++ [v]) acc = acc ++ ws := by
    intro acc ws
    induction ws generalizing acc with
    | nil => simp
    | cons w ws ih => rw [foldl_cons, ih, append_assoc, singleton_append]
  obtain ⟨v, vs, rfl⟩ := exists_cons_of_ne_nil hne
  have hv := h v mem_cons_self
  cases v <;> simp [MergeClass.has] at hv
  simp only [merge, Val.kind, mergeFold_eq_ok hfold, happend, nil_append]

theorem merge_maps (hne : vs ≠ []) (h : ∀ v ∈ vs, MergeClass.map.has v) :
    merge H vs m = .ok (.map .any (some m.heap.fresh))
      { m with heap := m.heap.alloc (.map (insertAll [] (vs.flatMap m.heap.entriesOf))) } := by
  have hfold : ∀ v ∈ vs, ∃ k, v.kind = some k ∧ (k == Kind.map) := by
    intro v hv
    have hhas := h v hv
    cases v <;> simp [MergeClass.has] at hhas
    exact ⟨_, rfl, rfl⟩
  have hinsert : ∀ (es : List Kv) (ws : List Val), ws.foldl (fun es v =>
      (m.heap.entriesOf v).foldl (fun es e => insertKey es e.key e.value) es) es =
      insertAll es (ws.flatMap m.heap.entriesOf) := by
    intro es ws
    unfold insertAll
    rw [foldl_flatMap]
  obtain ⟨v, vs, rfl⟩ := exists_cons_of_ne_nil hne
  have hv := h v mem_cons_self
  cases v <;> simp [MergeClass.has] at hv
  simp only [merge, Val.kind, mergeFold_eq_ok hfold, hinsert]

/-! ## The laws -/

def MergeClass.Same (c : MergeClass) (h : Heap) (w : Val) (h' : Heap) (w' : Val) : Prop :=
  match c with
  | .array => h.children w = h'.children w'
  | .map => h.entriesOf w = h'.entriesOf w'
  | _ => w = w'

/-- A map can be read by `get`, extended by `put` and sent. The parameters `p` and `q` have a string
and a value. -/
structure Usable (H : Host) (env : ExecEnv) (w : Val) (m : Mem) : Prop where
  get : ∀ p key, paramValue H env p m = .ok (.str key) m →
    ∃ m', execGet H env "get" [p] [w] m =
      .ok (some [mpGet (m.heap.entriesOf w) key]) m'
  put : ∀ p q key v, paramValue H env p m = .ok (.str key) m → paramValue H env q m = .ok v m →
    ∃ a m', execPut H env "put" [p, q] [w] m = .ok (some [.map .reply (some a)]) m'
  send : ∀ r, ∃ base m',
    execSend H env "send" [r] [w] m = .ok (some [.mapPtr .reply base]) m'

/-- Two steps give what one does, arrays are concatenated, the last value of a key wins, and a
merged map is as good as another. -/
structure MergeLaws (H : Host) (env : ExecEnv) (m : Mem) (c : MergeClass) (xs ys : List Val) :
    Prop where
  pipe : ∃ v m₁ w m₂ w' m', merge H xs m = .ok v m₁ ∧ merge H (v :: ys) m₁ = .ok w m₂ ∧
    merge H (xs ++ ys) m = .ok w' m' ∧ c.Same m₂.heap w m'.heap w'
  concat : c = .array → ∀ w m', merge H (xs ++ ys) m = .ok w m' →
    m'.heap.children w = (xs ++ ys).flatMap m.heap.children
  lastWins : c = .map → ∀ w m', merge H (xs ++ ys) m = .ok w m' → ∀ key,
    lookup (m'.heap.entriesOf w) key = lookup ((xs ++ ys).flatMap m.heap.entriesOf).reverse key
  usable : c = .map → ∀ w m', merge H (xs ++ ys) m = .ok w m' → Usable H env w m'

/-- The lists on which `merge` keeps its laws: strings, and numbers that are all `float64` or all
`int` and `int64`. -/
def MergeClass.Lawful (xs ys : List Val) : MergeClass → Prop
  | .number => (∀ v ∈ xs ++ ys, v.isFloat) ∨ ∀ v ∈ xs ++ ys, v.isInt
  | .string => True
  | .array => False
  | .map => False

/-- Adding `0.0` does not change a sum that starts from `0.0`: such a sum is never `-0.0`. -/
def Host.KeepsSums (H : Host) : Prop :=
  ∀ xs : List Float64, H.add .zero (xs.foldl H.add .zero) = xs.foldl H.add .zero

variable {w : Val} {m' : Mem}

theorem send_fails (env : ExecEnv) (base : Option Addr) (func r : GoString) (out : Out)
    (m' : Mem) : execSend H env func [r] [.map .any base] m ≠ .ok out m' := by
  intro h
  unfold execSend at h
  obtain ⟨v, m₁, hv, h⟩ := Comp.bind_eq_ok.mp h
  cases hv
  obtain ⟨m₂, m₃, hget, h⟩ := Comp.bind_eq_ok.mp h
  obtain ⟨b, m₄, hreply, -⟩ := Comp.bind_eq_ok.mp h
  have hnone : convertInterfaceToReply H (.map .any base) m₃.heap = none := rfl
  simp only [convertReply, hnone] at hreply
  split_ifs at hreply

theorem children_allocSlice (vs : List Val) (h : Heap) :
    (allocSlice H vs h).2.children (allocSlice H vs h).1 = vs := by
  unfold allocSlice Heap.children Heap.elems Heap.slots Heap.alloc Heap.fresh
  simp

theorem wrap64_sumInts {n : ℤ} (hn : wrap64 n = n) (vs : List Val) :
    wrap64 (sumInts n vs) = sumInts n vs := by
  induction vs generalizing n with
  | nil => exact hn
  | cons v vs ih => exact ih (by unfold wrap64; rw [Int.bmod_bmod])

end

section

variable {H : Host} {env : ExecEnv} {m : Mem} {xs ys : List Val}

/-- Values that `merge` folds into one of their kind, without a trace in the memory. -/
theorem laws_of_merge {c : MergeClass} {p : Val → Prop} {fold : List Val → Val}
    (hmerge : ∀ {vs}, vs ≠ [] → (∀ v ∈ vs, p v) → merge H vs m = .ok (fold vs) m)
    (hne : xs ≠ []) (h : ∀ v ∈ xs ++ ys, p v) (hp : p (fold xs))
    (hfold : fold (fold xs :: ys) = fold (xs ++ ys)) (harray : c ≠ .array) (hmap : c ≠ .map) :
    MergeLaws H env m c xs ys := by
  refine ⟨?_, fun hc => absurd hc harray, fun hc => absurd hc hmap, fun hc => absurd hc hmap⟩
  obtain ⟨hxs, hys⟩ := forall_mem_append.mp h
  refine ⟨_, _, _, _, _, _, hmerge hne hxs, hmerge (by simp) (forall_mem_cons.mpr ⟨hp, hys⟩),
    hmerge (by simp [hne]) h, ?_⟩
  rw [hfold]
  cases c with
  | array => exact absurd rfl harray
  | map => exact absurd rfl hmap
  | _ => rfl

theorem number_laws_iff (hadd : H.KeepsSums) (hne : xs ≠ [])
    (h : ∀ v ∈ xs ++ ys, MergeClass.number.has v) :
    MergeLaws H env m .number xs ys ↔ MergeClass.number.Lawful xs ys := by
  constructor
  · intro hlaws
    obtain ⟨v, m₁, w, m₂, w', m', -, -, hw', -⟩ := hlaws.pipe
    exact numbers_of_merge (by simp [hne]) h hw'
  · rintro (hall | hall)
    · refine laws_of_merge merge_floats hne hall rfl ?_ nofun nofun
      have hzero : H.add .zero (sumFloats H .zero xs) = sumFloats H .zero xs := by
        simpa [sumFloats, foldl_map] using hadd (xs.map Val.toFloat)
      show Val.float (sumFloats H (H.add .zero (sumFloats H .zero xs)) ys) = _
      rw [hzero]
      unfold sumFloats
      rw [foldl_append]
    · refine laws_of_merge merge_ints hne hall rfl ?_ nofun nofun
      show Val.int64 (sumInts (wrap64 (0 + sumInts 0 xs)) ys) = _
      rw [zero_add, wrap64_sumInts rfl]
      unfold sumInts
      rw [foldl_append]

theorem string_laws (hne : xs ≠ []) (h : ∀ v ∈ xs ++ ys, MergeClass.string.has v) :
    MergeLaws H env m .string xs ys := by
  refine laws_of_merge merge_strings hne h rfl ?_ nofun nofun
  show Val.str (concatStrings ([] ++ concatStrings [] xs) ys) = _
  rw [nil_append]
  unfold concatStrings
  rw [foldl_append]

/-- The piped result has the new array as its first element, where one `merge` has the first of
`xs`. -/
theorem not_array_laws (hne : xs ≠ []) (h : ∀ v ∈ xs ++ ys, MergeClass.array.has v)
    (hheap : ∀ a len, Val.slice (some a) len ∈ xs → a < m.heap.length) :
    ¬ MergeLaws H env m .array xs ys := by
  intro hlaws
  obtain ⟨v, m₁, w, m₂, w', m', hv, hw, hw', hsame⟩ := hlaws.pipe
  obtain ⟨hxs, hys⟩ := forall_mem_append.mp h
  rw [merge_arrays hne hxs] at hv
  cases hv
  rw [merge_arrays (by simp) (forall_mem_cons.mpr ⟨rfl, hys⟩)] at hw
  cases hw
  rw [merge_arrays (by simp [hne]) h] at hw'
  cases hw'
  have hchildren : (allocSlice H xs m.heap).1 :: ys = xs ++ ys := by
    simpa only [MergeClass.Same, children_allocSlice] using hsame
  obtain ⟨x, xs, rfl⟩ := exists_cons_of_ne_nil hne
  rw [cons_append, cons.injEq] at hchildren
  have hfresh : (allocSlice H (x :: xs) m.heap).1 ∈ x :: xs := by
    rw [hchildren.1]
    exact mem_cons_self
  exact absurd (hheap _ _ hfresh) (lt_irrefl _)

theorem not_map_laws (hne : xs ≠ []) (h : ∀ v ∈ xs ++ ys, MergeClass.map.has v) :
    ¬ MergeLaws H env m .map xs ys := by
  intro hlaws
  have hmerge := merge_maps (H := H) (m := m) (by simp [hne]) h
  obtain ⟨base, m', hsend⟩ := (hlaws.usable rfl _ _ hmerge).send "x_task"
  exact send_fails env _ _ _ _ _ hsend

/-- `merge` keeps its laws on strings and on numbers of one kind, and never on arrays or maps. -/
theorem merge_laws_iff (hadd : H.KeepsSums) (c : MergeClass) (hne : xs ≠ [])
    (h : ∀ v ∈ xs ++ ys, c.has v)
    (hheap : ∀ a len, Val.slice (some a) len ∈ xs → a < m.heap.length) :
    MergeLaws H env m c xs ys ↔ c.Lawful xs ys := by
  cases c with
  | number => exact number_laws_iff hadd hne h
  | string => exact iff_of_true (string_laws hne h) trivial
  | array => exact iff_of_false (not_array_laws hne h hheap) id
  | map => exact iff_of_false (not_map_laws hne h) id

end

/-- A host whose addition is that of the bits. -/
def bitsHost : Host := { plainHost with add := fun x y => x + y }

/-- The strings `"a"` and `"b"` merge as they should. -/
theorem merge_strings_lawful :
    MergeLaws bitsHost ⟨none, [], none⟩ ⟨[], 0, []⟩ .string [.str "a"] [.str "b"] :=
  (merge_laws_iff (fun _ => BitVec.zero_add _) .string (by simp)
    (by simp [MergeClass.has, Val.kind]) (by simp)).mpr trivial

def twoArrays : Mem := ⟨[.arr [.bool true], .arr [.bool false]], 0, []⟩

/-- Merging arrays gives an array of arrays. -/
theorem merge_arrays_nests :
    ∃ w m', merge plainHost [.slice (some 0) 1, .slice (some 1) 1] twoArrays = .ok w m' ∧
      m'.heap.children w = [.slice (some 0) 1, .slice (some 1) 1] ∧
      [Val.slice (some 0) 1, .slice (some 1) 1].flatMap twoArrays.heap.children =
        [.bool true, .bool false] :=
  ⟨_, _, rfl, rfl, rfl⟩

end Kairos
