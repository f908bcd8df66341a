import Kairos.Template.Merging

/-!
# The two forms of an access

`get`, `getp`, `put`, `delete`, `push`, `pop` and `sub` take their value from a variable that is
named first, or from the pipeline. `getp`, `pop` and `sub` give no result in the named form. The
others go through JSON for all but a `ReplyData` or an array, where null passes for a map and for an
array.
-/

namespace Kairos

open List Option
open MergeClass (array has)
open Effects (Comp Eff)

inductive Access where
  | get (k : GoString)
  | getp (k : GoString)
  | put (k a : GoString)
  | delete (k : GoString)
  | push (a : GoString)
  | pop
  | sub (b : GoString)

namespace Access

def keyword : Access → Keyword
  | get _ => .getExp
  | getp _ => .getpExp
  | put _ _ => .putExp
  | delete _ => .deleteExp
  | push _ => .pushExp
  | pop => .popExp
  | sub _ => .subExp

def args : Access → List GoString
  | get k => [k]
  | getp k => [k]
  | put k a => [k, a]
  | delete k => [k]
  | push a => [a]
  | pop => []
  | sub b => [b]

def named (c : Access) (x : GoString) : Expression := ⟨c.keyword.name, x :: c.args⟩

def piped (c : Access) : Expression := ⟨c.keyword.name, c.args⟩

end Access

def Val.mapBase : Val → Option (Option Addr)
  | .map _ base => some base
  | .mapPtr _ base => some base
  | _ => none

def Val.isNumber : Val → Bool
  | .float _ => true
  | .int _ => true
  | .int64 _ => true
  | _ => false

def Val.isNilSlice : Val → Bool
  | .slice none _ => true
  | _ => false

def Val.isReply : Val → Bool
  | .map .reply _ => true
  | _ => false

def Val.isOperand (v : Val) : Bool :=
  v.isNumber || v.mapBase.isSome || array.has v

def difference (H : Host) : Val → Val → Option Val
  | .float x, .float y => some (.float (H.sub x y))
  | .int m, .int n => some (.int (wrap64 (m - n)))
  | .int64 m, .int64 n => some (.int64 (wrap64 (m - n)))
  | _, _ => none

def CopyOf (H : Host) (h : Heap) (w w' : Val) : Prop :=
  w' = w ∨ ∃ fuel j h', encode H h fuel w = some j ∧ w' = (decode H j h').1

def Heap.KeysOnce (h : Heap) : Prop := ∀ a, ((h.entries a).map Kv.key).Nodup

section

variable (H : Host) (env : ExecEnv)

def Access.Valid (val : GoString → Val) (v : Val) : Access → Prop
  | .get k => v.mapBase.isSome ∧ (val k).isStr
  | .getp k => ∃ base len n, v = .slice base len ∧ val k = .int n ∧ 0 ≤ n ∧ n < len
  | .put k _ => v.mapBase.isSome ∧ (val k).isStr
  | .delete k => v.mapBase.isSome ∧ (val k).isStr
  | .push _ => array.has v
  | .pop => ∃ base len, v = .slice base (len + 1)
  | .sub b => (difference H v (val b)).isSome

/-- The output and the memory that an access on `v` should leave. The values of a map may be
copies. -/
def Access.Expected (val : GoString → Val) (v : Val) (m : Mem) (out : Out) (m' : Mem) :
    Access → Prop
  | .get k => ∃ base w, v.mapBase = some base ∧ out = some [w] ∧
      CopyOf H m.heap (mpGet (m.heap.mapEntries base) (val k).toStr) w
  | .getp k => ∃ base len w, v = .slice base len ∧
      (m.heap.elems base len)[(val k).toInt.toNat]? = some w ∧ out = some [w]
  | .put k a => ∃ base b, v.mapBase = some base ∧ out = some [.map .reply (some b)] ∧
      lookup (m'.heap.entries b) (val k).toStr = some (val a) ∧
      ∀ key ≠ (val k).toStr, Option.Rel (CopyOf H m.heap)
        (lookup (m.heap.mapEntries base) key) (lookup (m'.heap.entries b) key)
  | .delete k => ∃ base b, v.mapBase = some base ∧ out = some [.map .reply b] ∧
      lookup (m'.heap.mapEntries b) (val k).toStr = none ∧
      ∀ key ≠ (val k).toStr, Option.Rel (CopyOf H m.heap)
        (lookup (m.heap.mapEntries base) key) (lookup (m'.heap.mapEntries b) key)
  | .push a => ∃ w, out = some [w] ∧ m'.heap.children w = m.heap.children v ++ [val a]
  | .pop => ∃ w, out = some [w] ∧ m'.heap.children w = (m.heap.children v).dropLast
  | .sub b => ∃ w, difference H v (val b) = some w ∧ out = some [w]

/-- The form that names `x`, first in its row, and the form with `v` in the pipeline do what is
expected. -/
structure FormsAgree (c : Access) (x : GoString) (val : GoString → Val) (v : Val) (m : Mem) :
    Prop where
  valid : c.Valid H val v → ∃ out m', (c.named x).execute H env (some []) m = .ok out m' ∧
    c.piped.execute H env (some [v]) m = .ok out m' ∧ c.Expected H val v m out m'
  invalid : ¬ c.Valid H val v →
    (∃ msg m', (c.named x).execute H env (some []) m = .err msg m') ∧
    ∃ msg m', c.piped.execute H env (some [v]) m = .err msg m'

def Encodes (h : Heap) (v : Val) : Prop := (encode H h maxNestingDepth v).isSome

/-- Where a value does not convert to a `ReplyData`, the error can show it. -/
def Reported (h : Heap) (v : Val) : Prop :=
  convertInterfaceToReply H v h = none → h.nests H.printDepth v

/-- What `put` and `delete` show in an error can be printed: the value, or a key that is no
string. -/
def KeyReported (h : Heap) (v k : Val) : Prop :=
  Reported H h v ∧
    (k.isStr = false → (convertInterfaceToReply H v h).isSome → h.nests H.printDepth k)

def Access.AgreesWhen (x : GoString) (val : GoString → Val) (v : Val) (m : Mem) : Access → Prop
  | .get k => (m.varTemp.flatten.map Kv.value).all (m.heap.nests H.printDepth) ∧
      (v.isReply ∨ Reported H m.heap v) ∧
      ((val k).isStr → v.isNilSlice = false ∧
        (v.mapBase.isSome → v.isReply ∨ Encodes H m.heap v))
  | .getp _ => False
  | .put k _ => KeyReported H m.heap v (val k) ∧ ((val k).isStr → v.isNilSlice = false ∧
      v.mapBase ≠ some none ∧ (v.mapBase.isSome → Encodes H m.heap v))
  | .delete k => KeyReported H m.heap v (val k) ∧ ((val k).isStr → v.isNilSlice = false ∧
      (v.mapBase.isSome → Encodes H m.heap v))
  | .push _ => array.has v ∨ convertInterfaceToArray H v m.heap = none ∧
      convertInterfaceToArray H (.str x) m.heap = none
  | .pop => ¬ Access.Valid H val v .pop
  | .sub b => ¬ Access.Valid H val v (.sub b)

variable {H env}

theorem setValueLoop_reads {val : GoString → Val} {m : Mem} (ps : List GoString)
    (h : ∀ p ∈ ps, paramValue H env p m = .ok (val p) m) (mp : List Kv) :
    ∃ mp', setValueLoop H env mp ps m = .ok mp' m ∧ (∀ p ∈ ps, mpGet mp' p = val p) ∧
      ∀ p ∉ ps, mpGet mp' p = mpGet mp p := by
  induction ps generalizing mp with
  | nil => exact ⟨mp, rfl, by simp, fun _ _ => rfl⟩
  | cons p ps ih =>
    obtain ⟨hp, hps⟩ := forall_mem_cons.mp h
    obtain ⟨mp', hloop, hin, hout⟩ := ih hps (insertKey mp p (val p))
    refine ⟨mp', ?_, ?_, ?_⟩
    · rw [setValueLoop, Comp.bind_apply, hp]
      exact hloop
    · intro q hq
      by_cases hqs : q ∈ ps
      · exact hin q hqs
      · -- it is the parameter that was just read, and no later one
        obtain rfl : q = p := (mem_cons.mp hq).resolve_right hqs
        rw [hout q hqs]
        simp [mpGet, lookup_insertKey_self]
    · intro q hq
      rw [mem_cons, not_or] at hq
      rw [hout q hq.2]
      simp [mpGet, lookup_insertKey_of_ne hq.1]

theorem setValue_reads {val : GoString → Val} {m : Mem} {ps : List GoString}
    (h : ∀ p ∈ ps, paramValue H env p m = .ok (val p) m) :
    ∃ mp, setValue H env ps m = .ok mp m ∧ ∀ p ∈ ps, mpGet mp p = val p := by
  obtain ⟨mp, hmp, hin, -⟩ := setValueLoop_reads ps h []
  exact ⟨mp, hmp, hin⟩

/-! ## What conversion makes of a value -/

variable {h : Heap}

theorem decodeFields_copies {fuel : ℕ} {es : List Kv} {fs : List (GoString × Json)}
    (hes : (es.map Kv.key).Nodup)
    (hfs : es.mapM (fun e => (encode H h fuel e.value).map (e.key, ·)) = some fs)
    (es₀ : List Kv) (h₀ : Heap) (key : GoString) : (∀ w, lookup es key = some w →
      ∃ w', lookup (decodeFields H fs es₀ h₀).1 key = some w' ∧ CopyOf H h w w') ∧
    (lookup es key = none → lookup (decodeFields H fs es₀ h₀).1 key = lookup es₀ key) := by
  induction es generalizing fs es₀ h₀ with
  | nil =>
    obtain rfl : fs = [] := by simpa using hfs.symm
    exact ⟨fun w hw => (by cases hw), fun _ => rfl⟩
  | cons e es ih =>
    rw [map_cons, nodup_cons] at hes
    rw [mapM_cons] at hfs
    obtain ⟨f, hf, hfs⟩ := bind_eq_some_iff.mp hfs
    obtain ⟨fs', hfs', hcons⟩ := bind_eq_some_iff.mp hfs
    cases hcons
    obtain ⟨j, hj, rfl⟩ := map_eq_some_iff.mp hf
    obtain ⟨hsome, hnone⟩ := ih hes.2 hfs' (insertKey es₀ e.key (decode H j h₀).1) (decode H j h₀).2
    have hstep : decodeFields H ((e.key, j) :: fs') es₀ h₀ =
        decodeFields H fs' (insertKey es₀ e.key (decode H j h₀).1) (decode H j h₀).2 := by
      rw [decodeFields]
    rw [hstep, show e :: es = [e] ++ es from rfl, lookup_append]
    by_cases hkey : e.key = key
    · subst hkey
      have hes_none : lookup es e.key = none := lookup_eq_none hes.1
      have hsingle : lookup [e] e.key = some e.value := by simp [lookup]
      rw [hnone hes_none, lookup_insertKey_self, hsingle, some_or]
      refine ⟨fun w hw => ⟨_, rfl, .inr ⟨fuel, j, h₀, ?_, rfl⟩⟩, fun hn => (by cases hn)⟩
      rw [← some.inj hw, hj]
    · have hsingle : lookup [e] key = none := by simpa [lookup] using hkey
      rw [hsingle, none_or]
      refine ⟨hsome, fun hn => ?_⟩
      rw [hnone hn, lookup_insertKey_of_ne (Ne.symm hkey)]

/-- A map that can be encoded becomes a `ReplyData` with copies of its values; nil stays nil. -/
theorem convert_map (hkeys : h.KeysOnce) {v : Val} {base : Option Addr}
    (hv : v.mapBase = some base) (henc : Encodes H h v) :
    ∃ base' h', convertInterfaceToReply H v h = some (base', h') ∧
      (base' = none ↔ base = none) ∧ (∀ b ∈ base', b < h'.length) ∧
      ∀ key, Option.Rel (CopyOf H h) (lookup (h.mapEntries base) key)
        (lookup (h'.mapEntries base') key) := by
  -- a map and a pointer to it have the same encoding
  have hfields : ∃ j, encode H h maxNestingDepth v = some j ∧
      encode.encodeMap h base (fun e => (encode H h 9999 e.value).map (e.key, ·)) = some j := by
    obtain ⟨j, hj⟩ := isSome_iff_exists.mp henc
    refine ⟨j, hj, ?_⟩
    cases v with
    | map type b | mapPtr type b =>
      cases hv
      cases type with
      | any => cases hj
      | plain | reply => exact hj
    | _ => cases hv
  obtain ⟨j, hj, hmap⟩ := hfields
  have hconvert : convertInterfaceToReply H v h = decodeReply H j h := by
    rw [convertInterfaceToReply, hj, bind_some]
  rw [hconvert]
  cases base with
  | none =>
    cases hmap
    exact ⟨none, h, rfl, Iff.rfl, nofun, fun _ => .none⟩
  | some a =>
    obtain ⟨fs, hfs, rfl⟩ := map_eq_some_iff.mp hmap
    refine ⟨_, _, rfl, by simp, by simp [Heap.fresh, Heap.alloc], fun key => ?_⟩
    have hentries : ((decodeFields H fs [] h).2.alloc (.map (decodeFields H fs [] h).1)).mapEntries
        (some (decodeFields H fs [] h).2.fresh) = (decodeFields H fs [] h).1 :=
      entriesOf_alloc _ _
    obtain ⟨hsome, hnone⟩ := decodeFields_copies (hkeys a) hfs [] h key
    rw [hentries]
    show Option.Rel _ (lookup (h.entries a) key) _
    cases hw : lookup (h.entries a) key with
    | none =>
      rw [hnone hw]
      exact .none
    | some w =>
      obtain ⟨w', hw', hcopy⟩ := hsome w hw
      rw [hw']
      exact .some hcopy

theorem convert_of_not_encodes {v : Val} (hv : ¬ Encodes H h v) :
    convertInterfaceToReply H v h = none := by
  unfold Encodes at hv
  rw [not_isSome_iff_eq_none] at hv
  rw [convertInterfaceToReply, hv, bind_none]

theorem convert_nilSlice {v : Val} (hv : v.isNilSlice) :
    convertInterfaceToReply H v h = some (none, h) := by
  unfold Val.isNilSlice at hv
  split at hv
  · rfl
  · cases hv

theorem convert_other {v : Val} (hop : v.isOperand) (hmap : v.mapBase = none)
    (hnil : v.isNilSlice = false) : convertInterfaceToReply H v h = none := by
  rw [convertInterfaceToReply]
  cases v with
  | float x =>
    show (if x.isSpecial then none else some (Json.float x)).bind _ = none
    split_ifs
    · rfl
    · rfl
  | int n | int64 n => rfl
  | slice base len =>
    cases base with
    | none => cases hnil
    | some a =>
      show (Option.map Json.arr _).bind _ = none
      rw [bind_map]
      exact bind_eq_none_iff.mpr fun _ _ => rfl
  | map type base | mapPtr type base => cases hmap
  | _ => cases hop

/-! ## How the forms end -/

def Access.Meets (H : Host) (val : GoString → Val) (v : Val) (m : Mem)
    (o : Option (Option (Out × Mem))) (c : Access) : Prop :=
  (c.Valid H val v → ∃ out m', o = some (some (out, m')) ∧ c.Expected H val v m out m') ∧
    (¬ c.Valid H val v → o = some none)

theorem formsAgree_iff_outcome {c : Access} {x : GoString} {val : GoString → Val} {m : Mem}
    (o : Val → List Val → Option (Option (Out × Mem)))
    (hread : ∀ p ∈ x :: c.args, paramValue H env p m = .ok (val p) m)
    (hnamed : ∀ mp, setValue H env (x :: c.args) m = .ok mp m →
      ((c.named x).execute H env (some []) m).outcome = o (mpGet mp x) (c.args.map (mpGet mp)))
    (hpiped : ∀ mp, setValue H env c.args m = .ok mp m →
      (c.piped.execute H env (some [val x]) m).outcome = o (val x) (c.args.map (mpGet mp))) :
    FormsAgree H env c x val (val x) m ↔ c.Meets H val (val x) m (o (val x) (c.args.map val)) := by
  obtain ⟨mp, hset, hmp⟩ := setValue_reads hread
  obtain ⟨hx, hargs⟩ := forall_mem_cons.mp hmp
  obtain ⟨mp', hset', hargs'⟩ := setValue_reads (forall_mem_cons.mp hread).2
  have hnamed := hnamed mp hset
  have hpiped := hpiped mp' hset'
  rw [hx, map_congr_left hargs] at hnamed
  rw [map_congr_left hargs'] at hpiped
  generalize o (val x) (c.args.map val) = o at hnamed hpiped
  constructor
  · intro h
    refine ⟨fun hvalid => ?_, fun hvalid => ?_⟩
    · obtain ⟨out, m', hok, -, hexpected⟩ := h.valid hvalid
      exact ⟨out, m', hnamed ▸ Eff.outcome_eq_ok.mpr hok, hexpected⟩
    · exact hnamed ▸ Eff.outcome_eq_err.mpr (h.invalid hvalid).1
  · rintro ⟨hok, herr⟩
    refine ⟨fun hvalid => ?_, fun hvalid => ?_⟩
    · obtain ⟨out, m', ho, hexpected⟩ := hok hvalid
      exact ⟨out, m', Eff.outcome_eq_ok.mp (hnamed.trans ho),
        Eff.outcome_eq_ok.mp (hpiped.trans ho), hexpected⟩
    · exact ⟨Eff.outcome_eq_err.mp (hnamed.trans (herr hvalid)),
        Eff.outcome_eq_err.mp (hpiped.trans (herr hvalid))⟩

section

variable {c : Access} {val : GoString → Val} {v : Val} {m : Mem} {o : Option (Option (Out × Mem))}

theorem meets_iff_of_valid (h : c.Valid H val v) : c.Meets H val v m o ↔
    ∃ out m', o = some (some (out, m')) ∧ c.Expected H val v m out m' :=
  ⟨fun hm => hm.1 h, fun ho => ⟨fun _ => ho, fun hn => absurd h hn⟩⟩

theorem meets_iff_of_invalid (h : ¬ c.Valid H val v) : c.Meets H val v m o ↔ o = some none :=
  ⟨fun hm => hm.2 h, fun ho => ⟨fun hn => absurd hn h, fun _ => ho⟩⟩

theorem not_meets_none : ¬ c.Meets H val v m none := by
  intro hm
  by_cases h : c.Valid H val v
  · obtain ⟨out, m', ho, -⟩ := hm.1 h
    cases ho
  · cases hm.2 h

end

def replyOf (H : Host) (v : Val) (h : Heap) : Option (Option Addr × Heap) :=
  match v with
  | .map .reply base => some (base, h)
  | _ => convertInterfaceToReply H v h

theorem asReply_eq (v : Val) (msg : GoString) (m : Mem) :
    asReply H v msg m = match replyOf H v m.heap with
      | some r => .ok r.1 { m with heap := r.2 }
      | none => if m.heap.nests H.printDepth v then .err msg m else .panic := by
  cases v with
  | map type base =>
    cases type with
    | reply | plain | any => rfl
  | _ => rfl

/-- An error that shows a value, or the panic where it cannot. -/
def showOutcome (H : Host) (h : Heap) (v : Val) : Option (Option (Out × Mem)) :=
  if h.nests H.printDepth v then some none else none

theorem showOutcome_eq_err {v : Val} : showOutcome H h v = some none ↔ h.nests H.printDepth v := by
  unfold showOutcome
  split_ifs with hprint
  · exact iff_of_true rfl hprint
  · exact iff_of_false nofun hprint

theorem showOutcome_ne_ok {v : Val} (r : Out × Mem) : showOutcome H h v ≠ some (some r) := by
  unfold showOutcome
  split_ifs
  · nofun
  · nofun

theorem outcome_bind_of_show {α : Type} {s : Eval α} {f : α → Eval Out} {msg : GoString} {v : Val}
    {m : Mem} (hs : s m = if m.heap.nests H.printDepth v then .err msg m else .panic) :
    ((s >>= f) m).outcome = showOutcome H m.heap v := by
  rw [Comp.bind_apply, hs]
  unfold showOutcome
  split_ifs <;> rfl

def getOutcome (H : Host) (m : Mem) (v k : Val) : Option (Option (Out × Mem)) :=
  if (m.varTemp.flatten.map Kv.value).all (m.heap.nests H.printDepth) then
    match replyOf H v m.heap, k with
    | none, _ => showOutcome H m.heap v
    | some r, .str key =>
      some (some (some [mpGet (r.2.mapEntries r.1) key], { m with heap := r.2 }))
    | some _, _ => some none
  else none

section

variable {val : GoString → Val} {m : Mem} {x : GoString}

variable {k : GoString} {v : Val}

theorem get_outcome (hread : ∀ p ∈ [x, k], paramValue H env p m = .ok (val p) m) :
    FormsAgree H env (.get k) x val (val x) m ↔
      (Access.get k).Meets H val (val x) m (getOutcome H m (val x) (val k)) := by
  have hget (ps : List GoString) (p : GoString) (input : List Val) (mp : List Kv) (v : Val)
      (hset : setValue H env ps m = .ok mp m)
      (hform : ps = [p, k] ∧ mpGet mp p = v ∨ ps = [k] ∧ input = [v]) :
      (execGet H env Keyword.getExp.name ps input m).outcome = getOutcome H m v (mpGet mp k) := by
    unfold getOutcome
    by_cases hprint : (m.varTemp.flatten.map Kv.value).all (m.heap.nests H.printDepth)
    · have hscopes : printScopes H m = .ok () m := if_pos hprint
      rw [if_pos hprint]
      rcases hform with ⟨rfl, rfl⟩ | ⟨rfl, rfl⟩ <;>
        simp only [execGet, Comp.bind_apply, hscopes, hset, asReply_eq]
      · cases replyOf H (mpGet mp p) m.heap with
        | none =>
          dsimp only
          unfold showOutcome
          split_ifs <;> rfl
        | some r =>
          simp only [Comp.pure_apply]
          cases mpGet mp k <;> rfl
      · cases replyOf H v m.heap with
        | none =>
          dsimp only
          unfold showOutcome
          split_ifs <;> rfl
        | some r =>
          simp only [Comp.pure_apply]
          cases mpGet mp k <;> rfl
    · have hscopes : printScopes H m = .panic := if_neg hprint
      rw [if_neg hprint, execGet, Comp.bind_apply, hscopes]
      rfl
  exact formsAgree_iff_outcome (fun v vals => getOutcome H m v (vals.headD .nil)) hread
    (fun mp hset => hget _ x [] mp _ hset (.inl ⟨rfl, rfl⟩))
    fun mp hset => hget _ x [val x] mp _ hset (.inr ⟨rfl, rfl⟩)

/-- `put` and `delete` convert their map, ask for a string as the key, and go on with both. -/
def keyOutcome (H : Host) (m : Mem) (v k : Val) (finish : Option Addr → GoString → Eval Out) :
    Option (Option (Out × Mem)) :=
  match convertInterfaceToReply H v m.heap, k with
  | none, _ => showOutcome H m.heap v
  | some r, .str key => (finish r.1 key { m with heap := r.2 }).outcome
  | some r, k => showOutcome H r.2 k

theorem stringKey_of_not_str {mp : List Kv} (hk : (mpGet mp k).isStr = false) (between : String) :
    stringKey H mp k between m = if m.heap.nests H.printDepth (mpGet mp k) then
      .err (errorf "exp put: " k between ++ H.showVal m.heap (mpGet mp k)) m else .panic := by
  cases hv : mpGet mp k with
  | str key => rw [hv] at hk; cases hk
  | _ =>
    simp only [stringKey, hv, printVals, Comp.bind_apply, all_cons, all_nil, Bool.and_true]
    split_ifs <;> rfl

theorem key_outcome (v : Val) (mp : List Kv) (k : GoString) (between : String)
    (finish : Option Addr → GoString → Eval Out) : ((do
      let base ← toReply H v let key ← stringKey H mp k between
      finish base key : Eval Out) m).outcome = keyOutcome H m v (mpGet mp k) finish := by
  unfold keyOutcome
  have hreply : toReply H v m = convertReply H v (replyError H m.heap v) m := rfl
  cases hconvert : convertInterfaceToReply H v m.heap with
  | none =>
    simp only [convertReply, hconvert] at hreply
    exact outcome_bind_of_show hreply
  | some r =>
    simp only [convertReply, hconvert] at hreply
    rw [Comp.bind_apply, hreply]
    cases hk : mpGet mp k with
    | str key => simp [stringKey, hk, Comp.bind_apply]
    | _ =>
      have hshow := stringKey_of_not_str (H := H) (m := { m with heap := r.2 })
        (by rw [hk]; rfl : (mpGet mp k).isStr = false) between
      rw [hk] at hshow
      exact outcome_bind_of_show hshow

variable {a : GoString}

theorem put_outcome (hread : ∀ p ∈ [x, k, a], paramValue H env p m = .ok (val p) m) :
    FormsAgree H env (.put k a) x val (val x) m ↔ (Access.put k a).Meets H val (val x) m
      (keyOutcome H m (val x) (val k) fun b key => execPut.finish b key (val a)) := by
  refine formsAgree_iff_outcome (fun v vals => keyOutcome H m v (vals.headD .nil) fun b key =>
    execPut.finish b key (vals.getD 1 .nil)) hread
    (fun mp (hset : setValue H env [x, k, a] m = _) => ?_)
    fun mp (hset : setValue H env [k, a] m = _) => ?_
  · show (execPut H env Keyword.putExp.name [x, k, a] [] m).outcome = _
    rw [execPut, Comp.bind_apply, hset]
    exact key_outcome (mpGet mp x) mp k _ _
  · show (execPut H env Keyword.putExp.name [k, a] [val x] m).outcome = _
    rw [execPut, Comp.bind_apply, hset]
    exact key_outcome (val x) mp k _ _

theorem delete_outcome (hread : ∀ p ∈ [x, k], paramValue H env p m = .ok (val p) m) :
    FormsAgree H env (.delete k) x val (val x) m ↔ (Access.delete k).Meets H val (val x) m
      (keyOutcome H m (val x) (val k) execDelete.finish) := by
  refine formsAgree_iff_outcome (fun v vals => keyOutcome H m v (vals.headD .nil)
    execDelete.finish) hread (fun mp (hset : setValue H env [x, k] m = _) => ?_)
    fun mp (hset : setValue H env [k] m = _) => ?_
  · show (execDelete H env [x, k] [] m).outcome = _
    rw [execDelete, Comp.bind_apply, hset]
    exact key_outcome (mpGet mp x) mp k _ _
  · show (execDelete H env [k] [val x] m).outcome = _
    rw [execDelete, Comp.bind_apply, hset]
    exact key_outcome (val x) mp k _ _

/-! ## When they agree -/

theorem replyOf_of_not_isReply (hv : v.isReply = false) (h : Heap) :
    replyOf H v h = convertInterfaceToReply H v h := by
  unfold replyOf
  split
  · cases hv
  · rfl

variable {h : Heap} {key : GoString}

theorem copyOf_mpGet {es es' : List Kv}
    (hrel : Option.Rel (CopyOf H h) (lookup es key) (lookup es' key)) :
    CopyOf H h (mpGet es key) (mpGet es' key) := by
  unfold mpGet
  generalize lookup es key = o, lookup es' key = o' at hrel
  cases hrel with
  | none => exact .inl rfl
  | some hcopy => exact hcopy

variable {base : Option Addr}

theorem not_isNilSlice_of_map (hmap : v.mapBase = some base) : v.isNilSlice = false := by
  cases v with
  | slice b len => cases hmap
  | _ => rfl

theorem eq_of_isReply (h : v.isReply) : ∃ base, v = .map .reply base := by
  unfold Val.isReply at h
  split at h
  · exact ⟨_, rfl⟩
  · cases h

theorem reported_iff : v.isReply ∨ Reported H h v ↔
    (replyOf H v h = none → h.nests H.printDepth v) := by
  cases hreply : v.isReply with
  | true =>
    obtain ⟨base, rfl⟩ := eq_of_isReply hreply
    simp [replyOf]
  | false =>
    rw [replyOf_of_not_isReply hreply]
    simp [Reported]

section

variable (hprint : (m.varTemp.flatten.map Kv.value).all (m.heap.nests H.printDepth))
include hprint

theorem getOutcome_of_none (hnone : replyOf H v m.heap = none) (k : Val) :
    getOutcome H m v k = showOutcome H m.heap v := by
  unfold getOutcome
  rw [if_pos hprint, hnone]

theorem getOutcome_of_some {r : Option Addr × Heap} (hr : replyOf H v m.heap = some r)
    (key : GoString) : getOutcome H m v (.str key) =
      some (some (some [mpGet (r.2.mapEntries r.1) key], { m with heap := r.2 })) := by
  unfold getOutcome
  rw [if_pos hprint, hr]

theorem getOutcome_of_not_str {r : Option Addr × Heap} (hr : replyOf H v m.heap = some r) {k : Val}
    (hk : k.isStr = false) : getOutcome H m v k = some none := by
  unfold getOutcome
  rw [if_pos hprint, hr]
  cases k with
  | str key => cases hk
  | _ => rfl

theorem getOutcome_str_iff (hkeys : m.heap.KeysOnce) (hop : v.isOperand) (hk : val k = .str key) :
    (Access.get k).Meets H val v m (getOutcome H m v (.str key)) ↔
      (replyOf H v m.heap = none → m.heap.nests H.printDepth v) ∧
        v.isNilSlice = false ∧ (v.mapBase.isSome → v.isReply ∨ Encodes H m.heap v) := by
  have hstr : (val k).toStr = key := by rw [hk]; rfl
  cases hmap : v.mapBase with
  | none =>
    have hinvalid : ¬ (Access.get k).Valid H val v := by simp [Access.Valid, hmap]
    have hreply : v.isReply = false := by
      cases v with
      | map type base => cases hmap
      | _ => rfl
    rw [meets_iff_of_invalid hinvalid]
    cases hnil : v.isNilSlice with
    | true =>
      have hsome := (replyOf_of_not_isReply hreply m.heap).trans (convert_nilSlice (H := H) hnil)
      simp [getOutcome_of_some hprint hsome]
    | false =>
      have hnone := (replyOf_of_not_isReply hreply m.heap).trans
        (convert_other (H := H) hop hmap hnil)
      simp [getOutcome_of_none hprint hnone, hnone, showOutcome_eq_err]
  | some base =>
    have hvalid : (Access.get k).Valid H val v := ⟨by rw [hmap]; rfl, by rw [hk]; rfl⟩
    rw [meets_iff_of_valid hvalid]
    simp only [not_isNilSlice_of_map hmap, true_and, isSome_some, forall_const]
    cases hreply : v.isReply with
    | true =>
      obtain ⟨b, rfl⟩ := eq_of_isReply hreply
      obtain rfl := some.inj hmap
      rw [getOutcome_of_some hprint rfl]
      refine iff_of_true ⟨_, _, rfl, b, _, rfl, rfl, ?_⟩ ⟨nofun, .inl rfl⟩
      rw [hstr]
      exact .inl rfl
    | false =>
      by_cases henc : Encodes H m.heap v
      · obtain ⟨base', h', hconvert, -, -, hcopies⟩ := convert_map hkeys hmap henc
        have hsome := (replyOf_of_not_isReply hreply m.heap).trans hconvert
        rw [getOutcome_of_some hprint hsome, hsome]
        refine iff_of_true ⟨_, _, rfl, base, _, hmap, rfl, ?_⟩ ⟨nofun, .inr henc⟩
        rw [hstr]
        exact copyOf_mpGet (hcopies key)
      · have hnone := (replyOf_of_not_isReply hreply m.heap).trans (convert_of_not_encodes henc)
        simp [getOutcome_of_none hprint hnone, showOutcome_ne_ok, henc]

end

theorem get_agrees_iff (hkeys : m.heap.KeysOnce) (hop : (val x).isOperand)
    (hread : ∀ p ∈ [x, k], paramValue H env p m = .ok (val p) m) :
    FormsAgree H env (.get k) x val (val x) m ↔ Access.AgreesWhen H x val (val x) m (.get k) := by
  rw [get_outcome hread]
  by_cases hprint : (m.varTemp.flatten.map Kv.value).all (m.heap.nests H.printDepth)
  · simp only [Access.AgreesWhen, hprint, true_and, reported_iff]
    cases hk : val k with
    | str key =>
      rw [getOutcome_str_iff hprint hkeys hop hk]
      simp [Val.isStr]
    | _ =>
      have hinvalid : ¬ (Access.get k).Valid H val (val x) := by simp [Access.Valid, hk, Val.isStr]
      rw [meets_iff_of_invalid hinvalid]
      cases hreply : replyOf H (val x) m.heap with
      | none => simp [getOutcome_of_none hprint hreply, showOutcome_eq_err, Val.isStr]
      | some r =>
        rw [getOutcome_of_not_str hprint hreply rfl]
        simp [Val.isStr]
  · have hpanic : getOutcome H m (val x) (val k) = none := if_neg hprint
    rw [hpanic]
    exact iff_of_false not_meets_none fun hwhen => hprint hwhen.1

theorem entries_set {b : Addr} (hb : b < h.length) (es : List Kv) :
    Heap.entries (h.set b (.map es)) b = es := by
  unfold Heap.entries
  rw [getElem?_set_self hb]

theorem lookup_eraseKey_self (es : List Kv) (key : GoString) :
    lookup (eraseKey es key) key = none := by
  apply lookup_eq_none
  simp [eraseKey]

theorem lookup_eraseKey_of_ne (hne : k ≠ key) (es : List Kv) :
    lookup (eraseKey es key) k = lookup es k := by
  unfold lookup eraseKey
  rw [find?_filter]
  congr 2
  funext e
  by_cases he : e.key = k
  · simp [he, hne]
  · simp [he]

theorem keyOutcome_of_none (h : convertInterfaceToReply H v m.heap = none) (k : Val)
    (finish : Option Addr → GoString → Eval Out) :
    keyOutcome H m v k finish = showOutcome H m.heap v := by
  unfold keyOutcome
  rw [h]

theorem keyOutcome_of_some {r : Option Addr × Heap}
    (h : convertInterfaceToReply H v m.heap = some r) (key : GoString)
    (finish : Option Addr → GoString → Eval Out) :
    keyOutcome H m v (.str key) finish = (finish r.1 key { m with heap := r.2 }).outcome := by
  unfold keyOutcome
  rw [h]

/-- The conversion puts new values on the heap, and the key shows what it did. -/
theorem keyOutcome_of_not_str {r : Option Addr × Heap}
    (h : convertInterfaceToReply H v m.heap = some r) {k : Val} (hk : k.isStr = false)
    (hheap : ∀ w, m.heap.Holds k w → m.heap.Has w) (finish : Option Addr → GoString → Eval Out) :
    keyOutcome H m v k finish = showOutcome H m.heap k := by
  unfold keyOutcome
  rw [h]
  have hsame := Heap.nests_of_grows (convertInterfaceToReply_grows h).1 hheap H.printDepth
  cases k with
  | str key => cases hk
  | _ => simp only [showOutcome, hsame]

/-- When `put` and `delete` do what is expected. -/
theorem key_meets_iff {c : Access} {finish : Option Addr → GoString → Eval Out}
    (hkeys : m.heap.KeysOnce) (hop : v.isOperand)
    (hheap : ∀ w, m.heap.Holds (val k) w → m.heap.Has w)
    (hvalid : c.Valid H val v ↔ v.mapBase.isSome ∧ (val k).isStr)
    (hnull : ∀ key, (finish none key m).outcome ≠ some none) {Q : Option Addr → Prop}
    (hcopied : ∀ base base' h', v.mapBase = some base → (base' = none ↔ base = none) →
      (∀ b ∈ base', b < h'.length) →
      (∀ key, Option.Rel (CopyOf H m.heap) (lookup (m.heap.mapEntries base) key)
        (lookup (h'.mapEntries base') key)) →
      ((∃ out m', (finish base' (val k).toStr { m with heap := h' }).outcome =
        some (some (out, m')) ∧ c.Expected H val v m out m') ↔ Q base)) :
    c.Meets H val v m (keyOutcome H m v (val k) finish) ↔ KeyReported H m.heap v (val k) ∧
      ((val k).isStr → v.isNilSlice = false ∧
        ∀ base, v.mapBase = some base → Q base ∧ Encodes H m.heap v) := by
  cases hstr : (val k).isStr with
  | false =>
    rw [meets_iff_of_invalid (by simp [hvalid, hstr])]
    cases hconvert : convertInterfaceToReply H v m.heap with
    | none =>
      rw [keyOutcome_of_none hconvert, showOutcome_eq_err]
      simp [KeyReported, Reported, hconvert]
    | some r =>
      rw [keyOutcome_of_not_str hconvert hstr hheap, showOutcome_eq_err]
      simp [KeyReported, Reported, hconvert, hstr]
  | true =>
    obtain ⟨key, hk⟩ : ∃ key, val k = .str key := by
      cases hk : val k <;> simp [hk, Val.isStr] at hstr ⊢
    have hreported : KeyReported H m.heap v (val k) ↔ Reported H m.heap v := by
      simp [KeyReported, hstr]
    rw [hreported]
    rw [hk] at hcopied ⊢
    cases hmap : v.mapBase with
    | none =>
      rw [meets_iff_of_invalid (by simp [hvalid, hmap])]
      cases hnil : v.isNilSlice with
      | true =>
        rw [keyOutcome_of_some (convert_nilSlice hnil)]
        simp [hnull key]
      | false =>
        have hnone := convert_other (H := H) (h := m.heap) hop hmap hnil
        rw [keyOutcome_of_none hnone, showOutcome_eq_err]
        simp [Reported, hnone]
    | some base =>
      rw [meets_iff_of_valid (hvalid.mpr (by simp [hmap, hstr])), not_isNilSlice_of_map hmap]
      -- a map that encodes is decoded to a copy, which the form then works on
      by_cases henc : Encodes H m.heap v
      · obtain ⟨base', h', hconvert, hbase, hbound, hcopies⟩ := convert_map hkeys hmap henc
        rw [keyOutcome_of_some hconvert]
        simpa [henc, Val.toStr, Reported, hconvert] using
          hcopied base base' h' hmap hbase hbound hcopies
      · rw [keyOutcome_of_none (convert_of_not_encodes henc)]
        simp [henc, showOutcome_ne_ok]

theorem put_agrees_iff (hkeys : m.heap.KeysOnce) (hop : (val x).isOperand)
    (hheap : ∀ w, m.heap.Holds (val k) w → m.heap.Has w)
    (hread : ∀ p ∈ [x, k, a], paramValue H env p m = .ok (val p) m) :
    FormsAgree H env (.put k a) x val (val x) m ↔
      Access.AgreesWhen H x val (val x) m (.put k a) := by
  rw [put_outcome hread, key_meets_iff hkeys hop hheap Iff.rfl
    (fun _ => by simp [execPut.finish, Eff.outcome]) (Q := (· ≠ none))]
  · simp only [Access.AgreesWhen]
    cases (val x).mapBase with
    | none | some base => simp
  · intro base base' h' hmap hbase hbound hcopies
    cases base' with
    | none => simp [execPut.finish, Eff.outcome, hbase.mp rfl]
    | some b =>
      have hentries := entries_set (hbound b rfl) (insertKey (h'.entries b) (val k).toStr (val a))
      refine iff_of_true ⟨_, _, rfl, base, b, hmap, rfl, ?_, fun key' hne' => ?_⟩
        fun h => by simpa using hbase.mpr h
      · show lookup (Heap.entries (h'.set b _) b) _ = _
        rw [hentries, lookup_insertKey_self]
      · show Option.Rel _ _ (lookup (Heap.entries (h'.set b _) b) _)
        rw [hentries, lookup_insertKey_of_ne hne']
        exact hcopies key'

theorem delete_agrees_iff (hkeys : m.heap.KeysOnce) (hop : (val x).isOperand)
    (hheap : ∀ w, m.heap.Holds (val k) w → m.heap.Has w)
    (hread : ∀ p ∈ [x, k], paramValue H env p m = .ok (val p) m) :
    FormsAgree H env (.delete k) x val (val x) m ↔
      Access.AgreesWhen H x val (val x) m (.delete k) := by
  rw [delete_outcome hread, key_meets_iff hkeys hop hheap Iff.rfl
    (fun _ => by simp [execDelete.finish, Eval.onHeap, Eff.outcome]) (Q := fun _ => True)]
  · simp only [Access.AgreesWhen]
    cases (val x).mapBase with
    | none | some base => simp
  · intro base base' h' hmap _ hbound hcopies
    refine iff_of_true ?_ trivial
    cases base' with
    | none =>
      refine ⟨_, _, rfl, base, none, hmap, rfl, rfl, fun key' _ => ?_⟩
      exact hcopies key'
    | some b =>
      have hentries := entries_set (hbound b rfl) (eraseKey (h'.entries b) (val k).toStr)
      refine ⟨_, _, rfl, base, some b, hmap, rfl, ?_, fun key' hne' => ?_⟩
      · show lookup (Heap.entries (h'.set b _) b) _ = _
        rw [hentries, lookup_eraseKey_self]
      · show Option.Rel _ _ (lookup (Heap.entries (h'.set b _) b) _)
        rw [hentries, lookup_eraseKey_of_ne hne']
        exact hcopies key'

theorem getp_never_agrees (hread : ∀ p ∈ [x, k], paramValue H env p m = .ok (val p) m) :
    ¬ FormsAgree H env (.getp k) x val (val x) m := by
  obtain ⟨mp, hset, -⟩ := setValue_reads hread
  have hpanic : ((Access.getp k).named x).execute H env (some []) m = .panic := by
    show execGetp H env Keyword.getpExp.name [x, k] [] m = .panic
    rw [execGetp, Comp.bind_apply, hset]
    rfl
  intro h
  by_cases hvalid : (Access.getp k).Valid H val (val x)
  · obtain ⟨out, m', hok, -⟩ := h.valid hvalid
    rw [hpanic] at hok
    cases hok
  · obtain ⟨msg, m', herr⟩ := (h.invalid hvalid).1
    rw [hpanic] at herr
    cases herr

variable {len : ℕ}

theorem convertArray_empty (hop : v.isOperand) (harr : array.has v = false) {h' : Heap}
    (hconvert : convertInterfaceToArray H v h = some ((base, len), h')) : len = 0 := by
  have hmap : ∀ (b : Option Addr) (f : Kv → Option (GoString × Json)),
      ((encode.encodeMap h b f).bind fun j => decodeArray H j h) = some ((base, len), h') →
        len = 0 := by
    intro b f hdecode
    cases b with
    | none =>
      cases hdecode
      rfl
    | some a =>
      obtain ⟨j, hj, hdecode⟩ := bind_eq_some_iff.mp hdecode
      obtain ⟨fs, -, rfl⟩ := map_eq_some_iff.mp hj
      cases hdecode
  cases v with
  | float y =>
    obtain ⟨j, hj, hdecode⟩ := bind_eq_some_iff.mp hconvert
    have hj' : (if y.isSpecial then none else some (Json.float y)) = some j := hj
    split_ifs at hj'
    cases hj'
    cases hdecode
  | int n | int64 n => cases hconvert
  | slice b l => cases harr
  | map type b | mapPtr type b =>
    cases type with
    | any => cases hconvert
    | plain | reply => exact hmap b _ hconvert
  | _ => cases hop

theorem asArray_of_not_array (harr : array.has v = false) (msg : GoString) :
    asArray H v msg = Eval.onHeap? (convertInterfaceToArray H v) msg := by
  cases v with
  | slice base len => cases harr
  | _ => rfl

theorem pop_piped_fails (hop : (val x).isOperand) (hinvalid : ¬ Access.Valid H val (val x) .pop) :
    ∃ msg m', Access.pop.piped.execute H env (some [val x]) m = .err msg m' := by
  show ∃ msg m', execPop H Keyword.popExp.name [val x] m = .err msg m'
  generalize val x = v at hop hinvalid
  cases harr : array.has v with
  | true =>
    cases v with
    | slice base len =>
      cases len with
      | zero => exact ⟨_, _, rfl⟩
      | succ n => exact absurd ⟨base, n, rfl⟩ hinvalid
    | _ => cases harr
  | false =>
    rw [execPop, Comp.bind_apply, asArray_of_not_array harr, Eval.onHeap?]
    cases hconvert : convertInterfaceToArray H v m.heap with
    | none => exact ⟨_, _, rfl⟩
    | some r =>
      obtain ⟨⟨base, len⟩, h'⟩ := r
      obtain rfl := convertArray_empty hop harr hconvert
      exact ⟨_, _, rfl⟩

/-- A form that always fails agrees where the other one has to fail. -/
theorem formsAgree_of_named_err {c : Access} {msg : GoString} {m' : Mem}
    (hnamed : (c.named x).execute H env (some []) m = .err msg m')
    (hpiped : ¬ c.Valid H val v → ∃ msg m', c.piped.execute H env (some [v]) m = .err msg m') :
    FormsAgree H env c x val v m ↔ ¬ c.Valid H val v := by
  constructor
  · intro h hvalid
    obtain ⟨out, m', hok, -⟩ := h.valid hvalid
    rw [hnamed] at hok
    cases hok
  · exact fun hinvalid => ⟨fun hvalid => absurd hvalid hinvalid,
      fun _ => ⟨⟨_, _, hnamed⟩, hpiped hinvalid⟩⟩

theorem subtract_str_fails (v : Val) (b : GoString) : ∃ msg, subtract H v (.str b) = .err msg := by
  cases v <;> exact ⟨_, rfl⟩

theorem sub_agrees_iff {b : GoString} :
    FormsAgree H env (.sub b) x val (val x) m ↔ ¬ Access.Valid H val (val x) (.sub b) := by
  have hfails : ∀ v, ∃ msg, execSub.finish H v (.str b) m = .err msg m := by
    intro v
    obtain ⟨msg, hmsg⟩ := subtract_str_fails (H := H) v b
    exact ⟨msg, by simp only [execSub.finish, hmsg]⟩
  obtain ⟨msg, hnamed⟩ := hfails (.str x)
  obtain ⟨msg', hpiped⟩ := hfails (val x)
  exact formsAgree_of_named_err hnamed fun _ => ⟨_, _, hpiped⟩

theorem children_appendVal (base : Option Addr) (len : ℕ) (w : Val) (h : Heap) :
    (appendVal H base len w h).2.children (appendVal H base len w h).1 =
      h.elems base len ++ [w] := by
  cases base with
  | none => exact children_allocSlice [w] h
  | some a =>
    unfold appendVal
    simp only
    split_ifs with hlen
    · show List.take (len + 1) (Heap.slots (h.setSlot a len w) a) = List.take len (h.slots a) ++ [w]
      rw [Heap.slots_setSlot_self hlen, take_add_one, getElem?_set_self hlen,
        take_set_of_le le_rfl]
      rfl
    · exact children_allocSlice _ h

theorem push_array (hx : val x = .slice base len)
    (hread : ∀ p ∈ [x, a], paramValue H env p m = .ok (val p) m) :
    ((Access.push a).named x).execute H env (some []) m =
        .ok (some [(appendVal H base len (val a) m.heap).1])
          { m with heap := (appendVal H base len (val a) m.heap).2 } ∧
      (Access.push a).piped.execute H env (some [val x]) m =
        .ok (some [(appendVal H base len (val a) m.heap).1])
          { m with heap := (appendVal H base len (val a) m.heap).2 } := by
  obtain ⟨mp, hset, hmp⟩ := setValue_reads hread
  obtain ⟨mp', hset', hmp'⟩ := setValue_reads (forall_mem_cons.mp hread).2
  have hxv := hmp x (by simp)
  have hav := hmp a (by simp)
  have hav' := hmp' a (by simp)
  constructor
  · show execPush H env Keyword.pushExp.name [x, a] [] m = _
    simp only [execPush, Comp.bind_apply, hset, hxv, hx, hav, Comp.pure_apply]
    rfl
  · show execPush H env Keyword.pushExp.name [a] [val x] m = _
    simp only [execPush, Comp.bind_apply, hset', hx, hav', asArray, Comp.pure_apply]
    rfl

theorem push_piped_err_iff (harr : array.has (val x) = false)
    (hread : ∀ p ∈ [x, a], paramValue H env p m = .ok (val p) m) :
    (∃ msg m', (Access.push a).piped.execute H env (some [val x]) m = .err msg m') ↔
      convertInterfaceToArray H (val x) m.heap = none := by
  obtain ⟨mp, hset, -⟩ := setValue_reads (forall_mem_cons.mp hread).2
  show (∃ msg m', execPush H env Keyword.pushExp.name [a] [val x] m = .err msg m') ↔ _
  simp only [execPush, Comp.bind_apply, hset, asArray_of_not_array harr, Eval.onHeap?]
  cases convertInterfaceToArray H (val x) m.heap with
  | none => simp
  | some r => simp [Eval.onHeap]

theorem push_named_err_iff (harr : array.has (val x) = false)
    (hread : ∀ p ∈ [x, a], paramValue H env p m = .ok (val p) m) :
    (∃ msg m', ((Access.push a).named x).execute H env (some []) m = .err msg m') ↔
      convertInterfaceToArray H (.str x) m.heap = none := by
  obtain ⟨mp, hset, hmp⟩ := setValue_reads hread
  have hxv := hmp x (by simp)
  show (∃ msg m', execPush H env Keyword.pushExp.name [x, a] [] m = .err msg m') ↔ _
  simp only [execPush, Comp.bind_apply, hset, hxv]
  cases hv : val x with
  | slice base len => rw [hv] at harr; cases harr
  | _ =>
    simp only [Eval.onHeap?]
    cases convertInterfaceToArray H (.str x) m.heap with
    | none => simp
    | some r => simp [Eval.onHeap]

theorem push_agrees_iff (hread : ∀ p ∈ [x, a], paramValue H env p m = .ok (val p) m) :
    FormsAgree H env (.push a) x val (val x) m ↔ Access.AgreesWhen H x val (val x) m (.push a) := by
  simp only [Access.AgreesWhen]
  cases harr : array.has (val x) with
  | true =>
    obtain ⟨base, len, hx⟩ : ∃ base len, val x = .slice base len := by
      cases hv : val x <;> simp [hv, has] at harr ⊢
    obtain ⟨hnamed, hpiped⟩ := push_array hx hread
    refine iff_of_true ⟨fun _ => ⟨_, _, hnamed, hpiped, _, rfl, ?_⟩, fun h => absurd harr h⟩
      (.inl rfl)
    rw [hx]
    exact children_appendVal base len (val a) m.heap
  | false =>
    have hinvalid : ¬ (Access.push a).Valid H val (val x) := by simp [Access.Valid, harr]
    rw [← push_piped_err_iff harr hread, ← push_named_err_iff harr hread]
    constructor
    · intro h
      exact .inr (h.invalid hinvalid).symm
    · intro h
      obtain ⟨hpiped, hnamed⟩ := h.resolve_left (by simp)
      exact ⟨fun hvalid => absurd hvalid hinvalid, fun _ => ⟨hnamed, hpiped⟩⟩

end

end

def arrayInScope : Mem :=
  ⟨[.arr [.bool true]], 0, [[⟨".x", .slice (some 0) 1⟩]]⟩

def arrayValues : GoString → Val := fun p =>
  if p = ".x" then .slice (some 0) 1 else .str "a"

end Kairos
