import Kairos.Go.Aliasing
import Kairos.Template.Scopes
import Kairos.Template.Stages

/-!
# What an access leaves alone

The expressions that read or update arrays and maps return new values and set no variable but those
of a range. All but `push` only add to the heap: `put` and `delete` write to a copy that they have
just made.
-/

namespace Kairos

open List Option
open Effects (Comp Eff)
open Effects.Comp (Keeps)

def accessKeywords : List Keyword :=
  [.getExp, .getpExp, .putExp, .deleteExp, .pushExp, .popExp, .mergeExp, .send, .sendu, .sendsync,
    .rangeExp]

def Expression.isAccess (e : Expression) : Bool := accessKeywords.any e.is

def Expression.destinations (e : Expression) : List GoString :=
  if e.is .setExp || e.is .define then e.params.take 1
  else if e.is .rangeExp then (e.params.drop 1).take 2
  else []

def Program.destinations (t : Program) (row : ℕ) : List GoString :=
  (t.exps[row]?.getD []).flatMap Expression.destinations

/-- The replies, and the variables that are no destination of the row. -/
inductive OffLimits (t : Program) (row : ℕ) (s : State) : Val → Prop where
  | reply (name : GoString) (base : Option Addr) (h : (name, base) ∈ t.env.outputVars) :
      OffLimits t row s (.map .reply base)
  | variable (kv : Kv) (h : kv ∈ s.varTemp.flatten) (hdest : kv.key ∉ t.destinations row) :
      OffLimits t row s kv.value

structure Framed (t : Program) (row : ℕ) (s s' : State) : Prop where
  values : ∀ v, OffLimits t row s v → s.heap.Unchanged s'.heap v
  bindings : ∀ key, key ∉ t.destinations row → s'.varTemp.getValue key = s.varTemp.getValue key

def Point.Framed (H : Host) (t : Program) : Point → Prop
  | .stage i idx edx (e :: _) s =>
    e.isAccess → ∀ s' ∈ (runStage H t idx edx e s).state?, Kairos.Framed t i s s'
  | _ => True

section

variable (H : Host) (env : ExecEnv)

def pushTarget (ps : List GoString) (input : List Val) (mp : List Kv) : Option (Val × Val) :=
  match ps, input with
  | [p], v :: _ => some (v, mpGet mp p)
  | p :: q :: _, _ => some (mpGet mp p, mpGet mp q)
  | _, _ => none

def appendSlot (h : Heap) : Val → Option (Addr × ℕ)
  | .slice (some a) len => if len < (h.slots a).length then some (a, len) else none
  | _ => none

def pushSlot (ps : List GoString) (input : List Val) (m : Mem) : Option (Addr × ℕ × Val) :=
  match setValue H env ps m with
  | .ok mp m₁ =>
    match pushTarget ps input mp with
    | some (w, v) => (appendSlot m₁.heap w).map fun slot => (slot.1, slot.2, v)
    | none => none
  | _ => none

end

/-- The next stage is a `push` that overwrites a slot of a value that is off limits. -/
def Point.Clobbers (H : Host) (t : Program) : Point → Prop
  | .stage i idx edx (e :: _) s =>
    e.is .pushExp ∧ (runStage H t idx edx e s).state?.isSome ∧ ∃ a j v,
      pushSlot H t.env e.params (s.expInput.getD []) s.toMem = some (a, j, v) ∧
      a < s.heap.length ∧ (s.heap.slots a)[j]? ≠ some v ∧
      ∃ r len, OffLimits t i s r ∧ s.heap.Holds r (.slice (some a) len) ∧ j < len
  | _ => False

/-! ## What the expressions write -/

section

variable {H : Host} {env : ExecEnv} {h : Heap} {base : Option Addr} {len : ℕ}

theorem appendVal_of_slot {i : ℕ} {a : Addr}
    (hslot : appendSlot h (.slice base len) = some (a, i)) (v : Val) :
    i < (h.slots a).length ∧ (appendVal H base len v h).2 = h.setSlot a i v := by
  cases base with
  | none => cases hslot
  | some b =>
    unfold appendSlot at hslot
    by_cases hlen : len < (h.slots b).length
    · simp only [if_pos hlen, some.injEq, Prod.mk.injEq] at hslot
      obtain ⟨rfl, rfl⟩ := hslot
      exact ⟨hlen, by simp only [appendVal, if_pos hlen]⟩
    · simp [hlen] at hslot

theorem appendVal_of_none (hslot : appendSlot h (.slice base len) = none) (v : Val) :
    h <+: (appendVal H base len v h).2 := by
  cases base with
  | none => exact prefix_append h _
  | some b =>
    unfold appendSlot at hslot
    by_cases hlen : len < (h.slots b).length
    · simp [hlen] at hslot
    · simp only [appendVal, if_neg hlen]
      exact prefix_append h _

theorem appendVal_grows {h' : Heap} (hh : h <+: h')
    (hnew : ∀ a ∈ base, h.length ≤ a) (len : ℕ) (v : Val) :
    h <+: (appendVal H base len v h').2 := by
  cases hslot : appendSlot h' (.slice base len) with
  | none => exact hh.trans (appendVal_of_none hslot v)
  | some slot =>
    obtain ⟨a, i⟩ := slot
    have ha : a ∈ base := by
      cases base with
      | none => cases hslot
      | some b =>
        by_cases hlen : len < (h'.slots b).length
        · simp only [appendSlot, if_pos hlen, some.injEq, Prod.mk.injEq] at hslot
          simp [hslot.1]
        · simp [appendSlot, hlen] at hslot
    rw [(appendVal_of_slot hslot v).2]
    exact grows_set hh (hnew a ha) _

inductive Source (m : Mem) (w : Val) : Eff Mem GoString (Option Addr × ℕ) → Prop where
  | slice (base : Option Addr) (len : ℕ) (h : w = .slice base len) : Source m w (.ok (base, len) m)
  | copy (r : (Option Addr × ℕ) × Heap) (h : appendSlot m.heap w = none) (hh : m.heap <+: r.2)
      (hnew : ∀ a ∈ r.1.1, m.heap.length ≤ a) : Source m w (.ok r.1 { m with heap := r.2 })
  | none (msg : GoString) (h : appendSlot m.heap w = none) : Source m w (.err msg m)

variable {w : Val} {m : Mem}

theorem source_of_convert {w' : Val} {msg : GoString} (hw : ∀ base len, w ≠ .slice base len) :
    Source m w (Eval.onHeap? (convertInterfaceToArray H w') msg m) := by
  have hslot : appendSlot m.heap w = none := by
    unfold appendSlot
    split
    · exact absurd rfl (hw _ _)
    · rfl
  unfold Eval.onHeap?
  cases hconv : convertInterfaceToArray H w' m.heap with
  | none => exact .none msg hslot
  | some r =>
    obtain ⟨hh, hnew⟩ := convertInterfaceToArray_grows hconv
    exact .copy r hslot hh hnew

theorem source_of_asArray (w : Val) (m : Mem) (msg : GoString) :
    Source m w (asArray H w msg m) := by
  unfold asArray
  split
  · exact .slice _ _ rfl
  · rename_i hw
    exact source_of_convert hw

inductive PushWrites (m m' : Mem) : Option (Addr × ℕ × Val) → Prop where
  | inPlace (a : Addr) (i : ℕ) (v : Val) (m₁ : Mem) (hgrows : Grows m m₁)
      (hi : i < (m₁.heap.slots a).length) (hheap : m'.heap = m₁.heap.setSlot a i v) :
      PushWrites m m' (some (a, i, v))
  | grows (h : m.heap <+: m'.heap) : PushWrites m m' none

variable {m' : Mem}

theorem push_source {m₁ : Mem} {v : Val} {source : Eval (Option Addr × ℕ)}
    (hgrows : Grows m m₁) (hsource : Source m₁ w (source m₁))
    (hrun : (((source >>= fun src => pure (src, v)) >>= fun x =>
      Eval.onHeap (appendVal H x.1.1 x.1.2 x.2) >>= fun y =>
        pure (some [y]) : Eval Out) m₁).state? = some m') :
    PushWrites m m' ((appendSlot m₁.heap w).map fun slot => (slot.1, slot.2, v)) := by
  rw [Comp.bind_apply, Comp.bind_apply] at hrun
  generalize source m₁ = x at hsource hrun
  cases hsource with
  | slice base len hw =>
    cases hrun
    subst hw
    cases hslot : appendSlot m₁.heap (.slice base len) with
    | none => exact .grows (hgrows.heap.trans (appendVal_of_none hslot v))
    | some slot =>
      obtain ⟨hi, heq⟩ := appendVal_of_slot (H := H) hslot v
      exact .inPlace _ _ _ m₁ hgrows hi heq
  | copy r hslot hh hnew =>
    cases hrun
    rw [hslot]
    exact .grows (hgrows.heap.trans (appendVal_grows hh hnew _ v))
  | none msg hslot =>
    cases hrun
    rw [hslot]
    exact .grows hgrows.heap

theorem execPush_writes {func : GoString} {ps : List GoString} {input : List Val}
    (hrun : (execPush H env func ps input m).state? = some m') :
    PushWrites m m' (pushSlot H env ps input m) := by
  unfold execPush at hrun
  rw [Comp.bind_apply] at hrun
  unfold pushSlot
  cases hset : setValue H env ps m with
  | panic =>
    rw [hset] at hrun
    cases hrun
  | err msg m₁ =>
    rw [hset] at hrun
    cases hrun
    exact .grows ((setValue_grows ps).err hset).heap
  | ok mp m₁ =>
    have hgrows := (setValue_grows ps).ok hset
    rw [hset] at hrun
    rcases ps with _ | ⟨p, _ | ⟨q, rest⟩⟩
    · cases hrun
    · rcases input with _ | ⟨w, ws⟩
      · cases hrun
        exact .grows hgrows.heap
      · exact push_source hgrows (source_of_asArray w m₁ _) hrun
    · refine push_source hgrows ?_ hrun
      cases mpGet mp p with
      | slice base len => exact .slice base len rfl
      | _ => exact source_of_convert (by simp)

theorem access_grows {e : Expression} (he : e.isAccess) (hpush : e.is .pushExp = false)
    (input : Out) : Keeps Grows (e.execute H env input) := by
  simp only [Expression.isAccess, accessKeywords, any_cons, any_nil, Bool.or_false,
    Bool.or_eq_true, Expression.is_iff] at he
  unfold Expression.execute
  rcases he with he | he | he | he | he | he | he | he | he | he | he <;> rw [he]
  · exact execGet_grows _ _ _
  · exact execGetp_grows _ _ _
  · exact execPut_grows _ _ _
  · exact execDelete_grows _ _
  · simp [Expression.is, he] at hpush
  · exact execPop_grows _ _
  · exact .bind (setValue_grows _) fun _ => .bind (merge_grows _) fun _ => .pure _
  · exact execSend_grows _ _ _
  · exact execSend_grows _ _ _
  · exact execSendsync_grows _ _
  · exact execRange_grows _ _

/-! ## What a stage leaves alone -/

variable {t : Program} {idx : ℤ} {edx : ℕ} {e : Expression} {s s' : State}

variable {r : RangeValue} {key : GoString}

theorem getValue_withItem {kv : Kv} {scope : List Kv} {outer : VarTemp}
    (hvt : s.varTemp = scope :: outer) (hkey : key ≠ r.keyVar) (hval : key ≠ r.valueVar) :
    (s.withItem r kv scope outer).varTemp.getValue key = s.varTemp.getValue key := by
  simp [State.withItem, VarTemp.getValue, hvt, hkey.symm, hval.symm]

theorem Expression.not_is_of_isAccess (he : e.isAccess) {k : Keyword}
    (hk : accessKeywords.contains k = false) : e.is k = false := by
  obtain ⟨k', hk', his⟩ := any_eq_true.mp he
  refine Expression.not_is his ?_
  rintro rfl
  rw [contains_iff_mem.mpr hk'] at hk
  cases hk

variable {out : Out}

theorem StartsRange.mem_destinations (h : StartsRange H t idx e out s r) :
    r.keyVar ∈ e.destinations ∧ r.valueVar ∈ e.destinations := by
  have hset : e.is .setExp = false := Expression.not_is h.isRange (by decide)
  have hdefine : e.is .define = false := Expression.not_is h.isRange (by decide)
  have hkey := h.key
  have hval := h.val
  simp only [Expression.destinations, hset, hdefine, h.isRange, Bool.or_self, Bool.false_eq_true,
    if_false, if_true]
  rcases hps : e.params with _ | ⟨p, _ | ⟨k, _ | ⟨v, rest⟩⟩⟩
  · simp [hps] at hkey
  · simp [hps] at hkey
  · simp [hps] at hval
  · simp only [hps, getElem?_cons_succ, getElem?_cons_zero, some.injEq]
      at hkey hval
    simp [hkey, hval]

variable {err : Option GoString}

theorem Moves.access {idx' : ℤ} (hm : Moves H t idx e out err s idx' s') (he : e.isAccess) :
    s'.heap = s.heap ∧ ∀ key, key ∉ e.destinations →
      s'.varTemp.getValue key = s.varTemp.getValue key := by
  have hend : e.is .endExp = false := Expression.not_is_of_isAccess he (by decide)
  have hbreak : e.is .breakExp = false := Expression.not_is_of_isAccess he (by decide)
  cases hm with
  | plain | skipped => exact ⟨rfl, fun _ _ => rfl⟩
  | breaks h => rw [hbreak] at h; cases h
  | entered r h herr kv kvs hvalue scope outer hvt =>
    obtain ⟨hkey, hval⟩ := h.mem_destinations
    refine ⟨rfl, fun key hno => getValue_withItem hvt ?_ ?_⟩
    · rintro rfl
      exact hno hkey
    · rintro rfl
      exact hno hval
  | endsBlock h | restarts h | endsOwn h | endsLast h | endsInner h | restartsOuter h =>
    rw [hend] at h; cases h

theorem access_scopes (he : e.isAccess) (input : Out) :
    Keeps SameScopes (e.execute H env input) := by
  cases hpush : e.is .pushExp with
  | false => exact keepsScopes (access_grows he hpush input)
  | true =>
    unfold Expression.execute
    rw [Expression.is_iff.mp hpush]
    exact execPush_keeps _ _ _

theorem Executed.state (hx : Executed H t idx e s out err s') :
    (e.execute H t.env s.expInput s.toMem).state? = some s'.toMem := by
  cases hx with
  | ok out m h | err msg m h => rw [h]; rfl

theorem runStage_access (he : e.isAccess) (hs : (runStage H t idx edx e s).state? = some s') :
    (∃ m, (e.execute H t.env s.expInput s.toMem).state? = some m ∧ s'.heap = m.heap) ∧
      ∀ key, key ∉ e.destinations → s'.varTemp.getValue key = s.varTemp.getValue key := by
  obtain ⟨out, err, s₀, hx, -, -, hmem⟩ := runStage_state hs
  have hscopes : s₀.varTemp = s.varTemp := (access_scopes he _).of_state hx.state
  -- after the expression only the variables of a range are bound
  have hrest : s'.heap = s₀.heap ∧ ∀ key, key ∉ e.destinations →
      s'.varTemp.getValue key = s₀.varTemp.getValue key := by
    rcases hmem with hmem | ⟨idx₁, s₁, hm, hmem⟩
    · rw [hmem]
      exact ⟨rfl, fun _ _ => rfl⟩
    · rw [hmem]
      exact hm.access he
  refine ⟨⟨s₀.toMem, hx.state, hrest.1⟩, fun key hkey => ?_⟩
  rw [hrest.2 key hkey, hscopes]

/-! ## Sessions -/

theorem mem_destinations {row : ℕ} {exp : Row} (hexp : t.exps[row]? = some exp) (he : e ∈ exp)
    (hkey : key ∈ e.destinations) : key ∈ t.destinations row := by
  unfold Program.destinations
  rw [hexp]
  exact mem_flatMap.mpr ⟨e, he, hkey⟩

def Point.InRow (t : Program) : Point → Prop
  | .stage i _ _ rest _ => ∃ exp, t.exps[i]? = some exp ∧ rest ⊆ exp
  | _ => True

variable {p : Point}

theorem Visits.inRow {s₀ : State} (hp : Visits H t s₀ p) : p.InRow t := by
  refine hp.invariant trivial fun a b _ ha hab => ?_
  match a with
  | .row row expIdx s =>
    obtain ⟨exp, hexp, rfl⟩ := follows_row hab
    exact ⟨exp, hexp, drop_subset _ _⟩
  | .stage row idx edx [] s =>
    obtain rfl := follows_nil hab
    trivial
  | .stage row idx edx (e :: rest) s =>
    obtain ⟨exp, hexp, hsub⟩ := ha
    have hrest : rest ⊆ exp := fun x hx => hsub (mem_cons_of_mem e hx)
    rcases follows_stage hab with hstep | ⟨s', v, -, rfl⟩
    · cases hstep with
      | sends s' h | continues idx' s' h => exact ⟨exp, hexp, hrest⟩
      | leaves idx' s' h => trivial
    · trivial

theorem push_writes (hpush : e.is .pushExp) {input : Out}
    (hm : (e.execute H env input m).state? = some m') :
    PushWrites m m' (pushSlot H env e.params (input.getD []) m) := by
  unfold Expression.execute at hm
  rw [Expression.is_iff.mp hpush] at hm
  exact execPush_writes hm

theorem Point.framed_iff (hp : p.InRow t) : p.Framed H t ↔ ¬ p.Clobbers H t := by
  match p with
  | .row i k s => exact iff_of_true trivial id
  | .stage i idx edx [] s => exact iff_of_true trivial id
  | .stage i idx edx (e :: rest) s =>
    constructor
    · rintro hframed ⟨hpush, hsome, a, j, v, hslot, ha, hne, r, len, hoff, hholds, hlen⟩
      have he : e.isAccess := any_eq_true.mpr ⟨.pushExp, by decide, hpush⟩
      obtain ⟨s', hs'⟩ := isSome_iff_exists.mp hsome
      obtain ⟨⟨m, hm, hheap⟩, -⟩ := runStage_access he hs'
      have hwrites := push_writes hpush hm
      rw [hslot] at hwrites
      cases hwrites with
      | inPlace a j v m₁ hgrows hi hset =>
        have hsame := (hframed he s' hs').values r hoff
        rw [hheap, hset, Heap.unchanged_setSlot_iff hgrows.heap ha hi] at hsame
        exact hne (hsame len hholds hlen)
    · intro hclobbers he s' hs'
      obtain ⟨exp, hexp, hsub⟩ := hp
      obtain ⟨⟨m, hm, hheap⟩, hbindings⟩ := runStage_access he hs'
      refine ⟨fun r hoff => ?_, fun key hkey => hbindings key fun hmem =>
        hkey (mem_destinations hexp (hsub mem_cons_self) hmem)⟩
      rw [hheap]
      cases hpush : e.is .pushExp with
      | false => exact Heap.unchanged_of_grows ((access_grows he hpush _).of_state hm).heap
      | true =>
        have hwrites := push_writes hpush hm
        generalize hslot : pushSlot H t.env e.params (s.expInput.getD []) s.toMem = slot at hwrites
        cases hwrites with
        | grows hgrows => exact Heap.unchanged_of_grows hgrows
        | inPlace a j v m₁ hgrows hi hset =>
          rw [hset]
          rcases lt_or_ge a s.heap.length with ha | ha
          · rw [Heap.unchanged_setSlot_iff hgrows.heap ha hi]
            intro len hholds hlen
            by_contra hne
            exact hclobbers ⟨hpush, isSome_iff_exists.mpr ⟨s', hs'⟩, a, j, v, hslot, ha, hne,
              r, len, hoff, hholds, hlen⟩
          · -- an array that the `push` itself has made
            exact Heap.unchanged_of_grows (grows_set hgrows.heap ha _)

end

/-- The accesses of a session change no reply and no variable but their destinations exactly if no
`push` overwrites a slot of one. -/
theorem access_frames_iff {H : Host} {t : Program} {s₀ : State} :
    (∀ p, Visits H t s₀ p → p.Framed H t) ↔ ∀ p, Visits H t s₀ p → ¬ p.Clobbers H t :=
  forall₂_congr fun _ hp => Point.framed_iff hp.inRow

def Point.alters (H : Host) (t : Program) (key : GoString) : Point → Bool
  | .stage i idx edx (e :: _) s =>
    e.isAccess && !(t.destinations i).contains key &&
      (runStage H t idx edx e s).state?.any fun s' =>
      s.varTemp.flatten.any fun kv => kv.key == key && kv.value.addr.all (· < s.heap.length) &&
        decide (s'.heap.contents kv.value ≠ s.heap.contents kv.value)
  | _ => false

theorem Point.not_framed_of_alters {H : Host} {t : Program} {key : GoString} {p : Point}
    (h : p.alters H t key) : ¬ p.Framed H t := by
  match p with
  | .row i k s => cases h
  | .stage i idx edx [] s => cases h
  | .stage i idx edx (e :: rest) s =>
    intro hframed
    simp only [Point.alters, Bool.and_eq_true, Bool.not_eq_true'] at h
    obtain ⟨⟨he, hdest⟩, hstate⟩ := h
    obtain ⟨s', hs', hvar⟩ := exists_of_any hstate
    obtain ⟨kv, hmem, hkv⟩ := any_eq_true.mp hvar
    simp only [Bool.and_eq_true, beq_iff_eq, decide_eq_true_eq] at hkv
    obtain ⟨⟨rfl, haddr⟩, hne⟩ := hkv
    have hoff : OffLimits t i s kv.value := .variable kv hmem fun hkey => by
      rw [contains_iff_mem.mpr hkey] at hdest
      cases hdest
    refine hne ((hframed he s' hs').values kv.value hoff kv.value .refl fun a ha => ?_)
    rw [mem_def.mp ha] at haddr
    simpa using haddr

/-- An array is popped and pushed to, and its variable has another last element. -/
theorem pop_push_alters_array : ∃ t s₀ p,
    plainRun ["define .a array | push (1) | push (2) | .x", "set .y .x | pop .x | push (9)", "end",
      "end"] = some (t, s₀) ∧ Visits plainHost t s₀ p ∧ ¬ p.Framed plainHost t := by
  have hcheck : (plainRun ["define .a array | push (1) | push (2) | .x",
      "set .y .x | pop .x | push (9)", "end", "end"]).any (fun p =>
        visitAt p.1 p.2 9 (Point.alters plainHost p.1 ".x")) := by
    decide +kernel
  obtain ⟨⟨t, s₀⟩, hrun, hcheck⟩ := exists_of_any hcheck
  obtain ⟨p, hvisit, halters⟩ := exists_of_visitAt hcheck
  exact ⟨t, s₀, p, hrun, hvisit, Point.not_framed_of_alters halters⟩

end Kairos
