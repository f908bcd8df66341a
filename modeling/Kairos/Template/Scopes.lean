import Kairos.Template.Expressions

/-!
# What an expression does to the scopes

Only four expressions change the stack of scopes. `define` adds a variable to the innermost scope,
`set` replaces one or adds it, and an `if` or an `elseif` without a condition that the code knows
opens a scope or clears the innermost one (`ScopeEffect`).
-/

namespace Kairos

open List
open Effects (Comp Eff)
open Effects.Comp (Keeps)

def SameScopes (m m' : Mem) : Prop := m'.varTemp = m.varTemp

instance : Std.Refl SameScopes := ⟨fun _ => rfl⟩

instance : IsTrans Mem SameScopes := ⟨fun _ _ _ h h' => Eq.trans h' h⟩

structure Grows (m m' : Mem) : Prop where
  scopes : m'.varTemp = m.varTemp
  heap : m.heap <+: m'.heap

instance : Std.Refl Grows := ⟨fun _ => ⟨rfl, prefix_rfl⟩⟩

instance : IsTrans Mem Grows :=
  ⟨fun _ _ _ h h' => ⟨h'.scopes.trans h.scopes, h.heap.trans h'.heap⟩⟩

structure WritesAt (base : Option Addr) (m m' : Mem) : Prop where
  scopes : m'.varTemp = m.varTemp
  heap : ∀ h : Heap, h <+: m.heap → (∀ a ∈ base, h.length ≤ a) → h <+: m'.heap

instance (base : Option Addr) : IsTrans Mem (WritesAt base) :=
  ⟨fun _ _ _ h h' => ⟨h'.scopes.trans h.scopes, fun g hg hb => h'.heap g (h.heap g hg hb) hb⟩⟩

theorem keepsScopes {α : Type} {x : Eval α} (h : Keeps Grows x) : Keeps SameScopes x :=
  h.mono fun _ _ h => h.scopes

/-! ## Expressions that leave the scopes as they are -/

section

variable {H : Host} {env : ExecEnv} {α : Type}

theorem onHeap_keeps (f : Heap → α × Heap) : Keeps SameScopes (Eval.onHeap f) := fun _ => rfl

theorem onHeap_grows {f : Heap → α × Heap} (hf : ∀ h, h <+: (f h).2) :
    Keeps Grows (Eval.onHeap f) := fun m => ⟨rfl, hf m.heap⟩

theorem onHeap?_grows {f : Heap → Option (α × Heap)} {msg : GoString}
    (hf : ∀ h r, f h = some r → h <+: r.2) : Keeps Grows (Eval.onHeap? f msg) := by
  intro m
  unfold Eval.onHeap?
  cases h : f m.heap with
  | none => exact ⟨rfl, prefix_rfl⟩
  | some r => exact ⟨rfl, hf m.heap r h⟩

theorem printVals_grows (vs : List Val) : Keeps Grows (printVals H vs) := by
  intro m
  unfold printVals
  by_cases h : vs.all (m.heap.nests H.printDepth)
  · rw [if_pos h]; exact ⟨rfl, prefix_rfl⟩
  · rw [if_neg h]; trivial

theorem printScopes_grows : Keeps Grows (printScopes H) := fun m =>
  printVals_grows (m.varTemp.flatten.map Kv.value) m

theorem paramValue_grows (p : GoString) : Keeps Grows (paramValue H env p) := by
  unfold paramValue
  by_cases hping : p = "_ping"
  · rw [if_pos hping]
    exact onHeap_grows fun h => prefix_append h _
  rw [if_neg hping]
  by_cases hconst : isConstant p
  · rw [if_pos hconst]
    exact .pure _
  · rw [if_neg hconst]
    refine .bind .get fun m => ?_
    split
    · exact .pure _
    · refine .bind (printVals_grows _) fun _ => ?_
      split
      · exact .pure _
      · split
        · exact .crash
        · split_ifs
          · exact .pure _
          · split
            · exact .pure _
            · exact .fail _

variable (func : GoString) (ps : List GoString) (input : List Val)

theorem setValue_grows : Keeps Grows (setValue H env ps) := by
  have hloop : ∀ mp, Keeps Grows (setValueLoop H env mp ps) := by
    induction ps with
    | nil => exact fun mp => .pure _
    | cons p ps ih => exact fun mp => .bind (paramValue_grows p) fun v => ih _
  exact hloop []

theorem convertReply_grows (v : Val) (msg : GoString) : Keeps Grows (convertReply H v msg) := by
  intro m
  unfold convertReply
  cases hconv : convertInterfaceToReply H v m.heap with
  | some r => exact ⟨rfl, (convertInterfaceToReply_grows hconv).1⟩
  | none =>
    by_cases hprint : m.heap.nests H.printDepth v
    · simp only [hprint, if_true]
      exact ⟨rfl, prefix_rfl⟩
    · simp only [hprint]
      trivial

theorem asReply_grows (v : Val) (msg : GoString) : Keeps Grows (asReply H v msg) := by
  unfold asReply
  split
  · exact .pure _
  · exact convertReply_grows _ _

theorem asArray_grows (v : Val) (msg : GoString) : Keeps Grows (asArray H v msg) := by
  unfold asArray
  split
  · exact .pure _
  · exact onHeap?_grows fun _ _ hr => (convertInterfaceToArray_grows hr).1

theorem stringKey_grows (mp : List Kv) (p : GoString) (between : String) :
    Keeps Grows (stringKey H mp p between) := by
  unfold stringKey
  split
  · exact .pure _
  · exact .bind (printVals_grows _) fun _ => .bind .get fun _ => .fail _

theorem execGet_grows : Keeps Grows (execGet H env func ps input) := by
  unfold execGet
  refine .bind printScopes_grows fun _ => .bind (setValue_grows ps) fun mp => ?_
  cases ps with
  | nil => exact .crash
  | cons p rest =>
    refine .bind ?_ fun r => ?_
    · cases rest with
      | nil =>
        cases input with
        | nil => exact .fail _
        | cons v _ => exact .bind (asReply_grows _ _) fun _ => .pure _
      | cons q _ => exact .bind (asReply_grows _ _) fun _ => .pure _
    · obtain ⟨source, get⟩ := r
      dsimp only
      split
      · exact .bind .get fun _ => .pure _
      · exact .fail _

theorem execGetp_grows : Keeps Grows (execGetp H env func ps input) := by
  unfold execGetp
  refine .bind (setValue_grows ps) fun mp => ?_
  cases ps with
  | nil => exact .crash
  | cons p rest =>
    refine .bind ?_ fun v => .bind (asArray_grows _ _) fun r => ?_
    · split
      · exact .pure _
      · exact .fail _
      · exact .crash
    · obtain ⟨base, len⟩ := r
      dsimp only
      split
      · refine .bind .get fun m => ?_
        split_ifs
        · split
          · exact .pure _
          · exact .crash
        · exact .crash
      · exact .fail _

theorem execSend_grows : Keeps Grows (execSend H env func ps input) := by
  unfold execSend
  cases ps with
  | nil => exact .crash
  | cons p rest =>
    refine .bind ?_ fun v => ?_
    · split
      · exact .fail _
      · exact .pure _
      · exact .bind (setValue_grows _) fun _ => .pure _
    · split_ifs
      · exact .fail _
      · exact .bind .get fun _ => .bind (convertReply_grows _ _) fun _ => .pure _

theorem execSendsync_grows (input : Out) : Keeps Grows (execSendsync H env ps input) := by
  unfold execSendsync
  split
  · exact .crash
  · exact .pure _
  · exact .bind (setValue_grows _) fun _ => .pure _

theorem execWaite_grows : Keeps Grows (execWaite H env ps) := by
  unfold execWaite
  refine .bind (setValue_grows ps) fun mp => ?_
  split
  · exact .crash
  · split
    · refine .bind .get fun m => ?_
      split
      · exact .fail _
      · split_ifs
        · exact .fail _
        · exact .pure _
      · split
        · exact .pure _
        · exact .pure _
        · exact .fail _
      · exact .fail _
    · exact .fail _

theorem merge_lift_grows (f : Mem → Res Val) : Keeps Grows (fun m => merge.lift m (f m)) := by
  intro m
  dsimp only
  cases f m
  · exact ⟨rfl, prefix_rfl⟩
  · exact ⟨rfl, prefix_rfl⟩
  · trivial

theorem merge_grows : Keeps Grows (merge H input) := by
  unfold merge
  cases input with
  | nil => exact .fail _
  | cons v vs =>
    dsimp only
    rcases v.kind with _ | k
    · exact .crash
    · cases k with
      | float64 | int | int64 | string => exact merge_lift_grows _
      | slice =>
        intro m
        dsimp only
        generalize mergeFold _ _ _ _ _ _ = r
        cases r with
        | ok vs => exact ⟨rfl, prefix_append m.heap _⟩
        | err msg => exact ⟨rfl, prefix_rfl⟩
        | panic => trivial
      | map =>
        intro m
        dsimp only
        generalize mergeFold _ _ _ _ _ _ = r
        cases r with
        | ok es => exact ⟨rfl, prefix_append m.heap _⟩
        | err msg => exact ⟨rfl, prefix_rfl⟩
        | panic => trivial
      | bool | ptr | struct => exact .fail _

theorem toReply_bind_grows {v : Val} {f : Option Addr → Eval α}
    (hf : ∀ base, Keeps (WritesAt base) (f base)) : Keeps Grows (toReply H v >>= f) := by
  intro m
  rw [Comp.bind_apply]
  unfold toReply
  rw [Comp.get_bind]
  unfold convertReply
  cases hconv : convertInterfaceToReply H v m.heap with
  | none =>
    by_cases hprint : m.heap.nests H.printDepth v
    · simp only [hprint, if_true]
      exact ⟨rfl, prefix_rfl⟩
    · simp only [hprint]
      trivial
  | some r =>
    obtain ⟨hgrows, hnew⟩ := convertInterfaceToReply_grows hconv
    have hwrites := hf r.1 { m with heap := r.2 }
    dsimp only
    cases hrun : f r.1 { m with heap := r.2 } with
    | ok b m' | err msg m' =>
      rw [hrun] at hwrites
      exact ⟨hwrites.scopes, hwrites.heap m.heap hgrows hnew⟩
    | panic => trivial

theorem stringKey_writes (base : Option Addr) (mp : List Kv) (p : GoString) (between : String) :
    Keeps (WritesAt base) (stringKey H mp p between) :=
  (stringKey_grows mp p between).mono fun _ _ h => ⟨h.scopes, fun _ hg _ => hg.trans h.heap⟩

theorem execDelete_finish_writes (base : Option Addr) (key : GoString) :
    Keeps (WritesAt base) (execDelete.finish base key) := by
  intro m
  refine ⟨rfl, fun h hh hbase => ?_⟩
  cases base with
  | none => exact hh
  | some a => exact grows_set hh (hbase a rfl) _

theorem execDelete_grows : Keeps Grows (execDelete H env ps input) := by
  unfold execDelete
  refine .bind (setValue_grows ps) fun mp => ?_
  split
  · exact toReply_bind_grows fun base => .bind (stringKey_writes base _ _ _) fun key =>
      execDelete_finish_writes base key
  · split
    · exact .crash
    · refine toReply_bind_grows fun base => ?_
      split
      · exact .crash
      · exact .bind (stringKey_writes base _ _ _) fun key => execDelete_finish_writes base key

theorem execPop_grows : Keeps Grows (execPop H func input) := by
  unfold execPop
  split
  · exact .fail _
  · refine .bind (asArray_grows _ _) fun r => ?_
    obtain ⟨base, len⟩ := r
    dsimp only
    split_ifs
    · exact .fail _
    · exact .pure _

theorem execPush_keeps : Keeps SameScopes (execPush H env func ps input) := by
  unfold execPush
  refine .bind (keepsScopes (setValue_grows ps)) fun mp => ?_
  cases ps with
  | nil => exact .crash
  | cons p rest =>
    refine .bind (keepsScopes ?_) fun r => ?_
    · cases rest with
      | nil =>
        cases input with
        | nil => exact .fail _
        | cons v _ => exact .bind (asArray_grows _ _) fun _ => .pure _
      | cons q _ =>
        refine .bind ?_ fun _ => .pure _
        split
        · exact .pure _
        · exact onHeap?_grows fun _ _ hr => (convertInterfaceToArray_grows hr).1
    · obtain ⟨⟨base, len⟩, get⟩ := r
      exact .bind (onHeap_keeps _) fun _ => .pure _

theorem execPrintf_grows : Keeps Grows (execPrintf H env ps) := by
  unfold execPrintf
  refine .bind (setValue_grows ps) fun mp => ?_
  split
  · exact .crash
  · split
    · exact .bind (printVals_grows _) fun _ => .bind .get fun _ => .pure _
    · exact .crash

theorem execPut_finish_writes (base : Option Addr) (key : GoString) (v : Val) :
    Keeps (WritesAt base) (execPut.finish base key v) := by
  unfold execPut.finish
  cases base with
  | none => exact .crash
  | some a =>
    intro m
    exact ⟨rfl, fun h hh hbase => grows_set hh (hbase a rfl) _⟩

theorem execPut_grows : Keeps Grows (execPut H env func ps input) := by
  have hput : ∀ mp v k w, Keeps Grows (do
      let base ← toReply H v
      let key ← stringKey H mp k " is not string value= "
      execPut.finish base key w) := fun mp v k w =>
    toReply_bind_grows fun base => .bind (stringKey_writes base _ _ _) fun key =>
      execPut_finish_writes base key w
  unfold execPut
  refine .bind (setValue_grows ps) fun mp => ?_
  split
  · exact hput _ _ _ _
  · split
    · exact .fail _
    · exact hput _ _ _ _
  · exact .crash
  · exact .fail _

theorem execReturn_grows (input : Out) : Keeps Grows (execReturn H env ps input) := by
  unfold execReturn
  split_ifs
  · split
    · exact .pure _
    · exact onHeap_grows fun h => prefix_append h _
  · exact .bind (setValue_grows _) fun _ => .pure _

theorem execSub_grows : Keeps Grows (execSub H func ps input) := by
  have hfinish : ∀ v w, Keeps Grows (execSub.finish H v w) := by
    intro v w m
    unfold execSub.finish
    cases subtract H v w
    · exact ⟨rfl, prefix_rfl⟩
    · exact ⟨rfl, prefix_rfl⟩
    · trivial
  unfold execSub
  rcases ps with _ | ⟨a, _ | ⟨b, _ | ⟨c, ps⟩⟩⟩
  · rcases input with _ | ⟨v, _ | ⟨w, input⟩⟩
    · exact .fail _
    · exact .fail _
    · exact hfinish _ _
  · cases input with
    | nil => exact .crash
    | cons v _ => exact hfinish _ _
  · exact hfinish _ _
  · rcases input with _ | ⟨v, _ | ⟨w, input⟩⟩
    · exact .fail _
    · exact .fail _
    · exact hfinish _ _

theorem execRange_grows : Keeps Grows (execRange H env func ps) := by
  unfold execRange
  cases ps with
  | nil => exact .crash
  | cons p rest =>
    refine .bind (setValue_grows _) fun mp => .bind (printVals_grows _) fun _ => ?_
    intro m
    rw [Comp.get_bind]
    cases hconv : convertInterfaceToReply H (mpGet mp p) m.heap with
    | some r =>
      obtain ⟨base, h⟩ := r
      exact ⟨rfl, (convertInterfaceToReply_grows hconv).1⟩
    | none =>
      exact Keeps.bind (onHeap?_grows fun _ _ hr => (convertInterfaceToArray_grows hr).1)
        (fun _ => .bind printScopes_grows fun _ => .pure _) m

theorem execFunc_keeps : Keeps SameScopes (execFunc H env func ps input) := by
  unfold execFunc
  split
  · exact .fail _
  · split_ifs
    · exact .fail _
    · refine .bind (keepsScopes (setValue_grows _)) fun mp =>
        .bind (keepsScopes printScopes_grows) fun _ =>
        .bind (keepsScopes (printVals_grows _)) fun _ => .bind (fun m => rfl) fun r => ?_
      split
      · exact .fail _
      · exact .crash
      · exact .bind (onHeap_keeps _) fun _ => .pure _
      · exact .pure _
      · exact .pure _
      · exact .fail _

end

/-! ## Expressions that change the scopes -/

/-- What is a condition: one value, a comparison of two, or `ne` of one. -/
def Expression.hasCondition (e : Expression) : Bool :=
  match e.params with
  | [_] => true
  | [op, _] => op == "ne"
  | [_, _, _] => true
  | _ => false

inductive ScopeEffect (e : Expression) (vt : VarTemp) : VarTemp → Prop where
  | same : ScopeEffect e vt vt
  | defines (h : e.is .define) (x : GoString) (hx : e.params[0]? = some x) (v : Val) (vt' : VarTemp)
      (hpush : vt.push ⟨x, v⟩ = some vt') : ScopeEffect e vt vt'
  | assigns (h : e.is .setExp) (x : GoString) (hx : e.params[0]? = some x) (v : Val) (vt' : VarTemp)
      (hset : vt.set ⟨x, v⟩ = some vt') : ScopeEffect e vt vt'
  | opens (h : e.is .ifExp) (hcond : e.hasCondition = false) : ScopeEffect e vt vt.append
  | clears (h : e.is .elseifExp) (hcond : e.hasCondition = false) :
      ScopeEffect e vt (vt.clearTop.getD vt)

section

variable {H : Host} {env : ExecEnv} {e : Expression} {α β : Type}

def Effect (e : Expression) (m m' : Mem) : Prop := ScopeEffect e m.varTemp m'.varTemp

variable {x : Eval α}

theorem keeps_effect (h : Keeps SameScopes x) : Keeps (Effect e) x :=
  h.mono fun m m' hs => by
    unfold Effect
    rw [show m'.varTemp = m.varTemp from hs]
    exact .same

theorem grows_effect (h : Keeps Grows x) : Keeps (Effect e) x :=
  keeps_effect (keepsScopes h)

variable {f : α → Eval β}

theorem keeps_effect_after (hx : Keeps SameScopes x)
    (hf : ∀ a, Keeps (Effect e) (f a)) : Keeps (Effect e) (x >>= f) := by
  refine hx.seq hf (fun m m' hs => ?_) fun m m₁ m' hs h => ?_
  · unfold Effect
    rw [show m'.varTemp = m.varTemp from hs]
    exact .same
  · unfold Effect at h ⊢
    rw [← show m₁.varTemp = m.varTemp from hs]
    exact h

theorem keeps_effect_before (hx : Keeps (Effect e) x)
    (hf : ∀ a, Keeps SameScopes (f a)) : Keeps (Effect e) (x >>= f) := by
  refine hx.seq hf (fun m m' h => h) fun m m₁ m' h hs => ?_
  unfold Effect at h ⊢
  rw [show m'.varTemp = m₁.varTemp from hs]
  exact h

theorem onScopes_keeps {f : VarTemp → Option VarTemp}
    (h : ∀ vt vt', f vt = some vt' → ScopeEffect e vt vt') :
    Keeps (Effect e) (Eval.onScopes f) := by
  intro m
  unfold Eval.onScopes
  cases hf : f m.varTemp with
  | none => trivial
  | some vt => exact h _ _ hf

theorem execIf_keeps (H : Host) (env : ExecEnv) (h : e.is .ifExp ∨ e.is .elseifExp) :
    Keeps (Effect e) (execIf H env (e.is .ifExp) e.params) := by
  have hno : e.hasCondition = false → Keeps (Effect e) (execIf.noCondition (e.is .ifExp)) := by
    intro hcond
    refine keeps_effect_before (onScopes_keeps fun vt vt' hvt => ?_) fun _ => .pure _
    cases hvt
    cases hif : e.is .ifExp with
    | true => exact .opens hif hcond
    | false => exact .clears (h.resolve_left (by simp [hif])) hcond
  unfold Expression.hasCondition at hno
  unfold execIf
  rcases hps : e.params with _ | ⟨a, _ | ⟨b, _ | ⟨c, _ | ⟨d, ps⟩⟩⟩⟩
  · exact hno (by rw [hps])
  · exact grows_effect (.bind (setValue_grows _) fun _ => .pure _)
  · refine keeps_effect_after (keepsScopes (setValue_grows _)) fun mp => ?_
    by_cases hne : a = "ne"
    · rw [if_pos hne]
      exact keeps_effect (.pure _)
    · rw [if_neg hne]
      exact hno (by rw [hps]; simpa using hne)
  · exact grows_effect (.bind (setValue_grows _) fun _ => .bind .get fun _ => .pure _)
  · exact hno (by rw [hps])

theorem execSet_keeps (h : e.is .setExp) (input : List Val) :
    Keeps (Effect e) (execSet H env e.params input) := by
  have hset : ∀ x v, e.params[0]? = some x → Keeps (Effect e) (setVar H ⟨x, v⟩) := fun x v hx =>
    keeps_effect_after (keepsScopes (printVals_grows _)) fun _ =>
      onScopes_keeps fun vt vt' hvt => .assigns h x hx v vt' hvt
  unfold execSet
  rcases hps : e.params with _ | ⟨x, _ | ⟨y, rest⟩⟩
  · exact .crash
  · cases input with
    | nil => exact keeps_effect (.fail _)
    | cons v _ => exact keeps_effect_before (hset x v (by rw [hps]; rfl)) fun _ => .pure _
  · refine keeps_effect_after (keepsScopes (setValue_grows _)) fun mp => ?_
    exact keeps_effect_before (hset x _ (by rw [hps]; rfl)) fun _ => .pure _

theorem execDefine_keeps (h : e.is .define) : Keeps (Effect e) (execDefine H e.params) := by
  have hpush : ∀ x v, e.params[0]? = some x → Keeps (Effect e) (pushVar H ⟨x, v⟩) := fun x v hx =>
    keeps_effect_after (keepsScopes (printVals_grows _)) fun _ =>
      onScopes_keeps fun vt vt' hvt => .defines h x hx v vt' hvt
  unfold execDefine
  rcases hps : e.params with _ | ⟨x, _ | ⟨ty, rest⟩⟩
  · exact .crash
  · exact .crash
  · have hx : e.params[0]? = some x := by rw [hps]; rfl
    dsimp only
    split_ifs
    · refine keeps_effect_after (onHeap_keeps _) fun a => ?_
      exact keeps_effect_before (hpush x _ hx) fun _ => .pure _
    · refine keeps_effect_after (onHeap_keeps _) fun a => ?_
      exact keeps_effect_before (hpush x _ hx) fun _ => .pure _
    · exact keeps_effect_before (hpush x _ hx) fun _ => .pure _
    · exact keeps_effect_before (hpush x _ hx) fun _ => .pure _
    · exact keeps_effect (.pure _)

theorem execute_scopes (H : Host) (env : ExecEnv) (e : Expression) (input : Out) :
    Keeps (Effect e) (e.execute H env input) := by
  unfold Expression.execute
  cases hk : e.keyword with
  | none => exact keeps_effect (execFunc_keeps _ _ _)
  | some k =>
    have his : e.is k := by simp [Expression.is, hk]
    cases k with
    | ifExp =>
      have hif := execIf_keeps H env (.inl his)
      rwa [his] at hif
    | elseifExp =>
      have hif := execIf_keeps H env (.inr his)
      have hnot : e.is .ifExp = false := by simp [Expression.is, hk]
      rwa [hnot] at hif
    | setExp => exact execSet_keeps his _
    | define => exact execDefine_keeps his
    | elseExp | endExp => exact keeps_effect (.pure _)
    | subExp => exact grows_effect (execSub_grows _ _ _)
    | mergeExp =>
      exact grows_effect (.bind (setValue_grows _) fun _ => .bind (merge_grows _) fun _ => .pure _)
    | rangeExp => exact grows_effect (execRange_grows _ _)
    | getExp => exact grows_effect (execGet_grows _ _ _)
    | getpExp => exact grows_effect (execGetp_grows _ _ _)
    | putExp => exact grows_effect (execPut_grows _ _ _)
    | pushExp => exact keeps_effect (execPush_keeps _ _ _)
    | deleteExp => exact grows_effect (execDelete_grows _ _)
    | popExp => exact grows_effect (execPop_grows _ _)
    | parseExp =>
      exact keeps_effect (.bind (keepsScopes (setValue_grows _)) fun _ =>
        .bind (onHeap_keeps _) fun _ => .pure _)
    | send | sendu => exact grows_effect (execSend_grows _ _ _)
    | sendsync => exact grows_effect (execSendsync_grows _ _)
    | waitExp => exact grows_effect (.bind (setValue_grows _) fun _ => .pure _)
    | waiteExp => exact grows_effect (execWaite_grows _)
    | breakExp => exact keeps_effect (execFunc_keeps _ _ _)
    | returnExp => exact grows_effect (execReturn_grows _ _)
    | printfExp => exact grows_effect (execPrintf_grows _)

end

end Kairos
