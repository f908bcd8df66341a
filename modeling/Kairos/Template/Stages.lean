import Kairos.Template.Machine

/-!
# What a stage can do

`Moves` lists the ways in which a stage changes the row index and the ranges, and `Jumps` those in
which it leaves its row. A stage that does not leave its row sends or moves.
-/

namespace Kairos

open Option
open Effects (Comp Eff)

def State.withItem (s : State) (r : RangeValue) (kv : Kv) (scope : List Kv) (outer : VarTemp) :
    State :=
  { s with varTemp := (⟨r.valueVar, kv.value⟩ :: ⟨r.keyVar, .str kv.key⟩ :: scope) :: outer }

section

variable {H : Host} {t : Program} {idx : ℤ} {edx : ℕ} {e : Expression} {s s' : State} {kv : Kv}

theorem pushVar_eq_ok {m m' : Mem} {u : Unit} (h : pushVar H kv m = .ok u m') :
    ∃ scope outer, m.varTemp = scope :: outer ∧
      m' = { m with varTemp := (kv :: scope) :: outer } := by
  unfold pushVar at h
  obtain ⟨u', m₁, hprint, hpush⟩ := Comp.bind_eq_ok.mp h
  have hm : m₁ = m := by
    unfold printVals at hprint
    split_ifs at hprint
    exact (Eff.ok.inj hprint).2.symm
  subst hm
  unfold Eval.onScopes at hpush
  cases hvt : m₁.varTemp with
  | nil => simp [hvt, VarTemp.push] at hpush
  | cons scope outer =>
    simp only [hvt, VarTemp.push, Eff.ok.injEq] at hpush
    exact ⟨scope, outer, rfl, hpush.2.symm⟩

variable {r : RangeValue}

theorem bindRange_eq_some (h : bindRange H r kv s = some s') :
    ∃ scope outer, s.varTemp = scope :: outer ∧ s' = s.withItem r kv scope outer := by
  unfold bindRange at h
  split at h
  · rename_i u m hrun
    cases h
    obtain ⟨u', m₁, hkey, hvalue⟩ := Comp.bind_eq_ok.mp hrun
    obtain ⟨scope, outer, hvt, rfl⟩ := pushVar_eq_ok hkey
    obtain ⟨scope', outer', hvt', rfl⟩ := pushVar_eq_ok hvalue
    cases hvt'
    exact ⟨scope, outer, hvt, rfl⟩
  · cases h

structure StartsRange (H : Host) (t : Program) (idx : ℤ) (e : Expression) (out : Out) (s : State)
    (r : RangeValue) : Prop where
  isRange : e.is .rangeExp
  key : e.params[1]? = some r.keyVar
  val : e.params[2]? = some r.valueVar
  items : ∃ v, (out.getD [])[0]? = some v ∧ r.value = rangeItems H s.heap v
  startIndex_eq : r.startIndex = idx
  index_eq : r.index = 0
  endIndex_eq : r.endIndex = t.target idx

/-- How a stage changes the row index and the ranges, after its expression was executed. -/
inductive Moves (H : Host) (t : Program) (idx : ℤ) (e : Expression) (out : Out)
    (err : Option GoString) (s : State) : ℤ → State → Prop where
  | plain (hrange : e.is .rangeExp = false ∨ err ≠ none) (hend : e.is .endExp = false)
      (hbreak : e.is .breakExp = false) : Moves H t idx e out err s idx s
  | breaks (h : e.is .breakExp) : Moves H t idx e out err s idx { s with rangeValue := .null }
  | skipped (r : RangeValue) (h : StartsRange H t idx e out s r) (herr : err = none)
      (hvalue : r.value = []) :
      Moves H t idx e out err s (t.target idx - 1) { s with rangeValue := .own r }
  | entered (r : RangeValue) (h : StartsRange H t idx e out s r) (herr : err = none) (kv : Kv)
      (kvs : List Kv) (hvalue : r.value = kv :: kvs) (scope : List Kv) (outer : VarTemp)
      (hvt : s.varTemp = scope :: outer) :
      Moves H t idx e out err s idx { s.withItem r kv scope outer with
        rangeValue := .top, rangeStack := r.advance :: s.rangeStack }
  | endsBlock (h : e.is .endExp) (hcur : ∀ r, s.current = some r → r.endIndex ≠ idx) :
      Moves H t idx e out err s idx s.popScope
  | restarts (h : e.is .endExp) (r : RangeValue) (hcur : s.current = some r)
      (hstop : r.endIndex = idx) (kv : Kv) (hkv : r.value[r.index]? = some kv) :
      Moves H t idx e out err s r.startIndex
        (s.popScope.appendScope.withItem r kv [] s.popScope.varTemp).advance
  | endsOwn (h : e.is .endExp) (r : RangeValue) (hcur : s.current = some r)
      (hstop : r.endIndex = idx) (hover : r.remains = false) (hstack : s.rangeStack = []) :
      Moves H t idx e out err s idx s.popScope
  | endsLast (h : e.is .endExp) (r q : RangeValue) (hcur : s.current = some r)
      (hstop : r.endIndex = idx) (hover : r.remains = false) (hstack : s.rangeStack = [q]) :
      Moves H t idx e out err s idx { s.popScope with rangeStack := [], rangeValue := .null }
  | endsInner (h : e.is .endExp) (r q r' : RangeValue) (outer : List RangeValue)
      (hcur : s.current = some r) (hstop : r.endIndex = idx) (hover : r.remains = false)
      (hstack : s.rangeStack = q :: r' :: outer) (hover' : r'.remains = false) :
      Moves H t idx e out err s idx
        { s.popScope with rangeStack := r' :: outer, rangeValue := .top }
  | restartsOuter (h : e.is .endExp) (r q r' : RangeValue) (outer : List RangeValue)
      (hcur : s.current = some r) (hstop : r.endIndex = idx) (hover : r.remains = false)
      (hstack : s.rangeStack = q :: r' :: outer) (kv : Kv) (hkv : r'.value[r'.index]? = some kv) :
      Moves H t idx e out err s r'.startIndex
        { s.popScope.popScope.appendScope.withItem r' kv [] s.popScope.popScope.varTemp with
          rangeStack := r'.advance :: outer, rangeValue := .top }

variable {out : Out} {err : Option GoString}

structure Output where
  expIndex : GoString
  deliverFlows : List DeliverFlow
  logs : List TrackLog
  trackErr : GoString

def State.output (s : State) : Output := ⟨s.expIndex, s.deliverFlows, s.logs, s.trackErr⟩

variable {idx' : ℤ}

theorem Moves.output_eq (hm : Moves H t idx e out err s idx' s') : s'.output = s.output := by
  cases hm with
  | restarts h r hcur hstop kv hkv =>
    unfold State.advance
    split <;> rfl
  | _ => rfl

theorem Moves.of_null (hm : Moves H t idx e out err s idx' s')
    (hnull : s.rangeValue = .null) (hrange : e.is .rangeExp = false) :
    idx' = idx ∧ s'.rangeValue = .null ∧ s'.rangeStack = s.rangeStack := by
  have hcur : s.current = none := by simp [State.current, hnull]
  have hstart : ∀ r, ¬ StartsRange H t idx e out s r := by
    intro r hr
    have hr := hr.isRange
    rw [hrange] at hr
    cases hr
  cases hm with
  | plain | endsBlock => exact ⟨rfl, hnull, rfl⟩
  | breaks => exact ⟨rfl, rfl, rfl⟩
  | skipped r hr | entered r hr => exact absurd hr (hstart r)
  | restarts _ r h | endsOwn _ r h | endsLast _ r q h | endsInner _ r q r' outer h
  | restartsOuter _ r q r' outer h => rw [hcur] at h; cases h

theorem Moves.eq_of_not (hm : Moves H t idx e out err s idx' s')
    (hrange : e.is .rangeExp = false) (hend : e.is .endExp = false) : idx' = idx := by
  cases hm with
  | plain | breaks | entered | endsBlock | endsOwn | endsLast | endsInner => rfl
  | skipped r h =>
    have := h.isRange
    rw [hrange] at this
    cases this
  | restarts h | restartsOuter h => rw [hend] at h; cases h

theorem enterRange_moves (he : e.is .rangeExp)
    (h : enterRange H t idx e out s = some (idx', s')) : Moves H t idx e out none s idx' s' := by
  unfold enterRange at h
  cases hkey : e.params[1]? with
  | none => simp [hkey] at h
  | some keyVar =>
  cases hval : e.params[2]? with
  | none => simp [hkey, hval] at h
  | some valueVar =>
  cases hout : (out.getD [])[0]? with
  | none => simp [hkey, hval, hout] at h
  | some v =>
    simp only [hkey, hval, hout] at h
    cases hitems : rangeItems H s.heap v with
    | nil =>
      simp only [hitems, some.injEq, Prod.mk.injEq] at h
      obtain ⟨rfl, rfl⟩ := h
      exact .skipped _ ⟨he, hkey, hval, ⟨v, hout, hitems.symm⟩, rfl, rfl, rfl⟩ rfl rfl
    | cons kv kvs =>
      simp only [hitems, map_eq_some_iff, Prod.mk.injEq] at h
      obtain ⟨s₁, hbind, rfl, rfl⟩ := h
      obtain ⟨scope, outer, hvt, rfl⟩ := bindRange_eq_some hbind
      exact .entered ⟨kv :: kvs, idx, 0, t.target idx, keyVar, valueVar⟩
        ⟨he, hkey, hval, ⟨v, hout, hitems.symm⟩, rfl, rfl, rfl⟩ rfl kv kvs rfl scope outer hvt

theorem restart_eq_some (h : restart H r s = some (idx', s')) :
    ∃ kv, r.value[r.index]? = some kv ∧ idx' = r.startIndex ∧
      s' = (s.appendScope.withItem r kv [] s.varTemp).advance := by
  unfold restart at h
  cases hkv : r.value[r.index]? with
  | none => simp [hkv] at h
  | some kv =>
    simp only [hkv, map_eq_some_iff, Prod.mk.injEq] at h
    obtain ⟨s₁, hbind, rfl, rfl⟩ := h
    obtain ⟨scope, outer, hvt, rfl⟩ := bindRange_eq_some hbind
    obtain ⟨rfl, rfl⟩ := List.cons.inj (show [] :: s.varTemp = scope :: outer from hvt)
    exact ⟨kv, rfl, rfl, rfl⟩

theorem endRow_moves (he : e.is .endExp) (h : endRow H idx s = some (idx', s')) :
    Moves H t idx e out err s idx' s' := by
  unfold endRow at h
  have hcurrent : s.popScope.current = s.current := rfl
  simp only [hcurrent] at h
  cases hcur : s.current with
  | none =>
    simp only [hcur, some.injEq, Prod.mk.injEq] at h
    obtain ⟨rfl, rfl⟩ := h
    exact .endsBlock he fun r hr => by simp [hcur] at hr
  | some r =>
    simp only [hcur] at h
    split_ifs at h with hstop hrem
    · cases h
      exact .endsBlock he fun q hq => by
        rw [hcur] at hq
        exact some.inj hq ▸ hstop
    · obtain ⟨kv, hkv, rfl, rfl⟩ := restart_eq_some h
      exact .restarts he r hcur (not_not.mp hstop) kv hkv
    · have hstack : s.popScope.rangeStack = s.rangeStack := rfl
      rw [hstack] at h
      have hover : r.remains = false := by simpa using hrem
      split at h
      · cases h
        exact .endsOwn he r hcur (not_not.mp hstop) hover ‹_›
      · cases h
        exact .endsLast he r _ hcur (not_not.mp hstop) hover ‹_›
      · rename_i q r' outer hq
        split_ifs at h with hrem'
        · obtain ⟨kv, hkv, rfl, rfl⟩ := restart_eq_some h
          exact .restartsOuter he r q r' outer hcur (not_not.mp hstop) hover hq kv hkv
        · cases h
          exact .endsInner he r q r' outer hcur (not_not.mp hstop) hover hq (by simpa using hrem')

theorem finishStage_cases (t : Program) (idx : ℤ) (e : Expression) (out : Out)
    (err : Option GoString) (s : State) : finishStage H t idx e out err s = .panic ∨
    (∃ s', finishStage H t idx e out err s = .stop .failed s' ∧ err ≠ none) ∨
    (e.is .elseExp ∧ finishStage H t idx e out err s = .leave (t.target idx - 1) s) ∨
    (e.is .ifExp ∧ out = some [.bool false] ∧
      finishStage H t idx e out err s = .leave (t.target idx) s) ∨
    ((out = some [.str []] ∨ err ≠ none) ∧ 0 < t.target idx ∧
      finishStage H t idx e out err s = .leave (t.target idx) s) ∨
    (err = none ∧ e.is .elseExp = false ∧ (e.is .ifExp → out ≠ some [.bool false]) ∧
      (out = some [.str []] → t.target idx ≤ 0) ∧
      finishStage H t idx e out err s = .next idx { s with expInput := out }) := by
  unfold finishStage
  split_ifs with h1 h2 h3 h4 hprint h5
  · exact .inr (.inl ⟨_, rfl, by rw [← isSome_iff_ne_none]; exact h1.1⟩)
  · exact .inr (.inr (.inl ⟨h2, rfl⟩))
  · exact .inr (.inr (.inr (.inl ⟨h3.1, h3.2, rfl⟩)))
  · rw [isSome_iff_ne_none] at h4
    exact .inr (.inr (.inr (.inr (.inl ⟨h4.1, h4.2, rfl⟩))))
  · exact .inl rfl
  · exact .inr (.inl ⟨_, rfl, by rw [← isSome_iff_ne_none]; exact h5⟩)
  · refine .inr (.inr (.inr (.inr (.inr ⟨by simpa using h5, by simpa using h2, ?_, ?_, rfl⟩))))
    · exact fun hif hout => h3 ⟨hif, hout⟩
    · exact fun hout => not_lt.mp fun hpos => h4 ⟨.inl hout, hpos⟩

inductive Executed (H : Host) (t : Program) (idx : ℤ) (e : Expression) (s : State) :
    Out → Option GoString → State → Prop where
  | ok (out : Out) (m : Mem) (h : e.execute H t.env s.expInput s.toMem = .ok out m) :
      Executed H t idx e s out none { s with toMem := m }
  | err (msg : GoString) (m : Mem) (h : e.execute H t.env s.expInput s.toMem = .err msg m) :
      Executed H t idx e s none (some msg)
        { s with toMem := m, logs := s.logs ++ [trackLog idx e msg] }

inductive Jumps (t : Program) (e : Expression) (out : Out) (err : Option GoString) (idx : ℤ) :
    ℤ → Prop where
  | elseRow (h : e.is .elseExp) : Jumps t e out err idx (t.target idx - 1)
  | ifFalse (h : e.is .ifExp) (hout : out = some [.bool false]) :
      Jumps t e out err idx (t.target idx)
  | forward (h : out = some [.str []] ∨ err ≠ none) (hpos : 0 < t.target idx) :
      Jumps t e out err idx (t.target idx)

theorem Jumps.dest (hj : Jumps t e out err idx idx')
    (htarget : e.is .ifExp ∨ e.is .elseExp → t.target idx ≠ 0) :
    t.target idx ≠ 0 ∧ (idx' = t.target idx - 1 ∨ idx' = t.target idx) := by
  cases hj with
  | elseRow hk => exact ⟨htarget (.inr hk), .inl rfl⟩
  | ifFalse hk _ => exact ⟨htarget (.inl hk), .inr rfl⟩
  | forward _ hpos => exact ⟨hpos.ne', .inr rfl⟩

def State.sent (s : State) (idx : ℤ) (edx : ℕ) (e : Expression) (reciever : GoString) (v : Val) :
    State :=
  { s with
    expIndex := formatIndex idx (edx + 1)
    deliverFlows := s.deliverFlows ++ [⟨reciever, e.func, v⟩] }

theorem Expression.not_is_of_isSend (h : e.isSend) {k : Keyword}
    (hk : [Keyword.send, .sendu, .sendsync].contains k = false) : e.is k = false := by
  simp only [Expression.isSend, Bool.or_eq_true] at h
  rcases h with (h | h) | h <;> exact Expression.not_is h fun heq => by simp [← heq] at hk

structure Sends (H : Host) (t : Program) (idx : ℤ) (edx : ℕ) (e : Expression) (s s' : State) :
    Prop where
  isSend : e.isSend
  not_sync : e.is .sendsync = false
  sent : ∃ v vs m reciever, e.execute H t.env s.expInput s.toMem = .ok (some (v :: vs)) m ∧
    e.receiver = some reciever ∧
    s' = { s with toMem := m }.sent idx edx e reciever v

structure Continues (H : Host) (t : Program) (idx : ℤ) (e : Expression) (s : State) (idx' : ℤ)
    (s' : State) : Prop where
  not_send : e.isSend = false
  not_return : e.is .returnExp = false
  not_else : e.is .elseExp = false
  moved : ∃ out m s₁, e.execute H t.env s.expInput s.toMem = .ok out m ∧
    Moves H t idx e out none { s with toMem := m } idx' s₁ ∧ s' = { s₁ with expInput := out } ∧
    (e.is .ifExp → out ≠ some [.bool false]) ∧ (out = some [.str []] → t.target idx' ≤ 0)

structure Leaves (H : Host) (t : Program) (idx : ℤ) (e : Expression) (s : State) (idx' : ℤ)
    (s' : State) : Prop where
  not_send : e.isSend = false
  not_return : e.is .returnExp = false
  moved : ∃ out err s₀ idx₁, Executed H t idx e s out err s₀ ∧ Moves H t idx e out err s₀ idx₁ s' ∧
    Jumps t e out err idx₁ idx'

theorem finishOther_cases (t : Program) (idx : ℤ) (e : Expression) (out : Out)
    (err : Option GoString) (s : State) : finishOther H t idx e out err s = .panic ∨
    (e.is .returnExp ∧
      finishOther H t idx e out err s = .stop (.returned (marshalOut H s.heap out)) s) ∨
    (e.is .returnExp = false ∧ ∃ idx₁ s₁, Moves H t idx e out err s idx₁ s₁ ∧
      finishOther H t idx e out err s = finishStage H t idx₁ e out err s₁) := by
  unfold finishOther
  split_ifs with h1 h2 h3 h4
  · have hret : e.is .returnExp = false := by
      simp only [Expression.is, beq_iff_eq] at h1 ⊢
      simp [h1.1]
    cases hr : enterRange H t idx e out s with
    | none => exact .inl rfl
    | some r =>
      obtain ⟨idx₁, s₁⟩ := r
      refine .inr (.inr ⟨hret, idx₁, s₁, ?_, rfl⟩)
      rw [h1.2]
      exact enterRange_moves h1.1 hr
  · exact .inr (.inl ⟨h2, rfl⟩)
  · cases hr : endRow H idx s with
    | none => exact .inl rfl
    | some r =>
      obtain ⟨idx₁, s₁⟩ := r
      exact .inr (.inr ⟨by simpa using h2, idx₁, s₁, endRow_moves h3 hr, rfl⟩)
  · exact .inr (.inr ⟨by simpa using h2, idx, _, .breaks h4, rfl⟩)
  · refine .inr (.inr ⟨by simpa using h2, idx, s, .plain ?_ (by simpa using h3) (by simpa using h4),
      rfl⟩)
    by_cases hr : e.is .rangeExp
    · exact .inr fun herr => h1 ⟨hr, herr⟩
    · exact .inl (by simpa using hr)

theorem runStage_executed {r : StageResult} (h : runStage H t idx edx e s = r)
    (hpanic : r ≠ .panic) : ∃ out err s₀, Executed H t idx e s out err s₀ ∧
      (if e.isSend then finishSend idx edx e out err s₀ else finishOther H t idx e out err s₀) =
        r := by
  unfold runStage at h
  cases hx : e.execute H t.env s.expInput s.toMem with
  | ok out m =>
    simp only [hx] at h
    unfold afterExecute at h
    by_cases hprint : (!(out.getD []).all (m.heap.nestsIn H.printDepth))
    · rw [if_pos hprint] at h
      exact absurd h.symm hpanic
    · rw [if_neg hprint] at h
      exact ⟨out, none, _, .ok out m hx, h⟩
  | err msg m =>
    simp only [hx] at h
    unfold afterExecute at h
    exact ⟨none, some msg, _, .err msg m hx, h⟩
  | panic =>
    simp only [hx] at h
    exact absurd h.symm hpanic

theorem finishSend_cases (idx : ℤ) (edx : ℕ) (e : Expression) (out : Out) (err : Option GoString)
    (s : State) : finishSend idx edx e out err s = .panic ∨
    finishSend idx edx e out err s = .stop .failed s ∨
    (err = none ∧ ∃ v vs reciever, out = some (v :: vs) ∧ e.receiver = some reciever ∧
      finishSend idx edx e out err s =
        if e.is .sendsync then .stop .suspended (s.sent idx edx e reciever v)
        else .next idx (s.sent idx edx e reciever v)) := by
  unfold finishSend
  rcases err with _ | msg
  · rcases out with _ | _ | ⟨v, vs⟩
    · exact .inr (.inl rfl)
    · exact .inr (.inl rfl)
    · cases hrec : e.receiver with
      | none => exact .inl rfl
      | some reciever =>
        refine .inr (.inr ⟨rfl, v, vs, reciever, rfl, rfl, ?_⟩)
        cases e.is .sendsync <;> rfl
  · exact .inr (.inl rfl)

structure Suspends (H : Host) (t : Program) (idx : ℤ) (edx : ℕ) (e : Expression) (s s' : State) :
    Prop where
  isSync : e.is .sendsync
  sent : ∃ v vs m reciever, e.execute H t.env s.expInput s.toMem = .ok (some (v :: vs)) m ∧
    e.receiver = some reciever ∧
    s' = { s with toMem := m }.sent idx edx e reciever v

theorem Suspends.startPoint_eq {i : ℕ} (h : Suspends H t i edx e s s') (hi : i < 2 ^ 63)
    (hedx : edx + 1 < 2 ^ 63) (v : Val) :
    startPoint (s'.reply v) = .row i (edx + 1) (s'.reply v).enter := by
  obtain ⟨w, ws, m, reciever, -, -, rfl⟩ := h.sent
  have hindex := parseIndex_formatIndex i (edx + 1) hi hedx
  have hexpIndex : (({ s with toMem := m }.sent i edx e reciever w).reply v).expIndex =
      formatIndex i (edx + 1) := rfl
  rw [startPoint, hexpIndex, hindex]
  rfl

def StageResult.state? : StageResult → Option State
  | .next _ s => some s
  | .leave _ s => some s
  | .stop _ s => some s
  | .panic => none

theorem finishStage_state (h : (finishStage H t idx e out err s).state? = some s') :
    s'.toMem = s.toMem ∧ s'.logs = s.logs ∧ (err = none → s'.trackErr = s.trackErr) := by
  unfold finishStage at h
  split_ifs at h with h1 _ _ _ _ h5 <;> cases h
  · exact ⟨rfl, rfl, fun herr => by simp [herr] at h1⟩
  · exact ⟨rfl, rfl, fun _ => rfl⟩
  · exact ⟨rfl, rfl, fun _ => rfl⟩
  · exact ⟨rfl, rfl, fun _ => rfl⟩
  · exact ⟨rfl, rfl, fun herr => by simp [herr] at h5⟩
  · exact ⟨rfl, rfl, fun _ => rfl⟩

/-- After its expression a stage logs the error, moves through the rows, and sets `Tracking.Err`
where it fails. -/
theorem runStage_state (h : (runStage H t idx edx e s).state? = some s') :
    ∃ out err s₀, Executed H t idx e s out err s₀ ∧ s'.logs = s₀.logs ∧
      (err = none → s'.trackErr = s₀.trackErr) ∧ (s'.toMem = s₀.toMem ∨
        ∃ idx₁ s₁, Moves H t idx e out err s₀ idx₁ s₁ ∧ s'.toMem = s₁.toMem) := by
  have hpanic : runStage H t idx edx e s ≠ .panic := fun hpanic => by rw [hpanic] at h; cases h
  obtain ⟨out, err, s₀, hx, hfin⟩ := runStage_executed rfl hpanic
  refine ⟨out, err, s₀, hx, ?_⟩
  rw [← hfin] at h
  split_ifs at h
  · rcases finishSend_cases idx edx e out err s₀ with hc | hc | ⟨-, v, vs, reciever, -, -, hc⟩ <;>
      rw [hc] at h
    · cases h
    · cases h
      exact ⟨rfl, fun _ => rfl, .inl rfl⟩
    · split_ifs at h <;> cases h <;> exact ⟨rfl, fun _ => rfl, .inl rfl⟩
  · rcases finishOther_cases t idx e out err s₀ with hc | ⟨-, hc⟩ | ⟨-, idx₁, s₁, hm, hc⟩ <;>
      rw [hc] at h
    · cases h
    · cases h
      exact ⟨rfl, fun _ => rfl, .inl rfl⟩
    · obtain ⟨hmem, hlogs, htrack⟩ := finishStage_state h
      have hout := hm.output_eq
      exact ⟨hlogs.trans (congrArg Output.logs hout),
        fun herr => (htrack herr).trans (congrArg Output.trackErr hout), .inr ⟨idx₁, s₁, hm, hmem⟩⟩

inductive StageOutcome (H : Host) (t : Program) (idx : ℤ) (edx : ℕ) (e : Expression) (s : State) :
    StageResult → Prop where
  | panics : StageOutcome H t idx edx e s .panic
  | stops (why : Stop) (s' : State) (hwhy : why ≠ .suspended) :
      StageOutcome H t idx edx e s (.stop why s')
  | suspends (s' : State) (h : Suspends H t idx edx e s s') :
      StageOutcome H t idx edx e s (.stop .suspended s')
  | sends (s' : State) (h : Sends H t idx edx e s s') : StageOutcome H t idx edx e s (.next idx s')
  | continues (idx' : ℤ) (s' : State) (h : Continues H t idx e s idx' s') :
      StageOutcome H t idx edx e s (.next idx' s')
  | leaves (idx' : ℤ) (s' : State) (h : Leaves H t idx e s idx' s') :
      StageOutcome H t idx edx e s (.leave idx' s')

theorem runStage_outcome (H : Host) (t : Program) (idx : ℤ) (edx : ℕ) (e : Expression) (s : State) :
    StageOutcome H t idx edx e s (runStage H t idx edx e s) := by
  by_cases hpanic : runStage H t idx edx e s = .panic
  · rw [hpanic]
    exact .panics
  obtain ⟨out, err, s₀, hx, hfin⟩ := runStage_executed rfl hpanic
  rw [← hfin]
  cases hsend : e.isSend with
  | true =>
    rw [if_pos rfl]
    rcases finishSend_cases idx edx e out err s₀ with
      hc | hc | ⟨rfl, v, vs, reciever, rfl, hrec, hc⟩ <;> rw [hc]
    · exact .panics
    · exact .stops _ _ nofun
    · cases hx with
      | ok out m hx =>
        cases hsync : e.is .sendsync with
        | true => exact .suspends _ ⟨hsync, v, vs, m, reciever, hx, hrec, rfl⟩
        | false => exact .sends _ ⟨hsend, hsync, v, vs, m, reciever, hx, hrec, rfl⟩
  | false =>
    rw [if_neg Bool.false_ne_true]
    rcases finishOther_cases t idx e out err s₀ with hc | ⟨-, hc⟩ | ⟨hret, idx₁, s₁, hm, hc⟩ <;>
      rw [hc]
    · exact .panics
    · exact .stops _ _ nofun
    · have hleaves (idx' : ℤ) (hj : Jumps t e out err idx₁ idx') :
          StageOutcome H t idx edx e s (.leave idx' s₁) :=
        .leaves _ _ ⟨hsend, hret, out, err, s₀, idx₁, hx, hm, hj⟩
      rcases finishStage_cases t idx₁ e out err s₁ with
        hc | ⟨_, hc, -⟩ | ⟨hel, hc⟩ | ⟨hif, hout, hc⟩ | ⟨hor, hpos, hc⟩ |
          ⟨herr, helse, hif, hstr, hc⟩ <;>
        rw [hc]
      · exact .panics
      · exact .stops _ _ nofun
      · exact hleaves _ (.elseRow hel)
      · exact hleaves _ (.ifFalse hif hout)
      · exact hleaves _ (.forward hor hpos)
      · cases hx with
        | ok out m hx =>
          exact .continues _ _ ⟨hsend, hret, helse, out, m, s₁, hx, hm, rfl, hif, hstr⟩
        | err => cases herr

/-! ## The next point -/

inductive StageSteps (H : Host) (t : Program) (row edx : ℕ) (idx : ℤ) (e : Expression)
    (rest : Row) (s : State) : Point → Prop where
  | sends (s' : State) (h : Sends H t idx edx e s s') :
      StageSteps H t row edx idx e rest s (.stage row idx (edx + 1) rest s')
  | continues (idx' : ℤ) (s' : State) (h : Continues H t idx e s idx' s') :
      StageSteps H t row edx idx e rest s (.stage row idx' (edx + 1) rest s')
  | leaves (idx' : ℤ) (s' : State) (h : Leaves H t idx e s idx' s') :
      StageSteps H t row edx idx e rest s (endOfRow idx' s')

variable {row expIdx : ℕ} {rest : Row} {q : Point}

theorem follows_row (h : Follows H t (.row row expIdx s) q) : ∃ exp, t.exps[row]? = some exp ∧
    q = .stage row row expIdx (exp.drop expIdx) (openScope exp s) := by
  unfold Follows Runs.Steps step at h
  cases hexp : t.exps[row]? with
  | none => simp [hexp] at h
  | some exp =>
    simp only [hexp, Sum.inr.injEq, reduceCtorEq, false_and, exists_false, or_false] at h
    exact ⟨exp, rfl, h.symm⟩

theorem follows_nil (h : Follows H t (.stage row idx edx [] s) q) : q = endOfRow idx s := by
  rcases h with h | ⟨s', v, h, -⟩
  · exact (Sum.inr.inj h).symm
  · cases h

theorem steps_stage (h : Runs.Steps (step H t) (.stage row idx edx (e :: rest) s) q) :
    StageSteps H t row edx idx e rest s q := by
  have hout := runStage_outcome H t idx edx e s
  simp only [Runs.Steps, step] at h
  generalize runStage H t idx edx e s = r at h hout
  cases hout with
  | panics | stops | suspends => cases h
  | sends s' hsend =>
    cases h
    exact .sends s' hsend
  | continues idx' s' hcont =>
    cases h
    exact .continues idx' s' hcont
  | leaves idx' s' hleave =>
    cases h
    exact .leaves idx' s' hleave

theorem suspends_of_step (h : step H t (.stage row idx edx (e :: rest) s) =
    .inl (.stop .suspended s')) : Suspends H t idx edx e s s' := by
  have hout := runStage_outcome H t idx edx e s
  simp only [step] at h
  generalize runStage H t idx edx e s = r at h hout
  cases hout with
  | panics | sends | continues | leaves => cases h
  | stops why s₂ hwhy =>
    cases h
    exact absurd rfl hwhy
  | suspends s₂ hsuspend =>
    cases h
    exact hsuspend

theorem follows_stage (h : Follows H t (.stage row idx edx (e :: rest) s) q) :
    StageSteps H t row edx idx e rest s q ∨
      ∃ s' v, Suspends H t idx edx e s s' ∧ q = startPoint (s'.reply v) := by
  rcases h with h | ⟨s', v, hstop, rfl⟩
  · exact .inl (steps_stage h)
  · exact .inr ⟨s', v, suspends_of_step hstop, rfl⟩

end

end Kairos
