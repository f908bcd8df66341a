import Kairos.Template.Rounds

/-!
# What a stage of a row does

The `switch` of `complieChainExps` accepts a stage by its words (`SwitchAccepts`) and by the open
scopes (`switchScopes`), and appends its expression, or drops the row for an undefined function.
With a runtime a single word is kept unseen, so that a keyword beyond the first place may have no
parameters.
-/

namespace Kairos

open List Option
open Strings (hasSuffix trim)

/-! ## The stages of a keyword -/

def Keyword.opens : Keyword → ℤ
  | .ifExp => 1
  | .rangeExp => 1
  | .subExp => 1
  | .mergeExp => 1
  | .getExp => 1
  | .getpExp => 1
  | .putExp => 1
  | .pushExp => 1
  | .deleteExp => 1
  | .popExp => 1
  | .waitExp => 1
  | .waiteExp => 1
  | .endExp => -1
  | _ => 0

def isCondition (p : GoString) : Bool :=
  compareExp.contains p || funcBuildin.contains p || isVariable p

def Undefined (env : CompileEnv) (w : GoString) (ps : List GoString) : Prop :=
  ∃ js, env.funcs = some js ∧
    match keyword w with
    | none => js.get w = none
    | some .ifExp => condition js
    | some .elseifExp => condition js
    | _ => False
where
  condition (js : JsRuntime) : Prop :=
    ∃ p ∈ ps.head?, isCondition p = false ∧ js.get p = none

section

variable (H : Host) (env : CompileEnv)

def lookUp (ps : List GoString) (vt : VarTemp) : Option VarTemp :=
  (checkValidParam env ps vt).toOption.map fun _ => vt

/-- The scopes after a keyword, none where a parameter is not visible or there is no scope to bind
in or to close. -/
def switchScopes (w : GoString) (ps : List GoString) (vt : VarTemp) : Option VarTemp :=
  match keyword w with
  | some .ifExp => lookUp env ps.tail vt
  | some .elseifExp => (lookUp env ps.tail vt).bind VarTemp.clearTop
  | some .elseExp => vt.clearTop
  | some .endExp => vt.pop
  | some .breakExp => vt.pop
  | some .setExp => ps.head?.bind fun x => vt.push ⟨H.toLower x, .nil⟩
  | some .define => ps.head?.bind fun x => vt.push ⟨H.toLower x, .nil⟩
  | some .rangeExp =>
    (lookUp env (ps.take 1) vt).bind fun vt => ps[1]?.bind fun key =>
      (vt.push ⟨key, .nil⟩).bind fun vt =>
      ps[2]?.bind fun value => vt.push ⟨value, .nil⟩
  | some .subExp => lookUp env ps vt
  | some .mergeExp => lookUp env ps vt
  | some .getExp => lookUp env ps vt
  | some .putExp => lookUp env ps vt
  | some .deleteExp => lookUp env ps vt
  | some .popExp => lookUp env ps vt
  | some .getpExp => lookUp env ps vt
  | some .waitExp => ps.head?.bind fun x => (vt.push ⟨x, .nil⟩).map VarTemp.append
  | some .waiteExp => ps.head?.bind fun x => (vt.push ⟨x, .nil⟩).map VarTemp.append
  | _ => some vt

def SwitchAccepts (idx : ℕ) (w : GoString) (ps : List GoString) : Prop :=
  match keyword w with
  | some .ifExp => condition
  | some .elseifExp => condition
  | some .elseExp => idx = 0 ∧ ps = []
  | some .endExp => ps = []
  | some .setExp => ps.length = 2
  | some .define =>
    ps.length = 2 ∧ ∃ ty ∈ ps[1]?,
      ["map".toList, "array".toList, "number".toList, "string".toList].contains ty
  | some .rangeExp => idx = 0
  | some .breakExp => idx = 0
  | some .subExp => ¬ (idx = 0 ∧ ps.length = 1)
  | some .mergeExp => ¬ (idx = 0 ∧ ps.length = 1)
  | some .parseExp => ¬ (idx = 0 ∧ ps = [])
  | some .waitExp => ps.find? unlistened = none
  | some .waiteExp => ps.find? unlistened = none
  | some .printfExp => ∃ p ∈ ps.head?, isConstant p
  | some .send => ¬ (ps.length = 0 ∨ 2 < ps.length)
  | some .sendu => ¬ (ps.length = 0 ∨ 2 < ps.length)
  | some .sendsync => ¬ (ps.length = 0 ∨ 2 < ps.length)
  | some .returnExp => True
  | some .pushExp => True
  | none => env.funcs.elim (env.restrict = false) fun js => js.get w = some true
  | _ => ps ≠ []
where
  condition : Prop := idx = 0 ∧ ∃ p ∈ ps.head?, findCondition env p = .ok true
  unlistened (e : GoString) : Bool :=
    !env.input.contains (bareName e) && !hasSuffix e subChannel &&
      !hasSuffix e subTask

def RowState.kept (st : RowState) (w : GoString) (ps : List GoString) (vt : VarTemp) :
    RowState where
  varTemps := vt
  exps := st.exps ++ [⟨w, ps⟩]
  opened := if keyword w = some .ifExp then 1 else st.opened + (keyword w).elim 0 Keyword.opens
  funcNotFound :=
    if keyword w = none ∧ env.funcs = none then st.funcNotFound ++ [w] else st.funcNotFound

end

section

variable {H : Host} {env : CompileEnv} {idx : ℕ} {w key : GoString} {ps : List GoString}
  {vt vt' : VarTemp} {st st' : RowState} {r : StageEnd}

theorem lookUp_eq_some :
    lookUp env ps vt = some vt' ↔ checkValidParam env ps vt = .ok () ∧ vt = vt' := by
  unfold lookUp
  cases checkValidParam env ps vt <;> simp [Res.toOption]

@[simp] theorem RowState.bindVar_eq_ok : st.bindVar key = .ok st' ↔
    ∃ vt, st.varTemps.push ⟨key, .nil⟩ = some vt ∧ { st with varTemps := vt } = st' := by
  unfold RowState.bindVar
  cases st.varTemps.push ⟨key, .nil⟩ <;> simp

@[simp] theorem RowState.clearTop_eq_ok : st.clearTop = .ok st' ↔
    ∃ vt, st.varTemps.clearTop = some vt ∧ { st with varTemps := vt } = st' := by
  unfold RowState.clearTop
  cases st.varTemps.clearTop <;> simp

@[simp] theorem RowState.pop_eq_ok : st.pop = .ok st' ↔
    ∃ vt, st.varTemps.pop = some vt ∧ { st with varTemps := vt } = st' := by
  unfold RowState.pop
  cases st.varTemps.pop <;> simp

@[simp] theorem ite_err_eq_ok {α : Type} {p : Prop} [Decidable p] {msg : GoString} {x : Res α}
    {a : α} : (if p then .err msg else x) = .ok a ↔ ¬ p ∧ x = .ok a := by
  by_cases hp : p <;> simp [hp]

theorem complieSub_eq_ok : complieSwitch.complieSub env idx w ps st = .ok r ↔
    ¬ (idx = 0 ∧ ps.length = 1) ∧ checkValidParam env ps st.varTemps = .ok () ∧
      st.openMore.keep w ps = .ok r := by
  simp [complieSwitch.complieSub, Res.bind_eq_ok, Unique.exists_iff]

theorem complieAccess_eq_ok : complieSwitch.complieAccess env w ps st = .ok r ↔
    ps ≠ [] ∧ checkValidParam env ps st.varTemps = .ok () ∧ st.openMore.keep w ps = .ok r := by
  simp [complieSwitch.complieAccess, Res.bind_eq_ok, Unique.exists_iff]

theorem complieSend_eq_ok : complieSwitch.complieSend env w ps st = .ok r ↔
    ¬ (ps.length = 0 ∨ 2 < ps.length) ∧ st.keep w ps = .ok r := by
  rw [complieSwitch.complieSend, ite_err_eq_ok]
  rfl

theorem complieWait_eq_ok : complieSwitch.complieWait env w ps st = .ok r ↔
    ps.find? (SwitchAccepts.unlistened env) = none ∧ ∃ vt,
      (ps.head?.bind fun x => (st.varTemps.push ⟨x, .nil⟩).map VarTemp.append) = some vt ∧
      { st.openMore with varTemps := vt }.keep w ps = .ok r := by
  have hfind : (ps.find? fun e => !env.input.contains (bareName e) &&
      !hasSuffix e subChannel && !hasSuffix e subTask) =
      ps.find? (SwitchAccepts.unlistened env) := rfl
  rw [complieSwitch.complieWait, hfind]
  cases ps.find? (SwitchAccepts.unlistened env) with
  | some e => simp
  | none => cases ps <;> simp [Res.ofOption, Res.bind_eq_ok, RowState.openMore]

theorem findCondition_eq_false {p : GoString} : findCondition env p = .ok false ↔
    env.restrict = false ∧ ∃ js, env.funcs = some js ∧ isCondition p = false ∧ js.get p = none := by
  unfold findCondition isCondition
  cases env.funcs with
  | none => simp
  | some js =>
    generalize (compareExp.contains p || funcBuildin.contains p || isVariable p) = known
    rcases hg : js.get p with _ | _ | _ <;> cases known <;> simp [hg]

theorem complieIf_eq_ok : complieIf env idx w ps st = .ok r ↔
    (SwitchAccepts.condition env idx ps ∧ checkValidParam env ps.tail st.varTemps = .ok () ∧
      ∃ st₁, (if w = Keyword.ifExp.name then .ok { st with opened := 1 } else st.clearTop) =
        .ok st₁ ∧ st₁.keep w ps = .ok r) ∨
    ((∃ js, env.funcs = some js ∧ Undefined.condition ps js) ∧ env.restrict = false) ∧ idx = 0 ∧
      .drop (st.notFound w) = r := by
  unfold complieIf
  rw [ite_err_eq_ok, SwitchAccepts.condition, Nat.not_lt, Nat.le_zero]
  cases ps with
  | nil => simp [Undefined.condition]
  | cons p rest =>
    have hundefined : ((∃ js, env.funcs = some js ∧ Undefined.condition (p :: rest) js) ∧
        env.restrict = false) ↔ findCondition env p = .ok false := by
      rw [findCondition_eq_false, and_comm]
      simp [Undefined.condition]
    rw [hundefined]
    cases hf : findCondition env p with
    | err msg | panic => simp [hf]
    | ok found => cases found <;> simp [hf, Res.bind_eq_ok, Unique.exists_iff]

theorem complieFunc_eq_ok : complieFunc env w ps st = .ok r ↔
    ((env.funcs.elim (env.restrict = false) fun js => js.get w = some true) ∧
      (if env.funcs = none then st.notFound w else st).keep w ps = .ok r) ∨
    ((∃ js, env.funcs = some js ∧ js.get w = none) ∧ env.restrict = false) ∧
      .drop (st.notFound w) = r := by
  unfold complieFunc
  cases env.funcs with
  | none => simp
  | some js => rcases hg : js.get w with _ | _ | _ <;> simp [hg]

theorem complieSwitch_eq_ok : complieSwitch H env idx w ps st = .ok r ↔
    (SwitchAccepts env idx w ps ∧ ∃ vt, switchScopes H env w ps st.varTemps = some vt ∧
      .next (st.kept env w ps vt) = r) ∨
    (Undefined env w ps ∧ env.restrict = false) ∧ (keyword w ≠ none → idx = 0) ∧
      .drop (st.notFound w) = r := by
  unfold complieSwitch SwitchAccepts switchScopes RowState.kept Undefined
  cases hk : keyword w with
  | none =>
    simp only [complieFunc_eq_ok]
    cases env.funcs <;> simp [RowState.keep, RowState.notFound]
  | some k =>
    have hif : w = Keyword.ifExp.name ↔ k = .ifExp := by
      rw [← keyword_eq_some, hk, some.injEq]
    cases k <;> simp only [reduceCtorEq, if_false, if_true, false_and, and_false, exists_false,
      or_false, elim_some, Keyword.opens, add_zero, some.injEq]
    case ifExp =>
      simp [complieIf_eq_ok, hif, lookUp_eq_some, RowState.keep]
    case elseifExp =>
      simp [complieIf_eq_ok, hif, lookUp_eq_some, RowState.keep, bind_eq_some_iff, and_assoc]
    case elseExp | endExp | breakExp =>
      rw [ite_err_eq_ok, Res.bind_eq_ok]
      simp [RowState.keep, sub_eq_add_neg]
    case parseExp | returnExp | pushExp => simp [RowState.keep, RowState.openMore]
    case subExp | mergeExp =>
      simp [complieSub_eq_ok, lookUp_eq_some, RowState.keep, RowState.openMore]
    case getExp | putExp | getpExp | deleteExp | popExp =>
      simp [complieAccess_eq_ok, lookUp_eq_some, RowState.keep, RowState.openMore]
    case send | sendu | sendsync => simp [complieSend_eq_ok, RowState.keep]
    case waitExp | waiteExp =>
      simp [complieWait_eq_ok, RowState.keep, RowState.openMore]
    case setExp =>
      rcases ps with _ | ⟨x, _ | ⟨y, _ | ⟨z, rest⟩⟩⟩ <;>
        simp [Res.bind_eq_ok, RowState.keep]
    case define =>
      rcases ps with _ | ⟨x, _ | ⟨y, _ | ⟨z, rest⟩⟩⟩
      · simp
      · simp
      · simp only [getElem?_cons_succ, getElem?_cons_zero, mem_some_iff,
          exists_eq_left', length_cons, length_nil, true_and]
        generalize ["map".toList, "array".toList, "number".toList, "string".toList].contains y = b
        cases b <;> simp [Res.bind_eq_ok, RowState.keep]
      · simp
    case printfExp =>
      cases ps with
      | nil => simp
      | cons p rest => by_cases hp : isConstant p <;> simp [hp, RowState.keep]
    case rangeExp =>
      rw [ite_err_eq_ok, Nat.not_lt, Nat.le_zero]
      refine and_congr_right fun _ => ?_
      rcases ps with _ | ⟨x, _ | ⟨y, _ | ⟨z, rest⟩⟩⟩
      · simp
      · simp [Res.bind_eq_ok, Res.ofOption]
      · simp [Res.bind_eq_ok, Res.ofOption]
      · cases hpush : st.varTemps.push ⟨y, .nil⟩ <;>
          simp [Res.bind_eq_ok, Unique.exists_iff, RowState.keep, lookUp_eq_some, RowState.openMore,
            Res.ofOption, bind_eq_some_iff, and_assoc, hpush]

theorem complieSwitch_eq_next : complieSwitch H env idx w ps st = .ok (.next st') ↔
    SwitchAccepts env idx w ps ∧ ∃ vt, switchScopes H env w ps st.varTemps = some vt ∧
      st.kept env w ps vt = st' := by
  simp [complieSwitch_eq_ok]

end

/-! ## The expressions of a row -/

structure Shape (idx : ℕ) (e : Expression) : Prop where
  range_first : e.is .rangeExp → 0 < idx → e.params = []
  if_first : e.is .ifExp ∨ e.is .elseifExp → 0 < idx → e.params = []
  else_first : e.is .elseExp → idx = 0

/-- The words of a stage and its expression. A variable by itself is set. -/
inductive Words : List GoString → Expression → Prop where
  | call (w : GoString) (ps : List GoString) : Words (w :: ps) ⟨w, ps⟩
  | single (w : GoString) : Words [w] ⟨Keyword.setExp.name, [w]⟩

def stageExp : List GoString → Expression
  | [] => ⟨[], []⟩
  | [w] => if isVariable w then ⟨Keyword.setExp.name, [w]⟩ else ⟨w, []⟩
  | w :: ps => ⟨w, ps⟩

def isWord : List GoString → Bool
  | [w] => !isVariable w && !funcCanEmptyInput.contains w
  | _ => false

section

variable {H : Host} {env : CompileEnv} {js : JsRuntime} {idx : ℕ} {w : GoString}
  {ps c : List GoString} {st st' : RowState} {r : StageEnd}

theorem stage_cases (c : List GoString) : c = [] ∨ (∃ w, c = [w] ∧ isVariable w) ∨
    (∃ w, c = [w] ∧ isVariable w = false ∧ isWord [w]) ∨
    ∃ w ps, c = w :: ps ∧ isWord (w :: ps) = false ∧ (ps = [] → isVariable w = false) := by
  rcases c with _ | ⟨w, _ | ⟨p, ps⟩⟩
  · exact .inl rfl
  · cases hv : isVariable w with
    | true => exact .inr (.inl ⟨w, rfl, hv⟩)
    | false =>
      cases hw : isWord [w] with
      | true => exact .inr (.inr (.inl ⟨w, rfl, hv, hw⟩))
      | false => exact .inr (.inr (.inr ⟨w, [], rfl, hw, fun _ => hv⟩))
  · exact .inr (.inr (.inr ⟨w, p :: ps, rfl, rfl, nofun⟩))

theorem keyword_of_not_isWord (hc : isWord [w] = false) (hv : isVariable w = false) :
    funcCanEmptyInput.contains w ∧ keyword w ≠ none := by
  have hcan : funcCanEmptyInput.contains w := by simpa [isWord, hv] using hc
  refine ⟨hcan, ?_⟩
  simp only [funcCanEmptyInput, contains_cons, contains_nil, Bool.or_false,
    Bool.or_eq_true, beq_iff_eq] at hcan
  rcases hcan with rfl | rfl | rfl | rfl <;> simp

theorem complieStage_switch (hc : isWord (w :: ps) = false) (hv : ps = [] → isVariable w = false) :
    complieStage H env idx (w :: ps) st = complieSwitch H env idx w ps st := by
  cases ps with
  | cons p ps => rfl
  | nil =>
    unfold complieStage
    simp only [hv rfl, (keyword_of_not_isWord hc (hv rfl)).1, Bool.false_eq_true, if_false, if_true]

theorem complieStage_variable (hv : isVariable w) : complieStage H env idx [w] st =
    (checkFirst env idx w st.varTemps >>= fun _ => st.bindVar (H.toLower w) >>= fun st =>
      st.keep Keyword.setExp.name [w]) := by
  unfold complieStage
  simp only [if_pos hv]

theorem complieStage_alone (hnone : env.funcs = none) (hv : isVariable w = false) :
    complieStage H env idx [w] st = complieSwitch H env idx w [] st := by
  unfold complieStage
  simp only [hv, hnone, Bool.false_eq_true, if_false, ite_self]

theorem complieStage_isWord (hfuncs : env.funcs = some js) (hv : isVariable w = false)
    (hw : isWord [w]) (h : complieStage H env idx [w] st = .ok r) :
    ∃ st', r = .next st' ∧ st'.opened = st.opened ∧ st'.exps = st.exps ++ [⟨w, []⟩] := by
  have hcan : funcCanEmptyInput.contains w = false := by simpa [isWord, hv] using hw
  unfold complieStage at h
  simp only [hv, hcan, hfuncs, Bool.false_eq_true, if_false] at h
  split_ifs at h <;> obtain rfl := Res.ok.inj h
  · exact ⟨_, rfl, rfl, rfl⟩
  · exact ⟨_, rfl, rfl, rfl⟩

theorem Shape.of_keyword {e : Expression} (hr : e.is .rangeExp = false)
    (hif : e.is .ifExp = false) (helif : e.is .elseifExp = false) (hel : e.is .elseExp = false) :
    Shape idx e where
  range_first h := by simp [hr] at h
  if_first h := by simp [hif, helif] at h
  else_first h := by simp [hel] at h

theorem Shape.first (e : Expression) : Shape 0 e where
  range_first _ h := absurd h (lt_irrefl 0)
  if_first _ h := absurd h (lt_irrefl 0)
  else_first _ := rfl

theorem Shape.single (h : keyword w ≠ some .elseExp) : Shape idx ⟨w, []⟩ where
  range_first _ _ := rfl
  if_first _ _ := rfl
  else_first hel := absurd (beq_iff_eq.mp hel) h

theorem SwitchAccepts.shape (h : SwitchAccepts env idx w ps) : Shape idx ⟨w, ps⟩ := by
  rcases Nat.eq_zero_or_pos idx with rfl | hpos
  · exact .first _
  · refine .of_keyword ?_ ?_ ?_ ?_ <;> refine Bool.eq_false_iff.mpr fun hk => ?_ <;>
      simp only [Expression.is, Expression.keyword, beq_iff_eq] at hk <;>
      simp [SwitchAccepts, SwitchAccepts.condition, hk, hpos.ne'] at h

theorem complieSwitch_words (h : complieSwitch H env idx w ps st = .ok (.next st')) :
    st'.exps = st.exps ++ [⟨w, ps⟩] ∧ Words (w :: ps) ⟨w, ps⟩ ∧ Shape idx ⟨w, ps⟩ := by
  obtain ⟨haccepts, vt, -, rfl⟩ := complieSwitch_eq_next.1 h
  exact ⟨rfl, .call w ps, haccepts.shape⟩

theorem complieStage_next (h : complieStage H env idx c st = .ok (.next st')) :
    st'.exps = st.exps ++ [stageExp c] ∧ Words c (stageExp c) ∧ Shape idx (stageExp c) := by
  rcases stage_cases c with rfl | ⟨w, rfl, hv⟩ | ⟨w, rfl, hv, hw⟩ | ⟨w, ps, rfl, hc, hv⟩
  · cases h
  · rw [complieStage_variable hv] at h
    simp only [Res.bind_eq_ok, RowState.bindVar_eq_ok] at h
    obtain ⟨-, -, -, ⟨vt, -, rfl⟩, h⟩ := h
    cases h
    rw [stageExp, if_pos hv]
    exact ⟨rfl, .single w, .of_keyword rfl rfl rfl rfl⟩
  · rw [stageExp, if_neg (by simp [hv])]
    rcases hf : env.funcs with _ | js
    · rw [complieStage_alone hf hv] at h
      exact complieSwitch_words h
    · obtain ⟨st₁, heq, -, hexps⟩ := complieStage_isWord hf hv hw h
      cases heq
      refine ⟨hexps, .call w [], .single fun hk => ?_⟩
      rw [keyword_eq_some] at hk
      simp [isWord, funcCanEmptyInput, hk] at hw
  · rw [complieStage_switch hc hv] at h
    have hexp : stageExp (w :: ps) = ⟨w, ps⟩ := by
      cases ps with
      | nil => rw [stageExp, if_neg (by simp [hv rfl])]
      | cons p ps => rfl
    rw [hexp]
    exact complieSwitch_words h

theorem complieStages_next {cs : List (List GoString)}
    (h : complieStages H env idx cs st = .ok (.next st')) :
    st'.exps = st.exps ++ cs.map stageExp ∧ ∀ i c, cs[i]? = some c →
      Words c (stageExp c) ∧ Shape (idx + i) (stageExp c) := by
  induction cs generalizing idx st with
  | nil =>
    cases h
    simp
  | cons c cs ih =>
    obtain ⟨r, hr, h⟩ := Res.bind_eq_ok.mp h
    cases r with
    | drop st₁ => cases h
    | next st₁ =>
      obtain ⟨hexps, hc⟩ := complieStage_next hr
      obtain ⟨hes, hall⟩ := ih h
      refine ⟨by rw [hes, hexps, map_cons, ← append_cons], fun i c' hi => ?_⟩
      cases i with
      | zero =>
        cases hi
        exact hc
      | succ i =>
        rw [← Nat.add_assoc, Nat.add_right_comm]
        exact hall i c' hi

def stagesOf (H : Host) (exp : GoString) : List (List GoString) :=
  chainFrom [] (expItems H (trim exp " "))

variable {exp : GoString} {vt : VarTemp} {notFound : List GoString} {row : CompiledRow}

def finishRow : StageEnd → CompiledRow
  | .drop st => ⟨[], 0, st.varTemps, st.funcNotFound⟩
  | .next st =>
    if 0 < st.opened then ⟨st.exps, 1, st.varTemps.append, st.funcNotFound⟩
    else ⟨st.exps, st.opened, st.varTemps, st.funcNotFound⟩

theorem finishRow_next {st : RowState} {exps : Row} (hexps : st.exps = [] ++ exps) :
    (finishRow (.next st)).exps = exps ∧
      (finishRow (.next st)).opened = (if 0 < st.opened then 1 else st.opened) ∧
      some (if 0 < st.opened then st.varTemps.append else st.varTemps) =
        some (finishRow (.next st)).varTemps := by
  have hexps : st.exps = exps := hexps
  unfold finishRow
  by_cases hopen : 0 < st.opened
  · simp only [if_pos hopen]
    exact ⟨hexps, trivial, trivial⟩
  · simp only [if_neg hopen]
    exact ⟨hexps, trivial, trivial⟩

theorem compileExp_eq_ok : compileExp H env exp vt notFound = .ok row ↔
    trim exp " " ≠ [] ∧ ∃ r,
      complieStages H env 0 (stagesOf H exp) ⟨vt, [], 0, notFound⟩ = .ok r ∧ finishRow r = row := by
  have hchain : complieChainExps H env (expItems H (trim exp " ")) vt notFound =
      (complieStages H env 0 (stagesOf H exp) ⟨vt, [], 0, notFound⟩ >>= fun r =>
        .ok (finishRow r)) := by
    unfold complieChainExps stagesOf
    congr 1
    funext r
    cases r with
    | drop st => rfl
    | next st => exact (apply_ite Res.ok _ _ _).symm
  unfold compileExp
  by_cases hexp : trim exp " " = []
  · rw [if_pos hexp]
    exact iff_of_false nofun fun h => h.1 hexp
  · rw [if_neg hexp, hchain, Res.bind_eq_ok]
    simp only [Res.ok.injEq, ne_eq, hexp, not_false_eq_true, true_and]

variable (h : compileExp H env exp vt notFound = .ok row)
include h

theorem compileExp_exps : row.exps = [] ∨
    row.exps = (stagesOf H exp).map stageExp ∧ ∀ i c, (stagesOf H exp)[i]? = some c →
      Words c (stageExp c) ∧ Shape i (stageExp c) := by
  obtain ⟨-, r, hr, rfl⟩ := compileExp_eq_ok.1 h
  cases r with
  | drop st => exact .inl rfl
  | next st =>
    obtain ⟨hexps, hall⟩ := complieStages_next hr
    exact .inr ⟨(finishRow_next hexps).1, by simpa using hall⟩

theorem compileExp_words : row.exps = [] ∨
      List.Forall₂ Words (chainFrom [] (expItems H (trim exp " "))) row.exps := by
  refine (compileExp_exps h).imp_right fun ⟨hexps, hall⟩ => ?_
  rw [hexps, forall₂_map_right_iff]
  refine forall₂_same.2 fun c hc => ?_
  obtain ⟨i, hi⟩ := mem_iff_getElem?.1 hc
  exact (hall i c hi).1

theorem compileExp_shape : ∀ i e, row.exps[i]? = some e → Shape i e := by
  intro i e hi
  rcases compileExp_exps h with hnil | ⟨hexps, hall⟩
  · simp [hnil] at hi
  · rw [hexps, getElem?_map] at hi
    obtain ⟨c, hc, rfl⟩ := map_eq_some_iff.1 hi
    exact (hall i c hc).2

end

def Shaped (exps : List Row) : Prop := ∀ exp ∈ exps, ∀ i e, exp[i]? = some e → Shape i e

theorem parse_shaped {H : Host} {env : CompileEnv} {s : GoString} {st : ParseState}
    (h : parse H env s = .ok st) : Shaped (st.rows.map Prod.fst) := by
  refine parse_induction (P := fun st => Shaped (st.rows.map Prod.fst)) ?_ ?_ h
  · intro exp hexp
    cases hexp
  · intro st c st' hstep hshaped
    rcases parseChar_ok hstep with hk | ⟨row, hr⟩
    · rw [hk.rows_eq]
      exact hshaped
    · rw [hr.rows_eq, map_append]
      exact forall_mem_append.mpr
        ⟨hshaped, forall_mem_singleton.mpr (compileExp_shape hr.compiled)⟩

end Kairos
