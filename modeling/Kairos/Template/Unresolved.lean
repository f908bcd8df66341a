import Kairos.Template.CompilePanics
import Kairos.Template.Shapes
import Kairos.Template.Texts

/-!
# Compiling without a function runtime

The runner compiles stored templates without the runtime. `complieChainExps` then goes other ways: a
single word comes to the `switch`, a function with parameters is an error or is kept although
undefined, and the first word of an `if` is not looked up. `StagesResolve` says when none of this
matters to a row, and `rowScopes` which scopes it opens and closes.
-/

namespace Kairos

open Option

/-- The blocks that a stage opens, less those it closes. -/
def stageOpens : List GoString → ℤ
  | [] => 0
  | w :: _ => (keyword w).elim 0 Keyword.opens

def lookedUpOpens (c : List GoString) : ℤ := if isWord c then 0 else stageOpens c

def stageScopes (H : Host) (env : CompileEnv) (idx : ℕ) (c : List GoString) (vt : VarTemp) :
    Option VarTemp :=
  match c with
  | [] => none
  | [w] =>
    if isVariable w then
      (if idx = 0 then lookUp env [w] vt else some vt).bind fun vt => vt.push ⟨H.toLower w, .nil⟩
    else switchScopes H env w [] vt
  | w :: ps => switchScopes H env w ps vt

/-! ## One stage with and without the runtime -/

def standAlone : List Keyword :=
  [.subExp, .mergeExp, .pushExp, .elseExp, .endExp, .returnExp, .parseExp]

/-- Without the runtime, a function is kept as where it was found or an undefined one is no error,
the function of an `if` was found, and a single keyword is accepted. -/
def SwitchResolves (js : JsRuntime) (restrict : Bool) (idx : ℕ) (w : GoString)
    (ps : List GoString) :
    Prop :=
  match keyword w with
  | none => restrict = false ∧ (ps ≠ [] → js.get w ≠ none)
  | some .ifExp => condition
  | some .elseifExp => condition
  | some .breakExp => ps = [] → idx = 0
  | some k => ps = [] → k ∈ standAlone
where
  condition : Prop := ∃ p ∈ ps.head?, isCondition p ∨ js.get p ≠ none

def StageResolves (js : JsRuntime) (restrict : Bool) (idx : ℕ) : List GoString → Prop
  | [] => False
  | [w] => isVariable w ∨ SwitchResolves js restrict idx w []
  | w :: ps => SwitchResolves js restrict idx w ps

def GoesOn (r : Res StageEnd) : Prop := ∃ st', r = .ok (.next st')

section

variable {H : Host} {env : CompileEnv} {js : JsRuntime} {idx : ℕ} {w : GoString}
  {ps c : List GoString} {vt vt' : VarTemp} {st st' stJ : RowState} {r : StageEnd} {α : Type}

theorem GoesOn.bind {x : Res α} {f : α → Res StageEnd} {a : α} (hx : x = .ok a)
    (hf : GoesOn (f a)) : GoesOn (x >>= f) := by
  rw [hx]
  exact hf

theorem GoesOn.of_bind {x : Res α} {f : α → Res StageEnd} (h : GoesOn (x >>= f)) :
    ∃ a, x = .ok a ∧ GoesOn (f a) := by
  obtain ⟨st', h⟩ := h
  obtain ⟨a, ha, hf⟩ := Res.bind_eq_ok.1 h
  exact ⟨a, ha, st', hf⟩

theorem complieSwitch_goesOn : GoesOn (complieSwitch H env idx w ps st) ↔
    SwitchAccepts env idx w ps ∧ ∃ vt, switchScopes H env w ps st.varTemps = some vt := by
  simp only [GoesOn, complieSwitch_eq_next]
  constructor
  · rintro ⟨st', haccepts, vt, hvt, -⟩
    exact ⟨haccepts, vt, hvt⟩
  · rintro ⟨haccepts, vt, hvt⟩
    exact ⟨_, haccepts, vt, hvt, rfl⟩

theorem SwitchAccepts.restart (hj : SwitchAccepts { env with funcs := some js } idx w ps)
    (hnone : env.funcs = none) (hres : SwitchResolves js env.restrict idx w ps) :
    SwitchAccepts env idx w ps := by
  have hcond (h : SwitchAccepts.condition { env with funcs := some js } idx ps) :
      SwitchAccepts.condition env idx ps := by
    obtain ⟨hidx, p, hp, -⟩ := h
    exact ⟨hidx, p, hp, by rw [findCondition, hnone]⟩
  unfold SwitchAccepts at hj ⊢
  unfold SwitchResolves at hres
  cases hk : keyword w with
  | none =>
    simp only [hk] at hres
    simp only [hnone, elim_none, hres.1]
  | some k =>
    simp only [hk] at hj
    cases k with
    | ifExp | elseifExp => exact hcond hj
    | _ => exact hj

theorem SwitchAccepts.resolves (hn : SwitchAccepts env idx w ps) (hnone : env.funcs = none)
    (hscopes : switchScopes H env w ps vt = some vt')
    (hj : ps ≠ [] → SwitchAccepts { env with funcs := some js } idx w ps) :
    SwitchResolves js env.restrict idx w ps := by
  have hcond (hn : SwitchAccepts.condition env idx ps)
      (hj : ps ≠ [] → SwitchAccepts.condition { env with funcs := some js } idx ps) :
      SwitchResolves.condition js ps := by
    obtain ⟨-, p, hp, -⟩ := hn
    obtain ⟨-, p', hp', hfound⟩ := hj fun h => by simp [h] at hp
    cases hp.symm.trans hp'
    refine ⟨p, hp, ?_⟩
    by_contra h
    rw [not_or, not_not, Bool.not_eq_true, isCondition] at h
    simp only [findCondition, h.1, h.2, Bool.false_eq_true, if_false] at hfound
    split_ifs at hfound
    cases hfound
  unfold SwitchResolves
  unfold SwitchAccepts at hn hj
  unfold switchScopes at hscopes
  cases hk : keyword w with
  | none =>
    simp only [hk, hnone, elim_none, elim_some] at hn hj
    exact ⟨hn, fun hps => by simp [hj hps]⟩
  | some k =>
    simp only [hk] at hn hj hscopes
    -- alone, the other keywords are not accepted or find no variable to bind
    cases k with
    | ifExp | elseifExp => exact hcond hn hj
    | breakExp => exact fun _ => hn
    | subExp | mergeExp | pushExp | elseExp | endExp | returnExp | parseExp =>
      exact fun _ => by decide
    | _ =>
      rintro rfl
      simp at hn hscopes

theorem SwitchResolves.alone (hres : SwitchResolves js env.restrict idx w [])
    (hnone : env.funcs = none) (hcan : funcCanEmptyInput.contains w = false) :
    SwitchAccepts env idx w [] := by
  unfold SwitchResolves at hres
  unfold SwitchAccepts
  cases hk : keyword w with
  | none =>
    simp only [hk] at hres
    simp only [hnone, elim_none, hres.1]
  | some k =>
    have hname : w = k.name := keyword_eq_some.1 hk
    simp only [hk] at hres
    cases k with
    | ifExp | elseifExp =>
      obtain ⟨p, hp, -⟩ := hres
      cases hp
    | breakExp => exact hres trivial
    | subExp | mergeExp => simp
    | pushExp => trivial
    | elseExp | endExp | returnExp | parseExp => simp [hname, funcCanEmptyInput] at hcan
    | _ => exact absurd (hres trivial) (by decide)

theorem keyword_of_isVariable (h : isVariable w) : keyword w = none := by
  rw [eq_none_iff_forall_ne_some]
  intro k hk
  rw [keyword_eq_some] at hk
  subst hk
  cases k <;> exact absurd h (by decide)

theorem stageScopes_switch (hv : ps = [] → isVariable w = false) :
    stageScopes H env idx (w :: ps) vt = switchScopes H env w ps vt := by
  cases ps with
  | nil => simp only [stageScopes, hv rfl, Bool.false_eq_true, if_false]
  | cons p ps => rfl

theorem stageScopes_variable (hv : isVariable w) : stageScopes H env idx [w] vt = some vt' ↔
    checkFirst env idx w vt = .ok () ∧ vt.push ⟨H.toLower w, .nil⟩ = some vt' := by
  rw [checkFirst_eq_ok]
  by_cases hidx : idx = 0
  · simp only [stageScopes, if_pos hv, if_pos hidx, bind_eq_some_iff, lookUp_eq_some]
    simp [hidx]
  · simp [stageScopes, hv, hidx]

theorem RowState.kept_opened (haccepts : SwitchAccepts env idx w ps)
    (hopened : idx = 0 → st.opened = 0) :
    (st.kept env w ps vt).opened = st.opened + stageOpens (w :: ps) := by
  unfold RowState.kept stageOpens
  by_cases hif : keyword w = some .ifExp
  · -- an `if` is the first stage of its row
    rw [SwitchAccepts, hif] at haccepts
    simp [hif, hopened haccepts.1, Keyword.opens]
  · simp [hif]

theorem complieStage_variable_ok (hv : isVariable w) (h : complieStage H env idx [w] st = .ok r) :
    ∃ st', r = .next st' ∧ stageScopes H env idx [w] st.varTemps = some st'.varTemps ∧
      st'.opened = st.opened + stageOpens [w] := by
  rw [complieStage_variable hv] at h
  simp only [Res.bind_eq_ok, RowState.bindVar_eq_ok] at h
  obtain ⟨u, hcheck, -, ⟨vt, hvt, rfl⟩, h⟩ := h
  cases h
  refine ⟨_, rfl, (stageScopes_variable hv).2 ⟨hcheck, hvt⟩, ?_⟩
  rw [stageOpens, keyword_of_isVariable hv]
  exact (add_zero _).symm

theorem complieStage_effect (hnone : env.funcs = none) (hopened : idx = 0 → st.opened = 0)
    (h : complieStage H env idx c st = .ok r) :
    ∃ st', r = .next st' ∧ stageScopes H env idx c st.varTemps = some st'.varTemps ∧
      st'.opened = st.opened + stageOpens c := by
  have hswitch (w : GoString) (ps : List GoString) (hv : ps = [] → isVariable w = false)
      (h : complieSwitch H env idx w ps st = .ok r) : ∃ st', r = .next st' ∧
        stageScopes H env idx (w :: ps) st.varTemps = some st'.varTemps ∧
        st'.opened = st.opened + stageOpens (w :: ps) := by
    rw [stageScopes_switch hv]
    rcases complieSwitch_eq_ok.1 h with ⟨haccepts, vt, hvt, rfl⟩ | ⟨⟨⟨js, hjs, -⟩, -⟩, -⟩
    · exact ⟨_, rfl, hvt, RowState.kept_opened haccepts hopened⟩
    · exact absurd (hnone.symm.trans hjs) nofun
  rcases stage_cases c with rfl | ⟨w, rfl, hv⟩ | ⟨w, rfl, hv, hw⟩ | ⟨w, ps, rfl, hc, hv⟩
  · cases h
  · exact complieStage_variable_ok hv h
  · rw [complieStage_alone hnone hv] at h
    exact hswitch w [] (fun _ => hv) h
  · rw [complieStage_switch hc hv] at h
    exact hswitch w ps hv h

theorem Undefined.not_resolves (hfuncs : env.funcs = some js) (hps : keyword w = none → ps ≠ [])
    (h : Undefined env w ps) : ¬ SwitchResolves js env.restrict idx w ps := by
  obtain ⟨js', hjs, h⟩ := h
  cases hfuncs.symm.trans hjs
  have hcond (h : Undefined.condition ps js) : ¬ SwitchResolves.condition js ps := by
    rintro ⟨p, hp, hres⟩
    obtain ⟨p', hp', hcondition, hget⟩ := h
    cases hp.symm.trans hp'
    rcases hres with hres | hres
    · exact absurd hres (by simp [hcondition])
    · exact hres hget
  unfold SwitchResolves
  cases hk : keyword w with
  | none =>
    simp only [hk] at h
    exact fun hres => hres.2 (hps hk) h
  | some k => cases k <;> simp only [hk] at h <;> exact hcond h

theorem complieStage_lookedUp (hfuncs : env.funcs = some js) (hopened : idx = 0 → st.opened = 0)
    (h : complieStage H env idx c st = .ok r) :
    (∃ st', r = .next st' ∧ st'.opened = st.opened + lookedUpOpens c) ∨
      (∃ st', r = .drop st') ∧ ¬ StageResolves js env.restrict idx c := by
  rcases stage_cases c with rfl | ⟨w, rfl, hv⟩ | ⟨w, rfl, hv, hw⟩ | ⟨w, ps, rfl, hc, hv⟩
  · cases h
  · obtain ⟨st', rfl, -, hopens⟩ := complieStage_variable_ok hv h
    refine .inl ⟨st', rfl, ?_⟩
    rw [lookedUpOpens, isWord, hv]
    exact hopens
  · obtain ⟨st', rfl, hst, -⟩ := complieStage_isWord hfuncs hv hw h
    refine .inl ⟨st', rfl, ?_⟩
    rw [lookedUpOpens, if_pos hw, hst, add_zero]
  · rw [complieStage_switch hc hv] at h
    rcases complieSwitch_eq_ok.1 h with ⟨haccepts, vt, -, rfl⟩ | ⟨⟨hundefined, -⟩, -, rfl⟩
    · refine .inl ⟨_, rfl, ?_⟩
      rw [RowState.kept_opened haccepts hopened, lookedUpOpens, hc]
      rfl
    · have hps : keyword w = none → ps ≠ [] := by
        rintro hk rfl
        exact (keyword_of_not_isWord hc (hv rfl)).2 hk
      have hnot : ¬ SwitchResolves js env.restrict idx w ps := hundefined.not_resolves hfuncs hps
      refine .inr ⟨⟨_, rfl⟩, ?_⟩
      cases ps with
      | nil => exact fun hres => hres.elim (by simp [hv rfl]) hnot
      | cons p ps => exact hnot

theorem complieStage_restart (hj : GoesOn (complieStage H { env with funcs := some js } idx c stJ))
    (hnone : env.funcs = none) (hres : StageResolves js env.restrict idx c)
    (hscopes : stageScopes H env idx c st.varTemps = some vt') :
    GoesOn (complieStage H env idx c st) := by
  rcases stage_cases c with rfl | ⟨w, rfl, hv⟩ | ⟨w, rfl, hv, hw⟩ | ⟨w, ps, rfl, hc, hv⟩
  · exact hres.elim
  · obtain ⟨hcheck, hpush⟩ := (stageScopes_variable hv).1 hscopes
    rw [complieStage_variable hv]
    exact .bind hcheck (.bind (RowState.bindVar_eq_ok.2 ⟨_, hpush, rfl⟩) ⟨_, rfl⟩)
  · have hcan : funcCanEmptyInput.contains w = false := by simpa [isWord, hv] using hw
    rw [stageScopes_switch fun _ => hv] at hscopes
    rw [complieStage_alone hnone hv, complieSwitch_goesOn]
    exact ⟨(hres.resolve_left (by simp [hv])).alone hnone hcan, _, hscopes⟩
  · rw [stageScopes_switch hv] at hscopes
    rw [complieStage_switch hc hv, complieSwitch_goesOn] at hj ⊢
    have hres : SwitchResolves js env.restrict idx w ps := by
      cases ps with
      | nil => exact hres.resolve_left (by simp [hv rfl])
      | cons p ps => exact hres
    exact ⟨hj.1.restart hnone hres, _, hscopes⟩

theorem complieStage_resolves (hj : GoesOn (complieStage H { env with funcs := some js } idx c stJ))
    (hnone : env.funcs = none)
    (hn : GoesOn (complieStage H env idx c st)) : StageResolves js env.restrict idx c := by
  rcases stage_cases c with rfl | ⟨w, rfl, hv⟩ | ⟨w, rfl, hv, hw⟩ | ⟨w, ps, rfl, hc, hv⟩
  · obtain ⟨st', h⟩ := hn
    cases h
  · exact .inl hv
  · rw [complieStage_alone hnone hv, complieSwitch_goesOn] at hn
    obtain ⟨hn, vt, hvt⟩ := hn
    exact .inr (hn.resolves hnone hvt fun h => absurd rfl h)
  · rw [complieStage_switch hc hv, complieSwitch_goesOn] at hj hn
    obtain ⟨hn, vt, hvt⟩ := hn
    have hres := hn.resolves hnone hvt fun _ => hj.1
    cases ps with
    | nil => exact .inr hres
    | cons p ps => exact hres

end

/-! ## Rows -/

section

variable (H : Host) (env : CompileEnv)

def rowScopes : ℕ → List (List GoString) → VarTemp → Option VarTemp
  | _, [], vt => some vt
  | idx, c :: cs, vt => (stageScopes H env idx c vt).bind (rowScopes (idx + 1) cs)

def StagesResolve (js : JsRuntime) (restrict : Bool) : ℕ → List (List GoString) → Prop
  | _, [] => True
  | idx, c :: cs => StageResolves js restrict idx c ∧ StagesResolve js restrict (idx + 1) cs

def rowOpens (opens : List GoString → ℤ) (cs : List (List GoString)) : ℤ :=
  if 0 < (cs.map opens).sum then 1 else (cs.map opens).sum

def textScopes (exp : GoString) (vt : VarTemp) : Option VarTemp :=
  (rowScopes H env 0 (stagesOf H exp) vt).map fun vt =>
    if 0 < ((stagesOf H exp).map stageOpens).sum then vt.append else vt

def textsScopes : List GoString → VarTemp → Option VarTemp
  | [], vt => some vt
  | exp :: exps, vt => (textScopes H env exp vt).bind (textsScopes exps)

def TextResolves (js : JsRuntime) (restrict : Bool) (exp : GoString) : Prop :=
  StagesResolve js restrict 0 (stagesOf H exp) ∧
    rowOpens stageOpens (stagesOf H exp) = rowOpens lookedUpOpens (stagesOf H exp)

end

section

variable {H : Host} {env : CompileEnv} {js : JsRuntime} {idx : ℕ} {cs : List (List GoString)}
  {st st' stJ : RowState} {r : StageEnd}

theorem complieStages_effect (hnone : env.funcs = none) (hopened : idx = 0 → st.opened = 0)
    (h : complieStages H env idx cs st = .ok r) :
    ∃ st', r = .next st' ∧ rowScopes H env idx cs st.varTemps = some st'.varTemps ∧
      st'.opened = st.opened + (cs.map stageOpens).sum := by
  induction cs generalizing idx st with
  | nil =>
    cases h
    exact ⟨st, rfl, rfl, by simp⟩
  | cons c cs ih =>
    obtain ⟨r₁, hr₁, h⟩ := Res.bind_eq_ok.1 h
    obtain ⟨st₁, rfl, hscopes, hopens⟩ := complieStage_effect hnone hopened hr₁
    obtain ⟨st', hr, hscopes', hopens'⟩ := ih (fun h => absurd h (Nat.succ_ne_zero _)) h
    refine ⟨st', hr, ?_, ?_⟩
    · rw [rowScopes, hscopes, bind_some, hscopes']
    · rw [hopens', hopens, List.map_cons, List.sum_cons, add_assoc]

theorem complieStages_lookedUp (hfuncs : env.funcs = some js) (hopened : idx = 0 → st.opened = 0)
    (h : complieStages H env idx cs st = .ok r) :
    (∃ st', r = .next st' ∧ st'.opened = st.opened + (cs.map lookedUpOpens).sum) ∨
      (∃ st', r = .drop st') ∧ cs ≠ [] ∧ ¬ StagesResolve js env.restrict idx cs := by
  induction cs generalizing idx st with
  | nil =>
    cases h
    exact .inl ⟨st, rfl, by simp⟩
  | cons c cs ih =>
    obtain ⟨r₁, hr₁, h⟩ := Res.bind_eq_ok.1 h
    rcases complieStage_lookedUp hfuncs hopened hr₁ with ⟨st₁, rfl, hopens⟩ | ⟨⟨st₁, rfl⟩, hnot⟩
    · rcases ih (fun h => absurd h (Nat.succ_ne_zero _)) h with
        ⟨st', hr, hopens'⟩ | ⟨hr, -, hnot⟩
      · refine .inl ⟨st', hr, ?_⟩
        rw [hopens', hopens, List.map_cons, List.sum_cons, add_assoc]
      · exact .inr ⟨hr, List.cons_ne_nil _ _, fun hres => hnot hres.2⟩
    · cases h
      exact .inr ⟨⟨st₁, rfl⟩, List.cons_ne_nil _ _, fun hres => hnot hres.1⟩

theorem complieStages_restart {vt' : VarTemp} (hnone : env.funcs = none)
    (hj : GoesOn (complieStages H { env with funcs := some js } idx cs stJ))
    (hres : StagesResolve js env.restrict idx cs)
    (hscopes : rowScopes H env idx cs st.varTemps = some vt') (hopened : idx = 0 → st.opened = 0) :
    GoesOn (complieStages H env idx cs st) := by
  induction cs generalizing idx st stJ with
  | nil => exact ⟨st, rfl⟩
  | cons c cs ih =>
    obtain ⟨r₁, hr₁, hj⟩ := hj.of_bind
    obtain ⟨vt, hvt, hscopes⟩ := bind_eq_some_iff.1 hscopes
    cases r₁ with
    | drop stJ₁ =>
      obtain ⟨_, h⟩ := hj
      cases h
    | next stJ₁ =>
      obtain ⟨st₁, hst₁⟩ := complieStage_restart ⟨stJ₁, hr₁⟩ hnone hres.1 hvt
      obtain ⟨_, heq, hscopes₁, -⟩ := complieStage_effect hnone hopened hst₁
      cases heq
      cases hvt.symm.trans hscopes₁
      exact .bind hst₁ (ih hj hres.2 hscopes fun h => absurd h (Nat.succ_ne_zero _))

theorem complieStages_resolve (hnone : env.funcs = none)
    (hj : GoesOn (complieStages H { env with funcs := some js } idx cs stJ))
    (hn : GoesOn (complieStages H env idx cs st)) : StagesResolve js env.restrict idx cs := by
  induction cs generalizing idx st stJ with
  | nil => trivial
  | cons c cs ih =>
    obtain ⟨r₁, hr₁, hj⟩ := hj.of_bind
    obtain ⟨r₂, hr₂, hn⟩ := hn.of_bind
    cases r₁ with
    | drop _ =>
      obtain ⟨_, h⟩ := hj
      cases h
    | next stJ₁ =>
      cases r₂ with
      | drop _ =>
        obtain ⟨_, h⟩ := hn
        cases h
      | next st₁ => exact ⟨complieStage_resolves ⟨stJ₁, hr₁⟩ hnone ⟨st₁, hr₂⟩, ih hj hn⟩

end

end Kairos
