import Kairos.Template.Rounds

/-!
# Where the compiler panics

`complieChainExps` reads the words of a stage by their positions and pushes variables on the
innermost scope, and neither has to be there. `FaultyStage` lists the stages at which it panics.
-/

namespace Kairos

open List
open Strings (hasSuffix trim)

section

variable (env : CompileEnv)

/-- A keyword that binds a variable where no scope is open, a `range` without its two variables, and
a `wait` or a `printf` without parameters. -/
def FaultySwitch (idx : ℕ) (w : GoString) (ps : List GoString) (vt : VarTemp) : Prop :=
  match keyword w with
  | some .setExp => ps.length = 2 ∧ vt = []
  | some .define =>
    (∃ x, ∃ ty ∈ ["map".toList, "array".toList, "number".toList, "string".toList], ps = [x, ty]) ∧
      vt = []
  | some .rangeExp =>
    idx = 0 ∧ ∀ p rest, ps = p :: rest →
      checkValidParam env [p] vt = .ok () ∧ (vt = [] ∨ rest.length < 2)
  | some .waitExp => waits
  | some .waiteExp => waits
  | some .printfExp => ps = []
  | _ => False
where
  waits : Prop :=
    (∀ e ∈ ps, env.input.contains (bareName e) || hasSuffix e subChannel ||
      hasSuffix e subTask) ∧ (ps = [] ∨ vt = [])

/-- A stage without words, a variable where no scope is open, and those of `FaultySwitch`. A single
keyword comes to the `switch` only without a runtime. -/
def FaultyStage (idx : ℕ) (c : List GoString) (vt : VarTemp) : Prop :=
  match c with
  | [] => True
  | [w] =>
    if isVariable w then vt = [] ∧ (idx = 0 → checkValidParam env [w] vt = .ok ())
    else env.funcs = none ∧ FaultySwitch env idx w [] vt
  | w :: ps => FaultySwitch env idx w ps vt

/-- `Build` of `s` comes to stage `c`, number `idx` of its row, with the scopes `vt` open: the text
before is read, and the stages before are compiled. -/
def CompilesStage (H : Host) (s : GoString) (idx : ℕ) (c : List GoString) (vt : VarTemp) : Prop :=
  ∃ pre post st before after row,
    s = pre ++ '\x7d' :: post ∧ parseLoop H env pre .start = .ok st ∧
    st.opened = st.closed + 1 ∧ st.expStr ≠ [] ∧ trim st.expStr " ".toList ≠ [] ∧
    chainFrom [] (expItems H (trim st.expStr " ".toList)) = before ++ c :: after ∧
    complieStages H env 0 before ⟨st.varTemps, [], 0, st.funcNotFound⟩ = .ok (.next row) ∧
    idx = before.length ∧ vt = row.varTemps

end

/-! ## One stage -/

section

variable {H : Host} {env : CompileEnv} {idx : ℕ} {w : GoString} {ps : List GoString}
  {st : RowState}

theorem checkParams_ne_panic (vt : VarTemp) (all items : List GoString) :
    checkParams env vt all items ≠ .panic := by
  induction items with
  | nil => simp [checkParams]
  | cons e items ih =>
    simp only [checkParams]
    split_ifs <;> simp [ih]

@[simp] theorem checkValidParam_ne_panic (items : List GoString) (vt : VarTemp) :
    checkValidParam env items vt ≠ .panic :=
  checkParams_ne_panic vt items items

@[simp] theorem RowState.keep_ne_panic : st.keep w ps ≠ .panic := by simp [RowState.keep]

@[simp] theorem RowState.bindVar_eq_panic {key : GoString} :
    st.bindVar key = .panic ↔ st.varTemps = [] := by
  rcases st with ⟨_ | ⟨scope, outer⟩, _⟩ <;> simp [RowState.bindVar, VarTemp.push]

@[simp] theorem RowState.clearTop_ne_panic : st.clearTop ≠ .panic := by
  rcases st with ⟨_ | ⟨scope, outer⟩, _⟩ <;> simp [RowState.clearTop, VarTemp.clearTop]

@[simp] theorem RowState.pop_ne_panic : st.pop ≠ .panic := by
  rcases st with ⟨_ | ⟨scope, outer⟩, _⟩ <;> simp [RowState.pop, VarTemp.pop]

theorem findCondition_ne_panic (p : GoString) : findCondition env p ≠ .panic := by
  rcases hf : env.funcs with _ | js
  · simp [findCondition, hf]
  · rcases hg : js.get p with _ | _ | _ <;> simp only [findCondition, hf, hg] <;> split_ifs <;> simp

theorem complieIf_ne_panic : complieIf env idx w ps st ≠ .panic := by
  by_cases hidx : 0 < idx
  · simp [complieIf, hidx]
  · rcases ps with _ | ⟨p, rest⟩
    · simp [complieIf, hidx]
    · simp only [complieIf, hidx, if_false, ne_eq, Res.bind_eq_panic, not_or, not_exists, not_and]
      refine ⟨findCondition_ne_panic p, fun found _ => ?_⟩
      split_ifs <;> simp [Res.bind_eq_panic]

theorem complieFunc_ne_panic : complieFunc env w ps st ≠ .panic := by
  rcases hf : env.funcs with _ | js
  · simp only [complieFunc, hf]
    split_ifs <;> simp
  · rcases hg : js.get w with _ | _ | _ <;> simp only [complieFunc, hf, hg] <;> try split_ifs
    all_goals simp

theorem complieSub_ne_panic : complieSwitch.complieSub env idx w ps st ≠ .panic := by
  simp only [complieSwitch.complieSub]
  split_ifs <;> simp [Res.bind_eq_panic]

theorem complieSend_ne_panic : complieSwitch.complieSend env w ps st ≠ .panic := by
  simp only [complieSwitch.complieSend]
  split_ifs <;> simp [Res.bind_eq_panic]

theorem complieAccess_ne_panic : complieSwitch.complieAccess env w ps st ≠ .panic := by
  simp only [complieSwitch.complieAccess]
  split_ifs <;> simp [Res.bind_eq_panic]

theorem complieWait_eq_panic :
    complieSwitch.complieWait env w ps st = .panic ↔ FaultySwitch.waits env ps st.varTemps := by
  simp only [complieSwitch.complieWait, FaultySwitch.waits]
  rcases hfind : ps.find? fun e => !env.input.contains (bareName e) &&
      !hasSuffix e subChannel && !hasSuffix e subTask with _ | e
  · have hall : ∀ e ∈ ps, (env.input.contains (bareName e) || hasSuffix e subChannel ||
        hasSuffix e subTask) := by
      intro e he
      have := find?_eq_none.mp hfind e he
      simpa [-Bool.not_eq_true, or_assoc, imp_iff_not_or] using this
    rw [and_iff_right hall]
    rcases ps with _ | ⟨p, rest⟩ <;> simp [Res.ofOption, Res.bind_eq_panic]
  · have hmem := mem_of_find?_eq_some hfind
    have he := find?_some hfind
    simp only [reduceCtorEq, false_iff, not_and]
    intro hall
    have := hall e hmem
    simp_all

theorem rangeVars_eq_panic (rest : List GoString) : (do
      let key ← Res.ofOption rest[0]? let st ← st.bindVar key let value ← Res.ofOption rest[1]?
      let st ← st.bindVar value
      st.openMore.keep w ps : Res StageEnd) = .panic ↔ st.varTemps = [] ∨ rest.length < 2 := by
  rcases st with ⟨_ | ⟨scope, outer⟩, exps, opened, notFound⟩ <;>
    rcases rest with _ | ⟨key, _ | ⟨value, rest⟩⟩ <;>
    simp [Res.ofOption, RowState.bindVar, VarTemp.push, RowState.keep]

theorem complieSwitch_eq_panic :
    complieSwitch H env idx w ps st = .panic ↔ FaultySwitch env idx w ps st.varTemps := by
  rcases hk : keyword w with _ | k
  · simp only [complieSwitch, FaultySwitch, hk, complieFunc_ne_panic]
  · cases k <;> simp only [complieSwitch, FaultySwitch, hk, complieIf_ne_panic, complieSub_ne_panic,
      complieSend_ne_panic, complieAccess_ne_panic, complieWait_eq_panic, RowState.keep_ne_panic]
    case elseExp => split_ifs <;> simp [Res.bind_eq_panic]
    case endExp => split_ifs <;> simp [Res.bind_eq_panic]
    case parseExp => split_ifs <;> simp
    case breakExp => split_ifs <;> simp [Res.bind_eq_panic]
    case setExp => rcases ps with _ | ⟨x, _ | ⟨y, _ | ⟨z, rest⟩⟩⟩ <;> simp [Res.bind_eq_panic]
    case define =>
      rcases ps with _ | ⟨x, _ | ⟨ty, _ | ⟨z, rest⟩⟩⟩ <;> simp only
      · simp
      · simp
      · split_ifs with hty
        · have hmem := contains_iff_mem.mp hty
          simp only [Res.bind_eq_panic, RowState.bindVar_eq_panic, RowState.keep_ne_panic,
            and_false,
            exists_false, or_false]
          exact (and_iff_right ⟨x, ty, hmem, rfl⟩).symm
        · refine iff_of_false (by simp) ?_
          rintro ⟨⟨x', ty', hmem, heq⟩, -⟩
          simp only [List.cons.injEq, and_true] at heq
          exact hty (contains_iff_mem.mpr (heq.2 ▸ hmem))
      · simp
    case printfExp =>
      rcases ps with _ | ⟨p, rest⟩ <;> simp only
      split_ifs <;> simp
    case rangeExp =>
      by_cases hidx : 0 < idx
      · simp [hidx, hidx.ne']
      · obtain rfl : idx = 0 := by omega
        rcases ps with _ | ⟨p, rest⟩
        · simp
        · simp only [lt_irrefl, if_false, true_and]
          rw [Res.bind_eq_panic, or_iff_right (checkValidParam_ne_panic _ _)]
          simp only [rangeVars_eq_panic]
          constructor
          · rintro ⟨_, hcheck, hvars⟩ p' rest' heq
            cases heq
            exact ⟨hcheck, hvars⟩
          · intro h
            exact ⟨(), h p rest rfl⟩

variable {vt : VarTemp}

theorem checkFirst_eq_ok :
    checkFirst env idx w vt = .ok () ↔ (idx = 0 → checkValidParam env [w] vt = .ok ()) := by
  by_cases hidx : idx = 0
  · rcases hc : checkValidParam env [w] vt with _ | _ | _ <;> simp [checkFirst, hidx, hc]
  · simp [checkFirst, hidx]

theorem checkFirst_ne_panic : checkFirst env idx w vt ≠ .panic := by
  by_cases hidx : idx = 0
  · rcases hc : checkValidParam env [w] vt with _ | _ | _ <;> simp [checkFirst, hidx, hc]
    exact checkValidParam_ne_panic _ _ hc
  · simp [checkFirst, hidx]

theorem not_faultySwitch_of_canEmpty (h : funcCanEmptyInput.contains w) (vt : VarTemp) :
    ¬ FaultySwitch env idx w ps vt := by
  simp only [funcCanEmptyInput, contains_cons, contains_nil, Bool.or_false,
    Bool.or_eq_true, beq_iff_eq] at h
  rcases h with rfl | rfl | rfl | rfl <;> simp [FaultySwitch]

theorem complieStage_eq_panic {c : List GoString} :
    complieStage H env idx c st = .panic ↔ FaultyStage env idx c st.varTemps := by
  rcases c with _ | ⟨w, _ | ⟨p, ps⟩⟩
  · simp [complieStage, FaultyStage]
  · by_cases hv : isVariable w
    · simp only [complieStage, FaultyStage, hv, if_true, Res.bind_eq_panic, checkFirst_ne_panic,
        RowState.bindVar_eq_panic, RowState.keep_ne_panic, and_false, exists_false,
        or_false, false_or]
      constructor
      · rintro ⟨_, hcheck, hvt⟩
        exact ⟨hvt, checkFirst_eq_ok.mp hcheck⟩
      · rintro ⟨hvt, hcheck⟩
        exact ⟨(), checkFirst_eq_ok.mpr hcheck, hvt⟩
    · by_cases hw : funcCanEmptyInput.contains w
      · simp only [complieStage, FaultyStage, hv, hw, if_true, Bool.false_eq_true, if_false,
          complieSwitch_eq_panic, not_faultySwitch_of_canEmpty hw, and_false]
      · rcases hf : env.funcs with _ | js <;>
          simp only [complieStage, FaultyStage, hv, hw, hf, if_false, Bool.false_eq_true, true_and,
            reduceCtorEq, false_and, iff_false]
        · exact complieSwitch_eq_panic
        · split_ifs <;> simp
  · exact complieSwitch_eq_panic

/-! ## Rows and texts -/

theorem complieStages_eq_panic (cs : List (List GoString)) :
    complieStages H env idx cs st = .panic ↔ ∃ before c after st', cs = before ++ c :: after ∧
        complieStages H env idx before st = .ok (.next st') ∧
        complieStage H env (idx + before.length) c st' = .panic := by
  induction cs generalizing idx st with
  | nil => simp [complieStages]
  | cons c cs ih =>
    constructor
    · intro h
      rw [complieStages, Res.bind_eq_panic] at h
      rcases h with h | ⟨r, hr, h⟩
      · exact ⟨[], c, cs, st, rfl, rfl, h⟩
      · cases r with
        | drop st' => cases h
        | next st' =>
          obtain ⟨before, d, after, st'', rfl, hbefore, hd⟩ := ih.mp h
          refine ⟨c :: before, d, after, st'', rfl, ?_, ?_⟩
          · rw [complieStages, hr]
            exact hbefore
          · rwa [length_cons, show idx + (before.length + 1) =
              idx + 1 + before.length by omega]
    · rintro ⟨before, d, after, st', heq, hbefore, hd⟩
      rw [complieStages, Res.bind_eq_panic]
      rcases before with _ | ⟨c', before⟩
      · cases heq
        obtain rfl : st = st' := by simpa [complieStages] using hbefore
        exact .inl hd
      · cases heq
        rw [complieStages, Res.bind_eq_ok] at hbefore
        obtain ⟨r, hr, hbefore⟩ := hbefore
        cases r with
        | drop st'' => simp at hbefore
        | next st'' =>
          refine .inr ⟨_, hr, ih.mpr ⟨before, d, after, st', rfl, hbefore, ?_⟩⟩
          rwa [length_cons, show idx + (before.length + 1) = idx + 1 + before.length by omega]
            at hd

variable {notFound : List GoString}

theorem complieChainExps_eq_panic {items : List GoString} :
    complieChainExps H env items vt notFound = .panic ↔
      complieStages H env 0 (chainFrom [] items) ⟨vt, [], 0, notFound⟩ = .panic := by
  rw [complieChainExps, Res.bind_eq_panic]
  refine or_iff_left ?_
  rintro ⟨r, -, h⟩
  cases r with
  | drop st => cases h
  | next st =>
    simp only at h
    split_ifs at h

theorem compileExp_eq_panic {exp : GoString} :
    compileExp H env exp vt notFound = .panic ↔ trim exp " ".toList ≠ [] ∧
      complieStages H env 0 (chainFrom [] (expItems H (trim exp " ".toList)))
        ⟨vt, [], 0, notFound⟩ = .panic := by
  simp only [compileExp]
  split_ifs with h
  · exact iff_of_false (by simp) fun hc => hc.1 h
  · rw [and_iff_right h, complieChainExps_eq_panic]

theorem parseExp_eq_panic {st : ParseState} : parseExp H env st = .panic ↔
    compileExp H env st.expStr st.varTemps st.funcNotFound = .panic := by
  rw [parseExp, Res.bind_eq_panic]
  refine or_iff_left ?_
  rintro ⟨row, -, h⟩
  simp only at h
  split_ifs at h

theorem parseChar_eq_panic {st : ParseState} {c : Char} :
    parseChar H env st c = .panic ↔ c = '\x7d' ∧ st.opened = st.closed + 1 ∧ st.expStr ≠ [] ∧
      compileExp H env st.expStr st.varTemps st.funcNotFound = .panic := by
  simp only [parseChar]
  split_ifs with h1 h2 h3 h4 h5 h6 h7
  · exact iff_of_false (by simp) fun h => absurd (h1.symm.trans h.1) (by decide)
  · exact iff_of_false (by simp) fun h => absurd (h1.symm.trans h.1) (by decide)
  · exact iff_of_false (by simp) fun h => absurd (h1.symm.trans h.1) (by decide)
  · exact iff_of_false (by simp) fun h => by omega
  · rw [parseExp_eq_panic]
    exact ⟨fun h => ⟨h4, h6.1, h6.2, h⟩, fun h => h.2.2.2⟩
  · exact iff_of_false (by simp) fun h => h6 ⟨h.2.1, h.2.2.1⟩
  · exact iff_of_false (by simp) fun h => h4 h.1
  · exact iff_of_false (by simp) fun h => h4 h.1

theorem parseLoop_eq_panic (s : GoString) (st : ParseState) : parseLoop H env s st = .panic ↔
      ∃ pre c post st', s = pre ++ c :: post ∧ parseLoop H env pre st = .ok st' ∧
        parseChar H env st' c = .panic := by
  constructor
  · intro h
    induction s generalizing st with
    | nil => cases h
    | cons c s ih =>
      rw [parseLoop, Res.bind_eq_panic] at h
      rcases h with h | ⟨mid, hmid, h⟩
      · exact ⟨[], c, s, st, rfl, rfl, h⟩
      · obtain ⟨pre, d, post, st', rfl, hpre, hd⟩ := ih mid h
        refine ⟨c :: pre, d, post, st', rfl, ?_, hd⟩
        rw [parseLoop, hmid]
        exact hpre
  · rintro ⟨pre, c, post, st', rfl, hpre, hc⟩
    rw [parseLoop_append, hpre, Res.ok_bind, parseLoop, hc, Res.panic_bind]

theorem parse_eq_panic {s : GoString} :
    parse H env s = .panic ↔ parseLoop H env s .start = .panic := by
  rw [parse, Res.bind_eq_panic]
  refine or_iff_left ?_
  rintro ⟨st, -, h⟩
  split_ifs at h

theorem buildLoop_ne_panic (rows : List Row) (idx : ℕ) (stack : List ℕ) (ir : IndexRun) :
    buildLoop idx rows stack ir ≠ .panic := by
  induction rows generalizing idx stack ir with
  | nil => simp [buildLoop]
  | cons row rows ih =>
    rcases hmark : rowMark row with _ | _ | _ | _ <;> rcases stack with _ | ⟨jum, stack⟩ <;>
      simp only [buildLoop, hmark] <;> first | exact ih _ _ _ | simp

end

/-- `Build` returns exactly when it comes to no faulty stage. -/
theorem build_returns_iff (H : Host) (funcs : Option JsRuntime) (input : List GoString)
    (s : GoString) (vars : Option Vars) (restrict : Bool) :
    build H funcs input s vars restrict ≠ .panic ↔
      ∀ idx c vt, CompilesStage ⟨input, vars, funcs, restrict⟩ H s idx c vt →
        ¬ FaultyStage ⟨input, vars, funcs, restrict⟩ idx c vt := by
  have hbuild : build H funcs input s vars restrict = .panic ↔
      parseLoop H ⟨input, vars, funcs, restrict⟩ s .start = .panic := by
    rw [build, Res.bind_eq_panic, parse_eq_panic]
    refine or_iff_left ?_
    rintro ⟨st, -, h⟩
    rw [Res.bind_eq_panic] at h
    rcases h with h | ⟨r, -, h⟩
    · exact buildLoop_ne_panic _ _ _ _ h
    · cases h
  rw [ne_eq, hbuild, parseLoop_eq_panic]
  simp only [parseChar_eq_panic, compileExp_eq_panic, complieStages_eq_panic, complieStage_eq_panic]
  constructor
  · rintro h idx c vt
      ⟨pre, post, st, before, after, row, hs, hpre, hopen, hne, htrim, hchain, hrow, rfl,
        rfl⟩ hfault
    exact h ⟨pre, _, post, st, hs, hpre, rfl, hopen, hne, htrim, before, c, after, row, hchain,
      hrow,
      by rwa [Nat.zero_add]⟩
  · rintro h ⟨pre, _, post, st, hs, hpre, rfl, hopen, hne, htrim, before, c, after, row, hchain,
      hrow, hfault⟩
    rw [Nat.zero_add] at hfault
    exact h _ _ _ ⟨pre, post, st, before, after, row, hs, hpre, hopen, hne, htrim, hchain, hrow,
      rfl,
      rfl⟩ hfault

/-- A `range` without variables panics. -/
theorem build_range_panics :
    build plainHost none [] (templateText ["range (1)"]) (some []) true = .panic := by
  rw [← Res.isPanic_iff]
  decide +kernel

end Kairos
