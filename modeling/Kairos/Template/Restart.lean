import Mathlib.Algebra.Order.BigOperators.Group.List
import Kairos.Template.Unresolved

/-!
# Templates that are built again without the function runtime

A template keeps its rows and jumps without a runtime exactly when every expression means the same
(`TextResolves`) and the variables are visible in the scopes then open (`textsScopes`).
-/

namespace Kairos

open List

section

variable {H : Host} {env : CompileEnv} {js : JsRuntime} {exp : GoString} {vt : VarTemp}
  {notFound : List GoString} {row : CompiledRow}

theorem compileExp_effect (hnone : env.funcs = none)
    (h : compileExp H env exp vt notFound = .ok row) :
    row.exps = (stagesOf H exp).map stageExp ∧ row.opened = rowOpens stageOpens (stagesOf H exp) ∧
      textScopes H env exp vt = some row.varTemps := by
  obtain ⟨-, r, hr, rfl⟩ := compileExp_eq_ok.1 h
  obtain ⟨st', rfl, hscopes, hopens⟩ := complieStages_effect hnone (fun _ => rfl) hr
  have hopens : st'.opened = ((stagesOf H exp).map stageOpens).sum := hopens.trans (zero_add _)
  have hscopes : rowScopes H env 0 (stagesOf H exp) vt = some st'.varTemps := hscopes
  rw [rowOpens, textScopes, ← hopens, hscopes, Option.map_some]
  exact finishRow_next (complieStages_next hr).1

theorem compileExp_lookedUp (hfuncs : env.funcs = some js)
    (h : compileExp H env exp vt notFound = .ok row) : (row.exps = (stagesOf H exp).map stageExp ∧
        row.opened = rowOpens lookedUpOpens (stagesOf H exp)) ∨
      row.exps = [] ∧ stagesOf H exp ≠ [] ∧ ¬ StagesResolve js env.restrict 0 (stagesOf H exp) := by
  obtain ⟨-, r, hr, rfl⟩ := compileExp_eq_ok.1 h
  rcases complieStages_lookedUp hfuncs (fun _ => rfl) hr with
    ⟨st', rfl, hopens⟩ | ⟨⟨st', rfl⟩, hnot⟩
  · have hopens : st'.opened = ((stagesOf H exp).map lookedUpOpens).sum := hopens.trans (zero_add _)
    obtain ⟨hexps, hopened, -⟩ := finishRow_next (complieStages_next hr).1
    rw [rowOpens, ← hopens]
    exact .inl ⟨hexps, hopened⟩
  · exact .inr ⟨rfl, hnot⟩

variable {vtJ vt' : VarTemp} {nfJ : List GoString} {rowJ : CompiledRow}

theorem compileExp_restart (hnone : env.funcs = none)
    (hj : compileExp H { env with funcs := some js } exp vtJ nfJ = .ok rowJ)
    (hres : StagesResolve js env.restrict 0 (stagesOf H exp))
    (hscopes : textScopes H env exp vt = some vt') :
    ∃ row, compileExp H env exp vt notFound = .ok row := by
  obtain ⟨htrim, r, hr, rfl⟩ := compileExp_eq_ok.1 hj
  obtain ⟨vt₁, hrow, -⟩ := Option.map_eq_some_iff.1 hscopes
  have hgoesJ : GoesOn (complieStages H { env with funcs := some js } 0 (stagesOf H exp)
      ⟨vtJ, [], 0, nfJ⟩) := by
    rcases complieStages_lookedUp rfl (fun _ => rfl) hr with ⟨st', rfl, -⟩ | ⟨-, -, hnot⟩
    · exact ⟨st', hr⟩
    · exact absurd hres hnot
  have hgoes : GoesOn (complieStages H env 0 (stagesOf H exp) ⟨vt, [], 0, notFound⟩) :=
    complieStages_restart hnone hgoesJ hres hrow fun _ => rfl
  obtain ⟨st', hst'⟩ := hgoes
  exact ⟨_, compileExp_eq_ok.2 ⟨htrim, _, hst', rfl⟩⟩

theorem compileExp_resolves (hnone : env.funcs = none)
    (hj : compileExp H { env with funcs := some js } exp vtJ nfJ = .ok rowJ)
    (hn : compileExp H env exp vt notFound = .ok row) (hexps : row.exps = rowJ.exps) :
    StagesResolve js env.restrict 0 (stagesOf H exp) ∧
      rowJ.opened = rowOpens lookedUpOpens (stagesOf H exp) := by
  have hrow := (compileExp_effect hnone hn).1
  obtain ⟨-, r, hr, rfl⟩ := compileExp_eq_ok.1 hj
  rcases complieStages_lookedUp rfl (fun _ => rfl) hr with
    ⟨stJ, rfl, hopens⟩ | ⟨⟨stJ, rfl⟩, hne, -⟩
  · obtain ⟨-, r', hr', -⟩ := compileExp_eq_ok.1 hn
    obtain ⟨st', rfl, -⟩ := complieStages_effect hnone (fun _ => rfl) hr'
    have hopens : stJ.opened = ((stagesOf H exp).map lookedUpOpens).sum := hopens.trans (zero_add _)
    rw [rowOpens, ← hopens]
    exact ⟨complieStages_resolve hnone ⟨stJ, hr⟩ ⟨st', hr'⟩,
      (finishRow_next (complieStages_next hr).1).2.1⟩
  · -- A row that was dropped is not empty without the runtime.
    have hnil : (stagesOf H exp).map stageExp = [] := hrow.symm.trans hexps
    exact absurd (map_eq_nil_iff.1 hnil) hne

/-! ## The expressions of a text -/

variable {es : List GoString} {rs rs' rsJ rsJ' : Rows}

theorem compileTexts_scopes (hnone : env.funcs = none) (h : compileTexts H env es rs = .ok rs') :
    textsScopes H env es rs.varTemps = some rs'.varTemps := by
  induction es generalizing rs with
  | nil =>
    cases h
    rfl
  | cons e es ih =>
    obtain ⟨mid, hmid, h⟩ := Res.bind_eq_ok.1 h
    obtain ⟨row, hrow, -, rfl⟩ := compileText_eq_ok.1 hmid
    rw [textsScopes, (compileExp_effect hnone hrow).2.2, Option.bind_some, ih h]

theorem lookedUpOpens_le (c : List GoString) : lookedUpOpens c ≤ stageOpens c := by
  unfold lookedUpOpens
  split_ifs with hword
  · -- The one keyword that closes a block may stand alone.
    obtain ⟨w, rfl⟩ : ∃ w, c = [w] := by
      rcases c with _ | ⟨w, _ | _⟩
      · cases hword
      · exact ⟨w, rfl⟩
      · cases hword
    rw [stageOpens]
    cases hk : keyword w with
    | none => exact le_refl (0 : ℤ)
    | some k =>
      obtain rfl : w = k.name := keyword_eq_some.1 hk
      revert hword
      cases k <;> decide
  · exact le_refl _

theorem rowOpens_le (cs : List (List GoString)) :
    rowOpens lookedUpOpens cs ≤ rowOpens stageOpens cs := by
  have hsum : (cs.map lookedUpOpens).sum ≤ (cs.map stageOpens).sum :=
    sum_le_sum fun c _ => lookedUpOpens_le c
  unfold rowOpens
  split_ifs <;> omega

theorem rows_resolve {rows rowsJ : List (Row × ℤ)} (hnone : env.funcs = none)
    (hn : List.Forall₂ (IsRow H env) es rows)
    (hj : List.Forall₂ (IsRow H { env with funcs := some js }) es rowsJ)
    (hexps : rows.map Prod.fst = rowsJ.map Prod.fst) :
    (∀ e ∈ es, StagesResolve js env.restrict 0 (stagesOf H e)) ∧
      rows.map Prod.snd = es.map (fun e => rowOpens stageOpens (stagesOf H e)) ∧
      rowsJ.map Prod.snd = es.map fun e => rowOpens lookedUpOpens (stagesOf H e) := by
  induction es generalizing rows rowsJ with
  | nil =>
    cases hn
    cases hj
    exact ⟨nofun, rfl, rfl⟩
  | cons e es ih =>
    obtain ⟨r, rows, hrow, hrows, rfl⟩ := forall₂_cons_left_iff.1 hn
    obtain ⟨rJ, rowsJ, hrowJ, hrowsJ, rfl⟩ := forall₂_cons_left_iff.1 hj
    obtain ⟨hfst, hexps⟩ := List.cons.inj hexps
    obtain ⟨hres, hsnd, hsndJ⟩ := ih hrows hrowsJ hexps
    obtain ⟨vt, nf, row, hrow, rfl⟩ := hrow
    obtain ⟨vtJ, nfJ, rowJ, hrowJ, rfl⟩ := hrowJ
    obtain ⟨hres₁, hopenJ⟩ := compileExp_resolves hnone hrowJ hrow hfst
    refine ⟨forall_mem_cons.2 ⟨hres₁, hres⟩, ?_, ?_⟩
    · rw [map_cons, map_cons, hsnd, (compileExp_effect hnone hrow).2.1]
    · rw [map_cons, map_cons, hsndJ, hopenJ]

theorem compileTexts_restart (hnone : env.funcs = none)
    (hj : compileTexts H { env with funcs := some js } es rsJ = .ok rsJ')
    (hres : ∀ e ∈ es, TextResolves H js env.restrict e)
    (hscopes : textsScopes H env es rs.varTemps = some vt') (hrows : rs.rows = rsJ.rows)
    (hopen : rs.openExp = rsJ.openExp) :
    ∃ rs', compileTexts H env es rs = .ok rs' ∧ rs'.rows = rsJ'.rows ∧
      rs'.openExp = rsJ'.openExp := by
  induction es generalizing rs rsJ with
  | nil =>
    cases hj
    exact ⟨rs, rfl, hrows, hopen⟩
  | cons e es ih =>
    obtain ⟨mid, hmid, hj⟩ := Res.bind_eq_ok.1 hj
    obtain ⟨rowJ, hrowJ, hpos, rfl⟩ := compileText_eq_ok.1 hmid
    obtain ⟨vt₁, hvt₁, hscopes⟩ := Option.bind_eq_some_iff.1 hscopes
    obtain ⟨⟨hstages, hopens⟩, hres⟩ := forall_mem_cons.1 hres
    obtain ⟨row, hrow⟩ : ∃ row, compileExp H env e rs.varTemps rs.funcNotFound = .ok row :=
      compileExp_restart hnone hrowJ hstages hvt₁
    obtain ⟨hexps, hopened, hvt⟩ := compileExp_effect hnone hrow
    cases hvt₁.symm.trans hvt
    -- The row with the runtime is not dropped, since its stages mean the same.
    obtain ⟨hexpsJ, hopenedJ⟩ :=
      (compileExp_lookedUp rfl hrowJ).resolve_right fun h => h.2.2 hstages
    have hopened : row.opened = rowJ.opened := hopened.trans (hopens.trans hopenedJ.symm)
    have hexps : row.exps = rowJ.exps := hexps.trans hexpsJ.symm
    let mid : Rows :=
      ⟨row.varTemps, rs.openExp + row.opened, rs.rows ++ [(row.exps, row.opened)], row.funcNotFound⟩
    have hscopes : textsScopes H env es mid.varTemps = some vt' := hscopes
    obtain ⟨rs', hrs', hrows', hopen'⟩ := ih hj hres hscopes
      (by simp only [mid, hrows, hexps, hopened]) (by simp only [mid, hopen, hopened])
    refine ⟨rs', Res.bind_eq_ok.2 ⟨mid, compileText_eq_ok.2 ⟨row, hrow, ?_, rfl⟩, hrs'⟩, hrows',
      hopen'⟩
    rw [hopen, hopened]
    exact hpos

/-! ## Templates -/

/-- The expressions mean the same without the runtime, and their variables are visible in its
scopes. -/
def Restartable (H : Host) (js : JsRuntime) (env : CompileEnv) (s : GoString) : Prop :=
  ∀ es, texts s = some es →
    (∀ e ∈ es, TextResolves H js env.restrict e) ∧ textsScopes H env es [[]] ≠ none

variable {funcs : Option JsRuntime} {input : List GoString} {s : GoString} {vars : Option Vars}
  {restrict : Bool} {t : Template}

/-- A template is built without the runtime as with it exactly when its text means the same. -/
theorem build_restart_iff (ht : build H (some js) input s vars restrict = .ok t) :
    (∃ t', build H none input s vars restrict = .ok t' ∧ t'.exps = t.exps ∧
        t'.indexRun = t.indexRun) ↔ Restartable H js ⟨input, vars, none, restrict⟩ s := by
  obtain ⟨es, rsJ, stack, ir, hes, hj, hopenJ, hloop, rfl⟩ := build_eq_ok_texts.1 ht
  constructor
  · rintro ⟨t', ht', hexps, -⟩ es' hes'
    cases hes.symm.trans hes'
    obtain ⟨es'', rs, _, _, hes'', hn, hopen, -, rfl⟩ := build_eq_ok_texts.1 ht'
    cases hes.symm.trans hes''
    obtain ⟨rows, hrows, happend, hsum⟩ := compileTexts_rows hn
    obtain ⟨rowsJ, hrowsJ, happendJ, hsumJ⟩ := compileTexts_rows hj
    have hexps : rs.rows.map Prod.fst = rsJ.rows.map Prod.fst := hexps
    rw [happend, happendJ] at hexps
    obtain ⟨hres, hsnd, hsndJ⟩ := rows_resolve rfl hrows hrowsJ hexps
    have hscopes := compileTexts_scopes rfl hn
    refine ⟨fun e he => ⟨hres e he, ?_⟩, Option.ne_none_iff_exists'.2 ⟨_, hscopes⟩⟩
    -- Both sums are zero, so that no expression opens less where its words are looked up.
    have hle : ∀ e ∈ es, rowOpens lookedUpOpens (stagesOf H e) ≤
        rowOpens stageOpens (stagesOf H e) :=
      fun e _ => rowOpens_le (stagesOf H e)
    by_contra hne
    have hlt := sum_lt_sum _ _ hle ⟨e, he, lt_of_le_of_ne (hle e he) (Ne.symm hne)⟩
    rw [← hsnd, ← hsndJ] at hlt
    have hstart : Rows.start.openExp = 0 := rfl
    omega
  · intro hrestart
    obtain ⟨hres, hscopes⟩ := hrestart es hes
    obtain ⟨vt', hvt'⟩ := Option.ne_none_iff_exists'.1 hscopes
    obtain ⟨rs, hn, hrows, hopen⟩ : ∃ rs, compileTexts H ⟨input, vars, none, restrict⟩ es .start =
        .ok rs ∧ rs.rows = rsJ.rows ∧ rs.openExp = rsJ.openExp :=
      compileTexts_restart rfl hj hres hvt' rfl rfl
    refine ⟨⟨vars, input, rs.rows.map Prod.fst, ir, rs.funcNotFound⟩, ?_, ?_, rfl⟩
    · refine build_eq_ok_texts.2 ⟨es, rs, stack, ir, hes, hn, hopen.trans hopenJ, ?_, rfl⟩
      rw [hrows]
      exact hloop
    · exact congrArg (List.map Prod.fst) hrows

end

end Kairos
