import Kairos.Template.Rounds

/-!
# The expressions of a template text

Which texts `Parse` comes to depends on the braces alone: `texts` finds them, and `Parse` accepts
exactly when the braces match and `compileTexts` accepts the expressions.
-/

namespace Kairos

open Option

structure Scan where
  opened : ℤ
  closed : ℤ
  expStr : GoString

structure Rows where
  varTemps : VarTemp
  openExp : ℤ
  rows : List (Row × ℤ)
  funcNotFound : List GoString

def ParseState.scan (st : ParseState) : Scan := ⟨st.opened, st.closed, st.expStr⟩

def ParseState.compiled (st : ParseState) : Rows :=
  ⟨st.varTemps, st.openExp, st.rows, st.funcNotFound⟩

theorem ParseState.eq_of_parts {st st' : ParseState} (hscan : st.scan = st'.scan)
    (hrows : st.compiled = st'.compiled) : st = st' := by
  obtain ⟨o, c, e, vt, oe, rows, nf⟩ := st
  obtain ⟨o', c', e', vt', oe', rows', nf'⟩ := st'
  simp only [scan, Scan.mk.injEq] at hscan
  simp only [compiled, Rows.mk.injEq] at hrows
  simp only [mk.injEq]
  tauto

def scanChar (sc : Scan) (c : Char) : Option (Scan × Option GoString) :=
  if c = '\x7b' then
    let sc := { sc with expStr := [], opened := sc.opened + 1 }
    if 2 < sc.opened - sc.closed then none
    else if sc.opened - sc.closed < 0 then none
    else some (sc, none)
  else if c = '\x7d' then
    let sc := { sc with closed := sc.closed + 1 }
    if sc.opened - sc.closed < 0 then none
    else if sc.opened = sc.closed ∧ sc.expStr ≠ [] then
      some ({ sc with expStr := [] }, some sc.expStr)
    else some (sc, none)
  else if sc.opened - sc.closed ≠ 2 ∧ Strings.trimSpace sc.expStr ≠ [] then none
  else some ({ sc with expStr := sc.expStr ++ [c] }, none)

def scanLoop : GoString → Scan → Option (Scan × List GoString)
  | [], sc => some (sc, [])
  | c :: s, sc =>
    (scanChar sc c).bind fun x => (scanLoop s x.1).map fun y => (y.1, x.2.toList ++ y.2)

def texts (s : GoString) : Option (List GoString) :=
  (scanLoop s ⟨1, 1, []⟩).bind fun x => if 0 < x.1.opened - x.1.closed then none else some x.2

section

variable (H : Host) (env : CompileEnv)

def compileText (rs : Rows) (exp : GoString) : Res Rows := do
  let row ← compileExp H env exp rs.varTemps rs.funcNotFound
  if rs.openExp + row.opened < 0 then .err (errorf "redundancy end " exp "")
  else
    .ok ⟨row.varTemps, rs.openExp + row.opened, rs.rows ++ [(row.exps, row.opened)],
      row.funcNotFound⟩

def compileTexts : List GoString → Rows → Res Rows
  | [], rs => .ok rs
  | exp :: exps, rs => compileText H env rs exp >>= compileTexts exps

end

def Rows.start : Rows := ⟨[[]], 0, [], []⟩

section

variable {H : Host} {env : CompileEnv} {st st' : ParseState} {c : Char}

theorem parseExp_eq_ok : parseExp H env st = .ok st' ↔ ⟨st.opened, st.closed, []⟩ = st'.scan ∧
      compileText H env st.compiled st.expStr = .ok st'.compiled := by
  unfold parseExp compileText
  rw [Res.bind_eq_ok, Res.bind_eq_ok]
  constructor
  · rintro ⟨row, hrow, h⟩
    by_cases hneg : st.openExp + row.opened < 0
    · simp [hneg] at h
    · simp only [hneg, if_false] at h
      cases h
      exact ⟨rfl, row, hrow, if_neg hneg⟩
  · rintro ⟨hscan, row, hrow, h⟩
    refine ⟨row, hrow, ?_⟩
    by_cases hneg : st.openExp + row.opened < 0
    · simp [ParseState.compiled, hneg] at h
    · have h := (if_neg hneg).symm.trans h
      simp only [hneg, if_false]
      exact congrArg Res.ok (ParseState.eq_of_parts hscan (Res.ok.inj h))

theorem parseChar_eq_ok : parseChar H env st c = .ok st' ↔
    ∃ e, scanChar st.scan c = some (st'.scan, e) ∧
      compileTexts H env e.toList st.compiled = .ok st'.compiled := by
  -- A round that completes nothing leaves the rows.
  have hkeep {sc : Scan} {st₁ : ParseState} (hscan : st₁.scan = sc)
      (hrows : st₁.compiled = st.compiled) : Res.ok st₁ = .ok st' ↔
        ∃ e, some (sc, none) = some (st'.scan, e) ∧
          compileTexts H env e.toList st.compiled = .ok st'.compiled := by
    constructor
    · intro h
      cases h
      exact ⟨none, by rw [hscan], congrArg Res.ok hrows.symm⟩
    · rintro ⟨e, h, hcompiled⟩
      cases h
      exact congrArg Res.ok (ParseState.eq_of_parts hscan (hrows.trans (Res.ok.inj hcompiled)))
  have hnone (msg : GoString) : Res.err msg = .ok st' ↔ ∃ e : Option GoString,
      none = some (st'.scan, e) ∧ compileTexts H env e.toList st.compiled = .ok st'.compiled :=
    iff_of_false nofun fun ⟨_, h, _⟩ => absurd h nofun
  -- Both sides take the same branch.
  have hboth {x : Res ParseState} {y : Option (Scan × Option GoString)}
      (hx : parseChar H env st c = x) (hy : scanChar st.scan c = y)
      (h : x = .ok st' ↔ ∃ e, y = some (st'.scan, e) ∧
        compileTexts H env e.toList st.compiled = .ok st'.compiled) :
      parseChar H env st c = .ok st' ↔ ∃ e, scanChar st.scan c = some (st'.scan, e) ∧
        compileTexts H env e.toList st.compiled = .ok st'.compiled := by
    rw [hx, hy]
    exact h
  by_cases hopen : c = '\x7b'
  · by_cases htwo : 2 < st.opened + 1 - st.closed
    · exact hboth ((if_pos hopen).trans (if_pos htwo)) ((if_pos hopen).trans (if_pos htwo))
        (hnone _)
    · by_cases hneg : st.opened + 1 - st.closed < 0
      · exact hboth ((if_pos hopen).trans ((if_neg htwo).trans (if_pos hneg)))
          ((if_pos hopen).trans ((if_neg htwo).trans (if_pos hneg))) (hnone _)
      · exact hboth ((if_pos hopen).trans ((if_neg htwo).trans (if_neg hneg)))
          ((if_pos hopen).trans ((if_neg htwo).trans (if_neg hneg))) (hkeep rfl rfl)
  · by_cases hclose : c = '\x7d'
    · by_cases hneg : st.opened - (st.closed + 1) < 0
      · exact hboth ((if_neg hopen).trans ((if_pos hclose).trans (if_pos hneg)))
          ((if_neg hopen).trans ((if_pos hclose).trans (if_pos hneg))) (hnone _)
      · by_cases hexp : st.opened = st.closed + 1 ∧ st.expStr ≠ []
        · refine hboth ((if_neg hopen).trans
            ((if_pos hclose).trans ((if_neg hneg).trans (if_pos hexp))))
            ((if_neg hopen).trans ((if_pos hclose).trans ((if_neg hneg).trans (if_pos hexp)))) ?_
          rw [parseExp_eq_ok]
          constructor
          · rintro ⟨hscan, hcompiled⟩
            refine ⟨some st.expStr, congrArg (fun sc => some (sc, some st.expStr)) hscan, ?_⟩
            exact Res.bind_eq_ok.2 ⟨_, hcompiled, rfl⟩
          · rintro ⟨e, h, hcompiled⟩
            obtain ⟨hscan, rfl⟩ := Prod.mk.inj (some.inj h)
            obtain ⟨rs, hrs, hnil⟩ := Res.bind_eq_ok.1 hcompiled
            exact ⟨hscan, hrs.trans hnil⟩
        · exact hboth ((if_neg hopen).trans
            ((if_pos hclose).trans ((if_neg hneg).trans (if_neg hexp))))
            ((if_neg hopen).trans ((if_pos hclose).trans ((if_neg hneg).trans (if_neg hexp))))
            (hkeep rfl rfl)
    · by_cases htext : st.opened - st.closed ≠ 2 ∧ Strings.trimSpace st.expStr ≠ []
      · exact hboth ((if_neg hopen).trans ((if_neg hclose).trans (if_pos htext)))
          ((if_neg hopen).trans ((if_neg hclose).trans (if_pos htext))) (hnone _)
      · exact hboth ((if_neg hopen).trans ((if_neg hclose).trans (if_neg htext)))
          ((if_neg hopen).trans ((if_neg hclose).trans (if_neg htext))) (hkeep rfl rfl)

theorem compileTexts_append (es es' : List GoString) (rs : Rows) :
    compileTexts H env (es ++ es') rs = compileTexts H env es rs >>= compileTexts H env es' := by
  induction es generalizing rs with
  | nil => rfl
  | cons e es ih =>
    simp only [List.cons_append, compileTexts]
    cases compileText H env rs e with
    | ok mid => exact ih mid
    | err msg | panic => rfl

theorem parseLoop_eq_ok (s : GoString) : parseLoop H env s st = .ok st' ↔
    ∃ es, scanLoop s st.scan = some (st'.scan, es) ∧
      compileTexts H env es st.compiled = .ok st'.compiled := by
  induction s generalizing st with
  | nil =>
    constructor
    · intro h
      cases h
      exact ⟨[], rfl, rfl⟩
    · rintro ⟨es, hscan, hcompiled⟩
      obtain ⟨hst, rfl⟩ := Prod.mk.inj (some.inj hscan)
      exact congrArg Res.ok (ParseState.eq_of_parts hst (Res.ok.inj hcompiled))
  | cons c s ih =>
    unfold parseLoop scanLoop
    rw [Res.bind_eq_ok]
    constructor
    · rintro ⟨mid, hmid, h⟩
      obtain ⟨e, hscan, hcompiled⟩ := parseChar_eq_ok.1 hmid
      obtain ⟨es, hscan', hcompiled'⟩ := ih.1 h
      refine ⟨e.toList ++ es, by rw [hscan, bind_some, hscan', Option.map_some], ?_⟩
      rw [compileTexts_append, hcompiled]
      exact hcompiled'
    · rintro ⟨es, hscan, hcompiled⟩
      obtain ⟨⟨sc, e⟩, hsc, h⟩ := bind_eq_some_iff.1 hscan
      obtain ⟨⟨sc', es'⟩, hsc', h⟩ := map_eq_some_iff.1 h
      cases h
      rw [compileTexts_append, Res.bind_eq_ok] at hcompiled
      obtain ⟨rs, hrs, hcompiled⟩ := hcompiled
      let mid : ParseState := ⟨sc.opened, sc.closed, sc.expStr, rs.varTemps, rs.openExp, rs.rows,
        rs.funcNotFound⟩
      exact ⟨mid, parseChar_eq_ok.2 ⟨e, hsc, hrs⟩, ih.2 ⟨es', hsc', hcompiled⟩⟩

variable {s : GoString} {rs : Rows}

theorem parse_eq_ok : (∃ st, parse H env s = .ok st ∧ st.compiled = rs) ↔
      rs.openExp = 0 ∧ ∃ es, texts s = some es ∧ compileTexts H env es .start = .ok rs := by
  constructor
  · rintro ⟨st, h, rfl⟩
    obtain ⟨st', hloop, h⟩ := Res.bind_eq_ok.1 h
    split_ifs at h with hopen hexp
    obtain rfl := Res.ok.inj h
    obtain ⟨es, hscan, hcompiled⟩ := (parseLoop_eq_ok s).1 hloop
    refine ⟨not_not.1 hexp, es, ?_, hcompiled⟩
    have hscan : scanLoop s ⟨1, 1, []⟩ = some (st'.scan, es) := hscan
    rw [texts, hscan, bind_some]
    exact if_neg hopen
  · rintro ⟨hexp, es, htexts, hcompiled⟩
    obtain ⟨⟨sc, es'⟩, hscan, h⟩ := bind_eq_some_iff.1 htexts
    split_ifs at h with hopen
    cases h
    let st : ParseState :=
      ⟨sc.opened, sc.closed, sc.expStr, rs.varTemps, rs.openExp, rs.rows, rs.funcNotFound⟩
    have hloop : parseLoop H env s .start = .ok st :=
      (parseLoop_eq_ok s).2 ⟨es', hscan, hcompiled⟩
    refine ⟨st, Res.bind_eq_ok.2 ⟨st, hloop, ?_⟩, rfl⟩
    exact (if_neg hopen).trans (if_neg (not_not.2 hexp))

theorem build_eq_ok_texts {funcs : Option JsRuntime} {input : List GoString}
    {vars : Option Vars} {restrict : Bool} {t : Template} :
    build H funcs input s vars restrict = .ok t ↔ ∃ es rs stack ir, texts s = some es ∧
      compileTexts H ⟨input, vars, funcs, restrict⟩ es .start = .ok rs ∧ rs.openExp = 0 ∧
      buildLoop 0 (rs.rows.map Prod.fst) [] (fun _ => none) = .ok (stack, ir) ∧
      ⟨vars, input, rs.rows.map Prod.fst, ir, rs.funcNotFound⟩ = t := by
  rw [build, Res.bind_eq_ok]
  constructor
  · rintro ⟨st, hparse, h⟩
    obtain ⟨⟨stack, ir⟩, hloop, h⟩ := Res.bind_eq_ok.1 h
    cases h
    obtain ⟨hopen, es, hes, hcompiled⟩ := parse_eq_ok.1 ⟨st, hparse, rfl⟩
    exact ⟨es, st.compiled, stack, ir, hes, hcompiled, hopen, hloop, rfl⟩
  · rintro ⟨es, rs, stack, ir, hes, hcompiled, hopen, hloop, ht⟩
    obtain ⟨st, hparse, rfl⟩ := parse_eq_ok.2 ⟨hopen, es, hes, hcompiled⟩
    exact ⟨st, hparse, Res.bind_eq_ok.2 ⟨(stack, ir), hloop, congrArg Res.ok ht⟩⟩

def IsRow (H : Host) (env : CompileEnv) (exp : GoString) (r : Row × ℤ) : Prop :=
  ∃ vt notFound row, compileExp H env exp vt notFound = .ok row ∧ r = (row.exps, row.opened)

variable {rs' : Rows}

theorem compileText_eq_ok {exp : GoString} : compileText H env rs exp = .ok rs' ↔
    ∃ row, compileExp H env exp rs.varTemps rs.funcNotFound = .ok row ∧
      0 ≤ rs.openExp + row.opened ∧
      ⟨row.varTemps, rs.openExp + row.opened, rs.rows ++ [(row.exps, row.opened)],
        row.funcNotFound⟩ = rs' := by
  rw [compileText, Res.bind_eq_ok]
  refine exists_congr fun row => and_congr_right fun _ => ?_
  by_cases hneg : rs.openExp + row.opened < 0
  · rw [if_pos hneg]
    exact iff_of_false nofun fun h => absurd h.1 (by omega)
  · rw [if_neg hneg, Res.ok.injEq]
    exact (and_iff_right (by omega)).symm

theorem compileTexts_rows {es : List GoString} (h : compileTexts H env es rs = .ok rs') :
    ∃ rows, List.Forall₂ (IsRow H env) es rows ∧ rs'.rows = rs.rows ++ rows ∧
      rs'.openExp = rs.openExp + (rows.map Prod.snd).sum := by
  induction es generalizing rs with
  | nil =>
    cases h
    exact ⟨[], .nil, by simp, by simp⟩
  | cons e es ih =>
    obtain ⟨mid, hmid, h⟩ := Res.bind_eq_ok.1 h
    obtain ⟨row, hrow, -, rfl⟩ := compileText_eq_ok.1 hmid
    obtain ⟨rows, hrows, happend, hopen⟩ := ih h
    refine ⟨(row.exps, row.opened) :: rows, .cons ⟨_, _, row, hrow, rfl⟩ hrows, ?_, ?_⟩
    · rw [happend, List.append_assoc]
      rfl
    · rw [hopen, List.map_cons, List.sum_cons, add_assoc]

end

end Kairos
