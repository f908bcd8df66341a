import Kairos.Template.Compile

/-!
# The rounds of the parser

One round of the loop of `Parse` changes the counters of braces and the text under way, or compiles
an expression into a row (`parseChar_ok`). The counts of the rows are at most one, add up to no less
than zero up to every row, and to zero in all.
-/

namespace Kairos

section

variable {H : Host} {env : CompileEnv} {st st' : ParseState} {c : Char} {s : GoString}

structure AddsRow (H : Host) (env : CompileEnv) (st st' : ParseState) (row : CompiledRow) :
    Prop where
  compiled : compileExp H env st.expStr st.varTemps st.funcNotFound = .ok row
  openExp_nonneg : 0 ≤ st.openExp + row.opened
  rows_eq : st'.rows = st.rows ++ [(row.exps, row.opened)]
  openExp_eq : st'.openExp = st.openExp + row.opened
  varTemps_eq : st'.varTemps = row.varTemps

structure KeepsRows (st st' : ParseState) : Prop where
  rows_eq : st'.rows = st.rows
  openExp_eq : st'.openExp = st.openExp
  varTemps_eq : st'.varTemps = st.varTemps

theorem parseExp_ok (h : parseExp H env st = .ok st') : ∃ row, AddsRow H env st st' row := by
  simp only [parseExp, Res.bind_eq_ok] at h
  obtain ⟨row, hrow, h⟩ := h
  split at h
  · cases h
  · rename_i hneg
    cases h
    exact ⟨row, hrow, by omega, rfl, rfl, rfl⟩

theorem parseChar_ok (h : parseChar H env st c = .ok st') :
    KeepsRows st st' ∨ ∃ row, AddsRow H env st st' row := by
  simp only [parseChar] at h
  split_ifs at h
  all_goals try (obtain rfl := Res.ok.inj h; exact .inl ⟨rfl, rfl, rfl⟩)
  obtain ⟨row, hrow⟩ := parseExp_ok h
  exact .inr ⟨row, hrow.compiled, hrow.openExp_nonneg, hrow.rows_eq, hrow.openExp_eq,
    hrow.varTemps_eq⟩

variable {P : ParseState → Prop}

theorem parseLoop_induction (step : ∀ {st c st'}, parseChar H env st c = .ok st' → P st → P st') :
    ∀ (s : GoString) {st st' : ParseState}, parseLoop H env s st = .ok st' → P st → P st' := by
  intro s
  induction s with
  | nil =>
    intro st st' h hP
    cases h
    exact hP
  | cons c s ih =>
    intro st st' h hP
    obtain ⟨mid, hmid, h⟩ := Res.bind_eq_ok.mp h
    exact ih h (step hmid hP)

theorem parseLoop_append (s₁ s₂ : GoString) (st : ParseState) :
    parseLoop H env (s₁ ++ s₂) st = (parseLoop H env s₁ st >>= parseLoop H env s₂) := by
  induction s₁ generalizing st with
  | nil => rfl
  | cons c s₁ ih =>
    simp only [List.cons_append, parseLoop]
    cases parseChar H env st c with
    | ok mid => exact ih mid
    | err msg | panic => rfl

theorem parse_ok (h : parse H env s = .ok st) :
    parseLoop H env s .start = .ok st ∧ st.openExp = 0 := by
  simp only [parse, Res.bind_eq_ok] at h
  obtain ⟨st', hloop, h⟩ := h
  split_ifs at h with h1 h2
  cases h
  exact ⟨hloop, not_not.mp h2⟩

theorem parse_induction (start : P .start)
    (step : ∀ {st c st'}, parseChar H env st c = .ok st' → P st → P st')
    (h : parse H env s = .ok st) : P st :=
  parseLoop_induction step s (parse_ok h).1 start

end

/-! ## The counts of the rows -/

def openBefore (rows : List (Row × ℤ)) (i : ℕ) : ℤ := ((rows.take i).map Prod.snd).sum

structure Counted (rows : List (Row × ℤ)) : Prop where
  le_one : ∀ r ∈ rows, r.2 ≤ 1
  nonneg : ∀ i, 0 ≤ openBefore rows i

variable {rows : List (Row × ℤ)} {i : ℕ}

theorem openBefore_succ {r : Row × ℤ} (h : rows[i]? = some r) :
    openBefore rows (i + 1) = openBefore rows i + r.2 := by
  simp [openBefore, List.take_add_one, h]

theorem openBefore_of_le (h : rows.length ≤ i) : openBefore rows i = (rows.map Prod.snd).sum := by
  rw [openBefore, List.take_of_length_le h]

variable {vt : VarTemp} {notFound : List GoString} {row : CompiledRow}

theorem complieChainExps_opened_le {H : Host} {env : CompileEnv} {items : List GoString}
    (h : complieChainExps H env items vt notFound = .ok row) : row.opened ≤ 1 := by
  obtain ⟨r, -, h⟩ := Res.bind_eq_ok.mp h
  cases r with
  | drop st =>
    cases h
    exact zero_le_one
  | next st =>
    simp only at h
    split_ifs at h with hpos
    · cases h
      exact le_rfl
    · cases h
      exact (not_lt.mp hpos).trans zero_le_one

theorem compileExp_opened_le {H : Host} {env : CompileEnv} {exp : GoString}
    (h : compileExp H env exp vt notFound = .ok row) : row.opened ≤ 1 := by
  simp only [compileExp] at h
  split_ifs at h
  exact complieChainExps_opened_le h

theorem Counted.snoc (h : Counted rows) (r : Row × ℤ) (hle : r.2 ≤ 1)
    (hnonneg : 0 ≤ (rows.map Prod.snd).sum + r.2) : Counted (rows ++ [r]) := by
  refine ⟨List.forall_mem_append.mpr ⟨h.le_one, List.forall_mem_singleton.mpr hle⟩, fun i => ?_⟩
  rcases le_or_gt i rows.length with hi | hi
  · have : openBefore (rows ++ [r]) i = openBefore rows i := by
      rw [openBefore, openBefore, List.take_append_of_le_length hi]
    rw [this]
    exact h.nonneg i
  · rw [openBefore_of_le (by rw [List.length_append]; exact hi)]
    simpa using hnonneg

theorem parse_counted {H : Host} {env : CompileEnv} {s : GoString} {st : ParseState}
    (h : parse H env s = .ok st) : Counted st.rows ∧ (st.rows.map Prod.snd).sum = 0 := by
  have hinv : Counted st.rows ∧ st.openExp = (st.rows.map Prod.snd).sum := by
    refine parse_induction
      (P := fun st => Counted st.rows ∧ st.openExp = (st.rows.map Prod.snd).sum) ?_ ?_ h
    · exact ⟨⟨by simp [ParseState.start], by simp [ParseState.start, openBefore]⟩, rfl⟩
    · intro st c st' hstep ⟨hc, hsum⟩
      rcases parseChar_ok hstep with hk | ⟨row, hr⟩
      · rw [hk.rows_eq, hk.openExp_eq]
        exact ⟨hc, hsum⟩
      · rw [hr.rows_eq, hr.openExp_eq]
        refine ⟨hc.snoc _ (compileExp_opened_le hr.compiled) ?_, by simp [hsum]⟩
        rw [← hsum]
        exact hr.openExp_nonneg
  exact ⟨hinv.1, hinv.2 ▸ (parse_ok h).2⟩

end Kairos
