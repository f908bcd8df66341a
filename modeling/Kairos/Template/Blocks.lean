import Kairos.Template.Ranges

/-!
# Blocks

The blocks of a template, and what a run does within one. `Point.Inside` is a place within a block
and `Stays` a stretch of a session that does not leave it. A run crosses its rows out of order by a
jump (`jumpsForward`) or by another round of a range (`State.outerRound`).
-/

namespace Kairos

open List
open Matching (Matched Block Target Pushes Pops level)

abbrev Program.marks (t : Program) : List (Option Mark) := t.exps.map rowMark

def Program.closesAt (t : Program) : ℤ → Bool
  | .ofNat i => t.marks[i]? == some (some .closes)
  | .negSucc _ => false

def EndsLast (exp : Row) : Prop :=
  ∀ e ∈ exp.dropLast, e.is .endExp = false ∧ e.is .rangeExp = false

instance : DecidablePred EndsLast := fun exp =>
  inferInstanceAs (Decidable (∀ e ∈ exp.dropLast, e.is .endExp = false ∧ e.is .rangeExp = false))

def jumpsForward (H : Host) (t : Program) (e : Expression) (s : State) : Bool :=
  match e.execute H t.env s.expInput s.toMem with
  | .ok out _ => !e.isSend && (e.is .ifExp && out == some [.bool false] || out == some [.str []])
  | .err _ _ => !e.isSend
  | .panic => false

/-- The enclosing range that an `end` in row `idx` starts another round of, where the current one is
over. -/
def State.outerRound (s : State) (idx : ℤ) : Option RangeValue :=
  match s.current, s.rangeStack with
  | some r, _ :: r' :: _ =>
    if r.endIndex = idx ∧ r.remains = false ∧ r'.remains then some r' else none
  | _, _ => none

/-! ## Marks -/

section

variable {exp : Row} {t : Program} {i : ℕ}

theorem exists_mark {m : Mark} (h : rowMark exp = some m) : ∃ e ∈ exp, e.mark = some m := by
  obtain ⟨e, he, hm⟩ := exists_of_findSome?_eq_some h
  exact ⟨e, he, hm⟩

variable {e : Expression}

theorem isOpen_of_mark (h : e.mark = some .opens) : e.isOpen := by
  unfold Expression.mark at h
  split_ifs at h with h1 h2 h3
  · exact h1
  · cases h
  · cases h

theorem isEnd_of_mark (h : e.mark = some .closes) : e.is .endExp := by
  unfold Expression.mark at h
  split_ifs at h with h1 h2 h3
  · cases h
  · cases h
  · exact h3

theorem EndsLast.getLast (h : EndsLast exp) (hm : rowMark exp = some .closes)
    (he : exp.getLast? = some e) : e.is .endExp := by
  obtain ⟨e', he', hmark⟩ := exists_mark hm
  obtain ⟨init, rfl⟩ := getLast?_eq_some_iff.mp he
  rcases mem_append.mp he' with hinit | hlast
  · have hnot := (h e' (by rw [dropLast_concat]; exact hinit)).1
    rw [isEnd_of_mark hmark] at hnot
    cases hnot
  · rw [← mem_singleton.mp hlast]
    exact isEnd_of_mark hmark

variable {edx : ℕ}

theorem EndsLast.drop_eq_nil (h : EndsLast exp)
    (he : exp[edx]? = some e) (hk : e.is .endExp ∨ e.is .rangeExp) : exp.drop (edx + 1) = [] := by
  obtain ⟨hlt, rfl⟩ := List.getElem?_eq_some_iff.mp he
  by_contra hne
  have hlen : edx + 1 < exp.length := not_le.mp fun hle => hne (List.drop_eq_nil_of_le hle)
  have hmem : exp[edx] ∈ exp.dropLast :=
    mem_iff_getElem.mpr
      ⟨edx, by rw [length_dropLast]; omega, by rw [getElem_dropLast]⟩
  obtain ⟨hend, hrange⟩ := h _ hmem
  rcases hk with hk | hk
  · rw [hk] at hend; cases hend
  · rw [hk] at hrange; cases hrange

theorem EndsLast.not_closes (h : EndsLast exp)
    (he : exp[edx]? = some e) (hlen : exp.length ≤ edx + 1) (hend : e.is .endExp = false) :
    rowMark exp ≠ some .closes := by
  intro hm
  obtain ⟨hlt, rfl⟩ := List.getElem?_eq_some_iff.mp he
  have hlast : exp.getLast? = some exp[edx] := by
    rw [List.getLast?_eq_getElem?, show exp.length - 1 = edx by omega, he]
  rw [h.getLast hm hlast] at hend
  cases hend

theorem marks_getElem? (hexp : t.exps[i]? = some exp) : t.marks[i]? = some (rowMark exp) := by
  rw [getElem?_map, hexp, Option.map_some]

theorem Program.Built.level_target (hb : t.Built) (hne : t.target i ≠ 0) : ∃ j : ℕ,
    t.target i = j ∧ Target t.marks i j ∧ level t.marks j = level t.marks (i + 1) := by
  obtain ⟨i', j, hi, hij, hj, -⟩ := hb.target_spec hne
  obtain rfl : i = i' := by exact_mod_cast hi
  obtain ⟨stack, hm⟩ := hb.matched
  have htarget := (hm.target_iff i j).mp hij
  exact ⟨j, hj, htarget, htarget.level_eq⟩

variable {j : ℕ}

theorem level_behind_target (htarg : Target t.marks i j) (hclose : t.closesAt j = false) :
    level t.marks (j + 1) = level t.marks j := by
  rcases htarg.pops with hd | hc
  · rw [Matching.level_succ hd]
    simp [Matching.delta]
  · have hclosed : t.closesAt j := by
      show (t.marks[j]? == some (some .closes))
      rw [hc]
      rfl
    rw [hclosed] at hclose
    cases hclose

theorem Target.not_closes (hexp : t.exps[i]? = some exp) (htarg : Target t.marks i j) :
    rowMark exp ≠ some .closes := by
  have hmark := marks_getElem? hexp
  intro hc
  rw [hc] at hmark
  rcases htarg.pushes with h | h <;> rw [hmark] at h <;> cases h

end

/-! ## Jumps -/

section

variable {H : Host} {t : Program} {e : Expression} {out : Out} {err : Option GoString}
    {s s' : State}
  {idx' : ℤ}

theorem Expression.isOpen_of_range (h : e.is .rangeExp) : e.isOpen := by
  rw [Expression.is_iff] at h
  unfold Expression.isOpen
  rw [h]
  rfl

variable {idx : ℤ}

theorem Executed.of_end (hx : Executed H t idx e s out err s') (hk : e.is .endExp) :
    out = none ∧ err = none := by
  have hkey := Expression.is_iff.mp hk
  cases hx with
  | ok out m h =>
    simp only [Expression.execute, hkey, Effects.Comp.pure_apply, Effects.Eff.ok.injEq] at h
    exact ⟨h.1.symm, rfl⟩
  | err msg m h => simp [Expression.execute, hkey] at h

theorem execRange_eq_ok {env : ExecEnv} {func : GoString} {ps : List GoString} {m m' : Mem}
    (h : execRange H env func ps m = .ok out m') :
    (∃ base, out = some [.mapPtr .reply base]) ∨ ∃ base len, out = some [.slice base len] := by
  unfold execRange at h
  cases ps with
  | nil => cases h
  | cons p ps =>
    obtain ⟨mp, m₁, -, h⟩ := Effects.Comp.bind_eq_ok.mp h
    obtain ⟨-, m₂, -, h⟩ := Effects.Comp.bind_eq_ok.mp h
    obtain ⟨m₃, m₄, -, h⟩ := Effects.Comp.bind_eq_ok.mp h
    cases hc : convertInterfaceToReply H (mpGet mp p) m₃.heap with
    | some r =>
      simp only [hc] at h
      obtain ⟨-, m₅, -, h⟩ := Effects.Comp.bind_eq_ok.mp h
      exact .inl ⟨r.1, (Effects.Eff.ok.inj h).1.symm⟩
    | none =>
      simp only [hc] at h
      obtain ⟨⟨base, len⟩, m₅, -, h⟩ := Effects.Comp.bind_eq_ok.mp h
      obtain ⟨-, m₆, -, h⟩ := Effects.Comp.bind_eq_ok.mp h
      exact .inr ⟨base, len, (Effects.Eff.ok.inj h).1.symm⟩

theorem Executed.of_range (hx : Executed H t idx e s out err s') (hk : e.is .rangeExp) :
    out ≠ some [.str []] := by
  have hkey := Expression.is_iff.mp hk
  cases hx with
  | ok out m h =>
    simp only [Expression.execute, hkey] at h
    rcases execRange_eq_ok h with ⟨base, rfl⟩ | ⟨base, len, rfl⟩ <;> simp
  | err msg m h => simp

theorem Jumps.not_moved {idx₁ : ℤ} {s₀ : State} (hj : Jumps t e out err idx₁ idx')
    (hx : Executed H t idx e s out err s₀) (hm : Moves H t idx e out err s₀ idx₁ s') :
    idx₁ = idx ∧ (s' = s₀ ∨ e.is .breakExp ∧ s' = { s₀ with rangeValue := .null }) := by
  -- neither an `end` nor a range that was started jumps
  have hnot : ∀ k, e.is k → (k = .endExp ∨ k = .rangeExp ∧ err = none) → False := by
    intro k hk hor
    cases hj with
    | elseRow h | ifFalse h _ =>
      cases (Expression.is_iff.mp h).symm.trans (Expression.is_iff.mp hk)
      simp at hor
    | forward h _ =>
      rcases hor with rfl | ⟨rfl, herr⟩
      · obtain ⟨hout, herr⟩ := hx.of_end hk
        simp [hout, herr] at h
      · rcases h with h | h
        · exact hx.of_range hk h
        · exact h herr
  cases hm with
  | plain => exact ⟨rfl, .inl rfl⟩
  | breaks hk => exact ⟨rfl, .inr ⟨hk, rfl⟩⟩
  | skipped r h herr | entered r h herr => exact (hnot _ h.isRange (.inr ⟨rfl, herr⟩)).elim
  | endsBlock hk | restarts hk | endsOwn hk | endsLast hk | endsInner hk | restartsOuter hk =>
    exact (hnot _ hk (.inl rfl)).elim

theorem Executed.jumpsForward (hx : Executed H t idx e s out err s') (hsend : e.isSend = false)
    (h : e.is .ifExp ∧ out = some [.bool false] ∨ out = some [.str []] ∨ err ≠ none) :
    jumpsForward H t e s := by
  unfold Kairos.jumpsForward
  cases hx with
  | ok out m hx =>
    rw [hx]
    rcases h with ⟨hif, hout⟩ | hout | herr
    · simp [hsend, hif, hout]
    · simp [hsend, hout]
    · exact absurd rfl herr
  | err msg m hx => simp [hx, hsend]

end

/-! ## Rows between a row and its target -/

/-- The targets are there, and an `end` starts another round of an enclosing range only where that
range's end comes next. -/
def Point.Orderly (t : Program) : Point → Prop
  | .stage _ idx _ (e :: _) s =>
    (e.is .ifExp ∨ e.is .elseExp ∨ e.is .rangeExp → t.target idx ≠ 0) ∧
      (e.is .endExp → ∀ r ∈ s.outerRound idx, r.endIndex = idx + 1)
  | _ => True

instance (t : Program) : DecidablePred (Point.Orderly t)
  | .stage _ idx _ (e :: _) s => inferInstanceAs (Decidable
      ((e.is .ifExp ∨ e.is .elseExp ∨ e.is .rangeExp → t.target idx ≠ 0) ∧
        (e.is .endExp → ∀ r ∈ s.outerRound idx, r.endIndex = idx + 1)))
  | .stage _ _ _ [] _ | .row _ _ _ => .isTrue trivial

section

variable {H : Host} {t : Program} {e : Expression} {out : Out} {err : Option GoString}
    {s s' : State}
  {idx idx' : ℤ} {c d : ℕ}

variable {r : RangeValue}

theorem outerRound_eq {q r' : RangeValue} {outer : List RangeValue} {kv : Kv}
    (hcur : s.current = some r) (hstop : r.endIndex = idx) (hover : r.remains = false)
    (hstack : s.rangeStack = q :: r' :: outer) (hkv : r'.value[r'.index]? = some kv) :
    s.outerRound idx = some r' := by
  have hrem : r'.remains := decide_eq_true (List.getElem?_eq_some_iff.mp hkv).1
  simp [State.outerRound, hcur, hstack, hstop, hover, hrem]

theorem Point.Orderly.targeted {p : Point} (h : p.Orderly t) : p.Targeted t := by
  cases p with
  | row i k s => trivial
  | stage i idx edx rest s =>
    cases rest with
    | nil => trivial
    | cons e rest => exact h.1

theorem Program.Built.exists_target (hb : t.Built) (hne : t.target idx ≠ 0) :
    ∃ i j : ℕ, idx = i ∧ t.target idx = j ∧ Target t.marks i j := by
  obtain ⟨i, j, hi, hij, hj, -⟩ := hb.target_spec hne
  obtain ⟨stack, hm⟩ := hb.matched
  exact ⟨i, j, hi, hj, (hm.target_iff i j).mp hij⟩

theorem Program.Built.target_between (hb : t.Built) (hcd : Target t.marks c d) (hc : (c : ℤ) < idx)
    (hd : idx < d) (hne : t.target idx ≠ 0) : idx < t.target idx ∧ t.target idx < d := by
  obtain ⟨i, j, rfl, hj, hij⟩ := hb.exists_target hne
  obtain ⟨l, hl, hlt⟩ := hcd.exists_inner (by omega) (by omega) hij.pushes
  obtain rfl := hl.unique hij
  have := hij.lt
  omega

variable {i : ℕ}

theorem start_between {j : ℕ} (hcd : Target t.marks c d) (hij : Target t.marks i j) (hcj : c < j)
    (hjd : j ≤ d) : c ≤ i := by
  by_contra hlt
  obtain ⟨l, hl, hlj⟩ := hij.exists_inner (not_le.mp hlt) hcj hcd.pushes
  have := hl.unique hcd
  omega

theorem Moves.within (hm : Moves H t idx e out err s idx' s') (hb : t.Built) (hn : Nested t s)
    (hcd : Target t.marks c d) (hc : (c : ℤ) < idx) (hd : idx < d)
    (htarget : e.is .rangeExp → t.target idx ≠ 0)
    (hround : e.is .endExp → ∀ r ∈ s.outerRound idx, r.endIndex = idx + 1) :
    (c : ℤ) ≤ idx' ∧ idx' < d ∧ (idx' = c → t.startsWith c .rangeExp) := by
  have hstay : (c : ℤ) ≤ idx ∧ idx < d ∧ (idx = c → t.startsWith c .rangeExp) :=
    ⟨hc.le, hd, fun h => absurd h hc.ne'⟩
  cases hm with
  | plain | breaks | entered | endsBlock | endsOwn | endsLast | endsInner => exact hstay
  | skipped r h =>
    have hbetween := hb.target_between hcd hc hd (htarget h.isRange)
    exact ⟨by omega, by omega, fun h => by omega⟩
  | restarts hk r hcur hstop =>
    have hok := hn.ok r (State.current_mem hcur)
    obtain ⟨i, j, hi, hj, hij⟩ := hb.exists_target hok.targeted
    have hend := hok.endIndex_eq
    have hle := start_between hcd hij (by omega) (by omega)
    have hlt := hij.lt
    refine ⟨by omega, by omega, fun heq => ?_⟩
    -- a range at the row itself ends at the row's target
    obtain rfl : c = i := by omega
    have := hcd.unique hij
    omega
  | restartsOuter hk r q r' outer hcur hstop hover hstack kv hkv =>
    have hok := hn.ok r' (State.mem_ranges_of_mem_stack (by rw [hstack]; simp))
    obtain ⟨i, j, hi, hj, hij⟩ := hb.exists_target hok.targeted
    have hend := hok.endIndex_eq
    have hnext := hround hk r' (outerRound_eq hcur hstop hover hstack hkv)
    have hle := start_between hcd hij (by omega) (by omega)
    have hlt := hij.lt
    refine ⟨by omega, by omega, fun heq => ?_⟩
    have hrange := hok.isRange
    rwa [heq, Int.toNat_natCast] at hrange

theorem Nested.endIndex_ne (hn : Nested t s) (hb : t.Built) (hpops : ¬ Pops t.marks i)
    (hcur : s.current = some r) : r.endIndex ≠ i := by
  have hok := hn.ok r (State.current_mem hcur)
  obtain ⟨i', j, -, hj, hij⟩ := hb.exists_target hok.targeted
  intro hstop
  rw [hok.endIndex_eq, hj] at hstop
  obtain rfl : j = i := by omega
  exact hpops hij.pops

variable {edx : ℕ}

theorem Moves.idx_eq {row : ℕ} {exp : Row} (hm : Moves H t i e out err s idx' s')
    (hb : t.Built) (hn : Nested t s) (hpops : ¬ Pops t.marks i) (hexp : t.exps[row]? = some exp)
    (he : exp[edx]? = some e) (hedx : 0 < edx) : idx' = i := by
  cases hm with
  | plain | breaks | entered | endsBlock | endsOwn | endsLast | endsInner => rfl
  | skipped r h => exact absurd (h.first hb hexp he) hedx.ne'
  | restarts _ r hcur hstop | restartsOuter _ r q r' outer hcur hstop =>
    exact absurd hstop (hn.endIndex_ne hb hpops hcur)

theorem Jumps.within (hj : Jumps t e out err idx idx') (hb : t.Built) (hcd : Target t.marks c d)
    (hc : (c : ℤ) < idx) (hd : idx < d) (htarget : e.is .ifExp ∨ e.is .elseExp → t.target idx ≠ 0) :
    (c : ℤ) < idx' + 1 ∧ idx' + 1 ≤ d := by
  obtain ⟨hne, hdest⟩ := hj.dest htarget
  have := hb.target_between hcd hc hd hne
  omega

/-- What follows a stage between a row and its target: a stage or row between them, or the target. A
stage at the row itself starts another round. -/
theorem follows_within {rest : Row} {q : Point} (hb : t.Built) (hfits : t.Fits)
    (hcd : Target t.marks c d) (hc : (c : ℤ) < idx) (hd : idx < d)
    (hsound : Point.Sound t (.stage i idx edx rest s))
    (horderly : Point.Orderly t (.stage i idx edx rest s))
    (h : Follows H t (.stage i idx edx rest s) q) :
    (∃ idx' rest' s', q = .stage i idx' (edx + 1) rest' s' ∧ (c : ℤ) ≤ idx' ∧ idx' < d ∧
        (idx' = c → t.startsWith c .rangeExp)) ∨
      ∃ j k s', q = .row j k s' ∧ c < j ∧ (k = 0 ∧ j ≤ d ∨ j < d) := by
  obtain ⟨⟨exp, hexp, hrest⟩, hn, -⟩ := id hsound
  cases rest with
  | nil =>
    rw [follows_nil h]
    exact .inr ⟨_, _, _, rfl, by omega, .inl ⟨rfl, by omega⟩⟩
  | cons e rest =>
    rcases follows_stage h with hstep | ⟨s', v, hsusp, rfl⟩
    · cases hstep with
      | sends s' hs => exact .inl ⟨idx, rest, s', rfl, hc.le, hd, fun heq => by omega⟩
      | continues idx' s' hcont =>
        obtain ⟨out, m, s₁, -, hm, -⟩ := hcont.moved
        have hsame : SameRanges s { s with toMem := m } := ⟨rfl, rfl⟩
        exact .inl ⟨idx', rest, s', rfl, hm.within hb (hsame.nested hn) hcd hc hd
          (fun hk => horderly.1 (.inr (.inr hk))) horderly.2⟩
      | leaves idx' s' hleave =>
        obtain ⟨out, err, s₁, idx₁, hx, hm, hj⟩ := hleave.moved
        obtain ⟨rfl, -⟩ := hj.not_moved hx hm
        have hwithin := hj.within hb hcd hc hd fun hk => horderly.1 (hk.imp_right .inl)
        exact .inr ⟨_, _, _, rfl, by omega, .inl ⟨rfl, by omega⟩⟩
    · obtain ⟨j, rfl⟩ : ∃ j : ℕ, idx = j := ⟨idx.toNat, by omega⟩
      rw [hsusp.resumes hb hfits hsound rfl v]
      exact .inr ⟨j, edx + 1, _, rfl, by omega, .inr (by omega)⟩

end

/-! ## Stretches of a session -/

def Point.Inside (o e : ℕ) : Point → Prop
  | .row i expIdx _ => o < i ∧ i ≤ e ∨ i = o ∧ 0 < expIdx
  | .stage i idx _ _ _ => o ≤ i ∧ i ≤ e ∧ (o : ℤ) ≤ idx

abbrev Stays (H : Host) (t : Program) (o e : ℕ) : Point → Point → Prop :=
  Relation.ReflTransGen fun p q => Follows H t p q ∧ q.Inside o e

instance (o e : ℕ) : DecidablePred (Point.Inside o e)
  | .row i expIdx _ => inferInstanceAs (Decidable (o < i ∧ i ≤ e ∨ i = o ∧ 0 < expIdx))
  | .stage i idx _ _ _ => inferInstanceAs (Decidable (o ≤ i ∧ i ≤ e ∧ (o : ℤ) ≤ idx))

def stretch (H : Host) (t : Program) (o e : ℕ) (c : Point → Bool) : ℕ → Point → Option Point
  | 0, _ => none
  | n + 1, p =>
    if c p then some p
    else
      match step H t p with
      | .inl _ => none
      | .inr q => if q.Inside o e then stretch H t o e c n q else none

variable {p : Point}

theorem stretch_spec {H : Host} {t : Program} {o e n : ℕ} {c : Point → Bool} {q : Point}
    (h : stretch H t o e c n p = some q) : Stays H t o e p q ∧ c q := by
  induction n generalizing p with
  | zero => cases h
  | succ n ih =>
    unfold stretch at h
    by_cases hc : c p
    · rw [if_pos hc] at h
      cases h
      exact ⟨.refl, hc⟩
    · rw [if_neg hc] at h
      cases hstep : step H t p with
      | inl f => rw [hstep] at h; cases h
      | inr p' =>
        simp only [hstep] at h
        by_cases hin : p'.Inside o e
        · rw [if_pos hin] at h
          obtain ⟨hstay, hq⟩ := ih h
          exact ⟨.head ⟨.inl hstep, hin⟩ hstay, hq⟩
        · rw [if_neg hin] at h; cases h

def Point.isRow (i : ℕ) : Point → Bool
  | .row j _ _ => j == i
  | .stage _ _ _ _ _ => false

def Point.next (H : Host) (t : Program) (i : ℕ) (p : Point) : Option State :=
  match step H t p with
  | .inr (.row j 0 s) => if j = i then some s else none
  | _ => none

theorem follows_of_next {H : Host} {t : Program} {i : ℕ} {s : State}
    (h : p.next H t i = some s) : Follows H t p (.row i 0 s) := by
  unfold Point.next at h
  split at h
  · rename_i j s' hstep
    split_ifs at h with hj
    cases h
    exact .inl (by rw [Runs.Steps, hstep, hj])
  · cases h

end Kairos
