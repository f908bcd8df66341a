import Kairos.Template.Blocks

/-!
# The clauses of an `if`

Of the clauses of an `if` block, the first one whose condition is true should be run, or the `else`
(`Selects`). The interpreter evaluates the condition of the `if` alone. So the selected clause is
run where it is the first or the second of its block, followed by the `end` or by a last `else`
(`Clauses`).
-/

namespace Kairos

open Matching (Matched Block Target Pushes Pops level)

def condition (H : Host) (t : Program) (e : Expression) (s : State) : Option Bool :=
  match e.execute H t.env s.expInput s.toMem with
  | .ok (some [.bool b]) _ => some b
  | _ => none

/-- The clause that is selected from row `c` on: the first whose condition is true, else the `else`
or the `end`. -/
inductive Selects (H : Host) (t : Program) (s : State) : ℕ → ℕ → Prop where
  | taken {c : ℕ} {e : Expression} {rest : Row} (hrow : t.exps[c]? = some (e :: rest))
      (hk : e.is .ifExp ∨ e.is .elseifExp) (hcond : condition H t e s = some true) :
      Selects H t s c c
  | next {c c' d : ℕ} {e : Expression} {rest : Row} (hrow : t.exps[c]? = some (e :: rest))
      (hk : e.is .ifExp ∨ e.is .elseifExp) (hcond : condition H t e s = some false)
      (hnext : t.indexRun c = some c') (h : Selects H t s c' d) : Selects H t s c d
  | otherwise {c : ℕ} {e : Expression} {rest : Row} (hrow : t.exps[c]? = some (e :: rest))
      (hk : e.is .elseExp ∨ e.is .endExp) : Selects H t s c c

/-- An `if` block from `o` to `e` that selects the clause at `c`, its first or second, followed at
`d` by the `end` or by the last `else`. -/
structure Clauses (H : Host) (t : Program) (o e c d : ℕ) (s : State) : Prop where
  block : Block t.marks o e
  isIf : t.startsWith o .ifExp
  selects : Selects H t s o c
  near : c = o ∨ t.indexRun o = some c
  behind : c = e ∨ t.indexRun c = some d ∧
    (d = e ∨ t.startsWith d .elseExp ∧ t.indexRun d = some e)

def Point.QuietBehind (H : Host) (t : Program) (o : ℕ) : Point → Prop
  | .stage i _ edx (e :: _) s => i = o → 0 < edx → jumpsForward H t e s = false
  | _ => True

/-- A point in the rows of the clause at `c`: the `if`, those up to the next clause, and the end. -/
def Point.InClause (o c d e : ℕ) : Point → Prop
  | .row i _ _ => i = o ∨ c < i ∧ i ≤ d ∨ i = e
  | .stage i _ _ _ _ => i = o ∨ c < i ∧ i ≤ d ∨ i = e

/-! ## The row of the `if` -/

def Point.InFirst (t : Program) (o c : ℕ) (entry : State) : Point → Prop
  | .row i k s => i = o ∧ (k = 0 ∧ s = entry ∨ 0 < k ∧ c = o)
  | .stage i idx edx rest s => i = o ∧ idx = o ∧
      (edx = 0 ∧ t.exps[o]? = some rest ∧ s = openScope rest entry ∨ 0 < edx ∧ c = o)

section

variable {H : Host} {t : Program} {o e' c d : ℕ} {s entry : State} {p q : Point}

theorem Selects.le (h : Selects H t s o c) (hb : t.Built) : o ≤ c := by
  induction h with
  | taken | otherwise => exact le_rfl
  | next _ _ _ hnext _ ih =>
    obtain ⟨stack, hm⟩ := hb.matched
    have := ((hm.target_iff _ _).mp hnext).lt
    omega

variable {e : Expression} {rest : Row}

theorem Clauses.first (h : Clauses H t o e' c d s) (hb : t.Built)
    (hrow : t.exps[o]? = some (e :: rest)) : condition H t e s = some true ∧ c = o ∨
      condition H t e s = some false ∧ t.indexRun o = some c := by
  obtain ⟨stack, hm⟩ := hb.matched
  have hsame : ∀ {e₁ : Expression} {rest₁ : Row}, t.exps[o]? = some (e₁ :: rest₁) → e₁ = e := by
    intro e₁ rest₁ hrow₁
    rw [hrow] at hrow₁
    exact (List.cons.inj (Option.some.inj hrow₁)).1.symm
  cases h.selects with
  | taken hrow₁ _ hcond =>
    rw [hsame hrow₁] at hcond
    exact .inl ⟨hcond, rfl⟩
  | next hrow₁ _ hcond hnext hsel =>
    rw [hsame hrow₁] at hcond
    refine .inr ⟨hcond, h.near.resolve_left fun hco => ?_⟩
    have hlt := ((hm.target_iff _ _).mp hnext).lt
    have hle := hsel.le hb
    omega
  | otherwise hrow₁ hk =>
    obtain ⟨e₂, rest₂, hrow₂, hif⟩ := h.isIf
    rw [hsame hrow₂] at hif
    rw [hsame hrow₁] at hk
    rcases hk with hk | hk
    · rw [Expression.not_is hif (by decide)] at hk; cases hk
    · rw [Expression.not_is hif (by decide)] at hk; cases hk

theorem condition_eq_some {b : Bool} (h : condition H t e s = some b) :
    ∃ m, e.execute H t.env s.expInput s.toMem = .ok (some [.bool b]) m := by
  unfold condition at h
  split at h
  · rename_i m heq
    cases h
    exact ⟨m, heq⟩
  · cases h

theorem Clauses.follows_condition (h : Clauses H t o e' c d s)
    (hb : t.Built) (hrow : t.exps[o]? = some (e :: rest))
    (hq : Follows H t (.stage o o 0 (e :: rest) s) q) :
    (c = o ∧ ∃ s', q = .stage o o 1 rest s') ∨ ∃ s', q = .row (c + 1) 0 s' := by
  have hif : e.is .ifExp := by
    obtain ⟨e₁, rest₁, hrow₁, hif⟩ := h.isIf
    rw [hrow] at hrow₁
    rwa [(List.cons.inj (Option.some.inj hrow₁)).1]
  obtain ⟨b, m, hx, hb'⟩ : ∃ b m, e.execute H t.env s.expInput s.toMem = .ok (some [.bool b]) m ∧
      (b ∧ c = o ∨ b = false ∧ t.indexRun o = some c) := by
    rcases h.first hb hrow with ⟨hcond, hc⟩ | ⟨hcond, hc⟩
    · obtain ⟨m, hx⟩ := condition_eq_some hcond
      exact ⟨true, m, hx, .inl ⟨rfl, hc⟩⟩
    · obtain ⟨m, hx⟩ := condition_eq_some hcond
      exact ⟨false, m, hx, .inr ⟨rfl, hc⟩⟩
  have hnot : ∀ k, k ≠ .ifExp → e.is k = false := fun k hk => Expression.not_is hif hk.symm
  have hsend : e.isSend = false := by
    simp [Expression.isSend, hnot .send (by decide), hnot .sendu (by decide),
      hnot .sendsync (by decide)]
  rcases follows_stage hq with hstep | ⟨s', v, hsusp, -⟩
  · cases hstep with
    | sends s' hs =>
      have := hs.isSend
      rw [hsend] at this
      cases this
    | continues idx' s' hcont =>
      obtain ⟨out, m', s₁, hx', hm, rfl, hfalse, -⟩ := hcont.moved
      obtain ⟨rfl, rfl⟩ := Effects.Eff.ok.inj (hx.symm.trans hx')
      have hb'' : b := by
        by_contra hne
        exact hfalse hif (by simp [Bool.eq_false_iff.mpr hne])
      have hidx := hm.eq_of_not (hnot _ (by decide)) (hnot _ (by decide))
      rcases hb' with ⟨-, hc⟩ | ⟨hfalse, -⟩
      · exact .inl ⟨hc, _, by rw [hidx]⟩
      · rw [hb''] at hfalse; cases hfalse
    | leaves idx' s' hleave =>
      obtain ⟨out, err, s₁, idx₁, hx', hm, hj⟩ := hleave.moved
      obtain ⟨rfl, -⟩ := hj.not_moved hx' hm
      cases hx' with
      | err msg m' hx' => rw [hx] at hx'; cases hx'
      | ok out m' hx' =>
        obtain ⟨rfl, rfl⟩ := Effects.Eff.ok.inj (hx.symm.trans hx')
        cases hj with
        | elseRow hk => cases Expression.is_inj hif hk
        | ifFalse _ hout =>
          obtain rfl : b = false := by simpa using hout
          rcases hb' with ⟨hb', -⟩ | ⟨-, hc⟩
          · cases hb'
          · -- a false condition jumps, and the run goes on behind row `c`
            have htarget : t.target o = c := by simp [Program.target, hc]
            exact .inr ⟨_, by rw [endOfRow, htarget]; rfl⟩
        | forward hor _ => simp at hor
  · cases Expression.is_inj hif hsusp.isSync

theorem Point.InFirst.follows (hp : p.InFirst t o c entry) (hb : t.Built) (hfits : t.Fits)
    (hsound : p.Sound t)
    (hclauses : ∀ exp, t.exps[o]? = some exp → Clauses H t o e' c d (openScope exp entry))
    (hquiet : p.QuietBehind H t o) (h : Follows H t p q) :
    (q.InFirst t o c entry ∧ ∀ i s', q ≠ .row i 0 s') ∨ ∃ s', q = .row (c + 1) 0 s' := by
  cases p with
  | row i k s =>
    obtain ⟨rfl, hk⟩ := hp
    obtain ⟨exp, hexp, rfl⟩ := follows_row h
    refine .inl ⟨⟨rfl, rfl, ?_⟩, by simp⟩
    rcases hk with ⟨rfl, rfl⟩ | ⟨hk, hc⟩
    · exact .inl ⟨rfl, hexp, rfl⟩
    · exact .inr ⟨hk, hc⟩
  | stage i idx edx rest s =>
    obtain ⟨rfl, rfl, hplace⟩ := hp
    rcases hplace with ⟨rfl, hexp, rfl⟩ | ⟨hedx, rfl⟩
    · have hcl := hclauses rest hexp
      obtain ⟨e, rest₁, hrow, -⟩ := hcl.isIf
      cases hexp.symm.trans hrow
      rcases hcl.follows_condition hb hexp h with ⟨hc, s', rfl⟩ | hrow
      · exact .inl ⟨⟨rfl, rfl, .inr ⟨Nat.one_pos, hc⟩⟩, by simp⟩
      · exact .inr hrow
    · obtain ⟨⟨exp, hexp, hrest⟩, hn, -⟩ := id hsound
      have hopens := (hclauses exp hexp).block.opens
      have hpops : ¬ Pops t.marks c := by
        rintro (hc | hc) <;> rw [hopens] at hc <;> cases hc
      cases rest with
      | nil =>
        rw [follows_nil h]
        exact .inr ⟨_, rfl⟩
      | cons e rest =>
        obtain ⟨he, -⟩ := getElem?_of_drop hrest
        have hforward := hquiet rfl hedx
        rcases follows_stage h with hstep | ⟨s', v, hsusp, rfl⟩
        · cases hstep with
          | sends s' hs => exact .inl ⟨⟨rfl, rfl, .inr ⟨by omega, rfl⟩⟩, by simp⟩
          | continues idx' s' hcont =>
            obtain ⟨out, m, s₁, -, hm, -⟩ := hcont.moved
            have hsame : SameRanges s { s with toMem := m } := ⟨rfl, rfl⟩
            have hidx := hm.idx_eq hb (hsame.nested hn) hpops hexp he hedx
            exact .inl ⟨⟨rfl, hidx, .inr ⟨by omega, rfl⟩⟩, by simp⟩
          | leaves idx' s' hleave =>
            -- no stage behind the condition leaves the row
            obtain ⟨out, err, s₁, idx₁, hx, hm, hj⟩ := hleave.moved
            cases hj with
            | elseRow hk =>
              have := (hb.shaped exp (List.mem_of_getElem? hexp) edx e he).else_first hk
              omega
            | ifFalse hk hout =>
              rw [hx.jumpsForward hleave.not_send (.inl ⟨hk, hout⟩)] at hforward
              cases hforward
            | forward hor _ =>
              rw [hx.jumpsForward hleave.not_send (.inr hor)] at hforward
              cases hforward
        · rw [hsusp.resumes hb hfits hsound rfl v]
          exact .inl ⟨⟨rfl, .inr ⟨by omega, rfl⟩⟩, by simp⟩

/-! ## The rows of the clause -/

theorem not_startsWith {i : ℕ} {k k' : Keyword} (h : t.startsWith i k) (hne : k ≠ k') :
    ¬ t.startsWith i k' := by
  rintro ⟨e', rest', hrow', hk'⟩
  obtain ⟨e, rest, hrow, hk⟩ := h
  rw [hrow] at hrow'
  cases hrow'
  rw [Expression.not_is hk hne] at hk'
  cases hk'

theorem Selects.not_range (h : Selects H t s o c) : ¬ t.startsWith c .rangeExp := by
  induction h with
  | taken hrow hk _ | otherwise hrow hk =>
    rcases hk with hk | hk
    · exact not_startsWith ⟨_, _, hrow, hk⟩ (by decide)
    · exact not_startsWith ⟨_, _, hrow, hk⟩ (by decide)
  | next _ _ _ _ _ ih => exact ih

variable {edx : ℕ}

theorem follows_else (hk : e.is .elseExp) (htarget : t.indexRun d = some e')
    (h : Follows H t (.stage d d edx (e :: rest) s) q) : ∃ s', q = .row e' 0 s' := by
  have hnot : ∀ k, k ≠ .elseExp → e.is k = false := fun k hne => Expression.not_is hk hne.symm
  have hx : ∀ m, e.execute H t.env s.expInput m = .ok none m := by
    intro m
    simp only [Expression.execute, Expression.is_iff.mp hk]
    rfl
  rcases follows_stage h with hstep | ⟨s', v, hsusp, -⟩
  · cases hstep with
    | sends s' hs =>
      have := hs.isSend
      simp [Expression.isSend, hnot .send (by decide), hnot .sendu (by decide),
        hnot .sendsync (by decide)] at this
    | continues idx' s' hcont =>
      have := hcont.not_else
      rw [hk] at this
      cases this
    | leaves idx' s' hleave =>
      obtain ⟨out, err, s₁, idx₁, hx', hm, hj⟩ := hleave.moved
      obtain ⟨rfl, -⟩ := hj.not_moved hx' hm
      have hdest : t.target d = e' := by simp [Program.target, htarget]
      cases hj with
      | elseRow _ =>
        refine ⟨{ s' with expInput := some [] }, ?_⟩
        rw [endOfRow, hdest, show ((e' : ℤ) - 1 + 1).toNat = e' by omega]
      | ifFalse hif _ => cases Expression.is_inj hk hif
      | forward hor _ =>
        cases hx' with
        | ok out m hx' =>
          obtain ⟨rfl, -⟩ := Effects.Eff.ok.inj ((hx s.toMem).symm.trans hx')
          simp at hor
        | err msg m hx' => rw [hx s.toMem] at hx'; cases hx'
  · cases Expression.is_inj hk hsusp.isSync

theorem follows_close (hb : t.Built) (hfits : t.Fits)
    (hblock : Block t.marks o e') (hlast : Target t.marks c e') (hnot : ¬ t.startsWith c .rangeExp)
    (hsound : Point.Sound t (.stage e' e' edx rest s))
    (horderly : Point.Orderly t (.stage e' e' edx rest s))
    (h : Follows H t (.stage e' e' edx rest s) q) (hin : q.Inside o e') :
    (∃ rest' s', q = .stage e' e' (edx + 1) rest' s') ∨ ∃ k s', q = .row e' k s' := by
  obtain ⟨⟨exp, hexp, hrest⟩, hn, -⟩ := id hsound
  have hpushes : ¬ Pushes t.marks e' := by
    rintro (hp | hp) <;> rw [hblock.closes] at hp <;> cases hp
  have hzero : t.target e' = 0 := by
    by_contra hne
    obtain ⟨i, j, hi, -, hij⟩ := hb.exists_target hne
    obtain rfl : e' = i := by omega
    exact hpushes hij.pushes
  cases rest with
  | nil =>
    rw [follows_nil h] at hin
    have hlt := hblock.lt
    rcases hin with hin | hin <;> omega
  | cons e rest =>
    obtain ⟨he, -⟩ := getElem?_of_drop hrest
    rcases follows_stage h with hstep | ⟨s', v, hsusp, rfl⟩
    · cases hstep with
      | sends s' hs => exact .inl ⟨rest, s', rfl⟩
      | continues idx' s' hcont =>
        obtain ⟨out, m, s₁, -, hm, -⟩ := hcont.moved
        refine .inl ⟨rest, s', ?_⟩
        have hsame : SameRanges s { s with toMem := m } := ⟨rfl, rfl⟩
        have hn := hsame.nested hn
        cases hm with
        | plain | breaks | entered | endsBlock | endsOwn | endsLast | endsInner => rfl
        | skipped r hr => exact absurd hzero (horderly.1 (.inr (.inr hr.isRange)))
        | restarts hk r hcur hstop =>
          -- the range would have been started by the last clause
          have hok := hn.ok r (State.current_mem hcur)
          obtain ⟨i, j, hi, hj, hij⟩ := hb.exists_target hok.targeted
          rw [hok.endIndex_eq] at hstop
          obtain rfl : j = e' := by omega
          have hrange := hok.isRange
          rw [hi, Int.toNat_natCast, hij.inj hlast] at hrange
          exact absurd hrange hnot
        | restartsOuter hk r q r' outer hcur hstop hover hstack kv hkv =>
          -- the outer range was started before the block
          have hnext := horderly.2 hk r' (outerRound_eq (s := s) hcur hstop hover hstack hkv)
          have hok := hn.ok r' (State.mem_ranges_of_mem_stack (by rw [hstack]; simp))
          obtain ⟨i, j, hi, hj, hij⟩ := hb.exists_target hok.targeted
          rw [hok.endIndex_eq, hj] at hnext
          obtain rfl : j = e' + 1 := by omega
          have hne : i ≠ e' := fun heq => hpushes (heq ▸ hij.pushes)
          have hlt := hij.lt
          have hoi : (o : ℤ) ≤ r'.startIndex := hin.2.2
          have hlevel := hblock.level_le (k := i + 1) (by omega) (by omega)
          have hopen := Matching.level_succ hblock.opens
          simp only [Matching.delta] at hopen
          have hafter := hblock.level_after
          have hij' := hij.level_eq
          omega
      | leaves idx' s' hleave =>
        obtain ⟨out, err, s₁, idx₁, hx, hm, hj⟩ := hleave.moved
        obtain ⟨rfl, -⟩ := hj.not_moved hx hm
        cases hj with
        | elseRow hk => exact absurd hzero (horderly.1 (.inr (.inl hk)))
        | ifFalse hk _ => exact absurd hzero (horderly.1 (.inl hk))
        | forward _ hpos => exact absurd hzero hpos.ne'
    · exact .inr ⟨_, _, hsusp.resumes hb hfits hsound rfl v⟩

/-- A point behind the clause at `c`: in the clause, the `else` that follows, or the end. -/
def Point.InRows (c d e : ℕ) : Point → Prop
  | .row i k _ => c < i ∧ (k = 0 ∧ i ≤ d ∨ i < d) ∨ i = e
  | .stage i idx edx _ _ => c < i ∧ i < d ∧ (c : ℤ) < idx ∧ idx < d ∨
      c < i ∧ i = d ∧ idx = d ∧ edx = 0 ∧ d ≠ e ∨ i = e ∧ idx = e

theorem Point.InRows.follows (hp : p.InRows c d e') (hb : t.Built) (hfits : t.Fits)
    (hsound : p.Sound t) (horderly : p.Orderly t) (hblock : Block t.marks o e')
    (hcd : t.indexRun c = some d) (hnot : ¬ t.startsWith c .rangeExp)
    (hd : d = e' ∨ t.startsWith d .elseExp ∧ t.indexRun d = some e')
    (h : Follows H t p q) (hin : q.Inside o e') : q.InRows c d e' := by
  obtain ⟨stack, hm⟩ := hb.matched
  have htarget := (hm.target_iff c d).mp hcd
  cases p with
  | row i k s =>
    obtain ⟨exp, hexp, rfl⟩ := follows_row h
    rcases hp with ⟨hci, ⟨rfl, hid⟩ | hid⟩ | rfl
    · rcases hid.lt_or_eq with hlt | rfl
      · exact .inl ⟨hci, hlt, by omega, by omega⟩
      · by_cases hde : i = e'
        · exact .inr (.inr ⟨hde, by rw [hde]⟩)
        · exact .inr (.inl ⟨hci, rfl, rfl, rfl, hde⟩)
    · exact .inl ⟨hci, hid, by omega, by omega⟩
    · exact .inr (.inr ⟨rfl, rfl⟩)
  | stage i idx edx rest s =>
    rcases hp with ⟨hci, hid, hc, hd'⟩ | ⟨-, rfl, rfl, rfl, hde⟩ | ⟨rfl, rfl⟩
    · rcases follows_within hb hfits htarget hc hd' hsound horderly h with
        ⟨idx', rest', s', rfl, hle, hlt, hrange⟩ | ⟨j, k, s', rfl, hcj, hjd⟩
      · have hne : idx' ≠ c := fun heq => hnot (hrange heq)
        exact .inl ⟨hci, hid, by omega, hlt⟩
      · exact .inl ⟨hcj, hjd⟩
    · obtain ⟨⟨e, rest₁, hrow, hk⟩, hde'⟩ := hd.resolve_left hde
      obtain ⟨⟨exp, hexp, hrest⟩, -, -⟩ := hsound
      cases hexp.symm.trans hrow
      rw [hrest, List.drop_zero] at h
      obtain ⟨s', rfl⟩ := follows_else hk hde' h
      exact .inr rfl
    · have hclose : ∃ c', Target t.marks c' i ∧ ¬ t.startsWith c' .rangeExp := by
        rcases hd with rfl | ⟨helse, hde⟩
        · exact ⟨c, htarget, hnot⟩
        · exact ⟨d, (hm.target_iff d i).mp hde, not_startsWith helse (by decide)⟩
      obtain ⟨c', hlast, hnot'⟩ := hclose
      rcases follows_close hb hfits hblock hlast hnot' hsound horderly h hin with
        ⟨rest', s', rfl⟩ | ⟨k, s', rfl⟩
      · exact .inr (.inr ⟨rfl, rfl⟩)
      · exact .inr rfl

end

/-- In an orderly session an `if` block runs its selected clause: its first row leads to the first
one behind that clause, and the session stays in the rows of the clause, the `else` that follows or
the `end`. -/
theorem if_runs_selected_clause {H : Host} {t : Program} {s₀ : State} (hstart : Started H t s₀)
    (hfits : t.Fits) (horderly : ∀ p, Visits H t s₀ p → p.Orderly t) {o e c d : ℕ} {s : State}
    (hs : Visits H t s₀ (.row o 0 s)) {exp : Row} (hexp : t.exps[o]? = some exp)
    (hclauses : Clauses H t o e c d (openScope exp s))
    (hquiet : ∀ p, Visits H t s₀ p → p.QuietBehind H t o) :
    (∀ q r k s', Stays H t o o (.row o 0 s) q → Follows H t q (.row r k s') →
      r = o ∧ 0 < k ∨ r = c + 1 ∧ k = 0) ∧
    ∀ q, Stays H t o e (.row o 0 s) q → q.InClause o c d e := by
  have hb := hstart.built
  have hsound : ∀ p, Visits H t s₀ p → p.Sound t := fun p hp =>
    hp.sound hstart hfits fun p hp => (horderly p hp).targeted
  have hfirst : ∀ p q, p.InFirst t o c s → Visits H t s₀ p → Follows H t p q →
      (q.InFirst t o c s ∧ ∀ i s', q ≠ .row i 0 s') ∨ ∃ s', q = .row (c + 1) 0 s' :=
    fun p q hp hvisit h => hp.follows hb hfits (hsound p hvisit)
      (fun exp' hexp' => Option.some.inj (hexp.symm.trans hexp') ▸ hclauses)
      (hquiet p hvisit) h
  have hentry : Point.InFirst t o c s (.row o 0 s) := ⟨rfl, .inl ⟨rfl, rfl⟩⟩
  refine ⟨fun q r k s' hstay hq => ?_, fun q hstay => ?_⟩
  · have hin : q.InFirst t o c s ∧ Visits H t s₀ q := by
      clear hq
      induction hstay with
      | refl => exact ⟨hentry, hs⟩
      | @tail p q _ hstep ih =>
        refine ⟨?_, ih.2.follows hstep.1⟩
        rcases hfirst p q ih.1 ih.2 hstep.1 with hq | ⟨s', rfl⟩
        · exact hq.1
        · rcases hstep.2 with hin | hin <;> omega
    rcases hfirst q _ hin.1 hin.2 hq with ⟨⟨hr, hk⟩, hne⟩ | ⟨s'', heq⟩
    · refine .inl ⟨hr, Nat.pos_of_ne_zero fun hk => ?_⟩
      exact hne r s' (by rw [hk])
    · obtain ⟨rfl, rfl, -⟩ := Point.row.inj heq
      exact .inr ⟨rfl, rfl⟩
  · -- the row of the `if`, and then the rows of the clause
    have hin : (q.InFirst t o c s ∨ c ≠ e ∧ q.InRows c d e) ∧ Visits H t s₀ q := by
      induction hstay with
      | refl => exact ⟨.inl hentry, hs⟩
      | @tail p q _ hstep ih =>
        refine ⟨?_, ih.2.follows hstep.1⟩
        rcases ih.1 with hp | ⟨hce, hp⟩
        · rcases hfirst p q hp ih.2 hstep.1 with hq | ⟨s', rfl⟩
          · exact .inl hq.1
          · have hce : c ≠ e := by
              have := hclauses.block.lt
              rcases hstep.2 with hin | hin <;> omega
            obtain ⟨hcd, -⟩ := hclauses.behind.resolve_left hce
            obtain ⟨stack, hm⟩ := hb.matched
            have hlt := ((hm.target_iff c d).mp hcd).lt
            exact .inr ⟨hce, .inl ⟨by omega, .inl ⟨rfl, by omega⟩⟩⟩
        · obtain ⟨hcd, hd⟩ := hclauses.behind.resolve_left hce
          exact .inr ⟨hce, hp.follows hb hfits (hsound p ih.2) (horderly p ih.2) hclauses.block hcd
            hclauses.selects.not_range hd hstep.1 hstep.2⟩
    rcases hin.1 with hq | ⟨-, hq⟩
    · cases q <;> exact .inl hq.1
    · cases q with
      | row i k s' =>
        rcases hq with ⟨hci, ⟨-, hid⟩ | hid⟩ | hie
        · exact .inr (.inl ⟨hci, hid⟩)
        · exact .inr (.inl ⟨hci, hid.le⟩)
        · exact .inr (.inr hie)
      | stage i idx edx rest s' =>
        rcases hq with ⟨hci, hid, -⟩ | ⟨hci, hid, -⟩ | ⟨hie, -⟩
        · exact .inr (.inl ⟨hci, hid.le⟩)
        · exact .inr (.inl ⟨hci, hid.le⟩)
        · exact .inr (.inr hie)

/-! ## Runs on the plain host -/

instance (H : Host) (t : Program) (o : ℕ) : DecidablePred (Point.QuietBehind H t o)
  | .stage i _ edx (e :: _) s =>
    inferInstanceAs (Decidable (i = o → 0 < edx → jumpsForward H t e s = false))
  | .stage _ _ _ [] _ | .row _ _ _ => .isTrue trivial

def falseCondition : Expression := ⟨"if", ["eq", "(1)", "(2)"]⟩

/-- A block whose `else` is selected. -/
theorem else_runs_selected_clause : ∃ t s₀ s,
    plainRun ["if eq (1) (2)", "set .a (1)", "else", "set .b (2)", "end"] = some (t, s₀) ∧
    Visits plainHost t s₀ (.row 0 0 s) ∧
    ∀ q, Stays plainHost t 0 4 (.row 0 0 s) q → q.InClause 0 2 4 4 := by
  have hcheck : (plainRun ["if eq (1) (2)", "set .a (1)", "else", "set .b (2)", "end"]).any
      (fun p =>
        decide (p.1.exps[0]? = some [falseCondition] ∧ p.1.exps[2]? = some [⟨"else", []⟩]) &&
        decide p.1.Fits && decide (Block p.1.marks 0 4) &&
        decide (p.1.indexRun 0 = some 2 ∧ p.1.indexRun 2 = some 4) &&
        decide (condition plainHost p.1 falseCondition (openScope [falseCondition] p.2.enter) =
          some false) &&
        everyVisit p.1 p.2 20 fun q => q.Orderly p.1 ∧ q.QuietBehind plainHost p.1 0) := by
    decide +kernel
  obtain ⟨⟨t, s₀⟩, hrun, hcheck⟩ := exists_of_any hcheck
  simp only [Bool.and_eq_true, decide_eq_true_eq] at hcheck
  obtain ⟨⟨⟨⟨⟨⟨hif, helse⟩, hfits⟩, hblock⟩, hnext, hlast⟩, hcond⟩, hvisits⟩ := hcheck
  have hvisit : Visits plainHost t s₀ (.row 0 0 s₀.enter) :=
    ⟨s₀, .start, by rw [plainRun_startPoint hrun]⟩
  have hclauses : Clauses plainHost t 0 4 2 4 (openScope [falseCondition] s₀.enter) := by
    refine ⟨hblock, ⟨_, _, hif, by decide⟩, ?_, .inr hnext, .inr ⟨hlast, .inl rfl⟩⟩
    exact .next hif (.inl (by decide)) hcond hnext (.otherwise helse (.inl (by decide)))
  exact ⟨t, s₀, s₀.enter, hrun, hvisit,
    (if_runs_selected_clause (plainRun_started hrun) hfits
      (fun p hp => (of_everyVisit hvisits hp).1) hvisit hif hclauses
      fun p hp => (of_everyVisit hvisits hp).2).2⟩

def falseElseif : Expression := ⟨"elseif", ["eq", "(1)", "(2)"]⟩

/-- Neither condition is true, so the `else` at row 4 is selected. The run goes to row 3, of the
`elseif`, and never to row 5. -/
theorem elseif_runs_unselected : ∃ t s₀ s k s', plainRun ["if eq (1) (2)", "set .a (1)",
      "elseif eq (1) (2)", "set .b (2)", "else", "set .c (3)", "end"] = some (t, s₀) ∧
    Block t.marks 0 6 ∧ Visits plainHost t s₀ (.row 0 0 s) ∧
    Selects plainHost t (openScope [falseCondition] s) 0 4 ∧
    Stays plainHost t 0 6 (.row 0 0 s) (.row 3 k s') ∧
    ∀ k s'', ¬ Visits plainHost t s₀ (.row 5 k s'') := by
  have hcheck : (plainRun ["if eq (1) (2)", "set .a (1)", "elseif eq (1) (2)", "set .b (2)", "else",
      "set .c (3)", "end"]).any (fun p =>
        decide (p.1.exps[0]? = some [falseCondition] ∧ p.1.exps[2]? = some [falseElseif] ∧
          p.1.exps[4]? = some [⟨"else", []⟩]) &&
        decide (Block p.1.marks 0 6) &&
        decide (p.1.indexRun 0 = some 2 ∧ p.1.indexRun 2 = some 4) &&
        decide (condition plainHost p.1 falseCondition (openScope [falseCondition] p.2.enter) =
          some false ∧
          condition plainHost p.1 falseElseif (openScope [falseCondition] p.2.enter) =
            some false) &&
        everyVisit p.1 p.2 20 (fun q => q.isRow 5 = false) &&
        (stretch plainHost p.1 0 6 (·.isRow 3) 20 (startPoint p.2)).isSome) := by
    decide +kernel
  obtain ⟨⟨t, s₀⟩, hrun, hcheck⟩ := exists_of_any hcheck
  simp only [Bool.and_eq_true, decide_eq_true_eq] at hcheck
  obtain ⟨⟨⟨⟨⟨⟨hif, helseif, helse⟩, hblock⟩, hnext, hlast⟩, hcond, hcond'⟩, hnot⟩, hstretch⟩ :=
    hcheck
  obtain ⟨q, hstretch⟩ := Option.isSome_iff_exists.mp hstretch
  have hstart := plainRun_startPoint hrun
  rw [hstart] at hstretch
  have hselects : Selects plainHost t (openScope [falseCondition] s₀.enter) 0 4 :=
    .next hif (.inl (by decide)) hcond hnext
      (.next helseif (.inr (by decide)) hcond' hlast (.otherwise helse (.inl (by decide))))
  obtain ⟨hstay, hq⟩ := stretch_spec hstretch
  obtain ⟨k, s', rfl⟩ : ∃ k s', q = .row 3 k s' := by
    cases q with
    | row j k s' =>
      obtain rfl : j = 3 := by simpa [Point.isRow] using hq
      exact ⟨k, s', rfl⟩
    | stage => cases hq
  refine ⟨t, s₀, s₀.enter, k, s', hrun, hblock, ⟨s₀, .start, by rw [hstart]⟩, hselects, hstay,
    fun k' s'' hvisit => ?_⟩
  have hrow := of_everyVisit hnot hvisit
  simp [Point.isRow] at hrow

end Kairos
