import Kairos.Template.Loops

/-!
# Leaving a range with `break`

`break` is no case of `Expression.Execute`: it fails as a function, and the error takes the jump of
its row. `Execute` then forgets the current range but leaves it on the stack. A `break` does what it
is for (`EndsRange`) where the jump leads out of the body and no range is left to go on with
(`CleanBreak`).
-/

namespace Kairos

open List Option
open Matching (Block)
open Runs (Steps)

def Program.hasStage (t : Program) (i : ℕ) (k : Keyword) : Bool :=
  (t.exps[i]?.getD []).any (·.is k)

@[mk_iff]
structure RangeBlock (t : Program) (o e : ℕ) : Prop where
  block : Block t.marks o e
  isRange : t.hasStage o .rangeExp

structure Innermost (t : Program) (b o e : ℕ) : Prop where
  range : RangeBlock t o e
  start_lt : o < b
  lt_stop : b < e
  inner : ∀ o' e', RangeBlock t o' e' → o' < b → b < e' → o' ≤ o

/-- The range `r` under way has the rows from `o'` to `e'`, around the range of row `b` from row `o`
on. -/
structure Around (t : Program) (b o : ℕ) (r : RangeValue) (o' e' : ℕ) : Prop where
  range : RangeBlock t o' e'
  startIndex_eq : r.startIndex = o'
  lt_start : o' < o
  lt_stop : b < e'

theorem Innermost.unique {t : Program} {b o e o' e' : ℕ} (h : Innermost t b o e)
    (h' : Innermost t b o' e') : o = o' ∧ e = e' := by
  have ho : o = o' := le_antisymm (h'.inner o e h.range h.start_lt h.lt_stop)
    (h.inner o' e' h'.range h'.start_lt h'.lt_stop)
  subst ho
  exact ⟨rfl, h.range.block.unique h'.range.block⟩

/-! ## What a `break` is for -/

def Point.arrival : Point → Option ℕ
  | .row i 0 _ => some i
  | _ => none

inductive Passes (H : Host) (t : Program) (p : Point) : List ℕ → Point → Prop where
  | refl : Passes H t p [] p
  | tail {rows : List ℕ} {q r : Point} (h : Passes H t p rows q) (hr : Follows H t q r) :
      Passes H t p (rows ++ r.arrival.toList) r

/-- From `p` in row `b` a session ends the range from row `o` to row `e`, and nothing else. -/
structure EndsRange (H : Host) (t : Program) (p : Point) (b o e : ℕ) : Prop where
  goesOn : ∀ rows i q, Passes H t p (rows ++ [i]) q → (∀ j ∈ rows, j = e) → i = e ∨ i = e + 1
  body : ∀ rows i q, Passes H t p (rows ++ [i]) q → o < i → i < e → o ∈ rows
  /-- A range around it with entries left has its next round at its `end`, without a `break` before.
  -/
  outer : ∀ r ∈ p.state.ranges, ∀ o' e', Around t b o r o' e' → r.remains →
    ∀ rows i q, Passes H t p (rows ++ [e'] ++ [i]) q → e' ∉ rows →
      (∀ j ∈ rows, t.hasStage j .breakExp = false) → i = o' + 1

structure Program.Straight (t : Program) (m : ℕ) : Prop where
  noRange : ∀ i, m ≤ i → t.hasStage i .rangeExp = false
  targeted : ∀ i, m ≤ i → t.hasStage i .ifExp ∨ t.hasStage i .elseExp →
    t.target i ≠ 0

/-- A `break` in row `b` that leaves the range from `o` to `e` as it should. -/
structure CleanBreak (t : Program) (b o e : ℕ) (s : State) : Prop where
  innermost : Innermost t b o e
  target : t.target b = e ∨ t.target b + 1 = e ∧ t.onlyEnd e
  missing : ∀ js, t.env.funcCall = some js → js.get "break" ≠ some true
  straight : t.Straight (e + 1)
  outer : ∀ r ∈ s.ranges, ∀ o' e', Around t b o r o' e' → r.remains = false

section

variable {H : Host} {t : Program} {i m edx : ℕ} {idx idx' : ℤ} {e x : Expression} {rest : Row}
  {out : Out} {err : Option GoString} {s s' : State} {p q : Point}

/-! ## Runs that only go ahead -/

theorem hasStage_of_mem {exp : Row} {k : Keyword} (hexp : t.exps[i]? = some exp) (hx : x ∈ exp)
    (hk : x.is k) : t.hasStage i k := by
  simp only [Program.hasStage, hexp, getD_some]
  exact any_eq_true.mpr ⟨x, hx, hk⟩

def Point.Past (t : Program) (m : ℕ) : Point → Prop
  | .row i _ s => m ≤ i ∧ s.rangeValue = .null
  | .stage i idx edx rest s =>
    m ≤ i ∧ s.rangeValue = .null ∧ idx = i ∧ ∃ exp, t.exps[i]? = some exp ∧ rest = exp.drop edx

theorem Point.Past.le (h : p.Past t m) : m ≤ p.rowNo := by
  cases p <;> exact h.1

theorem Point.Past.follows (hp : p.Past t m) (hb : t.Built) (hfits : t.Fits)
    (hstraight : t.Straight m) (h : Follows H t p q) :
    q.Past t m ∧ (q.arrival = some q.rowNo ∨ q.arrival = none ∧ q.rowNo = p.rowNo) := by
  cases p with
  | row i expIdx s =>
    obtain ⟨exp, hexp, rfl⟩ := follows_row h
    have hsame := SameRanges.openScope exp s
    exact ⟨⟨hp.1, hsame.rangeValue_eq.trans hp.2, rfl, exp, hexp, rfl⟩, .inr ⟨rfl, rfl⟩⟩
  | stage i idx edx rest s =>
    obtain ⟨hm, hnull, rfl, exp, hexp, hrest⟩ := hp
    cases rest with
    | nil =>
      obtain rfl := follows_nil h
      exact ⟨⟨by omega, hnull⟩, .inl rfl⟩
    | cons e rest =>
      obtain ⟨he, hrest'⟩ := getElem?_of_drop hrest
      have hmem : e ∈ exp := mem_of_getElem? he
      have hrange : e.is .rangeExp = false := by
        by_contra hk
        have hhas := hasStage_of_mem hexp hmem (by simpa using hk)
        rw [hstraight.noRange i hm] at hhas
        cases hhas
      have htarget : e.is .ifExp ∨ e.is .elseExp → t.target i ≠ 0 := fun hk =>
        hstraight.targeted i hm (hk.imp (hasStage_of_mem hexp hmem) (hasStage_of_mem hexp hmem))
      rcases h with hstep | ⟨s', v, hstop, rfl⟩
      · cases stageStep_of_steps hstep with
        | sends s' hsame =>
          exact ⟨⟨hm, hsame.rangeValue_eq.trans hnull, rfl, exp, hexp, hrest'⟩, .inr ⟨rfl, rfl⟩⟩
        | next out s₀ s₁ s' idx' hsame hmove hsame' =>
          obtain ⟨rfl, hnull₁, -⟩ := hmove.of_null (hsame.rangeValue_eq.trans hnull) hrange
          exact ⟨⟨hm, hsame'.rangeValue_eq.trans hnull₁, rfl, exp, hexp, hrest'⟩,
            .inr ⟨rfl, rfl⟩⟩
        | leaves out err s₀ s₁ s' idx₁ idx' hsame hmove hj hsame' =>
          have hle := hj.le_index hb hmove htarget
          obtain ⟨rfl, hnull₁, -⟩ := hmove.of_null (hsame.rangeValue_eq.trans hnull) hrange
          exact ⟨⟨by omega, hsame'.rangeValue_eq.trans hnull₁⟩, .inl rfl⟩
      · have hsusp := suspends_of_step hstop
        rw [hsusp.startPoint_of_fits hfits hexp he v]
        obtain ⟨w, ws, mem, reciever, -, -, rfl⟩ := hsusp.sent
        refine ⟨⟨hm, ?_⟩, .inr ⟨rfl, rfl⟩⟩
        -- the new call finds no current range
        simp [State.enter, State.current, State.reply, State.sent, hnull]

/-! ## The step of a `break` -/

theorem execute_break (hx : x.is .breakExp)
    (hmissing : ∀ js, t.env.funcCall = some js → js.get "break" ≠ some true) (input : Out)
    (mem : Mem) : ∃ msg, x.execute H t.env input mem = .err msg mem := by
  have hkey := Expression.is_iff.mp hx
  have hname : x.func = "break" := keyword_eq_some.mp hkey
  simp only [Expression.execute, hkey, execFunc]
  cases hjs : t.env.funcCall with
  | none => exact ⟨_, rfl⟩
  | some js =>
    simp only [hname, if_pos (hmissing js hjs)]
    exact ⟨_, rfl⟩

theorem Moves.of_break (hm : Moves H t idx x out err s idx' s') (hx : x.is .breakExp) :
    idx' = idx ∧ s'.rangeValue = .null := by
  cases hm with
  | plain _ _ hbreak => rw [hx] at hbreak; cases hbreak
  | breaks => exact ⟨rfl, rfl⟩
  | skipped r hr | entered r hr => cases Expression.is_inj hx hr.isRange
  | endsBlock hk | restarts hk | endsOwn hk | endsLast hk | endsInner hk | restartsOuter hk =>
    cases Expression.is_inj hx hk

variable {b : ℕ}

theorem follows_break (hx : x.is .breakExp)
    (hmissing : ∀ js, t.env.funcCall = some js → js.get "break" ≠ some true)
    (h : Follows H t (.stage b b edx (x :: rest) s) q) :
    ∃ s', q = .row (t.target b + 1).toNat 0 s' ∧ s'.rangeValue = .null := by
  obtain ⟨msg, hexec⟩ := execute_break (H := H) hx hmissing s.expInput s.toMem
  rcases h with hstep | ⟨s', v, hstop, rfl⟩
  · cases steps_stage hstep with
    | sends s' hsend =>
      obtain ⟨v, vs, m, reciever, hok, -⟩ := hsend.sent
      rw [hexec] at hok
      cases hok
    | continues idx' s' hcont =>
      obtain ⟨out, m, s₁, hok, -⟩ := hcont.moved
      rw [hexec] at hok
      cases hok
    | leaves idx' s' hleave =>
      obtain ⟨out, err, s₀, idx₁, -, hm, hj⟩ := hleave.moved
      obtain ⟨rfl, hnull⟩ := hm.of_break hx
      cases hj with
      | elseRow hk | ifFalse hk => cases Expression.is_inj hx hk
      | forward => exact ⟨_, rfl, hnull⟩
  · cases Expression.is_inj hx (suspends_of_step hstop).isSync

theorem follows_end (hx : x.is .endExp) (h : Follows H t (.stage i idx edx (x :: rest) s) q) :
    ∃ idx' s', q = .stage i idx' (edx + 1) rest s' := by
  rcases h with hstep | ⟨s', v, hstop, rfl⟩
  · cases steps_stage hstep with
    | sends s' => exact ⟨_, s', rfl⟩
    | continues idx' s' => exact ⟨idx', s', rfl⟩
    | leaves idx' s' hleave =>
      obtain ⟨out, err, s₀, idx₁, hx', -, hj⟩ := hleave.moved
      obtain ⟨rfl, rfl⟩ := hx'.of_end hx
      cases hj with
      | elseRow hk | ifFalse hk => cases Expression.is_inj hx hk
      | forward hor => simp at hor
  · cases Expression.is_inj hx (suspends_of_step hstop).isSync

/-! ## Whole sessions -/

variable {rows : List ℕ}

theorem Passes.last (h : Passes H t p (rows ++ [i]) q) :
    ∃ a s, Passes H t p rows a ∧ Follows H t a (.row i 0 s) := by
  generalize hway : rows ++ [i] = way at h
  induction h with
  | refl => simp at hway
  | @tail rows' a r h hr ih =>
    cases harr : r.arrival with
    | none =>
      rw [harr, toList_none, append_nil] at hway
      exact ih hway
    | some j =>
      rw [harr, toList_some] at hway
      obtain ⟨rfl, hj⟩ := append_inj' hway rfl
      obtain rfl : i = j := by simpa using hj
      have hrow : ∃ s, r = .row i 0 s := by
        unfold Point.arrival at harr
        split at harr
        · rw [some.inj harr]; exact ⟨_, rfl⟩
        · cases harr
      obtain ⟨s, rfl⟩ := hrow
      exact ⟨a, s, h, hr⟩

theorem Passes.past (hb : t.Built) (hfits : t.Fits) (hx : x.is .breakExp)
    (hmissing : ∀ js, t.env.funcCall = some js → js.get "break" ≠ some true)
    (hm : t.target b + 1 = m) (hstraight : t.Straight m)
    (h : Passes H t (.stage b b edx (x :: rest) s) rows q) :
    rows = [] ∧ q = .stage b b edx (x :: rest) s ∨
      q.Past t m ∧ rows.head? = some m ∧ (∀ j ∈ rows, m ≤ j) ∧ rows.getLast? = some q.rowNo := by
  induction h with
  | refl => exact .inl ⟨rfl, rfl⟩
  | @tail rows a r _ hr ih =>
    right
    rcases ih with ⟨rfl, rfl⟩ | ⟨hpast, hhead, hall, hlast⟩
    · obtain ⟨s', rfl, hnull⟩ := follows_break hx hmissing hr
      have hrow : (t.target b + 1).toNat = m := by omega
      rw [hrow]
      exact ⟨⟨le_rfl, hnull⟩, rfl, by simp [Point.arrival], rfl⟩
    · obtain ⟨hpast', harr | ⟨harr, hno⟩⟩ := hpast.follows hb hfits hstraight hr
      · rw [harr, toList_some]
        exact ⟨hpast', by simp [head?_append, hhead],
          forall_mem_append.mpr ⟨hall, forall_mem_singleton.mpr hpast'.le⟩, by simp⟩
      · rw [harr, toList_none, append_nil, hno]
        exact ⟨hpast', hhead, hall, hlast⟩

end

theorem exps_of_onlyEnd {t : Program} {e : ℕ} (h : t.onlyEnd e) :
    ∃ y, t.exps[e]? = some [y] ∧ y.is .endExp := by
  have h : t.onlyEnd (Int.ofNat e) := h
  simp only [Program.onlyEnd] at h
  split at h
  · rename_i y hexp
    exact ⟨y, hexp, h⟩
  · cases h

theorem Point.Past.next_of_onlyEnd {H : Host} {t : Program} {m i : ℕ} {a : Point} {s : State}
    (ha : a.Past t m) (honly : t.onlyEnd a.rowNo) (h : Follows H t a (.row i 0 s)) :
    i = a.rowNo + 1 := by
  obtain ⟨y, hexp, hy⟩ := exps_of_onlyEnd honly
  cases a with
  | row j k s₁ =>
    obtain ⟨exp, -, heq⟩ := follows_row h
    cases heq
  | stage j idx edx rest s₁ =>
    obtain ⟨-, -, rfl, exp, hexp', hrest⟩ := ha
    cases hexp.symm.trans hexp'
    cases rest with
    | nil =>
      have heq := follows_nil h
      simp only [endOfRow, Point.row.injEq] at heq
      exact heq.1
    | cons z rest =>
      have hz : z ∈ [y] := mem_of_getElem? (getElem?_of_drop hrest).1
      obtain rfl := mem_singleton.mp hz
      obtain ⟨idx', s', heq⟩ := follows_end hy h
      cases heq

namespace CleanBreak

variable {H : Host} {t : Program} {s : State} {b o e edx : ℕ} {x : Expression} {rest : Row}
  {q : Point}

theorem exists_next (h : CleanBreak t b o e s) : ∃ m : ℕ, t.target b + 1 = m ∧ t.Straight m ∧
    (m = e + 1 ∨ m = e ∧ t.onlyEnd e) := by
  rcases h.target with htarget | ⟨htarget, honly⟩
  · exact ⟨e + 1, by omega, h.straight, .inl rfl⟩
  · obtain ⟨y, hexp, hy⟩ := exps_of_onlyEnd honly
    have hnot : ∀ k, Keyword.endExp ≠ k → t.hasStage e k = false := by
      intro k hk
      simp [Program.hasStage, hexp, Expression.not_is hy hk]
    refine ⟨e, htarget, ⟨fun i hi => ?_, fun i hi hk => ?_⟩, .inr ⟨rfl, honly⟩⟩
    · rcases Nat.eq_or_lt_of_le hi with rfl | hlt
      · exact hnot _ (by decide)
      · exact h.straight.noRange i hlt
    · rcases Nat.eq_or_lt_of_le hi with rfl | hlt
      · simp [hnot] at hk
      · exact h.straight.targeted i hlt hk

end CleanBreak

/-- A `break` ends the innermost range and nothing else, where its jump leads out of the body, the
ranges around are in their last round, and no range comes behind. -/
theorem break_ends_innermost {H : Host} {t : Program} {s₀ : State} (hstart : Started H t s₀)
    (hfits : t.Fits) {b o e edx : ℕ} {x : Expression} {rest : Row} {s : State}
    (hx : x.is .breakExp) (hclean : CleanBreak t b o e s) :
    ∀ o' e', Innermost t b o' e' → EndsRange H t (.stage b b edx (x :: rest) s) b o' e' := by
  intro o' e' hinner
  obtain ⟨rfl, rfl⟩ := hclean.innermost.unique hinner
  obtain ⟨m, hm, hstraight, hme⟩ := hclean.exists_next
  have hpast : ∀ rows q, Passes H t (.stage b b edx (x :: rest) s) rows q → rows ≠ [] →
      q.Past t m ∧ rows.head? = some m ∧ (∀ j ∈ rows, m ≤ j) ∧ rows.getLast? = some q.rowNo := by
    intro rows q hq hne
    exact (hq.past hstart.built hfits hx hclean.missing hm hstraight).resolve_left
      fun hnil => hne hnil.1
  refine ⟨fun rows i q hq hall => ?_, fun rows i q hq _ hlt => ?_,
    fun r hr o' e' haround hrem => ?_⟩
  · obtain ⟨-, hhead, -, -⟩ := hpast _ q hq (by simp)
    cases rows with
    | nil =>
      obtain rfl : i = m := by simpa using hhead
      omega
    | cons j rows =>
      -- the first row is the `end` of the range, and so is the last one before `i`
      have hj : j = e := hall j mem_cons_self
      obtain rfl : j = m := by simpa using hhead
      have honly : t.onlyEnd e := by
        rcases hme with hme | hme
        · omega
        · exact hme.2
      obtain ⟨a, s', ha, hi⟩ := hq.last
      obtain ⟨hpa, -, -, hlast⟩ := hpast _ a ha (by simp)
      have hrow : a.rowNo = e := hall _ (mem_of_mem_getLast? hlast)
      have hnext := hpa.next_of_onlyEnd (by rw [hrow]; exact honly) hi
      omega
  · obtain ⟨-, -, hall, -⟩ := hpast _ q hq (by simp)
    have := hall i (by simp)
    omega
  · rw [hclean.outer r hr o' e' haround] at hrem
    cases hrem

/-! ## Runs on the plain host -/

section

variable {H : Host} {t : Program} {b o e m : ℕ}

instance (t : Program) (o e : ℕ) : Decidable (RangeBlock t o e) :=
  decidable_of_iff _ (rangeBlock_iff t o e).symm

theorem Innermost.of_rows (hrange : RangeBlock t o e) (hstart : o < b) (hstop : b < e)
    (hrows : ∀ i < b, o < i → t.hasStage i .rangeExp = false) : Innermost t b o e := by
  refine ⟨hrange, hstart, hstop, fun o' e' hrange' hlt _ => ?_⟩
  by_contra hgt
  have hhas := hrange'.isRange
  rw [hrows o' hlt (by omega)] at hhas
  cases hhas

theorem Program.Straight.of_rows (hrows : ∀ i < t.exps.length, m ≤ i →
    t.hasStage i .rangeExp = false ∧
      (t.hasStage i .ifExp ∨ t.hasStage i .elseExp → t.target i ≠ 0)) : t.Straight m := by
  have hout : ∀ i, t.exps.length ≤ i → ∀ k, t.hasStage i k = false := by
    intro i hi k
    simp [Program.hasStage, getElem?_eq_none hi]
  refine ⟨fun i hi => ?_, fun i hi hk => ?_⟩
  · rcases Nat.lt_or_ge i t.exps.length with hlt | hge
    · exact (hrows i hlt hi).1
    · exact hout i hge _
  · rcases Nat.lt_or_ge i t.exps.length with hlt | hge
    · exact (hrows i hlt hi).2 hk
    · simp [hout i hge] at hk

def way (H : Host) (t : Program) : ℕ → Point → Option (List ℕ)
  | 0, _ => some []
  | n + 1, p =>
    match step H t p with
    | .inl _ => none
    | .inr q => (way H t n q).map (q.arrival.toList ++ ·)

variable {p : Point} {rows : List ℕ}

theorem Passes.head {q r : Point} (hq : Follows H t p q)
    (h : Passes H t q rows r) : Passes H t p (q.arrival.toList ++ rows) r := by
  induction h with
  | refl => rw [append_nil]; exact .tail .refl hq
  | tail _ hr ih => rw [← append_assoc]; exact .tail ih hr

theorem exists_passes {n : ℕ} (h : way H t n p = some rows) : ∃ q, Passes H t p rows q := by
  induction n generalizing p rows with
  | zero =>
    cases h
    exact ⟨p, .refl⟩
  | succ n ih =>
    unfold way at h
    cases hstep : step H t p with
    | inl f => rw [hstep] at h; cases h
    | inr q =>
      rw [hstep] at h
      obtain ⟨rows', hrows, rfl⟩ := map_eq_some_iff.mp h
      obtain ⟨r, hr⟩ := ih hrows
      exact ⟨r, .head (.inl hstep) hr⟩

end

def breakRow : Expression := ⟨"break", []⟩

/-- A `break` under an `if` that is the last of the body. -/
theorem break_if_ends_range : ∃ t s₀ edx s,
    plainRun ["define .a array | push (1) | push (2) | .a", "range .a .k .v", "send _ping x_task",
      "if eq (1) (1)", "break", "end", "end", "end"] = some (t, s₀) ∧
    Visits plainHost t s₀ (.stage 4 4 edx [breakRow] s) ∧ Innermost t 4 1 6 ∧ CleanBreak t 4 1 6 s ∧
    EndsRange plainHost t (.stage 4 4 edx [breakRow] s) 4 1 6 := by
  have hcheck : (plainRun ["define .a array | push (1) | push (2) | .a", "range .a .k .v",
      "send _ping x_task", "if eq (1) (1)", "break", "end", "end", "end"]).any (fun p =>
        decide p.1.Fits && decide (RangeBlock p.1 1 6) &&
        decide (∀ i < (4 : ℕ), 1 < i → p.1.hasStage i .rangeExp = false) &&
        decide (p.1.target 4 + 1 = 6 ∧ p.1.onlyEnd 6 ∧ p.1.env.funcCall.isNone) &&
        decide (∀ i < p.1.exps.length, 7 ≤ i → p.1.hasStage i .rangeExp = false ∧
          (p.1.hasStage i .ifExp ∨ p.1.hasStage i .elseExp → p.1.target i ≠ 0)) &&
        visitAt p.1 p.2 16 fun q =>
          q.isAt 4 [breakRow] && q.state.ranges.all fun r => decide (1 ≤ r.startIndex)) =
        true := by
    decide +kernel
  obtain ⟨⟨t, s₀⟩, hrun, hcheck⟩ := exists_of_any hcheck
  simp only [Bool.and_eq_true, decide_eq_true_eq] at hcheck
  obtain ⟨⟨⟨⟨⟨hfits, hrange⟩, hrows⟩, htarget, honly, hnone⟩, hstraight⟩, hafter⟩ := hcheck
  obtain ⟨p, hvisit, hat⟩ := exists_of_visitAt hafter
  obtain ⟨hat, houter⟩ := Bool.and_eq_true_iff.mp hat
  obtain ⟨edx, hp⟩ := Point.eq_of_isAt hat
  rw [hp] at hvisit
  have hinner : Innermost t 4 1 6 := .of_rows hrange (by decide) (by decide) hrows
  have hclean : CleanBreak t 4 1 6 p.state := by
    refine ⟨hinner, .inr ⟨htarget, honly⟩, fun js hjs => ?_, .of_rows hstraight,
      fun r hr o' e' haround => ?_⟩
    · simp [hjs] at hnone
    · have hle := of_decide_eq_true (all_eq_true.mp houter r hr)
      have heq := haround.startIndex_eq
      have hlt := haround.lt_start
      omega
  refine ⟨t, s₀, edx, p.state, hrun, hvisit, hinner, hclean, ?_⟩
  exact break_ends_innermost (plainRun_started hrun) hfits (by decide) hclean _ _ hinner

/-- A `break` in the inner range: the outer one is over after its first round. -/
theorem break_ends_outer : ∃ t s₀ edx s s',
    plainRun ["define .a array | push (1) | push (2) | .a", "range .a .k .v", "send _ping x_task",
      "range .a .i .w", "break", "end", "end", "end"] = some (t, s₀) ∧
    Visits plainHost t s₀ (.stage 4 4 edx [breakRow] s) ∧ Innermost t 4 3 5 ∧
    ¬ EndsRange plainHost t (.stage 4 4 edx [breakRow] s) 4 3 5 ∧
    (∃ fuel, execute plainHost t fuel s₀ = some (.done s')) ∧ s'.deliverFlows.length = 1 := by
  have hcheck : (plainRun ["define .a array | push (1) | push (2) | .a", "range .a .k .v",
      "send _ping x_task", "range .a .i .w", "break", "end", "end", "end"]).any (fun p =>
        decide (RangeBlock p.1 3 5) && decide (RangeBlock p.1 1 6) &&
        visitAt p.1 p.2 16 (fun q =>
          q.isAt 4 [breakRow] &&
          q.state.ranges.any (fun r => decide (r.startIndex = 1) && r.remains) &&
          decide (way plainHost p.1 4 q = some [6, 7])) &&
        (execute plainHost p.1 30 p.2).any fun f => f.done?.any fun s' =>
          s'.deliverFlows.length == 1) := by
    decide +kernel
  obtain ⟨⟨t, s₀⟩, hrun, hcheck⟩ := exists_of_any hcheck
  simp only [Bool.and_eq_true, decide_eq_true_eq] at hcheck
  obtain ⟨⟨⟨hinner, houter⟩, hafter⟩, hdone⟩ := hcheck
  obtain ⟨p, hvisit, hat⟩ := exists_of_visitAt hafter
  simp only [Bool.and_eq_true, decide_eq_true_eq] at hat
  obtain ⟨⟨hat, hany⟩, hway⟩ := hat
  obtain ⟨edx, hp⟩ := Point.eq_of_isAt hat
  obtain ⟨f, hf, hdone⟩ := exists_of_any hdone
  obtain ⟨s', hs', hsent⟩ := exists_of_any hdone
  rw [hp] at hvisit hway
  refine ⟨t, s₀, edx, p.state, s', hrun, hvisit,
    .of_rows hinner (by decide) (by decide) fun i hi hlt => by omega, fun hends => ?_,
    ⟨30, by rw [hf, Final.eq_done hs']⟩, by simpa using hsent⟩
  -- the outer range has an element left, and yet row 7 comes after its `end`
  obtain ⟨r, hr, hleft⟩ := any_eq_true.mp hany
  simp only [Bool.and_eq_true, decide_eq_true_eq] at hleft
  obtain ⟨q, hq⟩ := exists_passes hway
  have hnext := hends.outer r hr 1 6 ⟨houter, hleft.1, by decide, by decide⟩ hleft.2 [] 7 q hq
    (by simp) (by simp)
  omega

end Kairos
