import Kairos.Template.Ranges
import Mathlib.Algebra.Order.BigOperators.Group.List

/-!
# Termination

A run goes back only to start another round of a range, which then has one round less, while the
ranges that started before keep theirs. So the rounds that are left, row by row, go down in the
lexicographic order (`Point.rank`).
-/

namespace Kairos

open Runs (Steps Reaches Ends)

def RangeValue.left (r : RangeValue) : ℕ := r.value.length - r.index

def roundsOf (rs : List RangeValue) (o : ℕ) : ℕ :=
  (rs.map fun r => if r.startIndex = (o : ℤ) then r.left else 0).sum

def State.weight (s : State) (n pos : ℕ) : Fin n → WithTop ℕ := fun o =>
  if pos ≤ o then ⊤ else (roundsOf s.ranges o : ℕ)

/-- The measure of termination. The second component orders a place that has gone back before the
arrival that follows, and that before the places of its row. -/
def Point.rank (n : ℕ) : Point → Lex (Fin n → WithTop ℕ) × ℕ × ℕ
  | .row i _ s => (toLex (s.weight n i), 2, 0)
  | .stage i idx _ rest s =>
    if idx < i then (toLex (s.weight n (idx + 1).toNat), 3, rest.length)
    else (toLex (s.weight n i), 1, rest.length)

theorem Point.rank_row (n i expIdx : ℕ) (s : State) :
    (Point.row i expIdx s).rank n = (toLex (s.weight n i), 2, 0) := rfl

variable {i : ℕ} {rest : Row}

theorem Point.rank_ahead (n : ℕ) {edx : ℕ} {idx : ℤ} {s : State} (h : i ≤ idx) :
    (Point.stage i idx edx rest s).rank n = (toLex (s.weight n i), 1, rest.length) :=
  if_neg (not_lt.mpr h)

theorem Point.rank_back (n : ℕ) {edx : ℕ} {idx : ℤ} {s : State} (h : idx < i) :
    (Point.stage i idx edx rest s).rank n = (toLex (s.weight n (idx + 1).toNat), 3, rest.length) :=
  if_pos h

def RankLt (n : ℕ) : Lex (Fin n → WithTop ℕ) × ℕ × ℕ → Lex (Fin n → WithTop ℕ) × ℕ × ℕ → Prop :=
  Prod.Lex (· < ·) (Prod.Lex (· < ·) (· < ·))

theorem rankLt_wf (n : ℕ) : WellFounded (RankLt n) :=
  WellFounded.prod_lex wellFounded_lt (WellFounded.prod_lex wellFounded_lt wellFounded_lt)

variable {n : ℕ}

theorem rankLt_of_le {a b : Fin n → WithTop ℕ} (hle : ∀ o, a o ≤ b o) {j k l : ℕ}
    (hlt : i < j ∨ i = j ∧ k < l) : RankLt n (toLex a, i, k) (toLex b, j, l) := by
  have hab : toLex a ≤ toLex b := Pi.toLex_monotone hle
  refine Prod.lex_iff.mpr ?_
  rcases hab.lt_or_eq with hlt' | heq
  · exact .inl hlt'
  · exact .inr ⟨heq, Prod.lex_iff.mpr hlt⟩

theorem rankLt_of_lt {a b : Fin n → WithTop ℕ} {o : Fin n} (hle : ∀ o' < o, a o' ≤ b o')
    (hlt : a o < b o) {x y : ℕ × ℕ} : RankLt n (toLex a, x) (toLex b, y) :=
  Prod.lex_iff.mpr (.inl (Runs.lex_lt hle hlt))

/-! ## The rounds that a stage leaves -/

section

variable {H : Host} {t : Program} {row edx : ℕ} {idx idx' : ℤ} {e : Expression} {out : Out}
  {err : Option GoString} {s s' : State} {o : ℕ}

theorem roundsOf_cons (r : RangeValue) (rs : List RangeValue) (o : ℕ) :
    roundsOf (r :: rs) o = (if r.startIndex = (o : ℤ) then r.left else 0) + roundsOf rs o := rfl

theorem roundsOf_le_of_sublist {rs rs' : List RangeValue} (h : rs'.Sublist rs) (o : ℕ) :
    roundsOf rs' o ≤ roundsOf rs o :=
  (h.map _).sum_le_sum fun _ _ => Nat.zero_le _

theorem RangeValue.left_advance_le (r : RangeValue) : r.advance.left ≤ r.left := by
  simp only [RangeValue.left, RangeValue.advance]
  omega

variable {r : RangeValue}

theorem RangeValue.left_advance_lt (h : r.index < r.value.length) : r.advance.left < r.left := by
  simp only [RangeValue.left, RangeValue.advance]
  omega

theorem roundsOf_advance (r : RangeValue) (rs : List RangeValue) :
    (∀ o, roundsOf (r.advance :: rs) o ≤ roundsOf (r :: rs) o) ∧
      ∀ o : ℕ, r.startIndex = o → r.index < r.value.length →
        roundsOf (r.advance :: rs) o < roundsOf (r :: rs) o := by
  constructor
  · intro o
    rw [roundsOf_cons, roundsOf_cons]
    have hstart : r.advance.startIndex = r.startIndex := rfl
    have := r.left_advance_le
    rw [hstart]
    split_ifs <;> omega
  · intro o ho hlt
    rw [roundsOf_cons, roundsOf_cons]
    have hstart : r.advance.startIndex = o := ho
    have := RangeValue.left_advance_lt hlt
    rw [if_pos hstart, if_pos ho]
    omega

theorem State.advance_ranges (hcur : s.current = some r)
    (hown : ∀ r, s.rangeValue = .own r → r.index < r.value.length → s.rangeStack = [])
    (hlt : r.index < r.value.length) :
    ∃ rs, s.ranges = r :: rs ∧ s.advance.ranges = r.advance :: rs := by
  cases hp : s.rangeValue with
  | null => simp [State.current, hp] at hcur
  | top =>
    cases hst : s.rangeStack with
    | nil => simp [State.current, hp, hst] at hcur
    | cons q stack =>
      obtain rfl : q = r := by simpa [State.current, hp, hst] using hcur
      exact ⟨stack, by simp [State.ranges, hp, hst], by simp [State.ranges, State.advance, hp, hst]⟩
  | own q =>
    obtain rfl : q = r := by simpa [State.current, hp] using hcur
    have hnil := hown q hp hlt
    exact ⟨[], by simp [State.ranges, hp, hnil], by simp [State.ranges, State.advance, hp, hnil]⟩

theorem State.stack_sublist_ranges : s.rangeStack.Sublist s.ranges :=
  List.sublist_append_right _ _

variable {exp : Row}

theorem Moves.rounds_le (hm : Moves H t idx e out err s idx' s') (hb : t.Built)
    (hexp : t.exps[row]? = some exp) (he : exp[edx]? = some e) (hn : Nested t s)
    (hplace : Ahead t row idx edx s ∨ Back t row idx edx s) (ho : o < row) :
    roundsOf s'.ranges o ≤ roundsOf s.ranges o := by
  have hstack := roundsOf_le_of_sublist s.stack_sublist_ranges o
  cases hm with
  | plain | endsBlock | endsOwn => exact le_rfl
  | breaks => exact hstack
  | skipped r h herr hvalue =>
    -- the new range starts at the row itself
    have hstart : r.startIndex ≠ (o : ℤ) := by
      rw [h.startIndex_eq, (Ahead.of_first hplace (h.first hb hexp he)).1]
      omega
    have hranges : { s with rangeValue := .own r }.ranges = r :: s.rangeStack := rfl
    rw [hranges, roundsOf_cons, if_neg hstart, Nat.zero_add]
    exact hstack
  | entered r h herr kv kvs hvalue scope outer hvt =>
    have hstart : r.advance.startIndex ≠ (o : ℤ) := by
      rw [RangeValue.advance, h.startIndex_eq, (Ahead.of_first hplace (h.first hb hexp he)).1]
      omega
    have hranges : { s.withItem r kv scope outer with
        rangeValue := .top, rangeStack := r.advance :: s.rangeStack }.ranges =
        r.advance :: s.rangeStack := rfl
    rw [hranges, roundsOf_cons, if_neg hstart, Nat.zero_add]
    exact hstack
  | restarts _ r hcur hstop kv hkv =>
    have hlt : r.index < r.value.length := (List.getElem?_eq_some_iff.mp hkv).1
    obtain ⟨rs, hrs, hrs'⟩ := State.advance_ranges
      (s := s.popScope.appendScope.withItem r kv [] s.popScope.varTemp) hcur hn.own hlt
    have hranges : s.ranges = r :: rs := hrs
    rw [hrs', hranges]
    exact (roundsOf_advance r rs).1 o
  | endsLast => exact Nat.zero_le _
  | endsInner _ r q r' outer hcur hstop hover hst hover' =>
    refine le_trans (roundsOf_le_of_sublist ?_ o) hstack
    rw [hst]
    exact List.sublist_cons_self _ _
  | restartsOuter _ r q r' outer hcur hstop hover hst kv hkv =>
    refine le_trans ((roundsOf_advance r' outer).1 o)
      (le_trans (roundsOf_le_of_sublist ?_ o) hstack)
    rw [hst]
    exact List.sublist_cons_self _ _

theorem Ahead.row_le (h : Ahead t row idx edx s) (hb : t.Built) : (row : ℤ) ≤ idx := by
  rcases h.place with hp | ⟨-, hne, hp⟩
  · exact hp.ge
  · have := hb.lt_target hne
    omega

theorem Moves.rounds_lt (hm : Moves H t idx e out err s idx' s') (hb : t.Built) (hn : Nested t s)
    (hahead : Ahead t row idx edx s) (htarget : e.is .rangeExp → t.target idx ≠ 0)
    (hback : idx' < row) :
    0 ≤ idx' ∧ roundsOf s'.ranges idx'.toNat < roundsOf s.ranges idx'.toNat := by
  have hrow := hahead.row_le hb
  cases hm with
  | skipped r h herr hvalue =>
    have := hb.lt_target (htarget h.isRange)
    omega
  | restarts _ r hcur hstop kv hkv =>
    have hlt : r.index < r.value.length := (List.getElem?_eq_some_iff.mp hkv).1
    have hnonneg := (hb.lt_target (hn.ok r (State.current_mem hcur)).targeted).1
    obtain ⟨rs, hrs, hrs'⟩ := State.advance_ranges
      (s := s.popScope.appendScope.withItem r kv [] s.popScope.varTemp) hcur hn.own hlt
    have hranges : s.ranges = r :: rs := hrs
    rw [hrs', hranges]
    exact ⟨hnonneg, (roundsOf_advance r rs).2 _ (by omega) hlt⟩
  | restartsOuter _ r q r' outer hcur hstop hover hst kv hkv =>
    have hlt : r'.index < r'.value.length := (List.getElem?_eq_some_iff.mp hkv).1
    have hmem : r' ∈ s.ranges := State.mem_ranges_of_mem_stack (by rw [hst]; simp)
    have hnonneg := (hb.lt_target (hn.ok r' hmem).targeted).1
    have hstack := roundsOf_le_of_sublist s.stack_sublist_ranges r'.startIndex.toNat
    refine ⟨hnonneg, lt_of_lt_of_le ((roundsOf_advance r' outer).2 _ (by omega) hlt)
      (le_trans (roundsOf_le_of_sublist ?_ _) hstack)⟩
    rw [hst]
    exact List.sublist_cons_self _ _
  | plain | breaks | entered | endsBlock | endsOwn | endsLast | endsInner => omega

theorem Moves.index_eq_of_back (hm : Moves H t idx e out err s idx' s') (hb : t.Built)
    (hexp : t.exps[row]? = some exp) (he : exp[edx]? = some e) (hn : Nested t s)
    (hback : Back t row idx edx s) : idx' = idx := by
  cases hm with
  | skipped r h herr hvalue =>
    have := h.first hb hexp he
    have := hback.edx_pos
    omega
  | restarts _ r hcur hstop kv hkv => exact absurd hstop (hback.endIndex_ne hb hn hcur)
  | restartsOuter _ r q r' outer hcur hstop hover hst kv hkv =>
    exact absurd hstop (hback.endIndex_ne hb hn hcur)
  | plain | breaks | entered | endsBlock | endsOwn | endsLast | endsInner => rfl

/-! ## Every step goes down -/

variable {n pos' : ℕ}

theorem weight_le {pos : ℕ} (hpos : pos ≤ pos')
    (hrounds : ∀ o < pos, roundsOf s'.ranges o ≤ roundsOf s.ranges o) (o : Fin n) :
    s'.weight n pos' o ≤ s.weight n pos o := by
  unfold State.weight
  by_cases ho : pos ≤ o
  · rw [if_pos ho]
    exact le_top
  · rw [if_neg ho, if_neg (by omega)]
    exact_mod_cast hrounds o (by omega)

variable {x y : ℕ × ℕ}

theorem rankLt_ahead (hrow : row < n) (hpos : row < pos')
    (hrounds : ∀ o < row, roundsOf s'.ranges o ≤ roundsOf s.ranges o) :
    RankLt n (toLex (s'.weight n pos'), x) (toLex (s.weight n row), y) := by
  refine rankLt_of_lt (o := ⟨row, hrow⟩) (fun o _ => weight_le hpos.le hrounds o) ?_
  unfold State.weight
  rw [if_pos le_rfl, if_neg (not_le.mpr hpos)]
  exact WithTop.coe_lt_top _

theorem rankLt_back (hrow : row < n) (ho : o < row) (hpos : o < pos')
    (hrounds : ∀ o' < row, roundsOf s'.ranges o' ≤ roundsOf s.ranges o')
    (hlt : roundsOf s'.ranges o < roundsOf s.ranges o) :
    RankLt n (toLex (s'.weight n pos'), x) (toLex (s.weight n row), y) := by
  refine rankLt_of_lt (o := ⟨o, ho.trans hrow⟩) (fun o' ho' => ?_) ?_
  · have ho'' : (o' : ℕ) < o := ho'
    unfold State.weight
    rw [if_neg (by omega), if_neg (by omega)]
    exact_mod_cast hrounds o' (by omega)
  · unfold State.weight
    rw [if_neg (not_le.mpr hpos), if_neg (not_le.mpr ho)]
    exact_mod_cast hlt

variable {p : Point}

theorem rank_lt {q : Point} (hp : p.Sound t) (hb : t.Built) (htarget : p.Targeted t)
    (h : Steps (step H t) p q) :
    RankLt t.exps.length (q.rank t.exps.length) (p.rank t.exps.length) := by
  cases p with
  | row i expIdx s =>
    obtain ⟨exp, hexp, rfl⟩ := follows_row (.inl h)
    have hsame := SameRanges.openScope exp s
    rw [Point.rank_row, Point.rank_ahead _ le_rfl]
    exact rankLt_of_le (weight_le le_rfl fun o _ => by rw [hsame.ranges_eq]) (.inl (by omega))
  | stage i idx edx rest s =>
    obtain ⟨⟨exp, hexp, hrest⟩, hn, hplace⟩ := hp
    have hi : i < t.exps.length := (List.getElem?_eq_some_iff.mp hexp).1
    cases rest with
    | nil =>
      cases h
      rw [endOfRow, Point.rank_row]
      rcases hplace with hahead | hback
      · have hrow := hahead.row_le hb
        rw [Point.rank_ahead _ hrow]
        exact rankLt_ahead hi (by omega) fun o _ => le_rfl
      · rw [Point.rank_back _ hback.lt]
        exact rankLt_of_le (weight_le le_rfl fun o _ => le_rfl) (.inl (by omega))
    | cons e rest =>
      obtain ⟨he, hrest⟩ := getElem?_of_drop hrest
      have hrange : e.is .rangeExp → t.target idx ≠ 0 := fun hr => htarget (.inr (.inr hr))
      cases stageStep_of_steps h with
      | sends s' hsame =>
        have hle : ∀ o, roundsOf s'.ranges o ≤ roundsOf s.ranges o := fun o => by
          rw [hsame.ranges_eq]
        rcases lt_or_ge idx (i : ℤ) with hlt | hge
        · rw [Point.rank_back _ hlt, Point.rank_back _ hlt]
          exact rankLt_of_le (weight_le le_rfl fun o _ => hle o) (.inr ⟨rfl, by simp⟩)
        · rw [Point.rank_ahead _ hge, Point.rank_ahead _ hge]
          exact rankLt_of_le (weight_le le_rfl fun o _ => hle o) (.inr ⟨rfl, by simp⟩)
      | next out s₀ s₁ s' idx' hsame hm hsame' =>
        have hle : ∀ o < i, roundsOf s'.ranges o ≤ roundsOf s.ranges o := fun o ho => by
          rw [hsame'.ranges_eq, ← hsame.ranges_eq]
          exact hm.rounds_le hb hexp he (hsame.nested hn) (hsame.place hplace) ho
        rcases hsame.place hplace with hahead | hback
        · rw [Point.rank_ahead _ (hahead.row_le hb)]
          rcases lt_or_ge idx' (i : ℤ) with hlt | hge
          · -- the stage goes back to the start of a range
            obtain ⟨hnonneg, hrounds⟩ := hm.rounds_lt hb (hsame.nested hn) hahead hrange hlt
            rw [← hsame'.ranges_eq, hsame.ranges_eq] at hrounds
            rw [Point.rank_back _ hlt]
            exact rankLt_back hi (by omega) (by omega) hle hrounds
          · rw [Point.rank_ahead _ hge]
            exact rankLt_of_le (weight_le le_rfl hle) (.inr ⟨rfl, by simp⟩)
        · obtain rfl := hm.index_eq_of_back hb hexp he (hsame.nested hn) hback
          have hlt := hback.lt
          rw [Point.rank_back _ hlt, Point.rank_back _ hlt]
          exact rankLt_of_le (weight_le le_rfl fun o ho => hle o (by omega)) (.inr ⟨rfl, by simp⟩)
      | leaves out err s₀ s₁ s' idx₁ idx' hsame hm hj hsame' =>
        have hle : ∀ o < i, roundsOf s'.ranges o ≤ roundsOf s.ranges o := fun o ho => by
          rw [hsame'.ranges_eq, ← hsame.ranges_eq]
          exact hm.rounds_le hb hexp he (hsame.nested hn) (hsame.place hplace) ho
        have hjump : idx₁ ≤ idx' := hj.le_index hb hm fun hk => htarget (hk.imp_right .inl)
        rw [Point.rank_row]
        rcases hsame.place hplace with hahead | hback
        · rw [Point.rank_ahead _ (hahead.row_le hb)]
          rcases lt_or_ge idx₁ (i : ℤ) with hlt | hge
          · -- the stage goes back to the start of a range and jumps from there
            obtain ⟨hnonneg, hrounds⟩ := hm.rounds_lt hb (hsame.nested hn) hahead hrange hlt
            rw [← hsame'.ranges_eq, hsame.ranges_eq] at hrounds
            exact rankLt_back hi (by omega) (by omega) hle hrounds
          · exact rankLt_ahead hi (by omega) hle
        · obtain rfl := hm.index_eq_of_back hb hexp he (hsame.nested hn) hback
          have hlt := hback.lt
          rw [Point.rank_back _ hlt]
          exact rankLt_of_le (weight_le (by omega) fun o ho => hle o (by omega)) (.inl (by omega))

theorem exists_ends (hb : t.Built) (hp : p.Sound t)
    (htarget : ∀ q, Reaches (step H t) p q → q.Targeted t) : ∃ f, Ends (step H t) p f := by
  refine Runs.exists_ends_of_wf (I := fun q => q.Sound t ∧ Reaches (step H t) p q)
    (rankLt_wf t.exps.length) (Point.rank t.exps.length) ⟨hp, .refl⟩ ?_
  rintro a b ⟨ha, hreach⟩ hstep
  have hta := htarget a hreach
  exact ⟨⟨ha.step hb hta hstep, hreach.tail hstep⟩, rank_lt ha hb hta hstep⟩

end

/-- Every call returns, in a session that comes to no `if`, `else` or `range` without a target. -/
theorem execute_terminates {H : Host} {t : Program} {s₀ : State} (hstart : Started H t s₀)
    (hfits : t.Fits) (htarget : ∀ p, Visits H t s₀ p → p.Targeted t) {s : State}
    (hs : Session H t s₀ s) : ∃ fuel, (execute H t fuel s).isSome := by
  have hb := hstart.built
  have hsound := Visits.sound ⟨s, hs, .refl⟩ hstart hfits htarget
  obtain ⟨f, hf⟩ := exists_ends hb hsound fun q hq => htarget q ⟨s, hs, hq⟩
  obtain ⟨fuel, hfuel⟩ := execute_iff.mpr hf
  exact ⟨fuel, by rw [hfuel]; rfl⟩

instance (t : Program) : DecidablePred (Point.Targeted t)
  | .stage _ idx _ (e :: _) _ =>
    inferInstanceAs (Decidable (e.is .ifExp ∨ e.is .elseExp ∨ e.is .rangeExp → t.target idx ≠ 0))
  | .stage _ _ _ [] _ | .row _ _ _ => .isTrue trivial

/-- A block with a clause, whose run comes to an `if` and an `else` with their targets. -/
theorem execute_if_else_returns : ∃ t s₀, plainRun ["if (\"a\")", "else", "end"] = some (t, s₀) ∧
    ∃ fuel, (execute plainHost t fuel s₀).isSome := by
  have hcheck : (plainRun ["if (\"a\")", "else", "end"]).any (fun p =>
      decide p.1.Fits && everyVisit p.1 p.2 20 fun q => q.Targeted p.1) := by
    decide +kernel
  obtain ⟨⟨t, s₀⟩, hrun, hcheck⟩ := exists_of_any hcheck
  simp only [Bool.and_eq_true, decide_eq_true_eq] at hcheck
  obtain ⟨hfits, htarget⟩ := hcheck
  exact ⟨t, s₀, hrun, execute_terminates (plainRun_started hrun) hfits
    (fun p hp => of_everyVisit htarget hp) .start⟩

def loopRows : List Row :=
  [[⟨"if", ["(\"a\")"]⟩], [⟨"else", []⟩],
    [⟨"if", ["(\"a\")"]⟩, ⟨"end", []⟩], [⟨"end", []⟩]]

theorem loopRows_if (t : Program) (s : State) : ∃ s', runRow plainHost t 0 0
    [⟨"if", ["(\"a\")"]⟩] s = .goto 1 s' :=
  ⟨_, rfl⟩

theorem loopRows_else {t : Program} (htarget : t.target 1 = 0) (s : State) :
    ∃ s', runRow plainHost t 1 0 [⟨"else", []⟩] s = .goto 0 s' := by
  have hrow : runRow plainHost t 1 0 [⟨"else", []⟩] s =
      .goto (t.target 1 - 1 + 1).toNat
        { openScope [⟨"else", []⟩] s with expInput := some [] } := rfl
  rw [htarget] at hrow
  exact ⟨_, hrow⟩

theorem loopRows_runFrom {t : Program} (hexps : t.exps = loopRows) (htarget : t.target 1 = 0)
    (fuel : ℕ) (s : State) :
    runFrom plainHost t fuel 0 0 s = none ∧ runFrom plainHost t fuel 1 0 s = none := by
  induction fuel generalizing s with
  | zero => exact ⟨rfl, rfl⟩
  | succ fuel ih =>
    have hif : t.exps[0]? = some [⟨"if", ["(\"a\")"]⟩] := by rw [hexps]; rfl
    have helse : t.exps[1]? = some [⟨"else", []⟩] := by rw [hexps]; rfl
    obtain ⟨s₁, h₁⟩ := loopRows_if t s
    obtain ⟨s₂, h₂⟩ := loopRows_else htarget s
    unfold runFrom
    simp only [hif, helse, h₁, h₂]
    exact ⟨(ih s₁).2, (ih s₂).1⟩

/-- An `else` without a target, which `Build` accepts: the run goes back to the first row for
ever. -/
theorem execute_loops : ∃ t s₀,
    plainRun ["if (\"a\")", "else", "if (\"a\") | end", "end"] = some (t, s₀) ∧
    ∀ fuel, execute plainHost t fuel s₀ = none := by
  have hcheck : (plainRun ["if (\"a\")", "else", "if (\"a\") | end", "end"]).any (fun p =>
      decide (p.1.exps = loopRows ∧ p.1.target 1 = 0 ∧ p.2.expIndex = "0-0".toList)) := by
    decide +kernel
  obtain ⟨⟨t, s₀⟩, hrun, hcheck⟩ := exists_of_any hcheck
  obtain ⟨hexps, htarget, hindex⟩ := of_decide_eq_true hcheck
  refine ⟨t, s₀, hrun, fun fuel => ?_⟩
  unfold execute
  rw [hindex]
  exact (loopRows_runFrom hexps htarget fuel _).1

end Kairos
