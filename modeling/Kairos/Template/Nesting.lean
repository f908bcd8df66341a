import Kairos.Template.Blocks

/-!
# The stack of ranges and the nesting of rows

A range should be on the stack exactly while the run is in its rows. `Point.Enclosed` says that the
next row lies in every range on the stack, and that the current range is the innermost one, or one
over nothing.
-/

namespace Kairos

open List
open Matching (Matched Block Target Pushes Pops level)

def Program.onlyEnd (t : Program) : ℤ → Bool
  | .ofNat i =>
    match t.exps[i]? with
    | some [e] => e.is .endExp
    | _ => false
  | .negSucc _ => false

@[mk_iff]
structure SteadyStage (t : Program) (idx : ℤ) (e : Expression) (s : State) : Prop where
  targeted : e.is .ifExp ∨ e.is .elseExp ∨ e.is .rangeExp → t.target idx ≠ 0
  closes : e.is .rangeExp → t.closesAt (t.target idx)
  round : e.is .endExp → ∀ r ∈ s.outerRound idx, r.endIndex = idx + 1 ∧ t.onlyEnd (idx + 1)
  alone : e.is .endExp → ∀ r ∈ s.current, r.endIndex = idx → r.remains = false →
    ∀ q ∈ s.rangeStack.head?, q.remains = false
  inner : s.rangeStack ≠ [] → e.is .sendsync = false ∧ e.is .breakExp = false

def Point.Steady (t : Program) : Point → Prop
  | .stage i idx _ (e :: _) s => (∀ exp ∈ t.exps[i]?, EndsLast exp) ∧ SteadyStage t idx e s
  | _ => True

instance (t : Program) (idx : ℤ) (e : Expression) (s : State) : Decidable (SteadyStage t idx e s) :=
  decidable_of_iff _ (steadyStage_iff t idx e s).symm

instance (t : Program) : DecidablePred (Point.Steady t)
  | .stage i idx _ (e :: _) s =>
    inferInstanceAs (Decidable ((∀ exp ∈ t.exps[i]?, EndsLast exp) ∧ SteadyStage t idx e s))
  | .stage _ _ _ [] _ | .row _ _ _ => .isTrue trivial

structure Enclosed (t : Program) (pos : ℤ) (s : State) : Prop where
  stack : ∀ x ∈ s.rangeStack, x.startIndex < pos ∧ pos ≤ x.endIndex ∧ t.closesAt x.endIndex
  own : ∀ y, s.rangeValue = .own y → s.rangeStack = [] ∨ y.value = [] ∧ y.endIndex = pos ∧
    t.closesAt y.endIndex ∧ ∀ x ∈ s.rangeStack, x.startIndex < y.startIndex
  null : s.rangeValue = .null → s.rangeStack = []

def Point.Enclosed (t : Program) : Point → Prop
  | .row i k s => Kairos.Enclosed t i s ∧ (0 < k → s.rangeStack = [])
  | .stage _ idx _ [] s => Kairos.Enclosed t (idx + 1) s
  | .stage i idx _ (_ :: _) s => idx = i ∧ Kairos.Enclosed t idx s

section

variable {H : Host} {t : Program} {i : ℕ} {e : Expression} {out : Out}
  {err : Option GoString} {s s' : State} {idx' pos : ℤ} {p q : Point}

theorem Point.Steady.orderly (h : p.Steady t) : p.Orderly t := by
  cases p with
  | row => trivial
  | stage i idx edx rest s =>
    cases rest with
    | nil => trivial
    | cons e rest => exact ⟨h.2.targeted, fun hk r hr => (h.2.round hk r hr).1⟩

theorem SteadyStage.congr (h : SteadyStage t pos e s) (hsame : SameRanges s s') :
    SteadyStage t pos e s' where
  targeted := h.targeted
  closes := h.closes
  round := by rw [State.outerRound, hsame.current_eq, hsame.rangeStack_eq]; exact h.round
  alone := by rw [hsame.current_eq, hsame.rangeStack_eq]; exact h.alone
  inner := by rw [hsame.rangeStack_eq]; exact h.inner

namespace Enclosed

theorem of_nil (h : s.rangeStack = []) (pos : ℤ) : Enclosed t pos s where
  stack x hx := by rw [h] at hx; cases hx
  own _ _ := .inl h
  null _ := h

theorem congr (h : Enclosed t pos s) (hsame : SameRanges s s') : Enclosed t pos s' where
  stack := by rw [hsame.rangeStack_eq]; exact h.stack
  own := by rw [hsame.rangeStack_eq, hsame.rangeValue_eq]; exact h.own
  null := by rw [hsame.rangeStack_eq, hsame.rangeValue_eq]; exact h.null

theorem succ (h : Enclosed t pos s) (hstack : ∀ x ∈ s.rangeStack, x.endIndex ≠ pos)
    (hown : ∀ y, s.rangeValue = .own y → y.endIndex = pos → s.rangeStack = []) :
    Enclosed t (pos + 1) s where
  stack x hx := by
    obtain ⟨hlt, hle, hclose⟩ := h.stack x hx
    have := hstack x hx
    exact ⟨by omega, by omega, hclose⟩
  own y hy := by
    rcases h.own y hy with hnil | ⟨-, hend, -⟩
    · exact .inl hnil
    · exact .inl (hown y hy hend)
  null := h.null

theorem succ_of_not_closes (h : Enclosed t pos s) (hclose : t.closesAt pos = false) :
    Enclosed t (pos + 1) s := by
  refine h.succ (fun x hx heq => ?_) fun y hy heq => ?_
  · have := (h.stack x hx).2.2
    rw [heq, hclose] at this
    cases this
  · rcases h.own y hy with hnil | ⟨-, -, hclosed, -⟩
    · exact hnil
    · rw [heq, hclose] at hclosed
      cases hclosed

variable {r x : RangeValue}

theorem end_ne (hn : Nested t s) (hb : t.Built) (hr : r ∈ s.ranges)
    (hx : x ∈ s.ranges) (hlt : x.startIndex < r.startIndex) : x.endIndex ≠ r.endIndex := by
  have hokr := hn.ok r hr
  have hokx := hn.ok x hx
  obtain ⟨i, j, hi, hj, hij⟩ := hb.exists_target hokr.targeted
  obtain ⟨i', j', hi', hj', hij'⟩ := hb.exists_target hokx.targeted
  intro heq
  rw [hokr.endIndex_eq, hokx.endIndex_eq, hj, hj'] at heq
  obtain rfl : j' = j := by omega
  have := hij.inj hij'
  omega

theorem current_of_end (h : Enclosed t pos s) (hn : Nested t s) (hb : t.Built)
    (hx : x ∈ s.rangeStack) (hend : x.endIndex = pos) : ∃ r, s.current = some r ∧
      r.endIndex = pos := by
  cases hv : s.rangeValue with
  | null => rw [h.null hv] at hx; cases hx
  | own y =>
    rcases h.own y hv with hnil | ⟨-, hy, -⟩
    · rw [hnil] at hx; cases hx
    · exact ⟨y, by simp [State.current, hv], hy⟩
  | top =>
    cases hst : s.rangeStack with
    | nil => rw [hst] at hx; cases hx
    | cons z st =>
      refine ⟨z, by simp [State.current, hv, hst], ?_⟩
      rw [hst] at hx
      rcases mem_cons.mp hx with rfl | hx
      · exact hend
      · -- an inner range ends before the one around it
        have hsorted := hn.sorted
        rw [hst, pairwise_cons] at hsorted
        have hlt := hsorted.1 x hx
        have hzmem : z ∈ s.rangeStack := by rw [hst]; exact mem_cons_self
        have hxmem : x ∈ s.rangeStack := by rw [hst]; exact mem_cons_of_mem _ hx
        obtain ⟨hz1, hz2, -⟩ := h.stack z hzmem
        have hokx := hn.ok x (State.mem_ranges_of_mem_stack hxmem)
        have hokz := hn.ok z (State.mem_ranges_of_mem_stack hzmem)
        obtain ⟨i, j, hi, hj, hij⟩ := hb.exists_target hokx.targeted
        have hbetween := hb.target_between hij (by omega)
          (by rw [hokx.endIndex_eq] at hend; omega) hokz.targeted
        rw [hokx.endIndex_eq] at hend
        rw [hokz.endIndex_eq] at hz2
        omega

theorem outer_start (h : Enclosed t pos s) (hn : Nested t s) {q : RangeValue}
    {outer : List RangeValue} (hcur : s.current = some r)
    (hstack : s.rangeStack = q :: outer) (hx : x ∈ outer) : x.startIndex < r.startIndex := by
  have hsorted := hn.sorted
  rw [hstack, pairwise_cons] at hsorted
  rcases State.advance_cases hcur with ⟨stack, -, htop, -⟩ | ⟨hown, -⟩
  · rw [hstack] at htop
    cases htop
    exact hsorted.1 x hx
  · rcases h.own r hown with hnil | ⟨-, -, -, hall⟩
    · rw [hstack] at hnil; cases hnil
    · exact hall x (by rw [hstack]; exact mem_cons_of_mem _ hx)

end Enclosed

theorem closesAt_of_target (hb : t.Built) (hne : t.target i ≠ 0) : t.closesAt i = false := by
  obtain ⟨i', j, hi, -, hij⟩ := hb.exists_target hne
  obtain rfl : i = i' := by omega
  show (t.marks[i]? == some (some .closes)) = false
  rcases hij.pushes with h | h <;> rw [h] <;> rfl

theorem Enclosed.target_lt (h : Enclosed t i s) (hn : Nested t s) (hb : t.Built)
    (hne : t.target i ≠ 0) {x : RangeValue} (hx : x ∈ s.rangeStack) : i < t.target i ∧
      t.target i < x.endIndex := by
  obtain ⟨hlt, hle, hclose⟩ := h.stack x hx
  have hok := hn.ok x (State.mem_ranges_of_mem_stack hx)
  obtain ⟨i', j', hi', hj', hij'⟩ := hb.exists_target hok.targeted
  have hend := hok.endIndex_eq
  have hnot : x.endIndex ≠ i := by
    intro heq
    rw [heq, closesAt_of_target hb hne] at hclose
    cases hclose
  have := hb.target_between hij' (by omega) (by omega) hne
  omega

theorem Enclosed.jump (h : Enclosed t i s) (hn : Nested t s) (hb : t.Built)
    (hj : Jumps t e out err i idx') (htarget : e.is .ifExp ∨ e.is .elseExp → t.target i ≠ 0) :
    Enclosed t (idx' + 1).toNat s := by
  obtain ⟨hne, hdest⟩ := hj.dest htarget
  have hpos := hb.lt_target hne
  refine ⟨fun x hx => ?_, fun y hy => ?_, h.null⟩
  · obtain ⟨hlt, -, hclose⟩ := h.stack x hx
    have := h.target_lt hn hb hne hx
    exact ⟨by omega, by omega, hclose⟩
  · rcases h.own y hy with hnil | ⟨-, hend, hclose, -⟩
    · exact .inl hnil
    · rw [hend, closesAt_of_target hb hne] at hclose
      cases hclose

theorem Moves.enclosed (hm : Moves H t i e out err s idx' s') (hb : t.Built)
    (henc : Enclosed t i s) (hn : Nested t s) (hsteady : SteadyStage t i e s) :
    (idx' = i ∧ e.is .endExp = false ∧ Enclosed t i s') ∨
      ((e.is .endExp ∨ e.is .rangeExp) ∧ Enclosed t (idx' + 1) s') := by
  cases hm with
  | plain _ hend _ => exact .inl ⟨rfl, hend, henc⟩
  | breaks hk =>
    have hnil : s.rangeStack = [] := by
      by_contra hne
      have := (hsteady.inner hne).2
      rw [hk] at this
      cases this
    exact .inl ⟨rfl, Expression.not_is hk (by decide),
      Enclosed.of_nil (s := { s with rangeValue := .null }) hnil _⟩
  | skipped r h _ hvalue =>
    have hne := hsteady.targeted (.inr (.inr h.isRange))
    have hend := h.endIndex_eq
    refine .inr ⟨.inr h.isRange, ?_, ?_, fun hv => by cases hv⟩
    · intro x hx
      obtain ⟨hlt, -, hclose⟩ := henc.stack x hx
      have := henc.target_lt hn hb hne hx
      exact ⟨by omega, by omega, hclose⟩
    · intro y hy
      cases hy
      refine .inr ⟨hvalue, by omega, ?_, fun x hx => ?_⟩
      · rw [hend]
        exact hsteady.closes h.isRange
      · rw [h.startIndex_eq]
        exact (henc.stack x hx).1
  | entered r h _ kv kvs _ scope outer _ =>
    have hne := hsteady.targeted (.inr (.inr h.isRange))
    have hlt := hb.lt_target hne
    refine .inr ⟨.inr h.isRange, ?_, (fun y hy => by cases hy), fun hv => by cases hv⟩
    intro x hx
    rcases mem_cons.mp hx with rfl | hx
    · have hstart := h.startIndex_eq
      have hend := h.endIndex_eq
      refine ⟨?_, ?_, ?_⟩
      · show r.startIndex < _
        omega
      · show _ ≤ r.endIndex
        omega
      · show t.closesAt r.endIndex
        rw [hend]
        exact hsteady.closes h.isRange
    · obtain ⟨hlt', -, hclose⟩ := henc.stack x hx
      have := henc.target_lt hn hb hne hx
      exact ⟨by omega, by omega, hclose⟩
  | endsBlock hk hcur =>
    refine .inr ⟨.inl hk, ?_⟩
    have henc' : Enclosed t i s.popScope := henc.congr ⟨rfl, rfl⟩
    refine henc'.succ (fun x hx heq => ?_) fun y hy heq => ?_
    · obtain ⟨r, hr, hend⟩ := henc.current_of_end hn hb hx heq
      exact hcur r hr hend
    · have hy : s.rangeValue = .own y := hy
      exact absurd heq (hcur y (by simp [State.current, hy]))
  | restarts hk r hcur hstop kv hkv =>
    refine .inr ⟨.inl hk, ?_⟩
    have hok := hn.ok r (State.current_mem hcur)
    have hlt := hb.lt_target hok.targeted
    have hend := hok.endIndex_eq
    have hcur' : (s.popScope.appendScope.withItem r kv [] s.popScope.varTemp).current = some r :=
      hcur
    rcases State.advance_cases hcur' with ⟨stack, htop, hstack, hadv⟩ | ⟨hown, hadv⟩
    · have hstack : s.rangeStack = r :: stack := hstack
      rw [hadv]
      refine ⟨?_, (fun y hy => by cases htop.symm.trans hy), fun hv => by cases htop.symm.trans hv⟩
      · intro x hx
        have hsorted := hn.sorted
        rw [hstack, pairwise_cons] at hsorted
        rcases mem_cons.mp hx with rfl | hx
        · refine ⟨?_, ?_, (henc.stack r (by rw [hstack]; exact mem_cons_self)).2.2⟩
          · show r.startIndex < _
            omega
          · show _ ≤ r.endIndex
            omega
        · have hin := hsorted.1 x hx
          obtain ⟨-, hle, hclose⟩ := henc.stack x (by rw [hstack]; exact mem_cons_of_mem _ hx)
          exact ⟨by omega, by omega, hclose⟩
    · -- a range that is on no stack and has rounds left is the only one
      have hown : s.rangeValue = .own r := hown
      have hnil : s.rangeStack = [] := by
        rcases henc.own r hown with hnil | ⟨hvalue, -⟩
        · exact hnil
        · rw [hvalue] at hkv; cases hkv
      rw [hadv]
      exact Enclosed.of_nil (s := { s.popScope.appendScope.withItem r kv [] s.popScope.varTemp with
        rangeValue := .own r.advance }) hnil _
  | endsOwn hk r hcur hstop hover hstack =>
    exact .inr ⟨.inl hk, Enclosed.of_nil (s := s.popScope) hstack _⟩
  | endsLast hk r q hcur hstop hover hstack => exact .inr ⟨.inl hk, .of_nil rfl _⟩
  | endsInner hk r q r' outer hcur hstop hover hstack hover' =>
    refine .inr ⟨.inl hk, ?_⟩
    refine ⟨fun x hx => ?_, (fun y hy => by cases hy), fun hv => by cases hv⟩
    have hmem : x ∈ s.rangeStack := by rw [hstack]; exact mem_cons_of_mem _ hx
    obtain ⟨hlt, hle, hclose⟩ := henc.stack x hmem
    -- the ranges around the current one end later
    have hstart : x.startIndex < r.startIndex := henc.outer_start hn hcur hstack hx
    have hne := Enclosed.end_ne hn hb (State.current_mem hcur) (State.mem_ranges_of_mem_stack hmem)
      hstart
    exact ⟨by omega, by omega, hclose⟩
  | restartsOuter hk r q r' outer hcur hstop hover hstack kv hkv =>
    refine .inr ⟨.inl hk, ?_⟩
    refine ⟨fun x hx => ?_, (fun y hy => by cases hy), fun hv => by cases hv⟩
    have hsorted := hn.sorted
    rw [hstack, pairwise_cons, pairwise_cons] at hsorted
    have hr' : r' ∈ s.rangeStack := by rw [hstack]; simp
    obtain ⟨hlt', hle', hclose'⟩ := henc.stack r' hr'
    have hok := hn.ok r' (State.mem_ranges_of_mem_stack hr')
    rcases mem_cons.mp hx with rfl | hx
    · refine ⟨?_, ?_, hclose'⟩
      · show r'.startIndex < _
        omega
      · show _ ≤ r'.endIndex
        omega
    · have hin := hsorted.2.1 x hx
      obtain ⟨-, hle, hclose⟩ := henc.stack x (by rw [hstack]; simp [hx])
      exact ⟨by omega, by omega, hclose⟩

theorem Point.Enclosed.follows (hp : p.Enclosed t) (hb : t.Built) (hfits : t.Fits)
    (hsound : p.Sound t) (hsteady : p.Steady t) (h : Follows H t p q) : q.Enclosed t := by
  cases p with
  | row i k s =>
    obtain ⟨exp, hexp, rfl⟩ := follows_row h
    obtain ⟨henc, hnil⟩ := hp
    have hsame := SameRanges.openScope exp s
    have henc := henc.congr hsame
    cases hrest : exp.drop k with
    | cons e rest => exact ⟨rfl, henc⟩
    | nil =>
      rcases Nat.eq_zero_or_pos k with rfl | hk
      · -- a row without expressions closes no block
        refine henc.succ_of_not_closes ?_
        have hempty : exp = [] := by simpa using hrest
        show (t.marks[i]? == some (some .closes)) = false
        rw [marks_getElem? hexp, hempty]
        rfl
      · exact .of_nil (by rw [hsame.rangeStack_eq, hnil hk]) _
  | stage i idx edx rest s =>
    obtain ⟨⟨exp, hexp, hrest⟩, hn, hplace⟩ := id hsound
    cases rest with
    | nil =>
      rw [follows_nil h]
      have hnonneg := (starts_le_index hb hplace).1
      refine ⟨?_, fun hk => absurd hk (lt_irrefl 0)⟩
      have henc : Kairos.Enclosed t (idx + 1) s := hp
      rw [show (((idx + 1).toNat : ℕ) : ℤ) = idx + 1 by omega]
      exact henc.congr ⟨rfl, rfl⟩
    | cons e rest =>
      obtain ⟨rfl, henc⟩ := hp
      obtain ⟨hlast, hstage⟩ := hsteady
      have hlast := hlast exp hexp
      obtain ⟨he, hrest⟩ := getElem?_of_drop hrest
      -- a stage that is no `end` goes on with the row or with the next one
      have hnext : ∀ s' : State, Kairos.Enclosed t i s' → e.is .endExp = false →
          Point.Enclosed t (.stage i i (edx + 1) rest s') := by
        intro s' henc' hend
        cases hrest' : rest with
        | cons e' rest' => exact ⟨rfl, henc'⟩
        | nil =>
          refine henc'.succ_of_not_closes ?_
          rw [hrest] at hrest'
          have hnot := hlast.not_closes he (drop_eq_nil_iff.mp hrest') hend
          show (t.marks[i]? == some (some .closes)) = false
          rw [marks_getElem? hexp]
          simpa using hnot
      rcases follows_stage h with hstep | ⟨s', v, hsusp, rfl⟩
      · cases hstep with
        | sends s' hs =>
          obtain ⟨v, vs, m, reciever, -, -, rfl⟩ := hs.sent
          exact hnext _ (henc.congr ⟨rfl, rfl⟩) (Expression.not_is_of_isSend hs.isSend rfl)
        | continues idx' s' hcont =>
          obtain ⟨out, m, s₁, -, hm, rfl, -⟩ := hcont.moved
          have hsame : SameRanges s { s with toMem := m } := ⟨rfl, rfl⟩
          rcases hm.enclosed hb (henc.congr hsame) (hsame.nested hn) (hstage.congr hsame) with
            ⟨rfl, hend, henc'⟩ | ⟨hk, henc'⟩
          · exact hnext _ (henc'.congr ⟨rfl, rfl⟩) hend
          · rw [hrest, hlast.drop_eq_nil he hk]
            exact henc'.congr ⟨rfl, rfl⟩
        | leaves idx' s' hleave =>
          obtain ⟨out, err, s₁, idx₁, hx, hm, hj⟩ := hleave.moved
          obtain ⟨rfl, hmoved⟩ := hj.not_moved hx hm
          refine ⟨?_, fun hk => absurd hk (lt_irrefl 0)⟩
          have hsame : SameRanges s s₁ := by cases hx <;> exact ⟨rfl, rfl⟩
          rcases hmoved with rfl | ⟨hbreak, rfl⟩
          · have hjump := (henc.congr hsame).jump (hsame.nested hn) hb hj
              fun hk => hstage.targeted (hk.imp_right .inl)
            have hinput : SameRanges s' { s' with expInput := some [] } := ⟨rfl, rfl⟩
            exact hjump.congr hinput
          · refine Kairos.Enclosed.of_nil (s := { s₁ with
              rangeValue := .null, expInput := some [] }) ?_ _
            show s₁.rangeStack = []
            rw [hsame.rangeStack_eq]
            by_contra hne
            have := (hstage.inner hne).2
            rw [hbreak] at this
            cases this
      · have hnil : s.rangeStack = [] := by
          by_contra hne
          have := (hstage.inner hne).1
          rw [hsusp.isSync] at this
          cases this
        rw [hsusp.resumes hb hfits hsound rfl v]
        exact ⟨.of_nil rfl _, fun _ => rfl⟩

theorem Visits.enclosed {s₀ : State} (hp : Visits H t s₀ p) (hstart : Started H t s₀)
    (hfits : t.Fits) (hsteady : ∀ p, Visits H t s₀ p → p.Steady t) : p.Enclosed t := by
  have hb := hstart.built
  have hsound : ∀ p, Visits H t s₀ p → p.Sound t := fun p hp =>
    hp.sound hstart hfits fun q hq => (hsteady q hq).orderly.targeted
  refine hp.invariant ?_ fun a _ ha henc h => henc.follows hb hfits (hsound a ha) (hsteady a ha) h
  exact ⟨.of_nil rfl _, fun _ => rfl⟩

end

end Kairos
