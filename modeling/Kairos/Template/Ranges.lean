import Kairos.Template.JumpTable
import Kairos.Template.Shapes
import Kairos.Template.Stages

/-!
# The ranges of a run

The jumps of a template that `Build` accepts lead ahead (`Program.Built`), so that a run goes back
only to the start of a range. `Point.Sound` says that the ranges under way started before the
current row, inner ones after outer ones, each with the target of its start as its end.
-/

namespace Kairos

open List
open Matching (Matched)
open Runs (Steps Reaches Ends)

structure Program.Built (t : Program) : Prop where
  matched : ∃ stack, Matched (t.exps.map rowMark) (t.exps.map rowMark).length stack t.indexRun
  shaped : Shaped t.exps

theorem build_built {H : Host} {funcs : Option JsRuntime} {input : List GoString} {s : GoString}
    {vars : Option Vars} {restrict : Bool} {tmpl : Template}
    (h : build H funcs input s vars restrict = .ok tmpl) (funcCall : Option JsRuntime)
    (outputVars : List (GoString × Option Addr)) (heap : Heap) (js : ℕ) :
    (tmpl.newRutime funcCall outputVars heap js).1.Built := by
  have hparse : ∃ st, parse H ⟨input, vars, funcs, restrict⟩ s = .ok st := by
    obtain ⟨st, hst, -⟩ := Res.bind_eq_ok.mp h
    exact ⟨st, hst⟩
  obtain ⟨st, hparse⟩ := hparse
  obtain ⟨stack, hrun, ht⟩ := (build_eq_ok hparse tmpl).mp h
  have hexps : tmpl.exps = st.rows.map Prod.fst := by rw [ht]
  have hmarks : tmpl.exps.map rowMark = buildMarks st.rows := by
    rw [hexps, buildMarks, map_map]
    rfl
  refine ⟨⟨stack, ?_⟩, ?_⟩
  · have hmatched := Matching.run_matched hrun
    rw [← hmarks] at hmatched
    exact hmatched
  · have hshaped := parse_shaped hparse
    rw [← hexps] at hshaped
    exact hshaped

section

variable {t : Program} {idx : ℤ}

theorem Program.Built.target_spec (h : t.Built) (hne : t.target idx ≠ 0) :
    ∃ i j : ℕ, idx = i ∧ t.indexRun i = some j ∧ t.target idx = j ∧ i < j := by
  obtain ⟨stack, hm⟩ := h.matched
  rcases idx with i | i
  · cases hij : t.indexRun i with
    | none => simp [Program.target, hij] at hne
    | some j =>
      exact ⟨i, j, rfl, hij, by simp [Program.target, hij], ((hm.target_iff i j).mp hij).lt⟩
  · simp [Program.target] at hne

theorem Program.Built.lt_target (h : t.Built) (hne : t.target idx ≠ 0) :
    0 ≤ idx ∧ idx < t.target idx := by
  obtain ⟨i, j, rfl, -, hj, hlt⟩ := h.target_spec hne
  rw [hj]
  omega

end

/-! ## The ranges of a state -/

def State.ranges (s : State) : List RangeValue :=
  (match s.rangeValue with
    | .own r => [r]
    | _ => []) ++ s.rangeStack

variable {r : RangeValue}

theorem State.current_mem {s : State} (h : s.current = some r) : r ∈ s.ranges := by
  unfold State.current at h
  unfold State.ranges
  cases hp : s.rangeValue with
  | null => simp [hp] at h
  | top =>
    simp only [hp] at h
    exact mem_append_right _ (mem_of_mem_head? h)
  | own q =>
    simp only [hp, Option.some.injEq] at h
    simp [h]

theorem State.mem_ranges_of_mem_stack {s : State} (h : r ∈ s.rangeStack) : r ∈ s.ranges :=
  mem_append_right _ h

def Program.startsWith (t : Program) (i : ℕ) (k : Keyword) : Prop :=
  ∃ e rest, t.exps[i]? = some (e :: rest) ∧ e.is k

structure RangeOk (t : Program) (r : RangeValue) : Prop where
  endIndex_eq : r.endIndex = t.target r.startIndex
  targeted : t.target r.startIndex ≠ 0
  isRange : t.startsWith r.startIndex.toNat .rangeExp

structure Nested (t : Program) (s : State) : Prop where
  ok : ∀ r ∈ s.ranges, RangeOk t r
  sorted : s.rangeStack.Pairwise fun q r => r.startIndex < q.startIndex
  own : ∀ r, s.rangeValue = .own r → r.index < r.value.length → s.rangeStack = []

structure Ahead (t : Program) (row : ℕ) (idx : ℤ) (edx : ℕ) (s : State) : Prop where
  place : idx = row ∨ 0 < edx ∧ t.target row ≠ 0 ∧ idx = t.target row - 1
  starts : ∀ r ∈ s.ranges, r.startIndex < row ∨ r.startIndex = row ∧ 0 < edx

structure Back (t : Program) (row : ℕ) (idx : ℤ) (edx : ℕ) (s : State) : Prop where
  lt : idx < row
  edx_pos : 0 < edx
  targeted : t.target idx ≠ 0
  starts : ∀ r ∈ s.ranges, r.startIndex ≤ idx
  current : ∀ r, s.current = some r → r.startIndex = idx

def Point.Sound (t : Program) : Point → Prop
  | .row i expIdx s =>
    Nested t s ∧ ∀ r ∈ s.ranges, r.startIndex < i ∨ r.startIndex = i ∧ 0 < expIdx
  | .stage i idx edx rest s =>
    (∃ exp, t.exps[i]? = some exp ∧ rest = exp.drop edx) ∧ Nested t s ∧
      (Ahead t i idx edx s ∨ Back t i idx edx s)

def Point.Targeted (t : Program) : Point → Prop
  | .stage _ idx _ (e :: _) _ =>
    e.is .ifExp ∨ e.is .elseExp ∨ e.is .rangeExp → t.target idx ≠ 0
  | _ => True

/-! ## What a stage keeps -/

section

variable {H : Host} {t : Program} {row edx : ℕ} {idx idx' : ℤ} {e : Expression} {rest : Row}
  {out : Out} {err : Option GoString} {s s' : State}

theorem Nested.of_subset (h : Nested t s) (hsub : s'.ranges ⊆ s.ranges)
    (hstack : s'.rangeStack.Sublist s.rangeStack)
    (hown : ∀ r, s'.rangeValue = .own r → s.rangeValue = .own r) : Nested t s' where
  ok r hr := h.ok r (hsub hr)
  sorted := h.sorted.sublist hstack
  own r hr hlt := by
    have hnil := h.own r (hown r hr) hlt
    rw [hnil] at hstack
    exact sublist_nil.mp hstack

variable {r : RangeValue}

theorem RangeOk.advance (h : RangeOk t r) : RangeOk t r.advance :=
  ⟨h.endIndex_eq, h.targeted, h.isRange⟩

theorem State.advance_cases (hcur : s.current = some r) :
    (∃ stack, s.rangeValue = .top ∧ s.rangeStack = r :: stack ∧
      s.advance = { s with rangeStack := r.advance :: stack }) ∨
    s.rangeValue = .own r ∧ s.advance = { s with rangeValue := .own r.advance } := by
  unfold State.current at hcur
  cases hp : s.rangeValue with
  | null => rw [hp] at hcur; cases hcur
  | top =>
    simp only [hp] at hcur
    obtain ⟨stack, hstack⟩ := head?_eq_some_iff.mp hcur
    exact .inl ⟨stack, rfl, hstack, by simp [State.advance, hp, hstack]⟩
  | own q =>
    simp only [hp, Option.some.injEq] at hcur
    subst hcur
    exact .inr ⟨rfl, by simp [State.advance, hp]⟩

theorem Nested.advance (h : Nested t s) (hcur : s.current = some r)
    (hlt : r.index < r.value.length) :
    Nested t s.advance ∧ (∀ q ∈ s.advance.ranges, q.startIndex ≤ r.startIndex) ∧
      ∀ q, s.advance.current = some q → q.startIndex = r.startIndex := by
  have hok := h.ok r (State.current_mem hcur)
  rcases State.advance_cases hcur with ⟨stack, hp, hstack, hadv⟩ | ⟨hp, hadv⟩
  · have hsorted := h.sorted
    rw [hstack, pairwise_cons] at hsorted
    have hranges : s.advance.ranges = r.advance :: stack := by simp [hadv, State.ranges, hp]
    refine ⟨⟨?_, ?_, ?_⟩, ?_, ?_⟩
    · intro q hq
      rw [hranges] at hq
      rcases mem_cons.mp hq with rfl | hq
      · exact hok.advance
      · exact h.ok q (State.mem_ranges_of_mem_stack
          (by rw [hstack]; exact mem_cons_of_mem _ hq))
    · rw [hadv]
      exact pairwise_cons.mpr hsorted
    · intro q hq
      rw [hadv] at hq
      simp [hp] at hq
    · intro q hq
      rw [hranges] at hq
      rcases mem_cons.mp hq with rfl | hq
      · exact le_rfl
      · exact (hsorted.1 q hq).le
    · intro q hq
      simp only [hadv, State.current, hp, head?_cons, Option.some.injEq] at hq
      rw [← hq]
      rfl
  · -- a value of its own with rounds left has an empty stack below it
    have hnil := h.own r hp hlt
    have hranges : s.advance.ranges = [r.advance] := by simp [hadv, State.ranges, hnil]
    refine ⟨⟨?_, ?_, ?_⟩, ?_, ?_⟩
    · intro q' hq'
      rw [hranges] at hq'
      rw [mem_singleton.mp hq']
      exact hok.advance
    · rw [hadv]
      exact h.sorted
    · intro _ _ _
      rw [hadv]
      exact hnil
    · intro q' hq'
      rw [hranges] at hq'
      rw [mem_singleton.mp hq']
      exact le_rfl
    · intro q' hq'
      simp only [hadv, State.current, Option.some.injEq] at hq'
      rw [← hq']
      rfl

theorem Ahead.next (h : Ahead t row idx edx s) (hsub : s'.ranges ⊆ s.ranges) :
    Ahead t row idx (edx + 1) s' where
  place := h.place.imp_right fun hp => ⟨by omega, hp.2⟩
  starts r hr := (h.starts r (hsub hr)).imp_right fun hp => ⟨hp.1, by omega⟩

theorem Back.next (h : Back t row idx edx s) (hsub : s'.ranges ⊆ s.ranges)
    (hcur : ∀ r, s'.current = some r → s.current = some r) : Back t row idx (edx + 1) s' where
  lt := h.lt
  edx_pos := by omega
  targeted := h.targeted
  starts r hr := h.starts r (hsub hr)
  current r hr := h.current r (hcur r hr)

theorem Back.endIndex_ne (h : Back t row idx edx s) (hb : t.Built) (hn : Nested t s)
    (hcur : s.current = some r) : r.endIndex ≠ idx := by
  have hok := hn.ok r (State.current_mem hcur)
  have hstart := h.current r hcur
  rw [hok.endIndex_eq, hstart]
  exact (hb.lt_target h.targeted).2.ne'

theorem Ahead.start_lt (h : Ahead t row idx edx s) (hb : t.Built) (hn : Nested t s)
    (hcur : s.current = some r) (hstop : r.endIndex = idx) : r.startIndex < row := by
  have hmem := State.current_mem hcur
  have hok := hn.ok r hmem
  rcases h.starts r hmem with hlt | ⟨heq, -⟩
  · exact hlt
  · -- a range of this very row ends at the target of the row, where the index is not
    have htarget := hok.endIndex_eq
    have hne := hok.targeted
    rw [heq] at htarget hne
    have := hb.lt_target hne
    rcases h.place with hp | ⟨-, -, hp⟩ <;> omega

variable {exp : Row}

theorem StartsRange.first (h : StartsRange H t idx e out s r) (hb : t.Built)
    (hexp : t.exps[row]? = some exp) (he : exp[edx]? = some e) : edx = 0 := by
  by_contra hne
  have hshape := hb.shaped exp (mem_of_getElem? hexp) edx e he
  have hkey := h.key
  rw [hshape.range_first h.isRange (by omega)] at hkey
  cases hkey

theorem StartsRange.ok (h : StartsRange H t row e out s r) (hb : t.Built)
    (hexp : t.exps[row]? = some exp) (he : exp[edx]? = some e) (htarget : t.target row ≠ 0) :
    RangeOk t r where
  endIndex_eq := by rw [h.endIndex_eq, h.startIndex_eq]
  targeted := by rwa [h.startIndex_eq]
  isRange := by
    rw [h.first hb hexp he] at he
    cases exp with
    | nil => cases he
    | cons e₀ rest =>
      obtain rfl := Option.some.inj he
      exact ⟨e₀, rest, by rw [h.startIndex_eq, Int.toNat_natCast, hexp], h.isRange⟩

theorem Ahead.of_first (h : Ahead t row idx edx s ∨ Back t row idx edx s) (hedx : edx = 0) :
    idx = row ∧ ∀ r ∈ s.ranges, r.startIndex < row := by
  subst hedx
  rcases h with h | h
  · refine ⟨?_, fun r hr => ?_⟩
    · rcases h.place with hp | ⟨hp, -⟩
      · exact hp
      · omega
    · rcases h.starts r hr with hlt | ⟨-, hp⟩
      · exact hlt
      · omega
  · exact absurd h.edx_pos (lt_irrefl 0)

theorem Moves.sound (hm : Moves H t idx e out err s idx' s') (hb : t.Built)
    (hexp : t.exps[row]? = some exp) (he : exp[edx]? = some e) (hn : Nested t s)
    (hplace : Ahead t row idx edx s ∨ Back t row idx edx s)
    (htarget : e.is .rangeExp → t.target idx ≠ 0) :
    Nested t s' ∧ (Ahead t row idx' (edx + 1) s' ∨ Back t row idx' (edx + 1) s') := by
  cases hm with
  | plain _ _ _ =>
    exact ⟨hn, hplace.imp (·.next fun _ h => h) (·.next (fun _ h => h) fun _ h => h)⟩
  | breaks _ =>
    have hsub : { s with rangeValue := RangePtr.null }.ranges ⊆ s.ranges := fun r hr =>
      State.mem_ranges_of_mem_stack hr
    refine ⟨hn.of_subset hsub (List.Sublist.refl _) (fun r hr => by cases hr), ?_⟩
    exact hplace.imp (·.next hsub) (·.next hsub fun r hr => by cases hr)
  | skipped r h herr hvalue =>
    have hfirst := h.first hb hexp he
    obtain ⟨rfl, hstarts⟩ := Ahead.of_first hplace hfirst
    have htarget := htarget h.isRange
    refine ⟨⟨?_, hn.sorted, ?_⟩, .inl ⟨.inr ⟨by omega, htarget, rfl⟩, ?_⟩⟩
    · intro q hq
      rcases mem_cons.mp hq with rfl | hq
      · exact h.ok hb hexp he htarget
      · exact hn.ok q (State.mem_ranges_of_mem_stack hq)
    · intro q hq hlt
      cases hq
      rw [hvalue] at hlt
      exact absurd hlt (Nat.not_lt_zero _)
    · intro q hq
      rcases mem_cons.mp hq with rfl | hq
      · exact .inr ⟨h.startIndex_eq, by omega⟩
      · exact .inl (hstarts q (State.mem_ranges_of_mem_stack hq))
  | entered r h herr kv kvs hvalue scope outer hvt =>
    have hfirst := h.first hb hexp he
    obtain ⟨rfl, hstarts⟩ := Ahead.of_first hplace hfirst
    have htarget := htarget h.isRange
    refine ⟨⟨?_, ?_, fun q hq => by cases hq⟩, .inl ⟨.inl rfl, ?_⟩⟩
    · intro q hq
      rcases mem_cons.mp hq with rfl | hq
      · exact (h.ok hb hexp he htarget).advance
      · exact hn.ok q (State.mem_ranges_of_mem_stack hq)
    · refine pairwise_cons.mpr ⟨fun q hq => ?_, hn.sorted⟩
      rw [RangeValue.advance, h.startIndex_eq]
      exact hstarts q (State.mem_ranges_of_mem_stack hq)
    · intro q hq
      rcases mem_cons.mp hq with rfl | hq
      · exact .inr ⟨h.startIndex_eq, by omega⟩
      · exact .inl (hstarts q (State.mem_ranges_of_mem_stack hq))
  | endsBlock _ _ | endsOwn _ r hcur hstop hover hstack =>
    refine ⟨⟨hn.ok, hn.sorted, hn.own⟩, hplace.imp (·.next fun _ h => h) ?_⟩
    exact (·.next (fun _ h => h) fun _ h => h)
  | restarts _ r hcur hstop kv hkv =>
    rcases hplace with hahead | hback
    · have hlt : r.index < r.value.length := (List.getElem?_eq_some_iff.mp hkv).1
      have hn₁ : Nested t (s.popScope.appendScope.withItem r kv [] s.popScope.varTemp) :=
        ⟨hn.ok, hn.sorted, hn.own⟩
      obtain ⟨hnested, hstarts, hcurrent⟩ := hn₁.advance hcur hlt
      exact ⟨hnested, .inr ⟨hahead.start_lt hb hn hcur hstop, by omega,
        (hn.ok r (State.current_mem hcur)).targeted, hstarts, hcurrent⟩⟩
    · exact absurd hstop (hback.endIndex_ne hb hn hcur)
  | endsLast _ r q hcur hstop hover hstack =>
    rcases hplace with hahead | hback
    · have hsub : { s.popScope with rangeStack := [], rangeValue := RangePtr.null }.ranges ⊆
          s.ranges := fun q hq => by cases hq
      exact ⟨hn.of_subset hsub (nil_sublist _) (fun q hq => by cases hq),
        .inl (hahead.next hsub)⟩
    · exact absurd hstop (hback.endIndex_ne hb hn hcur)
  | endsInner _ r q r' outer hcur hstop hover hstack hover' =>
    rcases hplace with hahead | hback
    · have hsub : { s.popScope with rangeStack := r' :: outer, rangeValue := RangePtr.top }.ranges ⊆
          s.ranges := fun q hq => State.mem_ranges_of_mem_stack (by
            rw [hstack]; exact mem_cons_of_mem _ hq)
      refine ⟨hn.of_subset hsub ?_ (fun q hq => by cases hq), .inl (hahead.next hsub)⟩
      rw [hstack]
      exact sublist_cons_self _ _
    · exact absurd hstop (hback.endIndex_ne hb hn hcur)
  | restartsOuter _ r q r' outer hcur hstop hover hstack kv hkv =>
    rcases hplace with hahead | hback
    · have hlt : r'.index < r'.value.length := (List.getElem?_eq_some_iff.mp hkv).1
      -- the outer range was started before the inner one, and that not after this row
      have hsorted := hn.sorted
      rw [hstack, pairwise_cons] at hsorted
      have hq := hahead.starts q (State.mem_ranges_of_mem_stack (by rw [hstack]; simp))
      have hr' := hsorted.1 r' mem_cons_self
      have hmem : r' ∈ s.ranges := State.mem_ranges_of_mem_stack (by rw [hstack]; simp)
      have hn₁ : Nested t { s.popScope.popScope.appendScope.withItem r' kv []
          s.popScope.popScope.varTemp with rangeStack := r' :: outer, rangeValue := .top } := by
        refine hn.of_subset (fun q hq => State.mem_ranges_of_mem_stack ?_) ?_
          fun q hq => by cases hq
        · rw [hstack]; exact mem_cons_of_mem _ hq
        · rw [hstack]; exact sublist_cons_self _ _
      obtain ⟨hnested, hstarts, hcurrent⟩ := hn₁.advance (r := r') rfl hlt
      exact ⟨hnested, .inr ⟨by omega, by omega, (hn.ok r' hmem).targeted, hstarts, hcurrent⟩⟩
    · exact absurd hstop (hback.endIndex_ne hb hn hcur)

theorem starts_le_index (hb : t.Built) (hplace : Ahead t row idx edx s ∨ Back t row idx edx s) :
    0 ≤ idx ∧ ∀ r ∈ s.ranges, r.startIndex ≤ idx := by
  rcases hplace with h | h
  · have hidx : (row : ℤ) ≤ idx := by
      rcases h.place with hp | ⟨-, hne, hp⟩
      · exact hp.ge
      · have := hb.lt_target hne
        omega
    refine ⟨by omega, fun r hr => ?_⟩
    rcases h.starts r hr with hlt | ⟨heq, -⟩ <;> omega
  · exact ⟨(hb.lt_target h.targeted).1, h.starts⟩

theorem Jumps.le_index {idx₁ : ℤ} (hj : Jumps t e out err idx₁ idx') (hb : t.Built)
    (hm : Moves H t idx e out err s idx₁ s')
    (htarget : e.is .ifExp ∨ e.is .elseExp → t.target idx ≠ 0) : idx₁ ≤ idx' := by
  -- an `if` and an `else` do not move before they jump
  have hplain : e.is .ifExp ∨ e.is .elseExp → idx₁ = idx := by
    intro hk
    rcases hk with hk | hk
    · exact hm.eq_of_not (Expression.not_is hk (by decide)) (Expression.not_is hk (by decide))
    · exact hm.eq_of_not (Expression.not_is hk (by decide)) (Expression.not_is hk (by decide))
  cases hj with
  | elseRow h =>
    have := hplain (.inr h)
    have := hb.lt_target (htarget (.inr h))
    subst idx₁
    omega
  | ifFalse h =>
    have := hplain (.inl h)
    have := hb.lt_target (htarget (.inl h))
    subst idx₁
    omega
  | forward h hpos => exact (hb.lt_target hpos.ne').2.le

structure SameRanges (s s' : State) : Prop where
  rangeValue_eq : s'.rangeValue = s.rangeValue
  rangeStack_eq : s'.rangeStack = s.rangeStack

namespace SameRanges

theorem ranges_eq (h : SameRanges s s') : s'.ranges = s.ranges := by
  rw [State.ranges, State.ranges, h.rangeValue_eq, h.rangeStack_eq]

theorem current_eq (h : SameRanges s s') : s'.current = s.current := by
  rw [State.current, State.current, h.rangeValue_eq, h.rangeStack_eq]

theorem nested (h : SameRanges s s') (hn : Nested t s) : Nested t s' where
  ok := by rw [h.ranges_eq]; exact hn.ok
  sorted := by rw [h.rangeStack_eq]; exact hn.sorted
  own := by rw [h.rangeValue_eq, h.rangeStack_eq]; exact hn.own

theorem place (h : SameRanges s s') (hp : Ahead t row idx edx s ∨ Back t row idx edx s) :
    Ahead t row idx edx s' ∨ Back t row idx edx s' := by
  refine hp.imp (fun hp => ⟨hp.place, ?_⟩) fun hp => ⟨hp.lt, hp.edx_pos, hp.targeted, ?_, ?_⟩
  · rw [h.ranges_eq]; exact hp.starts
  · rw [h.ranges_eq]; exact hp.starts
  · rw [h.current_eq]; exact hp.current

theorem openScope (exp : Row) (s : State) : SameRanges s (openScope exp s) := by
  unfold Kairos.openScope
  split_ifs <;> exact ⟨rfl, rfl⟩

end SameRanges

/-- What a stage does to the ranges and the row index: nothing, where it sends, or a move, after
which the row goes on or is left for one ahead. -/
inductive StageStep (H : Host) (t : Program) (row edx : ℕ) (idx : ℤ) (e : Expression) (rest : Row)
    (s : State) : Point → Prop where
  | sends (s' : State) (hsame : SameRanges s s') :
      StageStep H t row edx idx e rest s (.stage row idx (edx + 1) rest s')
  | next (out : Out) (s₀ s₁ s' : State) (idx' : ℤ) (hsame : SameRanges s s₀)
      (hm : Moves H t idx e out none s₀ idx' s₁) (hsame' : SameRanges s₁ s') :
      StageStep H t row edx idx e rest s (.stage row idx' (edx + 1) rest s')
  | leaves (out : Out) (err : Option GoString) (s₀ s₁ s' : State) (idx₁ idx' : ℤ)
      (hsame : SameRanges s s₀) (hm : Moves H t idx e out err s₀ idx₁ s₁)
      (hj : Jumps t e out err idx₁ idx') (hsame' : SameRanges s₁ s') :
      StageStep H t row edx idx e rest s (.row (idx' + 1).toNat 0 s')

variable {q : Point}

theorem stageStep_of_steps (h : Steps (step H t) (.stage row idx edx (e :: rest) s) q) :
    StageStep H t row edx idx e rest s q := by
  cases steps_stage h with
  | sends s' hsend =>
    obtain ⟨v, vs, m, reciever, -, -, rfl⟩ := hsend.sent
    exact .sends _ ⟨rfl, rfl⟩
  | continues idx' s' hcont =>
    obtain ⟨out, m, s₁, -, hm, rfl, -⟩ := hcont.moved
    exact .next out { s with toMem := m } s₁ _ idx' ⟨rfl, rfl⟩ hm ⟨rfl, rfl⟩
  | leaves idx' s' hleave =>
    obtain ⟨out, err, s₀, idx₁, hx, hm, hj⟩ := hleave.moved
    have hsame : SameRanges s s₀ := by cases hx <;> exact ⟨rfl, rfl⟩
    exact .leaves out err s₀ s' _ idx₁ idx' hsame hm hj ⟨rfl, rfl⟩

theorem getElem?_of_drop (h : e :: rest = exp.drop edx) :
    exp[edx]? = some e ∧ rest = exp.drop (edx + 1) := by
  refine ⟨?_, ?_⟩
  · rw [← head?_drop, ← h, head?_cons]
  · rw [← tail_drop, ← h, tail_cons]

theorem sound_row (hb : t.Built) (hn : Nested t s)
    (hplace : Ahead t row idx edx s ∨ Back t row idx edx s) (hle : idx ≤ idx') :
    Point.Sound t (.row (idx' + 1).toNat 0 s) := by
  obtain ⟨hnonneg, hstarts⟩ := starts_le_index hb hplace
  refine ⟨hn, fun r hr => .inl ?_⟩
  have := hstarts r hr
  omega

theorem Point.Sound.step {p : Point} (hp : p.Sound t) (hb : t.Built) (htarget : p.Targeted t)
    (h : Steps (Kairos.step H t) p q) : q.Sound t := by
  cases p with
  | row i expIdx s =>
    obtain ⟨exp, hexp, rfl⟩ := follows_row (.inl h)
    have hsame := SameRanges.openScope exp s
    refine ⟨⟨exp, hexp, rfl⟩, hsame.nested hp.1, hsame.place (.inl ⟨.inl rfl, hp.2⟩)⟩
  | stage i idx edx rest s =>
    obtain ⟨⟨exp, hexp, hrest⟩, hn, hplace⟩ := hp
    cases rest with
    | nil =>
      cases h
      have hsame : SameRanges s { s with expInput := some [] } := ⟨rfl, rfl⟩
      exact sound_row hb (hsame.nested hn) (hsame.place hplace) le_rfl
    | cons e rest =>
      obtain ⟨he, hrest⟩ := getElem?_of_drop hrest
      cases stageStep_of_steps h with
      | sends s' hsame =>
        refine ⟨⟨exp, hexp, hrest⟩, hsame.nested hn, hsame.place ?_⟩
        exact hplace.imp (·.next fun _ h => h) (·.next (fun _ h => h) fun _ h => h)
      | next out s₀ s₁ s' idx' hsame hm hsame' =>
        obtain ⟨hn₁, hp₁⟩ := hm.sound hb hexp he (hsame.nested hn) (hsame.place hplace)
          fun hr => htarget (.inr (.inr hr))
        exact ⟨⟨exp, hexp, hrest⟩, hsame'.nested hn₁, hsame'.place hp₁⟩
      | leaves out err s₀ s₁ s' idx₁ idx' hsame hm hj hsame' =>
        obtain ⟨hn₁, hp₁⟩ := hm.sound hb hexp he (hsame.nested hn) (hsame.place hplace)
          fun hr => htarget (.inr (.inr hr))
        refine sound_row hb (hsame'.nested hn₁) (hsame'.place hp₁) (hj.le_index hb hm fun hk => ?_)
        exact htarget (hk.imp_right .inl)

end

/-! ## Sessions -/

theorem Started.built {H : Host} {t : Program} {s₀ : State} (h : Started H t s₀) : t.Built := by
  obtain ⟨funcs, input, text, vars, restrict, tmpl, funcCall, outputVars, heap, js, hbuild, hrt⟩ :=
    h
  have hb := build_built hbuild funcCall outputVars heap js
  rw [hrt] at hb
  exact hb

theorem Started.sound {H : Host} {t : Program} {s₀ : State} (h : Started H t s₀) :
    (startPoint s₀).Sound t := by
  obtain ⟨funcs, input, text, vars, restrict, tmpl, funcCall, outputVars, heap, js, -, hrt⟩ := h
  cases hrt
  exact ⟨⟨by simp [State.ranges, State.enter, State.current], List.Pairwise.nil, by
    simp [State.enter]⟩, by simp [State.ranges, State.enter, State.current]⟩

structure Program.Fits (t : Program) : Prop where
  rows : t.exps.length < 2 ^ 63
  stages : ∀ exp ∈ t.exps, exp.length < 2 ^ 63

instance (t : Program) : Decidable t.Fits :=
  decidable_of_iff (t.exps.length < 2 ^ 63 ∧ ∀ exp ∈ t.exps, exp.length < 2 ^ 63)
    ⟨fun h => ⟨h.1, h.2⟩, fun h => ⟨h.rows, h.stages⟩⟩

section

variable {H : Host} {t : Program} {s s' s₀ : State}

theorem State.enter_ranges {r : RangeValue} (h : r ∈ s.enter.ranges) : s.current = some r := by
  unfold State.ranges State.enter at h
  cases hcur : s.current with
  | none => simp [hcur] at h
  | some q =>
    simp only [hcur, append_nil, mem_singleton] at h
    rw [h]

variable {row edx : ℕ} {idx : ℤ} {rest : Row}

theorem Point.Sound.index_lt (hb : t.Built)
    (hp : Point.Sound t (.stage row idx edx rest s)) : idx < t.exps.length := by
  obtain ⟨⟨exp, hexp, -⟩, -, hplace⟩ := hp
  have hrow : row < t.exps.length := (List.getElem?_eq_some_iff.mp hexp).1
  rcases hplace with h | h
  · rcases h.place with hidx | ⟨-, hne, hidx⟩
    · omega
    · obtain ⟨i, j, -, hij, htarget, -⟩ := hb.target_spec hne
      obtain ⟨stack, hm⟩ := hb.matched
      have hlt := ((hm.target_iff i j).mp hij).pops.lt
      rw [length_map] at hlt
      omega
  · have := h.lt
    omega

variable {e : Expression} {s₁ : State}

theorem Suspends.startPoint_of_fits {i : ℕ} {exp : Row} (h : Suspends H t i edx e s₁ s')
    (hfits : t.Fits) (hexp : t.exps[i]? = some exp) (he : exp[edx]? = some e) (v : Val) :
    startPoint (s'.reply v) = .row i (edx + 1) (s'.reply v).enter := by
  have hi : i < t.exps.length := (List.getElem?_eq_some_iff.mp hexp).1
  have hedx : edx < exp.length := (List.getElem?_eq_some_iff.mp he).1
  have hrows := hfits.rows
  have hstages := hfits.stages exp (mem_of_getElem? hexp)
  exact h.startPoint_eq (by omega) (by omega) v

theorem Suspends.resumes {i : ℕ} (h : Suspends H t idx edx e s₁ s') (hb : t.Built) (hfits : t.Fits)
    (hp : Point.Sound t (.stage row idx edx (e :: rest) s₁)) (hi : idx = i) (v : Val) :
    startPoint (s'.reply v) = .row i (edx + 1) (s'.reply v).enter := by
  have hidx := hp.index_lt hb
  obtain ⟨⟨exp, hexp, hrest⟩, -, -⟩ := hp
  have hedx : edx < exp.length := (List.getElem?_eq_some_iff.mp (getElem?_of_drop hrest).1).1
  have hrow := hfits.rows
  have hstage := hfits.stages exp (mem_of_getElem? hexp)
  subst hi
  exact h.startPoint_eq (by omega) (by omega) v

theorem Suspends.sound (h : Suspends H t idx edx e s₁ s') (hb : t.Built) (hfits : t.Fits)
    (hp : Point.Sound t (.stage row idx edx (e :: rest) s₁)) (v : Val) :
    (startPoint (s'.reply v)).Sound t := by
  have hstart := fun i (hi : idx = (i : ℕ)) => h.resumes hb hfits hp hi v
  obtain ⟨-, hn, hplace⟩ := hp
  obtain ⟨hnonneg, hstarts⟩ := starts_le_index hb hplace
  obtain ⟨i, rfl⟩ : ∃ i : ℕ, idx = i := ⟨idx.toNat, by omega⟩
  rw [hstart i rfl]
  obtain ⟨w, ws, m, reciever, -, -, rfl⟩ := h.sent
  -- the new call has no stack, and the current range is one of its own
  have hcurrent : (({ s₁ with toMem := m }.sent i edx e reciever w).reply v).current =
      s₁.current := rfl
  refine ⟨⟨fun r hr => ?_, List.Pairwise.nil, fun _ _ _ => rfl⟩, fun r hr => ?_⟩
  · have hr := State.enter_ranges hr
    rw [hcurrent] at hr
    exact hn.ok r (State.current_mem hr)
  · have hr := State.enter_ranges hr
    rw [hcurrent] at hr
    have := hstarts r (State.current_mem hr)
    omega

variable {p : Point}

theorem Point.Sound.follows {q : Point} (hp : p.Sound t) (hb : t.Built) (hfits : t.Fits)
    (htarget : p.Targeted t) (h : Follows H t p q) : q.Sound t := by
  rcases h with hstep | ⟨s', v, hstop, rfl⟩
  · exact hp.step hb htarget hstep
  · cases p with
    | row i expIdx s₁ =>
      simp only [Kairos.step] at hstop
      split at hstop <;> cases hstop
    | stage i idx edx rest s₁ =>
      cases rest with
      | nil => cases hstop
      | cons e rest => exact (suspends_of_step hstop).sound hb hfits hp v

theorem Visits.sound (hp : Visits H t s₀ p) (hstart : Started H t s₀) (hfits : t.Fits)
    (htarget : ∀ p, Visits H t s₀ p → p.Targeted t) : p.Sound t :=
  hp.invariant hstart.sound fun a _ ha hsound h =>
    hsound.follows hstart.built hfits (htarget a ha) h

end

end Kairos
