import Kairos.Template.Nesting
import Kairos.Template.Termination

/-!
# The rounds of a range

The body of a range should be run once for each entry, in order, with its variables bound to the
entry (`Rounds`), and then the rows behind its `end` (`Exits`). `Pending` is the invariant of a
round: the range is on the stack with the entries that are left, or it is over.
-/

namespace Kairos

open List
open Relation.ReflTransGen (mono single)
open Matching (Matched Block Target Pushes Pops level)
open Runs (Steps Reaches Ends Along)

def Expression.rangeOver (H : Host) (t : Program) (e : Expression) (s : State) : Option (List Kv) :=
  match e.execute H t.env s.expInput s.toMem with
  | .ok (some (v :: _)) m => some (rangeItems H m.heap v)
  | _ => none

structure Bound (k v : GoString) (kv : Kv) (vt : VarTemp) : Prop where
  value : vt.getValue v = some ⟨v, kv.value⟩
  key : k ≠ v → vt.getValue k = some ⟨k, .str kv.key⟩

def Point.rowNo : Point → ℕ
  | .row i _ _ => i
  | .stage i _ _ _ _ => i

def Point.InBody (o e : ℕ) : Point → Prop
  | .row i k _ => o < i ∧ i ≤ e ∧ k = 0
  | .stage i idx _ rest _ =>
    o < i ∧ (i < e ∧ (o : ℤ) < idx ∧ idx < e ∨ i = e ∧ idx = e ∧ rest ≠ [])

def Point.InRound (o e : ℕ) (p : Point) : Prop := p.InBody o e ∧ ∀ s, p ≠ .row (o + 1) 0 s

/-- A round of the range from `o` to `e`: to its `end`, or to that of an inner range where its own
`end` is all that is left. The first row is not come to again. -/
def Round (H : Host) (t : Program) (o e : ℕ) (p q : Point) : Prop :=
  ∃ i edx y s r, Along (step H t) (fun a => a = p ∨ a.InRound o e) p (.stage i i edx [y] s) ∧
    y.is .endExp ∧ (i = e ∨ i + 1 = e ∧ t.onlyEnd e) ∧
    Steps (step H t) (.stage i i edx [y] s) r ∧ Steps (step H t) r q

inductive Rounds (H : Host) (t : Program) (o e : ℕ) (k v : GoString) :
    List Kv → Point → Point → Prop where
  | nil (p : Point) : Rounds H t o e k v [] p p
  | cons {kv : Kv} {kvs : List Kv} {s : State} {q r : Point} (hbound : Bound k v kv s.varTemp)
      (hround : Round H t o e (.row (o + 1) 0 s) q) (hrest : Rounds H t o e k v kvs q r) :
      Rounds H t o e k v (kv :: kvs) (.row (o + 1) 0 s) r

/-- Behind the range from `o` to `e`: the next row, or the next round of a range around it whose
`end` is all that is left. -/
def Exits (t : Program) (o e : ℕ) (q : Point) : Prop :=
  ∃ s, q = .row (e + 1) 0 s ∨
    ∃ o' < o, t.target o' = e + 1 ∧ t.onlyEnd (e + 1) ∧ q = .row (o' + 1) 0 s

/-! ## The rounds that are left -/

inductive Pending (o : ℕ) (k v : GoString) (s : State) : List Kv → Prop where
  | onStack (r : RangeValue) (hr : r ∈ s.rangeStack) (hstart : r.startIndex = o)
      (hkey : r.keyVar = k)
      (hval : r.valueVar = v) (hown : ∀ y, s.rangeValue = .own y → y.startIndex ≠ o) :
      Pending o k v s (r.value.drop r.index)
  | finished (hstack : ∀ x ∈ s.rangeStack, x.startIndex ≠ o)
      (hown : ∀ y, s.rangeValue = .own y → y.startIndex = o → y.remains = false) :
      Pending o k v s []

inductive RoundEnd (t : Program) (o e : ℕ) (k v : GoString) (i : ℕ) (left : List Kv) (idx' : ℤ)
    (s' : State) : Prop where
  | again (kv : Kv) (left' : List Kv) (hleft : left = kv :: left') (hidx : idx' = o)
      (hi : i = e ∨ i + 1 = e ∧ t.onlyEnd e) (hbound : Bound k v kv s'.varTemp)
      (h : Pending o k v s' left')
  | exits (hleft : left = []) (hi : i = e)
      (hidx : idx' = e ∨ ∃ o' < o, idx' = (o' : ℕ) ∧ t.target o' = e + 1 ∧ t.onlyEnd (e + 1))

inductive RoundMove (t : Program) (o e : ℕ) (k v : GoString) (y : Expression) (i : ℕ)
    (left : List Kv) (idx' : ℤ) (s' : State) : Prop where
  | stays (hi : i < e) (hlo : (o : ℤ) < idx') (hhi : idx' < e) (h : Pending o k v s' left)
  | goesOn (hi : i = e) (hidx : idx' = e) (hy : y.is .endExp = false) (h : Pending o k v s' left)
  | ends (hy : y.is .endExp) (h : RoundEnd t o e k v i left idx' s')

section

variable {H : Host} {t : Program} {o e i : ℕ} {k v : GoString} {y : Expression} {out : Out}
  {err : Option GoString} {s s' : State} {idx' : ℤ} {left : List Kv}

theorem Bound.withItem (r : RangeValue) (kv : Kv) (scope : List Kv) (outer : VarTemp) :
    Bound r.keyVar r.valueVar kv (s.withItem r kv scope outer).varTemp where
  value := by simp [VarTemp.getValue, State.withItem]
  key hne := by simp [VarTemp.getValue, State.withItem, hne.symm]

theorem Pending.congr (h : Pending o k v s left) (hsame : SameRanges s s') :
    Pending o k v s' left := by
  cases h with
  | onStack r hr hstart hkey hval hown =>
    exact .onStack r (hsame.rangeStack_eq ▸ hr) hstart hkey hval (hsame.rangeValue_eq ▸ hown)
  | finished hstack hown =>
    exact .finished (hsame.rangeStack_eq ▸ hstack) (hsame.rangeValue_eq ▸ hown)

variable {r : RangeValue}

theorem drop_index {kv : Kv} (h : r.value[r.index]? = some kv) :
    r.value.drop r.index = kv :: r.advance.value.drop r.advance.index := by
  obtain ⟨hlt, rfl⟩ := List.getElem?_eq_some_iff.mp h
  exact List.drop_eq_getElem_cons hlt

theorem drop_index_of_over (h : r.remains = false) : r.value.drop r.index = [] := by
  have hle : ¬ r.index < r.value.length := of_decide_eq_false h
  exact drop_eq_nil_of_le (not_lt.mp hle)

theorem RangeOk.end_iff (h : RangeOk t r) (hb : t.Built)
    (htarg : Target t.marks o e) : r.endIndex = e ↔ r.startIndex = o := by
  obtain ⟨i, j, hi, hj, hij⟩ := hb.exists_target h.targeted
  have hend := h.endIndex_eq
  constructor
  · intro hre
    obtain rfl : j = e := by omega
    rw [hi, hij.inj htarg]
  · intro hro
    obtain rfl : i = o := by omega
    rw [hend, hj, hij.unique htarg]

theorem RangeOk.start_gt (h : RangeOk t r) (hb : t.Built)
    (htarg : Target t.marks o e) (hlo : (o : ℤ) < r.endIndex) (hhi : r.endIndex ≤ e)
    (hne : r.startIndex ≠ o) : (o : ℤ) < r.startIndex ∧ r.startIndex < r.endIndex := by
  obtain ⟨i, j, hi, hj, hij⟩ := hb.exists_target h.targeted
  have hend := h.endIndex_eq
  have hle := start_between htarg hij (by omega) (by omega)
  have hlt := hij.lt
  omega

theorem Nested.eq_or_start_lt (hn : Nested t s) {q : RangeValue} {outer : List RangeValue}
    (hstack : s.rangeStack = q :: outer) (hr : r ∈ s.rangeStack) :
    r = q ∨ r ∈ outer ∧ r.startIndex < q.startIndex := by
  have hsorted := hn.sorted
  rw [hstack, pairwise_cons] at hsorted
  rw [hstack] at hr
  exact (mem_cons.mp hr).imp_right fun hmem => ⟨hmem, hsorted.1 r hmem⟩

theorem State.current_cases (h : s.current = some r) :
    (∃ outer, s.rangeStack = r :: outer) ∨ s.rangeValue = .own r := by
  rcases State.advance_cases h with ⟨outer, -, hstack, -⟩ | ⟨hown, -⟩
  · exact .inl ⟨outer, hstack⟩
  · exact .inr hown

structure RoundStage (t : Program) (o e i : ℕ) (y : Expression) (s : State) : Prop where
  built : t.Built
  target : Target t.marks o e
  closes : t.closesAt e
  enclosed : Enclosed t i s
  nested : Nested t s
  steady : SteadyStage t i y s
  lo : o < i
  hi : i ≤ e

namespace RoundStage

variable (h : RoundStage t o e i y s)

include h

theorem congr (hsame : SameRanges s s') : RoundStage t o e i y s' :=
  ⟨h.built, h.target, h.closes, h.enclosed.congr hsame, hsame.nested h.nested, h.steady.congr hsame,
    h.lo, h.hi⟩

theorem lt_of_target (hne : t.target i ≠ 0) : i < e := by
  refine lt_of_le_of_ne h.hi fun heq => ?_
  have hclose := h.closes
  rw [← heq, closesAt_of_target h.built hne] at hclose
  cases hclose

variable {r : RangeValue}

theorem current_start (hcur : s.current = some r) (hstop : r.endIndex = i) :
    i = e ∧ r.startIndex = o ∨ i < e ∧ (o : ℤ) < r.startIndex ∧ r.startIndex < i := by
  have hok := h.nested.ok r (State.current_mem hcur)
  have hiff := hok.end_iff h.built h.target
  have hlo := h.lo
  rcases h.hi.lt_or_eq with hlt | rfl
  · have hne : r.startIndex ≠ o := fun heq => by
      have := hiff.mpr heq
      omega
    have := hok.start_gt h.built h.target (by omega) (by omega) hne
    exact .inr ⟨hlt, by omega, by omega⟩
  · exact .inl ⟨rfl, hiff.mp hstop⟩

variable {kv : Kv}

theorem restarts (hk : y.is .endExp) (hcur : s.current = some r)
    (hstop : r.endIndex = i) (hkv : r.value[r.index]? = some kv)
    (hp : Pending o k v s left) : RoundMove t o e k v y i left r.startIndex
      (s.popScope.appendScope.withItem r kv [] s.popScope.varTemp).advance := by
  have hrem : r.remains := decide_eq_true (List.getElem?_eq_some_iff.mp hkv).1
  have hcur' : (s.popScope.appendScope.withItem r kv [] s.popScope.varTemp).current = some r := hcur
  rcases State.advance_cases hcur' with ⟨outer, htop, hstack, hadv⟩ | ⟨hown, hadv⟩
  · have hstack : s.rangeStack = r :: outer := hstack
    have htop : s.rangeValue = .top := htop
    rw [hadv]
    rcases h.current_start hcur hstop with ⟨hi, hstart⟩ | ⟨hi, hlo, hhi⟩
    · cases hp with
      | finished hover =>
        exact absurd hstart (hover r (by rw [hstack]; exact mem_cons_self))
      | onStack r₀ hr₀ hstart₀ hkey hval hown =>
        -- the range of the round is the innermost one
        rcases h.nested.eq_or_start_lt hstack hr₀ with rfl | ⟨-, hlt⟩
        · subst hkey hval
          refine .ends hk (.again kv _ (drop_index hkv) hstart (.inl hi) (Bound.withItem ..) ?_)
          exact .onStack r₀.advance mem_cons_self hstart rfl rfl
            fun y hy => by cases htop.symm.trans hy
        · omega
    · refine .stays hi hlo (by omega) ?_
      cases hp with
      | finished hover =>
        refine .finished (fun x hx => ?_) fun y hy => by cases htop.symm.trans hy
        rcases mem_cons.mp hx with rfl | hx
        · exact hlo.ne'
        · exact hover x (by rw [hstack]; exact mem_cons_of_mem _ hx)
      | onStack r₀ hr₀ hstart₀ hkey hval hown =>
        rcases h.nested.eq_or_start_lt hstack hr₀ with rfl | ⟨hmem, -⟩
        · exact absurd hstart₀ hlo.ne'
        · exact .onStack r₀ (mem_cons_of_mem _ hmem) hstart₀ hkey hval
            fun y hy => by cases htop.symm.trans hy
  · -- a range that is on no stack and has rounds left is the only one
    have hown : s.rangeValue = .own r := hown
    have hnil := h.nested.own r hown (of_decide_eq_true hrem)
    rw [hadv]
    cases hp with
    | onStack r₀ hr₀ => rw [hnil] at hr₀; cases hr₀
    | finished _ hover =>
      rcases h.current_start hcur hstop with ⟨-, hstart⟩ | ⟨hi, hlo, hhi⟩
      · have := hover r hown hstart
        rw [hrem] at this
        cases this
      · refine .stays hi hlo (by omega) (.finished (fun x hx => ?_) fun y hy hstart => ?_)
        · have hx : x ∈ s.rangeStack := hx
          rw [hnil] at hx
          cases hx
        · cases hy
          exact absurd hstart hlo.ne'

theorem left_eq_nil (hcur : s.current = some r) (hstart : r.startIndex = o)
    (hover : r.remains = false) (hp : Pending o k v s left) : left = [] := by
  cases hp with
  | finished => rfl
  | onStack r₀ hr₀ hstart₀ hkey hval hown =>
    rcases State.current_cases hcur with ⟨outer, hstack⟩ | hcur
    · rcases h.nested.eq_or_start_lt hstack hr₀ with rfl | ⟨-, hlt⟩
      · exact drop_index_of_over hover
      · omega
    · exact absurd hstart (hown r hcur)

variable {q : RangeValue} {outer : List RangeValue}

theorem popped (hk : y.is .endExp)
    (hcur : s.current = some r) (hstop : r.endIndex = i) (hover : r.remains = false)
    (hstack : s.rangeStack = q :: outer) (hp : Pending o k v s left)
    (hs' : s'.rangeStack = outer) (hown' : ∀ y, s'.rangeValue ≠ .own y) :
    RoundMove t o e k v y i left i s' := by
  have hlo := h.lo
  rcases h.current_start hcur hstop with ⟨rfl, hstart⟩ | ⟨hi, hgt, -⟩
  · exact .ends hk (.exits (h.left_eq_nil hcur hstart hover hp) rfl (.inl rfl))
  · refine .stays hi (by omega) (by omega) ?_
    cases hp with
    | finished hnot =>
      refine .finished (fun x hx => ?_) fun y hy => absurd hy (hown' y)
      rw [hs'] at hx
      exact hnot x (by rw [hstack]; exact mem_cons_of_mem _ hx)
    | onStack r₀ hr₀ hstart₀ hkey hval hown =>
      rcases h.nested.eq_or_start_lt hstack hr₀ with rfl | ⟨hmem, -⟩
      · -- the range of the round is taken from the stack at the end of a range over nothing
        have halone := h.steady.alone hk r hcur hstop hover r₀ (by rw [hstack]; rfl)
        rw [drop_index_of_over halone]
        refine .finished (fun x hx => ?_) fun y hy => absurd hy (hown' y)
        rw [hs'] at hx
        have hsorted := h.nested.sorted
        rw [hstack, pairwise_cons] at hsorted
        have := hsorted.1 x hx
        omega
      · exact .onStack r₀ (by rw [hs']; exact hmem) hstart₀ hkey hval fun y hy =>
          absurd hy (hown' y)

theorem restartsOuter (hk : y.is .endExp) {r' : RangeValue}
    (hcur : s.current = some r) (hstop : r.endIndex = i) (hover : r.remains = false)
    (hstack : s.rangeStack = q :: r' :: outer) (hkv : r'.value[r'.index]? = some kv)
    (hp : Pending o k v s left) : RoundMove t o e k v y i left r'.startIndex
      { s.popScope.popScope.appendScope.withItem r' kv [] s.popScope.popScope.varTemp with
        rangeStack := r'.advance :: outer, rangeValue := .top } := by
  have hlo := h.lo
  obtain ⟨hend, honly⟩ := h.steady.round hk r' (outerRound_eq hcur hstop hover hstack hkv)
  have hmem : r' ∈ s.rangeStack := by rw [hstack]; simp
  have hok := h.nested.ok r' (State.mem_ranges_of_mem_stack hmem)
  have hsorted := h.nested.sorted
  rw [hstack, pairwise_cons, pairwise_cons] at hsorted
  have hq := hsorted.1 r' mem_cons_self
  rcases h.current_start hcur hstop with ⟨rfl, hstart⟩ | ⟨hi, hgt, -⟩
  · -- behind the range of the round, which lies within the other one
    have hlt : r'.startIndex < o := by
      rw [← hstart]
      exact h.enclosed.outer_start h.nested hcur hstack mem_cons_self
    obtain ⟨o', j, ho', hj, -⟩ := h.built.exists_target hok.targeted
    have hend' := hok.endIndex_eq
    rw [ho'] at hend'
    exact .ends hk (.exits (h.left_eq_nil hcur hstart hover hp) rfl
      (.inr ⟨o', by omega, ho', by omega, honly⟩))
  · have hstart' : r'.startIndex = o ∨ (o : ℤ) < r'.startIndex ∧ r'.startIndex < r'.endIndex := by
      by_cases heq : r'.startIndex = o
      · exact .inl heq
      · exact .inr (hok.start_gt h.built h.target (by omega) (by omega) heq)
    cases hp with
    | finished hnot =>
      have hne := hnot r' hmem
      obtain ⟨hlo', hhi'⟩ := hstart'.resolve_left hne
      refine .stays hi hlo' (by omega) (.finished (fun x hx => ?_) fun y hy => by cases hy)
      rcases mem_cons.mp hx with rfl | hx
      · exact hne
      · exact hnot x (by rw [hstack]; simp [hx])
    | onStack r₀ hr₀ hstart₀ hkey hval hown =>
      rcases h.nested.eq_or_start_lt hstack hr₀ with rfl | ⟨hr₀, -⟩
      · omega
      · rcases mem_cons.mp hr₀ with rfl | hr₀
        · -- the range of the round itself, whose end comes next
          have heq := (hok.end_iff h.built h.target).mpr hstart₀
          subst hkey hval
          refine .ends hk
            (.again kv _ (drop_index hkv) hstart₀ (.inr ⟨by omega, ?_⟩) (Bound.withItem ..) ?_)
          · rw [← heq, hend]
            exact honly
          · exact .onStack r₀.advance mem_cons_self hstart₀ rfl rfl fun y hy => by cases hy
        · have hlt := hsorted.2.1 r₀ hr₀
          obtain ⟨hlo', hhi'⟩ := hstart'.resolve_left (by omega)
          refine .stays hi hlo' (by omega) ?_
          exact .onStack r₀ (mem_cons_of_mem _ hr₀) hstart₀ hkey hval fun y hy => by cases hy

end RoundStage

theorem Moves.pending (hm : Moves H t i y out err s idx' s') (h : RoundStage t o e i y s)
    (hp : Pending o k v s left) : RoundMove t o e k v y i left idx' s' := by
  have hlo := h.lo
  -- a stage that is no `end` and does not change the ranges of the round
  have hplain : ∀ s', Pending o k v s' left → y.is .endExp = false →
      RoundMove t o e k v y i left i s' := by
    intro s' hp' hend
    rcases h.hi.lt_or_eq with hi | hi
    · exact .stays hi (by omega) (by omega) hp'
    · exact .goesOn hi (by omega) hend hp'
  cases hm with
  | plain _ hend _ => exact hplain _ hp hend
  | breaks hk =>
    refine hplain _ ?_ (Expression.not_is hk (by decide))
    cases hp with
    | finished hnot => exact .finished hnot fun y hy => by cases hy
    | onStack r₀ hr₀ =>
      have hne : s.rangeStack ≠ [] := ne_nil_of_mem hr₀
      have := (h.steady.inner hne).2
      rw [hk] at this
      cases this
  | skipped r hr _ hvalue =>
    have hne := h.steady.targeted (.inr (.inr hr.isRange))
    have hbetween := h.built.target_between h.target (by omega)
      (by have := h.lt_of_target hne; omega) hne
    refine .stays (h.lt_of_target hne) (by omega) (by omega) ?_
    have hstart := hr.startIndex_eq
    cases hp with
    | finished hnot =>
      refine .finished hnot fun y hy hy' => ?_
      cases hy
      omega
    | onStack r₀ hr₀ hstart₀ hkey hval _ =>
      refine .onStack r₀ hr₀ hstart₀ hkey hval fun y hy hy' => ?_
      cases hy
      omega
  | entered r hr _ kv kvs _ scope outer _ =>
    have hstart := hr.startIndex_eq
    refine hplain _ ?_ (Expression.not_is hr.isRange (by decide))
    cases hp with
    | finished hnot =>
      refine .finished (fun x hx => ?_) fun y hy => by cases hy
      rcases mem_cons.mp hx with rfl | hx
      · show r.startIndex ≠ o
        omega
      · exact hnot x hx
    | onStack r₀ hr₀ hstart₀ hkey hval _ =>
      exact .onStack r₀ (mem_cons_of_mem _ hr₀) hstart₀ hkey hval fun y hy => by cases hy
  | endsBlock hk hcur =>
    rcases h.hi.lt_or_eq with hi | hi
    · exact .stays hi (by omega) (by omega) (hp.congr ⟨rfl, rfl⟩)
    · -- the range of the round would be the current one if it were on the stack
      refine .ends hk (.exits ?_ hi (.inl (by omega)))
      cases hp with
      | finished => rfl
      | onStack r₀ hr₀ hstart₀ =>
        have hok := h.nested.ok r₀ (State.mem_ranges_of_mem_stack hr₀)
        have hend := (hok.end_iff h.built h.target).mpr hstart₀
        obtain ⟨r, hr, hstop⟩ := h.enclosed.current_of_end h.nested h.built hr₀ (by omega)
        exact absurd hstop (hcur r hr)
  | restarts hk r hcur hstop kv hkv => exact h.restarts hk hcur hstop hkv hp
  | endsOwn hk r hcur hstop hover hstack =>
    cases hp with
    | onStack r₀ hr₀ => rw [hstack] at hr₀; cases hr₀
    | finished hnot hown =>
      rcases h.hi.lt_or_eq with hi | hi
      · exact .stays hi (by omega) (by omega) (.finished hnot hown)
      · exact .ends hk (.exits rfl hi (.inl (by omega)))
  | endsLast hk r q hcur hstop hover hstack | endsInner hk r q r' outer hcur hstop hover hstack _ =>
    exact h.popped hk hcur hstop hover hstack hp rfl fun y hy => by cases hy
  | restartsOuter hk r q r' outer hcur hstop hover hstack kv hkv =>
    exact h.restartsOuter hk hcur hstop hover hstack hkv hp

theorem RoundEnd.exits_of_nil (h : RoundEnd t o e k v i [] idx' s') :
    Exits t o e (endOfRow idx' s') := by
  refine ⟨{ s' with expInput := some [] }, ?_⟩
  unfold endOfRow
  cases h with
  | again _ _ hleft => cases hleft
  | exits _ _ hidx =>
    rcases hidx with rfl | ⟨o', ho', rfl, htarget, honly⟩
    · exact .inl rfl
    · exact .inr ⟨o', ho', htarget, honly, rfl⟩

/-! ## Runs through a round -/

structure Looping (H : Host) (t : Program) (s₀ : State) (o e : ℕ) : Prop where
  started : Started H t s₀
  fits : t.Fits
  steady : ∀ p, Visits H t s₀ p → p.Steady t
  target : Target t.marks o e
  closes : t.closesAt e

namespace Looping

variable {s₀ : State} {p q : Point} (h : Looping H t s₀ o e)

include h

theorem sound (hp : Visits H t s₀ p) : p.Sound t :=
  hp.sound h.started h.fits fun q hq => (h.steady q hq).orderly.targeted

theorem enclosed (hp : Visits H t s₀ p) : p.Enclosed t := hp.enclosed h.started h.fits h.steady

theorem rest_ne_nil {edx : ℕ} {rest : Row} {exp : Row} (hexp : t.exps[e]? = some exp)
    (hlast : EndsLast exp) (he : exp[edx]? = some y) (hrest : rest = exp.drop (edx + 1))
    (hend : y.is .endExp = false) : rest ≠ [] := by
  intro hnil
  rw [hrest] at hnil
  have hnot := hlast.not_closes he (drop_eq_nil_iff.mp hnil) hend
  have hclose : (t.marks[e]? == some (some .closes)) := h.closes
  rw [marks_getElem? hexp] at hclose
  exact hnot (by simpa using hclose)

theorem step_cases (hvisit : Visits H t s₀ p) (hp : p.InBody o e)
    (hpend : Pending o k v p.state left) (hstep : Steps (step H t) p q) :
    (q.InRound o e ∧ Pending o k v q.state left ∧ (p.rowNo = e → q.rowNo = e)) ∨
      ∃ i edx y s idx' s', p = .stage i i edx [y] s ∧ q = .stage i idx' (edx + 1) [] s' ∧
        y.is .endExp ∧ RoundEnd t o e k v i left idx' s' := by
  have hb := h.started.built
  have hsound := h.sound hvisit
  have henc := h.enclosed hvisit
  have hsteady := h.steady p hvisit
  cases p with
  | row i expIdx s =>
    obtain ⟨exp, hexp, rfl⟩ := follows_row (.inl hstep)
    obtain ⟨hlo, hhi, rfl⟩ := hp
    have hsame := SameRanges.openScope exp s
    refine .inl ⟨⟨⟨hlo, ?_⟩, fun s' heq => by cases heq⟩, hpend.congr hsame, id⟩
    rcases hhi.lt_or_eq with hlt | rfl
    · exact .inl ⟨hlt, by omega, by omega⟩
    · -- the last row is not empty
      refine .inr ⟨rfl, rfl, fun hnil => ?_⟩
      have hempty : exp = [] := by simpa using hnil
      have hclose : (t.marks[i]? == some (some .closes)) := h.closes
      rw [marks_getElem? hexp, hempty] at hclose
      cases hclose
  | stage i idx edx rest s =>
    obtain ⟨⟨exp, hexp, hrest⟩, hn, -⟩ := id hsound
    obtain ⟨hlo, hp⟩ := hp
    cases rest with
    | nil =>
      rw [follows_nil (.inl hstep)]
      obtain ⟨hi, hlo', hhi'⟩ := hp.resolve_right fun hp => hp.2.2 rfl
      refine .inl ⟨⟨⟨by omega, by omega, rfl⟩, fun s' heq => ?_⟩, hpend.congr ⟨rfl, rfl⟩, ?_⟩
      · have := (Point.row.inj heq).1
        omega
      · intro hrow
        exact absurd hrow hi.ne
    | cons y rest =>
      obtain ⟨rfl, henc⟩ := henc
      obtain ⟨hlast, hstage⟩ := hsteady
      have hlast := hlast exp hexp
      obtain ⟨he, hrest⟩ := getElem?_of_drop hrest
      have hi : i ≤ e := by omega
      have hround : RoundStage t o e i y s := ⟨hb, h.target, h.closes, henc, hn, hstage, hlo, hi⟩
      -- a stage that is no `end` goes on with its row
      have hnext : y.is .endExp = false →
          ∀ s', Point.InRound o e (.stage i i (edx + 1) rest s') := by
        intro hend s'
        refine ⟨⟨hlo, ?_⟩, fun s' heq => by cases heq⟩
        rcases hi.lt_or_eq with hlt | rfl
        · exact .inl ⟨hlt, by omega, by omega⟩
        · exact .inr ⟨rfl, rfl, h.rest_ne_nil hexp hlast he hrest hend⟩
      cases steps_stage hstep with
      | sends s' hs =>
        obtain ⟨v', vs, m, reciever, -, -, rfl⟩ := hs.sent
        exact .inl ⟨hnext (Expression.not_is_of_isSend hs.isSend rfl) _, hpend.congr ⟨rfl, rfl⟩, id⟩
      | continues idx' s' hcont =>
        obtain ⟨out, m, s₁, -, hm, rfl, -⟩ := hcont.moved
        have hsame : SameRanges s { s with toMem := m } := ⟨rfl, rfl⟩
        have hsame' : SameRanges s₁ { s₁ with expInput := out } := ⟨rfl, rfl⟩
        cases hm.pending (hround.congr hsame) (hpend.congr hsame) with
        | stays hlt hlo' hhi' hpend' =>
          exact .inl ⟨⟨⟨hlo, .inl ⟨hlt, hlo', hhi'⟩⟩, fun s' heq => by cases heq⟩,
            hpend'.congr hsame', id⟩
        | goesOn hi' hidx hend hpend' =>
          obtain rfl : idx' = i := by omega
          exact .inl ⟨hnext hend _, hpend'.congr hsame', id⟩
        | ends hend hround' =>
          have hnil : rest = [] := by rw [hrest, hlast.drop_eq_nil he (.inl hend)]
          subst hnil
          refine .inr ⟨i, edx, y, s, idx', _, rfl, rfl, hend, ?_⟩
          cases hround' with
          | again kv left' hleft hidx hi' hbound hpend' =>
            exact .again kv left' hleft hidx hi' hbound (hpend'.congr hsame')
          | exits hleft hi' hidx => exact .exits hleft hi' hidx
      | leaves idx' s' hleave =>
        obtain ⟨out, err, s₁, idx₁, hx, hm, hj⟩ := hleave.moved
        obtain ⟨rfl, -⟩ := hj.not_moved hx hm
        obtain ⟨hne, hdest⟩ := hj.dest fun hk => hstage.targeted (hk.imp_right .inl)
        have hsame : SameRanges s s₁ := by cases hx <;> exact ⟨rfl, rfl⟩
        have hlt := hround.lt_of_target hne
        have hbetween := hb.target_between h.target (by omega) (by omega) hne
        refine .inl ⟨⟨⟨by omega, by omega, rfl⟩, fun s'' heq => ?_⟩, ?_,
          fun hrow => absurd hrow hlt.ne⟩
        · have := (Point.row.inj heq).1
          omega
        · cases hm.pending (hround.congr hsame) (hpend.congr hsame) with
          | stays _ _ _ hpend' => exact hpend'.congr ⟨rfl, rfl⟩
          | goesOn hi' => omega
          | ends _ hend =>
            cases hend with
            | again _ _ _ hidx | exits _ hi' => omega

theorem exists_end (hvisit : Visits H t s₀ p) (hp : p.InBody o e)
    (hpend : Pending o k v p.state left)
    (hruns : ∀ q, Reaches (step H t) p q → o ≤ q.rowNo → q.rowNo ≤ e → ∃ r, Steps (step H t) q r) :
    ∃ i edx y s idx' s', Along (step H t) (fun a => (a = p ∨ a.InRound o e) ∧
          (p.rowNo = e → a.rowNo = e)) p (.stage i i edx [y] s) ∧ y.is .endExp ∧
        Steps (step H t) (.stage i i edx [y] s) (.stage i idx' (edx + 1) [] s') ∧
        (p.rowNo = e → i = e) ∧ RoundEnd t o e k v i left idx' s' := by
  have hb := h.started.built
  have hbody : ∀ a, a = p ∨ a.InRound o e → a.InBody o e := fun a ha =>
    ha.elim (fun heq => heq ▸ hp) And.left
  -- the call ends, and it does not end within the round
  obtain ⟨f, q, hreach, hend⟩ := exists_ends hb (h.sound hvisit) fun q hq =>
    (h.steady q (hvisit.reaches hq)).orderly.targeted
  have hq : ¬ (((q = p ∨ q.InRound o e) ∧ (p.rowNo = e → q.rowNo = e)) ∧
      Pending o k v q.state left) := by
    rintro ⟨⟨hq, -⟩, -⟩
    have hrows : o ≤ q.rowNo ∧ q.rowNo ≤ e := by
      have hin := hbody q hq
      cases q with
      | row => exact ⟨hin.1.le, hin.2.1⟩
      | stage => exact ⟨hin.1.le, hin.2.elim (·.1.le) (·.1.le)⟩
    obtain ⟨r, hr⟩ := hruns q hreach hrows.1 hrows.2
    cases hend.symm.trans hr
  obtain ⟨a, b, halong, ⟨⟨ha, harow⟩, hapend⟩, hab, hnot⟩ :=
    hreach.exists_exit (C := fun a => ((a = p ∨ a.InRound o e) ∧ (p.rowNo = e → a.rowNo = e)) ∧
      Pending o k v a.state left) ⟨⟨.inl rfl, id⟩, hpend⟩ hq
  have havisit := hvisit.reaches halong.reaches
  rcases h.step_cases havisit (hbody a ha) hapend hab with
    ⟨hin, hbpend, hrow⟩ | ⟨i, edx, y, s, idx', s', rfl, rfl, hy, hround⟩
  · exact absurd ⟨⟨.inr hin, fun heq => hrow (harow heq)⟩, hbpend⟩ hnot
  · exact ⟨i, edx, y, s, idx', s',
      mono (fun _ _ hstep => ⟨hstep.1.1, hstep.2⟩)
      _ _ halong, hy, hab, harow, hround⟩

theorem exists_round (hvisit : Visits H t s₀ (.row (o + 1) 0 s)) (hpend : Pending o k v s left)
    (hruns : ∀ q, Reaches (step H t) (.row (o + 1) 0 s) q → o ≤ q.rowNo → q.rowNo ≤ e →
      ∃ r, Steps (step H t) q r) : ∃ i edx idx' s', RoundEnd t o e k v i left idx' s' ∧
      Round H t o e (.row (o + 1) 0 s) (endOfRow idx' s') ∧
      Reaches (step H t) (.row (o + 1) 0 s) (.stage i idx' edx [] s') := by
  obtain ⟨i, edx, y, s₁, idx', s', halong, hy, hstep, -, hround⟩ :=
    h.exists_end hvisit ⟨by omega, h.target.lt, rfl⟩ hpend hruns
  refine ⟨i, edx + 1, idx', s', hround, ⟨i, edx, y, s₁, _, ?_, hy, ?_, hstep, rfl⟩,
    halong.reaches.tail hstep⟩
  · exact mono (fun _ _ hstep => ⟨hstep.1.1, hstep.2⟩) _ _ halong
  · cases hround with
    | again _ _ _ _ hi => exact hi
    | exits _ hi => exact .inl hi

theorem rounds {kv : Kv} (hvisit : Visits H t s₀ (.row (o + 1) 0 s)) (hpend : Pending o k v s left)
    (hbound : Bound k v kv s.varTemp)
    (hruns : ∀ q, Reaches (step H t) (.row (o + 1) 0 s) q → o ≤ q.rowNo → q.rowNo ≤ e →
      ∃ r, Steps (step H t) q r) :
    ∃ q, Rounds H t o e k v (kv :: left) (.row (o + 1) 0 s) q ∧ Exits t o e q := by
  induction left generalizing kv s with
  | nil =>
    obtain ⟨i, edx, idx', s', hend, hround, -⟩ := h.exists_round hvisit hpend hruns
    exact ⟨_, .cons hbound hround (.nil _), hend.exits_of_nil⟩
  | cons kv' left ih =>
    obtain ⟨i, edx, idx', s', hend, hround, hreach⟩ := h.exists_round hvisit hpend hruns
    cases hend with
    | exits hleft => cases hleft
    | again kv'' left' hleft hidx _ hbound' hpend' =>
      cases hleft
      subst hidx
      -- the next round starts at the first row of the body
      have hreach := hreach.tail (show Steps (step H t) _ (endOfRow o s') from rfl)
      obtain ⟨q, hrounds, hexits⟩ := ih (hvisit.reaches hreach) (hpend'.congr ⟨rfl, rfl⟩) hbound'
        fun r hr => hruns r (hreach.trans hr)
      exact ⟨q, .cons hbound hround hrounds, hexits⟩

end Looping

end

/-! ## Ranges -/

/-- A range over nothing goes on to the row before its target, and another one starts its first
round. -/
inductive Opened (t : Program) (o : ℕ) (x : Expression) (s : State) (idx' : ℤ) (s' : State) :
    List Kv → Prop where
  | skipped (r : RangeValue) (hstart : r.startIndex = o) (hover : r.remains = false)
      (hkey : x.params[1]? = some r.keyVar) (hval : x.params[2]? = some r.valueVar)
      (hidx : idx' = t.target o - 1) (hstack : s'.rangeStack = s.rangeStack)
      (hown : s'.rangeValue = .own r) : Opened t o x s idx' s' []
  | entered (r : RangeValue) (kv : Kv) (hstart : r.startIndex = o)
      (hkey : x.params[1]? = some r.keyVar) (hval : x.params[2]? = some r.valueVar)
      (hidx : idx' = o)
      (hstack : s'.rangeStack = r :: s.rangeStack) (htop : s'.rangeValue = .top)
      (hbound : Bound r.keyVar r.valueVar kv s'.varTemp) :
      Opened t o x s idx' s' (kv :: r.value.drop r.index)

variable {rest : Row}

theorem steps_range {H : Host} {t : Program} {o edx : ℕ} {x : Expression} {s : State}
    {q : Point} {items : List Kv} (hx : x.is .rangeExp) (hitems : x.rangeOver H t s = some items)
    (hstep : Steps (step H t) (.stage o o edx (x :: rest) s) q) :
    ∃ idx' s', q = .stage o idx' (edx + 1) rest s' ∧ Opened t o x s idx' s' items := by
  have hnot : ∀ k, k ≠ .rangeExp → x.is k = false := fun k hk => Expression.not_is hx hk.symm
  unfold Expression.rangeOver at hitems
  cases steps_stage hstep with
  | sends s' hs =>
    have := hs.isSend
    simp [Expression.isSend, hnot] at this
  | leaves idx' s' hleave =>
    obtain ⟨out, err, s₁, idx₁, hexec, -, hj⟩ := hleave.moved
    cases hj with
    | elseRow hk | ifFalse hk _ => cases Expression.is_inj hx hk
    | forward hor _ =>
      rcases hor with hout | herr
      · exact absurd hout (hexec.of_range hx)
      · cases hexec with
        | ok => exact absurd rfl herr
        | err msg m hexec => rw [hexec] at hitems; cases hitems
  | continues idx' s' hcont =>
    obtain ⟨out, m, s₁, hexec, hm, rfl, -⟩ := hcont.moved
    refine ⟨idx', _, rfl, ?_⟩
    -- the entries of the range are those of its output
    have hvalue : ∀ r, StartsRange H t o x out { s with toMem := m } r → r.value = items := by
      intro r hr
      obtain ⟨v, hv, hvalue⟩ := hr.items
      rw [hexec] at hitems
      cases out with
      | none => cases hv
      | some vs =>
        cases vs with
        | nil => cases hv
        | cons v' vs =>
          cases hv
          rw [hvalue]
          exact Option.some.inj hitems
    cases hm with
    | plain hrange _ _ => simp [hx] at hrange
    | breaks hk | endsBlock hk | restarts hk | endsOwn hk | endsLast hk | endsInner hk
    | restartsOuter hk => cases Expression.is_inj hx hk
    | skipped r hr _ hnil =>
      rw [← hvalue r hr, hnil]
      refine .skipped r hr.startIndex_eq ?_ hr.key hr.val rfl rfl rfl
      simp [RangeValue.remains, hnil]
    | entered r hr _ kv kvs hcons scope outer _ =>
      have hitems' : items = kv :: r.advance.value.drop r.advance.index := by
        rw [← hvalue r hr, RangeValue.advance, hr.index_eq, hcons]
        rfl
      rw [hitems']
      exact .entered r.advance kv hr.startIndex_eq hr.key hr.val rfl rfl rfl (Bound.withItem ..)

/-- The body of a range is run once for each entry, in order and with its variables bound, and then
the run goes on behind the range. In a steady session this holds of every range, as long as no stage
of its rows ends the call. -/
theorem range_runs_every_item {H : Host} {t : Program} {s₀ : State} (hstart : Started H t s₀)
    (hfits : t.Fits) (hsteady : ∀ p, Visits H t s₀ p → p.Steady t) {o e edx : ℕ} {x : Expression}
    {rest : Row} {s : State} (hvisit : Visits H t s₀ (.stage o o edx (x :: rest) s))
    (hx : x.is .rangeExp) (htarget : t.target o = e) {items : List Kv}
    (hitems : x.rangeOver H t s = some items)
    (hruns : ∀ q, Reaches (step H t) (.stage o o edx (x :: rest) s) q → o ≤ q.rowNo → q.rowNo ≤ e →
      ∃ r, Steps (step H t) q r) : ∃ k v, x.params[1]? = some k ∧ x.params[2]? = some v ∧
      ∃ p q, Along (step H t) (fun a => a.rowNo = o ∨ a.rowNo = e)
          (.stage o o edx (x :: rest) s) p ∧ Rounds H t o e k v items p q ∧ Exits t o e q := by
  obtain ⟨hlast, hstage⟩ := hsteady _ hvisit
  obtain ⟨⟨exp, hexp, hrest⟩, -, -⟩ := hvisit.sound hstart hfits fun q hq =>
    (hsteady q hq).orderly.targeted
  have henc := (hvisit.enclosed hstart hfits hsteady).2
  have hne := hstage.targeted (.inr (.inr hx))
  obtain ⟨o', e', ho', he', htarg⟩ := hstart.built.exists_target hne
  obtain rfl : o' = o := by omega
  obtain rfl : e' = e := by omega
  have h : Looping H t s₀ o' e' :=
    ⟨hstart, hfits, hsteady, htarg, by rw [← htarget]; exact hstage.closes hx⟩
  -- the range is the last stage of its row
  obtain ⟨hget, hrest⟩ := getElem?_of_drop hrest
  have hnil : rest = [] := by rw [hrest, (hlast exp hexp).drop_eq_nil hget (.inr hx)]
  subst hnil
  obtain ⟨p₁, hstep⟩ := hruns _ .refl le_rfl htarg.lt.le
  obtain ⟨idx', s', rfl, hopened⟩ := steps_range hx hitems hstep
  have hstep' : Steps (step H t) (.stage o' idx' (edx + 1) [] s') (endOfRow idx' s') := rfl
  have hreach := (Steps.reaches hstep).tail hstep'
  have halong : Along (step H t) (fun a => a.rowNo = o' ∨ a.rowNo = e')
      (.stage o' o' edx [x] s) (endOfRow idx' s') :=
    (single ⟨.inl rfl, hstep⟩).tail ⟨.inl rfl, hstep'⟩
  have hvisit' := hvisit.reaches hreach
  have hruns' := fun q hq => hruns q (hreach.trans hq)
  cases hopened with
  | entered r kv hstart' hkey hval hidx hstack htop hbound =>
    subst hidx
    have hpend : Pending o' r.keyVar r.valueVar { s' with expInput := some [] }
        (r.value.drop r.index) :=
      .onStack r (hstack ▸ mem_cons_self) hstart' rfl rfl
        fun y hy => by cases htop.symm.trans hy
    obtain ⟨q, hrounds, hexits⟩ := h.rounds hvisit' hpend hbound hruns'
    exact ⟨_, _, hkey, hval, _, q, halong, hrounds, hexits⟩
  | skipped r hstart' hover hkey hval hidx hstack hown =>
    have hlt := htarg.lt
    have hrow : endOfRow idx' s' = .row e' 0 { s' with expInput := some [] } := by
      unfold endOfRow
      rw [show (idx' + 1).toNat = e' by omega]
    rw [hrow] at hvisit' hruns' halong
    have hpend : Pending o' r.keyVar r.valueVar { s' with expInput := some [] } [] := by
      refine .finished (fun y hy => ?_) fun y hy _ => ?_
      · have hy : y ∈ s.rangeStack := hstack ▸ hy
        exact (henc.stack y hy).1.ne
      · have hy : s'.rangeValue = .own y := hy
        rw [← RangePtr.own.inj (hown.symm.trans hy)]
        exact hover
    -- the row of the `end` is run, and none of the body
    obtain ⟨i, edx', y, s₁, idx'', s'', halong', -, hstep'', hi, hend⟩ :=
      h.exists_end hvisit' ⟨hlt, le_rfl, rfl⟩ hpend hruns'
    obtain rfl := hi rfl
    refine ⟨_, _, hkey, hval, _, _, ?_, .nil _, hend.exits_of_nil⟩
    refine ((halong.trans ?_).tail ⟨.inr rfl, hstep''⟩).tail ⟨.inr rfl, rfl⟩
    exact mono (fun _ _ hab => ⟨.inr (hab.1.2 rfl), hab.2⟩) _ _ halong'

/-! ## Runs on the plain host -/

def Point.isAt (i : ℕ) (rest : Row) : Point → Bool
  | .row _ _ _ => false
  | .stage j idx _ rest' _ => j == i && idx == i && rest' == rest

theorem Point.eq_of_isAt {i : ℕ} {p : Point} (h : p.isAt i rest) :
    ∃ edx, p = .stage i i edx rest p.state := by
  cases p with
  | row => cases h
  | stage j idx edx rest' s =>
    simp only [Point.isAt, Bool.and_eq_true, beq_iff_eq] at h
    obtain ⟨⟨rfl, rfl⟩, rfl⟩ := h
    exact ⟨edx, rfl⟩

def rangeA : Expression := ⟨"range", [".a", ".k", ".v"]⟩

/-- The inner range is the last of the body: the body of the outer one is run twice. -/
theorem range_runs_two_items : ∃ t s₀ edx s items,
    plainRun ["define .a array | push (1) | push (2) | .a", "range .a .k .v", "send _ping x_task",
      "range .a .i .w", "end", "end", "end"] = some (t, s₀) ∧
    Visits plainHost t s₀ (.stage 1 1 edx [rangeA] s) ∧
    rangeA.rangeOver plainHost t s = some items ∧ items.length = 2 ∧
    ∃ k v, rangeA.params[1]? = some k ∧ rangeA.params[2]? = some v ∧
      ∃ p q, Along (step plainHost t) (fun a => a.rowNo = 1 ∨ a.rowNo = 5)
          (.stage 1 1 edx [rangeA] s) p ∧ Rounds plainHost t 1 5 k v items p q ∧ Exits t 1 5 q := by
  have hcheck : (plainRun ["define .a array | push (1) | push (2) | .a", "range .a .k .v",
      "send _ping x_task", "range .a .i .w", "end", "end", "end"]).any (fun p =>
        decide p.1.Fits && decide (p.1.target 1 = 5) &&
        visitAt p.1 p.2 7 (fun q =>
          q.isAt 1 [rangeA] && (rangeA.rangeOver plainHost p.1 q.state).any (·.length == 2)) &&
        everyVisit p.1 p.2 60 fun q =>
          q.Steady p.1 ∧ (q.rowNo ≤ 5 → (step plainHost p.1 q).isRight)) := by
    decide +kernel
  obtain ⟨⟨t, s₀⟩, hrun, hcheck⟩ := exists_of_any hcheck
  simp only [Bool.and_eq_true, decide_eq_true_eq] at hcheck
  obtain ⟨⟨⟨hfits, htarget⟩, hafter⟩, hvisits⟩ := hcheck
  obtain ⟨p, hvisit, hat⟩ := exists_of_visitAt hafter
  obtain ⟨hat, hover⟩ := Bool.and_eq_true_iff.mp hat
  obtain ⟨items, hitems, hlen⟩ := exists_of_any hover
  obtain ⟨edx, hp⟩ := Point.eq_of_isAt hat
  rw [hp] at hvisit
  refine ⟨t, s₀, edx, p.state, items, hrun, hvisit, hitems, by simpa using hlen, ?_⟩
  refine range_runs_every_item (plainRun_started hrun) hfits
    (fun q hq => (of_everyVisit hvisits hq).1) hvisit (by decide) htarget hitems
    fun q hq _ hle => ?_
  exact Sum.isRight_iff.mp ((of_everyVisit hvisits (hvisit.reaches hq)).2 hle)

/-- With a row behind the inner range, the call sends once: the `end` of the inner range starts the
second round of the outer one. -/
theorem range_skips_rows : ∃ t s₀ s items s',
    plainRun ["define .a array | push (1) | push (2) | .a", "range .a .k .v", "range .a .i .w",
      "end",
      "send _ping x_task", "end", "end"] = some (t, s₀) ∧
    (∃ edx, Visits plainHost t s₀ (.stage 1 1 edx [rangeA] s)) ∧
    rangeA.rangeOver plainHost t s = some items ∧ items.length = 2 ∧
    (∃ fuel, execute plainHost t fuel s₀ = some (.done s')) ∧
    s'.logs.length = 0 ∧ s'.deliverFlows.length = 1 := by
  have hcheck : (plainRun ["define .a array | push (1) | push (2) | .a", "range .a .k .v",
      "range .a .i .w", "end", "send _ping x_task", "end", "end"]).any (fun p =>
        visitAt p.1 p.2 7 (fun q =>
          q.isAt 1 [rangeA] && (rangeA.rangeOver plainHost p.1 q.state).any (·.length == 2)) &&
        (execute plainHost p.1 30 p.2).any fun f => f.done?.any fun s' =>
          s'.logs.length == 0 && s'.deliverFlows.length == 1) := by
    decide +kernel
  obtain ⟨⟨t, s₀⟩, hrun, hcheck⟩ := exists_of_any hcheck
  obtain ⟨hafter, hdone⟩ := Bool.and_eq_true_iff.mp hcheck
  obtain ⟨p, hvisit, hat⟩ := exists_of_visitAt hafter
  obtain ⟨hat, hover⟩ := Bool.and_eq_true_iff.mp hat
  obtain ⟨items, hitems, hlen⟩ := exists_of_any hover
  obtain ⟨edx, hp⟩ := Point.eq_of_isAt hat
  rw [hp] at hvisit
  obtain ⟨f, hf, hdone⟩ := exists_of_any hdone
  obtain ⟨s', hs', hsent⟩ := exists_of_any hdone
  obtain ⟨hlogs, hflows⟩ := Bool.and_eq_true_iff.mp hsent
  refine ⟨t, s₀, p.state, items, s', hrun, ⟨edx, hvisit⟩, hitems, by simpa using hlen, ⟨30, ?_⟩,
    by simpa using hlogs, by simpa using hflows⟩
  rw [hf, Final.eq_done hs']

end Kairos
