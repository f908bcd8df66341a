import Mathlib.Data.List.Lex
import Mathlib.Data.Char
import Kairos.Template.Expressions

/-!
# The conditions of `if` and `elseif`

`CompareStringsAndNumbers` agrees with the order of the values except for `gt` on equal strings. The
condition of `if` and `elseif` with an operator calls it with `eq`, whatever the operator is
(`execIf_compares`).
-/

namespace Kairos

open Effects (Comp Eff)

namespace Float64

/-- The place of a `float64` in their order: the bits below the sign, and both zeros are 0. -/
def order (x : Float64) : ℤ :=
  if x.toNat < 2 ^ 63 then (x.toNat % 2 ^ 63 : ℕ) else -(x.toNat % 2 ^ 63 : ℕ)

def lt (x y : Float64) : Bool := !isNaN x && !isNaN y && decide (order x < order y)

def le (x y : Float64) : Bool := !isNaN x && !isNaN y && decide (order x ≤ order y)

variable {x : Float64}

theorem isNaN_of_not_isSpecial (hx : x.isSpecial = false) : x.isNaN = false := by
  unfold isNaN
  rw [hx, Bool.false_and]

theorem isZero_iff (x : Float64) : x.isZero ↔ x.toNat % 2 ^ 63 = 0 := by
  unfold isZero
  rw [beq_iff_eq, ← BitVec.toNat_inj]
  simp

variable {y : Float64}

theorem eq_iff_order (hx : x.isSpecial = false) (hy : y.isSpecial = false) :
    x.eq y ↔ x.order = y.order := by
  have hxlt : x.toNat < 2 ^ 64 := x.isLt
  have hylt : y.toNat < 2 ^ 64 := y.isLt
  unfold eq
  rw [isNaN_of_not_isSpecial hx, isNaN_of_not_isSpecial hy]
  simp only [Bool.not_false, Bool.true_and, Bool.or_eq_true, Bool.and_eq_true, beq_iff_eq,
    isZero_iff]
  rw [← BitVec.toNat_inj]
  unfold order
  split_ifs <;> omega

end Float64

/-! ## The operators -/

inductive CompareOp where
  | eq
  | ne
  | lt
  | le
  | gt
  | ge
deriving DecidableEq

namespace CompareOp

def text : CompareOp → GoString
  | eq => "eq"
  | ne => "ne"
  | lt => "lt"
  | le => "le"
  | gt => "gt"
  | ge => "ge"

/-- The operators are those of `COMPARE_EXP`. -/
example : [eq, ne, lt, le, gt, ge].map text = compareExp := rfl

def isOrder : CompareOp → Bool
  | eq => false
  | ne => false
  | _ => true

section

variable {α : Type} [LinearOrder α]

def holds (op : CompareOp) (a b : α) : Bool :=
  match op with
  | eq => decide (a = b)
  | ne => decide (a ≠ b)
  | lt => decide (a < b)
  | le => decide (a ≤ b)
  | gt => decide (b < a)
  | ge => decide (b ≤ a)

def MatchesEq (op : CompareOp) (a b : α) : Prop :=
  match op with
  | eq => True
  | ne => False
  | lt => b < a
  | le => b ≤ a
  | gt => a < b
  | ge => a ≤ b

theorem holds_eq_iff (op : CompareOp) (a b : α) :
    holds op a b = holds .eq a b ↔ op.MatchesEq a b := by
  have hdecide : holds op a b = holds .eq a b ↔ (holds op a b ↔ a = b) := by
    rw [Bool.eq_iff_iff, show (holds .eq a b ↔ a = b) from decide_eq_true_iff]
  rw [hdecide]
  cases op with
  | eq | ne => simp [holds, MatchesEq]
  | lt =>
    simp only [holds, MatchesEq, decide_eq_true_eq]
    constructor
    · intro h
      refine lt_of_le_of_ne (not_lt.mp fun hab => hab.ne (h.mp hab)) fun hba => ?_
      exact (h.mpr hba.symm).ne hba.symm
    · exact fun hba => ⟨fun hab => absurd hab hba.not_gt, fun hab => absurd hab hba.ne'⟩
  | le =>
    simp only [holds, MatchesEq, decide_eq_true_eq]
    exact ⟨fun h => (le_total a b).elim (fun hab => (h.mp hab).ge) id,
      fun hba => ⟨fun hab => le_antisymm hab hba, fun hab => hab.le⟩⟩
  | gt =>
    simp only [holds, MatchesEq, decide_eq_true_eq]
    constructor
    · intro h
      refine lt_of_le_of_ne (not_lt.mp fun hba => hba.ne' (h.mp hba)) fun hab => ?_
      exact (h.mpr hab).ne hab.symm
    · exact fun hab => ⟨fun hba => absurd hba hab.not_gt, fun h => absurd h hab.ne⟩
  | ge =>
    simp only [holds, MatchesEq, decide_eq_true_eq]
    exact ⟨fun h => (le_total b a).elim (fun hba => (h.mp hba).le) id,
      fun hab => ⟨fun hba => le_antisymm hab hba, fun h => h.ge⟩⟩

end

def expected (op : CompareOp) : Val → Val → Option Bool
  | .str s, .str t => some (op.holds s t)
  | .float x, .float y =>
    if x.isSpecial || y.isSpecial then none else some (op.holds x.order y.order)
  | _, _ => none

end CompareOp

def Val.mixed : Val → Val → Bool
  | .str _, .float x => !x.isSpecial
  | .float x, .str _ => !x.isSpecial
  | _, _ => false

/-! ## `CompareStringsAndNumbers` -/

section

variable (H : Host)

def typeMismatch (a b : Val) : GoString :=
  errorf "Type mismatch: " (H.typeName a) " and " ++ H.typeName b

def compareStrings (s t : GoString) (operator : GoString) : Bool :=
  let cmp := decide (s < t)
  if operator = "lt" then cmp
  else if operator = "le" then cmp || s == t
  else if operator = "gt" then !cmp
  else !cmp || s == t

def compareFloats (x y : Float64) (operator : GoString) : Bool :=
  if operator = "lt" then x.lt y
  else if operator = "le" then x.le y
  else if operator = "gt" then y.lt x
  else y.le x

def compareStringsAndNumbers (a b : Val) (operator : GoString) : Eval Bool :=
  if operator = "eq".toList then do
    let m ← Comp.get
    pure (deepEqual m.heap a b)
  else if operator = "ne".toList then do
    let m ← Comp.get
    pure (!deepEqual m.heap a b)
  else if ["lt".toList, "le".toList, "gt".toList, "ge".toList].contains operator then
    match a, b with
    | .str s, .str t => pure (compareStrings s t operator)
    | .str _, _ => Comp.fail (typeMismatch H a b)
    | .float x, .float y => pure (compareFloats x y operator)
    | .float _, _ => Comp.fail (typeMismatch H a b)
    -- the assertion of `float64` fails on integers
    | .int _, .int _ => Comp.crash
    | .int _, _ => Comp.fail (typeMismatch H a b)
    | .int64 _, .int64 _ => Comp.crash
    | .int64 _, _ => Comp.fail (typeMismatch H a b)
    | _, _ => Comp.fail (errorf "Unsupported type: " (H.typeName a) "")
  else Comp.fail (errorf "Unsupported operator: " operator "")

variable {H} {op : CompareOp} {a b : Val} {r : Bool}

theorem CompareOp.expected_cases (h : op.expected a b = some r) :
    (∃ s t, a = .str s ∧ b = .str t ∧ r = op.holds s t) ∨
      ∃ x y, a = .float x ∧ b = .float y ∧ x.isSpecial = false ∧ y.isSpecial = false ∧
        r = op.holds x.order y.order := by
  unfold CompareOp.expected at h
  split at h
  · exact .inl ⟨_, _, rfl, rfl, (Option.some.inj h).symm⟩
  · next x y =>
    split_ifs at h with hspecial
    rw [Bool.not_eq_true, Bool.or_eq_false_iff] at hspecial
    exact .inr ⟨x, y, rfl, rfl, hspecial.1, hspecial.2, (Option.some.inj h).symm⟩
  · cases h

theorem deepEqual_eq_expected (heap : Heap) (h : CompareOp.eq.expected a b = some r) :
    deepEqual heap a b = r := by
  obtain ⟨fuel, hfuel⟩ : ∃ fuel, heap.size * heap.size = fuel + 1 :=
    Nat.exists_eq_succ_of_ne_zero (Nat.mul_ne_zero (Nat.succ_ne_zero _) (Nat.succ_ne_zero _))
  unfold deepEqual
  rw [hfuel]
  rcases CompareOp.expected_cases h with ⟨s, t, rfl, rfl, rfl⟩ | ⟨x, y, rfl, rfl, hx, hy, rfl⟩
  · show (Val.str s == Val.str t) = CompareOp.eq.holds s t
    rw [Bool.eq_iff_iff, beq_iff_eq, Val.str.injEq]
    simp only [CompareOp.holds, decide_eq_true_eq]
  · show x.eq y = CompareOp.eq.holds x.order y.order
    rw [Bool.eq_iff_iff, Float64.eq_iff_order hx hy, CompareOp.holds, decide_eq_true_iff]

end

section

variable (H : Host) (env : ExecEnv)

theorem execIf_compares (isIf : Bool) (operator a b : GoString) :
    execIf H env isIf [operator, a, b] = (do
      let mp ← setValue H env [a, b]
      let r ← compareStringsAndNumbers H (mpGet mp a) (mpGet mp b) CompareOp.eq.text
      pure (some [.bool r])) := rfl

/-- The condition `op a b` of `e` on `v` and `w` ends as it should: with what `op` says of two
strings or two numbers, and with an error for the order of a string and a number. -/
structure ConditionCorrect (e : Expression) (input : Out) (op : CompareOp) (v w : Val) (m : Mem) :
    Prop where
  value : ∀ r, op.expected v w = some r →
    ∃ m', e.execute H env input m = .ok (some [.bool r]) m'
  mismatch : op.isOrder → v.mixed w →
    ∃ msg m', e.execute H env input m = .err msg m'

def CompareOp.Agrees (op : CompareOp) : Val → Val → Prop
  | .str s, .str t => op.MatchesEq s t
  | .float x, .float y =>
    x.isSpecial = false → y.isSpecial = false → op.MatchesEq x.order y.order
  | v, w => v.mixed w → op.isOrder = false

variable {H env} {op : CompareOp} {v w : Val} {r : Bool}

theorem CompareOp.agrees_iff {r' : Bool}
    (h : op.expected v w = some r) (h' : CompareOp.eq.expected v w = some r') :
    r' = r ↔ op.Agrees v w := by
  rcases expected_cases h with ⟨s, t, rfl, rfl, rfl⟩ | ⟨x, y, rfl, rfl, hx, hy, rfl⟩
  · cases h'
    rw [eq_comm, holds_eq_iff]
    rfl
  · rw [expected, hx, hy, Bool.or_false, if_neg (by simp)] at h'
    cases h'
    rw [eq_comm, holds_eq_iff]
    exact ⟨fun hm _ _ => hm, fun hm => hm hx hy⟩

theorem CompareOp.exists_eq_expected
    (h : op.expected v w = some r) : ∃ r', CompareOp.eq.expected v w = some r' := by
  rcases expected_cases h with ⟨s, t, rfl, rfl, -⟩ | ⟨x, y, rfl, rfl, hx, hy, -⟩
  · exact ⟨_, rfl⟩
  · exact ⟨_, by rw [expected, hx, hy, Bool.or_false, if_neg (by simp)]⟩

theorem CompareOp.agrees_iff_of_none (h : op.expected v w = none) :
    op.Agrees v w ↔ (v.mixed w → op.isOrder = false) := by
  unfold Agrees
  split
  · cases h
  · next x y =>
    refine ⟨fun _ hmixed => (nomatch hmixed), fun _ hx hy => ?_⟩
    rw [expected, hx, hy, Bool.or_false, if_neg (by simp)] at h
    cases h
  · rfl

theorem CompareOp.expected_of_mixed (h : v.mixed w) : op.expected v w = none := by
  unfold Val.mixed at h
  split at h
  · rfl
  · rfl
  · cases h

theorem execute_condition {e : Expression} (he : e.is .ifExp ∨ e.is .elseifExp)
    {operator a b : GoString} (hparams : e.params = [operator, a, b]) (input : Out) {m m' : Mem}
    {mp : List Kv} (hset : setValue H env [a, b] m = .ok mp m') : e.execute H env input m =
      .ok (some [.bool (deepEqual m'.heap (mpGet mp a) (mpGet mp b))]) m' := by
  have hif : ∀ isIf, execIf H env isIf [operator, a, b] m =
      .ok (some [.bool (deepEqual m'.heap (mpGet mp a) (mpGet mp b))]) m' := by
    intro isIf
    rw [execIf_compares, Effects.Comp.bind_apply, hset]
    rfl
  unfold Expression.execute
  rcases he with he | he
  · rw [Expression.is_iff.mp he, hparams]
    exact hif true
  · rw [Expression.is_iff.mp he, hparams]
    exact hif false

/-- The condition is right exactly where its operator says what `eq` says: always for `eq`, never
for `ne`, for `lt` where the first operand is greater, for `gt` where it is less, for `le` where it
is not less and for `ge` where it is not greater; and never for a string and a number. -/
theorem condition_correct_iff {e : Expression} (he : e.is .ifExp ∨ e.is .elseifExp)
    {op : CompareOp} {a b : GoString} (hparams : e.params = [op.text, a, b]) (input : Out)
    {m m' : Mem} {mp : List Kv} (hset : setValue H env [a, b] m = .ok mp m') :
    ConditionCorrect H env e input op (mpGet mp a) (mpGet mp b) m ↔
      op.Agrees (mpGet mp a) (mpGet mp b) := by
  have hexec := execute_condition he hparams input hset
  cases hexp : op.expected (mpGet mp a) (mpGet mp b) with
  | some r =>
    obtain ⟨r', hr'⟩ := CompareOp.exists_eq_expected hexp
    rw [deepEqual_eq_expected m'.heap hr'] at hexec
    rw [← CompareOp.agrees_iff hexp hr']
    constructor
    · intro hcorrect
      obtain ⟨m'', hm''⟩ := hcorrect.value r hexp
      rw [hexec] at hm''
      injection hm'' with hout _
      simpa using hout
    · rintro rfl
      refine ⟨fun r hr => ?_, fun _ hmixed => ?_⟩
      · rw [hexp] at hr
        cases hr
        exact ⟨m', hexec⟩
      · rw [CompareOp.expected_of_mixed hmixed] at hexp
        cases hexp
  | none =>
    rw [CompareOp.agrees_iff_of_none hexp]
    constructor
    · intro hcorrect hmixed
      by_contra hop
      obtain ⟨msg, m'', hm''⟩ := hcorrect.mismatch (by simpa using hop) hmixed
      rw [hexec] at hm''
      cases hm''
    · intro hagrees
      refine ⟨fun r hr => ?_, fun hop hmixed => ?_⟩
      · rw [hexp] at hr
        cases hr
      · rw [hagrees hmixed] at hop
        cases hop

def lessCondition : Expression := ⟨"if", ["lt", "(1)", "(2)"]⟩

def lessEqCondition : Expression :=
  ⟨"elseif", ["le", "(\"b\")", "(\"a\")"]⟩

def bareEnv : ExecEnv := ⟨none, [], none⟩

/-- `"b"` is at most `"a"` is right, since they are not equal either. -/
theorem lessEqCondition_correct :
    ConditionCorrect plainHost bareEnv lessEqCondition none .le (.str "b".toList) (.str "a".toList)
      ⟨[], 0, []⟩ := by
  have hparams : lessEqCondition.params =
      [CompareOp.le.text, "(\"b\")".toList, "(\"a\")".toList] := rfl
  have hset : setValue plainHost bareEnv ["(\"b\")".toList, "(\"a\")".toList] ⟨[], 0, []⟩ =
      .ok [⟨"(\"b\")".toList, .str "b".toList⟩, ⟨"(\"a\")".toList, .str "a".toList⟩]
        ⟨[], 0, []⟩ := rfl
  have hle : CompareOp.le.Agrees (.str "b".toList) (.str "a".toList) := by
    show "a".toList ≤ "b".toList
    decide
  exact (condition_correct_iff (.inr rfl) hparams none hset).mpr hle

/-- The condition that 1 is less than 2 is false. -/
theorem lessCondition_false : lessCondition.execute plainHost bareEnv none ⟨[], 0, []⟩ =
        .ok (some [.bool false]) ⟨[], 0, []⟩ ∧
      CompareOp.lt.expected (.float (plainHost.parseFloat "1"))
        (.float (plainHost.parseFloat "2")) = some true ∧
      setValue plainHost bareEnv ["(1)", "(2)"] ⟨[], 0, []⟩ =
        .ok [⟨"(1)", .float (plainHost.parseFloat "1")⟩,
          ⟨"(2)", .float (plainHost.parseFloat "2")⟩] ⟨[], 0, []⟩ :=
  ⟨rfl, rfl, rfl⟩

end

end Kairos
