import Mathlib.Algebra.BigOperators.Group.List.Basic
import Mathlib.Algebra.Order.Ring.Int
import Mathlib.Tactic.Ring

/-!
# Matching brackets on a stack

A list of marks, some of which open a block, divide one, or close one. One pass with a stack
(`matchLoop`) gives each opening and dividing position the one that divides or closes its block
next. It gets through exactly when every dividing and closing position has a positive `level`, and
then the table is `Target`, stated on the levels alone.
-/

namespace Kairos.Matching

open List

inductive Bracket where
  | opens
  | divides
  | closes
deriving DecidableEq

def delta : Option Bracket → ℤ
  | some .opens => 1
  | some .closes => -1
  | _ => 0

def level (ms : List (Option Bracket)) (i : ℕ) : ℤ := ((ms.take i).map delta).sum

def Pushes (ms : List (Option Bracket)) (i : ℕ) : Prop :=
  ms[i]? = some (some .opens) ∨ ms[i]? = some (some .divides)

def Pops (ms : List (Option Bracket)) (i : ℕ) : Prop :=
  ms[i]? = some (some .divides) ∨ ms[i]? = some (some .closes)

/-- Position `j` is where the block that `i` opens or divides is divided or closed next. -/
structure Target (ms : List (Option Bracket)) (i j : ℕ) : Prop where
  pushes : Pushes ms i
  pops : Pops ms j
  lt : i < j
  level_eq : level ms j = level ms (i + 1)
  first : ∀ k, i < k → k < j → Pops ms k → level ms k ≠ level ms (i + 1)

structure Block (ms : List (Option Bracket)) (o e : ℕ) : Prop where
  opens : ms[o]? = some (some .opens)
  closes : ms[e]? = some (some .closes)
  lt : o < e
  level_eq : level ms e = level ms (o + 1)
  first : ∀ k, o < k → k < e → ms[k]? = some (some .closes) → level ms k ≠ level ms (o + 1)

instance (ms : List (Option Bracket)) (o e : ℕ) : Decidable (Block ms o e) :=
  decidable_of_iff (ms[o]? = some (some .opens) ∧ ms[e]? = some (some .closes) ∧ o < e ∧
    level ms e = level ms (o + 1) ∧
    ∀ k < e, o < k → ms[k]? = some (some .closes) → level ms k ≠ level ms (o + 1))
    ⟨fun h => ⟨h.1, h.2.1, h.2.2.1, h.2.2.2.1, fun k hok hke => h.2.2.2.2 k hke hok⟩,
      fun h => ⟨h.opens, h.closes, h.lt, h.level_eq, fun k hke hok => h.first k hok hke⟩⟩

/-- The pass from position `i` on, with the stack of the positions that wait for a target. It fails
where no block is open to divide or close. -/
def matchLoop : ℕ → List (Option Bracket) → List ℕ → (ℕ → Option ℕ) →
    Option (List ℕ × (ℕ → Option ℕ))
  | _, [], stack, table => some (stack, table)
  | i, none :: ms, stack, table => matchLoop (i + 1) ms stack table
  | i, some .opens :: ms, stack, table => matchLoop (i + 1) ms (i :: stack) table
  | _, some .divides :: _, [], _ => none
  | i, some .divides :: ms, p :: stack, table =>
    matchLoop (i + 1) ms (i :: stack) (Function.update table p (some i))
  | _, some .closes :: _, [], _ => none
  | i, some .closes :: ms, p :: stack, table =>
    matchLoop (i + 1) ms stack (Function.update table p (some i))

section Levels

variable {ms : List (Option Bracket)} {i j k : ℕ}

@[simp] theorem level_zero : level ms 0 = 0 := by simp [level]

theorem level_succ {m : Option Bracket} (h : ms[i]? = some m) :
    level ms (i + 1) = level ms i + delta m := by
  simp [level, take_add_one, h]

theorem level_succ_of_none (h : ms[i]? = none) : level ms (i + 1) = level ms i := by
  simp [level, take_add_one, h]

theorem level_succ_ge (ms : List (Option Bracket)) (i : ℕ) : level ms i ≤ level ms (i + 1) ∨
      ms[i]? = some (some .closes) ∧ level ms (i + 1) = level ms i - 1 := by
  cases h : ms[i]? with
  | none => exact .inl (level_succ_of_none h).ge
  | some m =>
    rw [level_succ h]
    rcases m with _ | _ | _ | _ <;> simp [delta]
    omega

/-- Where the level falls to `m` or below, there is a closing position at level `m + 1`. -/
theorem exists_closes (ms : List (Option Bracket)) {m : ℤ} (hij : i ≤ j) (hi : m < level ms i)
    (hj : level ms j ≤ m) :
    ∃ k, i ≤ k ∧ k < j ∧ ms[k]? = some (some .closes) ∧ level ms k = m + 1 := by
  induction j with
  | zero =>
    obtain rfl : i = 0 := by omega
    omega
  | succ j ih =>
    by_cases hj' : level ms j ≤ m
    · have hle : i ≤ j := by
        by_contra hlt
        obtain rfl : i = j + 1 := by omega
        omega
      obtain ⟨k, hik, hkj, hk⟩ := ih hle hj'
      exact ⟨k, hik, by omega, hk⟩
    · rcases level_succ_ge ms j with h | ⟨hc, h⟩
      · omega
      · have hle : i ≤ j := by
          by_contra hlt
          obtain rfl : i = j + 1 := by omega
          omega
        exact ⟨j, hle, by omega, hc, by omega⟩

theorem Pushes.lt (h : Pushes ms i) : i < ms.length := by
  rcases h with h | h <;> exact (List.getElem?_eq_some_iff.mp h).1

theorem Pops.lt (h : Pops ms i) : i < ms.length := by
  rcases h with h | h <;> exact (List.getElem?_eq_some_iff.mp h).1

theorem Target.level_le (h : Target ms i j) (hik : i < k) (hkj : k ≤ j) :
    level ms (i + 1) ≤ level ms k := by
  by_contra hlt
  obtain ⟨c, hic, hck, hc, hl⟩ := exists_closes ms (m := level ms (i + 1) - 1) (i := i + 1) (j := k)
    (by omega) (by omega) (by omega)
  exact h.first c (by omega) (by omega) (.inr hc) (by omega)

theorem Target.unique {j' : ℕ} (h : Target ms i j) (h' : Target ms i j') : j = j' := by
  rcases lt_trichotomy j j' with hlt | heq | hgt
  · exact absurd h.level_eq (h'.first j h.lt hlt h.pops)
  · exact heq
  · exact absurd h'.level_eq (h.first j' h'.lt hgt h'.pops)

/-- A position that opens or divides a block within a stretch has its target there. -/
theorem Target.exists_inner (h : Target ms i j) (hik : i < k) (hkj : k < j) (hk : Pushes ms k) :
    ∃ l, Target ms k l ∧ l < j := by
  have hlev : level ms (i + 1) < level ms (k + 1) := by
    rcases hk with ho | hd
    · have := h.level_le hik hkj.le
      rw [level_succ ho]; simp only [delta]; omega
    · have hne := h.first k hik hkj (.inl hd)
      have := h.level_le hik hkj.le
      rw [level_succ hd]; simp only [delta]; omega
  -- the level falls to that of the stretch by `j`, so the inner block is closed before
  obtain ⟨c, hkc, hcj, hc, hl⟩ := exists_closes ms (m := level ms (k + 1) - 1) (i := k + 1) (j := j)
    (by omega) (by omega) (by have := h.level_eq; omega)
  classical
  let P : ℕ → Prop := fun l => k < l ∧ Pops ms l ∧ level ms l = level ms (k + 1)
  have hex : ∃ l, P l := ⟨c, by omega, .inr hc, by omega⟩
  obtain ⟨hlt, hpops, hleq⟩ := Nat.find_spec hex
  refine ⟨Nat.find hex, ⟨hk, hpops, hlt, hleq, ?_⟩, ?_⟩
  · intro l hkl hlj hl' heq
    exact Nat.find_min hex hlj ⟨hkl, hl', heq⟩
  · have : Nat.find hex ≤ c := Nat.find_min' hex ⟨by omega, .inr hc, by omega⟩
    omega

theorem Target.inj {i' : ℕ} (h : Target ms i j) (h' : Target ms i' j) : i = i' := by
  rcases lt_trichotomy i i' with hlt | heq | hgt
  · obtain ⟨l, hl, hlj⟩ := h.exists_inner hlt h'.lt h'.pushes
    have := hl.unique h'
    omega
  · exact heq
  · obtain ⟨l, hl, hlj⟩ := h'.exists_inner hgt h.lt h.pushes
    have := hl.unique h
    omega

/-- At a positive level, each open block has the position that opened it or divided it last. -/
theorem exists_waiting (q : ℕ) : ∀ l : ℤ, 0 < l → l ≤ level ms q →
    ∃ p, p < q ∧ Pushes ms p ∧ level ms (p + 1) = l ∧
      ∀ k, p < k → k < q → Pops ms k → level ms k ≠ l := by
  induction q with
  | zero =>
    intro l hl hle
    rw [level_zero] at hle
    omega
  | succ q ih =>
    intro l hl hle
    -- the position `q` itself, or one before it where `q` is no pop at the level `l`
    have extend : l ≤ level ms q → (Pops ms q → level ms q ≠ l) → ∃ p, p < q + 1 ∧ Pushes ms p ∧
        level ms (p + 1) = l ∧ ∀ k, p < k → k < q + 1 → Pops ms k → level ms k ≠ l := by
      intro hlq hq
      obtain ⟨p, hpq, hp, hlev, hfirst⟩ := ih l hl hlq
      refine ⟨p, by omega, hp, hlev, fun k hpk hkq hk => ?_⟩
      rcases Nat.lt_succ_iff_lt_or_eq.mp hkq with hkq | rfl
      · exact hfirst k hpk hkq hk
      · exact hq hk
    have last : Pushes ms q → level ms (q + 1) = l → ∃ p, p < q + 1 ∧ Pushes ms p ∧
        level ms (p + 1) = l ∧ ∀ k, p < k → k < q + 1 → Pops ms k → level ms k ≠ l :=
      fun hp hlev => ⟨q, by omega, hp, hlev, fun k hqk hkq => by omega⟩
    cases hm : ms[q]? with
    | none =>
      rw [level_succ_of_none hm] at hle
      exact extend hle (by rintro (h | h) <;> simp [hm] at h)
    | some m =>
      have hsucc := level_succ hm
      rcases m with _ | _ | _ | _ <;> simp only [delta] at hsucc
      · exact extend (by omega) (by rintro (h | h) <;> simp [hm] at h)
      · by_cases hlq : l = level ms (q + 1)
        · exact last (.inl hm) hlq.symm
        · exact extend (by omega) (by rintro (h | h) <;> simp [hm] at h)
      · by_cases hlq : l = level ms (q + 1)
        · exact last (.inr hm) hlq.symm
        · exact extend (by omega) fun _ => by omega
      · exact extend (by omega) fun _ => by omega

theorem Pops.exists_target {q : ℕ} (h : Pops ms q) (hpos : 0 < level ms q) :
    ∃ p, Target ms p q := by
  obtain ⟨p, hpq, hp, hlev, hfirst⟩ := exists_waiting q (level ms q) hpos le_rfl
  exact ⟨p, hp, h, hpq, hlev.symm, fun k hpk hkq hk => by rw [hlev]; exact hfirst k hpk hkq hk⟩

/-- Where all waiting positions have targets, these lead to the end of the block. -/
theorem Pushes.exists_closes (htotal : ∀ p, Pushes ms p → ∃ q, Target ms p q) {p : ℕ}
    (hp : Pushes ms p) : ∃ e, p < e ∧ ms[e]? = some (some .closes) ∧ level ms e = level ms (p + 1) ∧
      (∀ k, p < k → k < e → ms[k]? = some (some .closes) → level ms k ≠ level ms (p + 1)) ∧
      Relation.TransGen (Target ms) p e := by
  induction hn : ms.length - p using Nat.strong_induction_on generalizing p with
  | h n ih =>
    obtain ⟨q, hq⟩ := htotal p hp
    rcases hq.pops with hd | hc
    · have hlev : level ms (q + 1) = level ms (p + 1) := by
        rw [level_succ hd, hq.level_eq]; simp [delta]
      have hqlt := hq.pops.lt
      have hlt := hq.lt
      obtain ⟨e, hqe, hce, hle, hfirst, htrans⟩ :=
        ih (ms.length - q) (by omega) (.inr hd) rfl
      refine ⟨e, by omega, hce, by omega, fun k hpk hke hk => ?_, .head hq htrans⟩
      rcases lt_trichotomy k q with hkq | rfl | hkq
      · exact hq.first k hpk hkq (.inr hk)
      · simp [hd] at hk
      · rw [← hlev]; exact hfirst k hkq hke hk
    · exact ⟨q, hq.lt, hc, hq.level_eq,
        fun k hpk hkq hk => hq.first k hpk hkq (.inr hk), .single hq⟩

theorem ext_of_pushes_pops {ms ms' : List (Option Bracket)} (hlen : ms.length = ms'.length)
    (hpush : ∀ i, Pushes ms i ↔ Pushes ms' i) (hpop : ∀ i, Pops ms i ↔ Pops ms' i) : ms = ms' := by
  refine ext_getElem hlen fun i hi hi' => ?_
  have h1 := hpush i
  have h2 := hpop i
  simp only [Pushes, Pops, getElem?_eq_getElem hi, getElem?_eq_getElem hi',
    Option.some.injEq] at h1 h2
  generalize ms[i] = m, ms'[i] = m' at h1 h2 ⊢
  rcases m with _ | _ | _ | _ <;> rcases m' with _ | _ | _ | _ <;> simp at h1 h2 ⊢

variable {o e e' : ℕ}

theorem Block.unique (h : Block ms o e) (h' : Block ms o e') : e = e' := by
  rcases lt_trichotomy e e' with hlt | heq | hgt
  · exact absurd h.level_eq (h'.first e h.lt hlt h.closes)
  · exact heq
  · exact absurd h'.level_eq (h.first e' h'.lt hgt h'.closes)

theorem Block.level_le (h : Block ms o e) (hok : o < k) (hke : k ≤ e) :
    level ms (o + 1) ≤ level ms k := by
  by_contra hlt
  obtain ⟨c, hic, hck, hc, hl⟩ := exists_closes ms (m := level ms (o + 1) - 1) (i := o + 1) (j := k)
    (by omega) (by omega) (by omega)
  exact h.first c (by omega) (by omega) hc (by omega)

theorem Block.level_after (h : Block ms o e) : level ms (e + 1) = level ms o := by
  have hc := level_succ h.closes
  have ho := level_succ h.opens
  simp only [delta] at hc ho
  have := h.level_eq
  omega

/-- Of two blocks, the later one ends before the other ends, or starts after it. -/
theorem Block.nested {o' : ℕ} (h : Block ms o e) (h' : Block ms o' e') (hlt : o < o') :
    e' < e ∨ e < o' := by
  rcases lt_or_ge e o' with hdisj | hin
  · exact .inr hdisj
  · refine .inl ?_
    by_contra hge
    have hne : o' ≠ e := by
      rintro rfl
      have := h.closes.symm.trans h'.opens
      simp at this
    have h1 := h.level_le hlt hin
    have h2 := h'.level_le (k := e) (by omega) (by omega)
    have h3 := level_succ h'.opens
    simp only [delta] at h3
    have := h.level_eq
    omega

end Levels

structure Matched (ms : List (Option Bracket)) (i : ℕ) (stack : List ℕ) (table : ℕ → Option ℕ) :
    Prop where
  length_eq : (stack.length : ℤ) = level ms i
  entry : ∀ n p : ℕ, stack[n]? = some p → p < i ∧ Pushes ms p ∧
    level ms (p + 1) = stack.length - n ∧
    ∀ k, p < k → k < i → Pops ms k → level ms k ≠ level ms (p + 1)
  table_iff : ∀ p q, table p = some q ↔ q < i ∧ Target ms p q
  waits : ∀ p, p < i → Pushes ms p → p ∈ stack ∨ ∃ q, table p = some q
  pops_pos : ∀ p, p < i → Pops ms p → 0 < level ms p

namespace Matched

variable {ms : List (Option Bracket)} {i p : ℕ} {stack : List ℕ} {table : ℕ → Option ℕ}

theorem start : Matched ms 0 [] fun _ => none where
  length_eq := by simp
  entry := by simp
  table_iff := by simp
  waits := by simp
  pops_pos := by simp

theorem target_of_top (h : Matched ms i (p :: stack) table) (hi : Pops ms i) : Target ms p i := by
  obtain ⟨hlt, hpush, hlev, hfirst⟩ := h.entry 0 p rfl
  have hlen := h.length_eq
  simp only [length_cons, Nat.cast_add, Nat.cast_one, Nat.cast_zero, sub_zero] at hlev hlen
  exact ⟨hpush, hi, hlt, by omega, hfirst⟩

theorem table_iff_succ (h : Matched ms i stack table) (hpops : ¬ Pops ms i) (q r : ℕ) :
    table q = some r ↔ r < i + 1 ∧ Target ms q r := by
  rw [h.table_iff]
  refine and_congr_left fun ht => ⟨fun hr => by omega, fun hr => ?_⟩
  refine lt_of_le_of_ne (by omega) ?_
  rintro rfl
  exact hpops ht.pops

theorem step_none (h : Matched ms i stack table) (hi : ms[i]? = some none) :
    Matched ms (i + 1) stack table := by
  have hlev : level ms (i + 1) = level ms i := by rw [level_succ hi]; simp [delta]
  have hpops : ¬ Pops ms i := by rintro (hp | hp) <;> simp [hi] at hp
  have hpush : ¬ Pushes ms i := by rintro (hp | hp) <;> simp [hi] at hp
  have before : ∀ {k}, k < i + 1 → k ≠ i → k < i := fun h1 h2 => by omega
  refine ⟨by rw [hlev]; exact h.length_eq, ?_, h.table_iff_succ hpops, ?_, ?_⟩
  · intro n q hq
    obtain ⟨hlt, hp, hl, hfirst⟩ := h.entry n q hq
    refine ⟨by omega, hp, hl, fun k hqk hki hk => ?_⟩
    exact hfirst k hqk (before hki (by rintro rfl; exact hpops hk)) hk
  · intro q hq hp
    exact h.waits q (before hq (by rintro rfl; exact hpush hp)) hp
  · intro q hq hp
    exact h.pops_pos q (before hq (by rintro rfl; exact hpops hp)) hp

theorem step_opens (h : Matched ms i stack table) (hi : ms[i]? = some (some .opens)) :
    Matched ms (i + 1) (i :: stack) table := by
  have hlev : level ms (i + 1) = level ms i + 1 := level_succ hi
  have hlen := h.length_eq
  have hpops : ¬ Pops ms i := by rintro (hp | hp) <;> simp [hi] at hp
  have before : ∀ {k}, k < i + 1 → k ≠ i → k < i := fun h1 h2 => by omega
  refine ⟨by simp only [length_cons]; push_cast; omega, ?_, h.table_iff_succ hpops, ?_, ?_⟩
  · intro n q hq
    cases n with
    | zero =>
      obtain rfl : i = q := by simpa using hq
      refine ⟨by omega, .inl hi, by simp only [length_cons]; push_cast; omega, ?_⟩
      intro k hik hki
      omega
    | succ n =>
      obtain ⟨hlt, hp, hl, hfirst⟩ := h.entry n q (by simpa using hq)
      refine ⟨by omega, hp, by simp only [length_cons]; push_cast; omega, ?_⟩
      intro k hqk hki hk
      exact hfirst k hqk (before hki (by rintro rfl; exact hpops hk)) hk
  · intro q hq hp
    by_cases hqi : q = i
    · exact .inl (by simp [hqi])
    · exact (h.waits q (before hq hqi) hp).imp_left fun hm => by simp [hm]
  · intro q hq hp
    exact h.pops_pos q (before hq (by rintro rfl; exact hpops hp)) hp

variable (h : Matched ms i (p :: stack) table)
include h

/-- Dividing or closing: the top of the stack gets its target. -/
theorem update_top (hi : Pops ms i) :
    ∀ q r, Function.update table p (some i) q = some r ↔ r < i + 1 ∧ Target ms q r := by
  intro q r
  have htop := h.target_of_top hi
  by_cases hqp : q = p
  · subst hqp
    simp only [Function.update_self, Option.some.injEq]
    constructor
    · rintro rfl
      exact ⟨by omega, htop⟩
    · exact fun hr => htop.unique hr.2
  · rw [Function.update_of_ne hqp, h.table_iff]
    refine and_congr_left fun ht => ⟨fun hr => by omega, fun hr => ?_⟩
    rcases Nat.lt_succ_iff_lt_or_eq.mp hr with hr | rfl
    · exact hr
    · exact absurd (ht.inj htop) hqp

theorem entry_below (n q : ℕ) (hq : stack[n]? = some q) :
    q < i ∧ Pushes ms q ∧ level ms (q + 1) = stack.length - n ∧
      ∀ k, q < k → k < i + 1 → Pops ms k → level ms k ≠ level ms (q + 1) := by
  obtain ⟨hlt, hp, hl, hfirst⟩ := h.entry (n + 1) q (by simpa using hq)
  have hlen := h.length_eq
  simp only [length_cons] at hl hlen
  push_cast at hl hlen
  refine ⟨hlt, hp, by omega, fun k hqk hki hk => ?_⟩
  rcases Nat.lt_succ_iff_lt_or_eq.mp hki with hki | rfl
  · exact hfirst k hqk hki hk
  · omega

theorem waits_below {q : ℕ} (hq : q < i) (hp : Pushes ms q) :
    q ∈ stack ∨ ∃ r, Function.update table p (some i) q = some r := by
  by_cases hqp : q = p
  · exact .inr ⟨i, by simp [hqp]⟩
  · rw [Function.update_of_ne hqp]
    exact (h.waits q hq hp).imp_left fun hm => (mem_cons.mp hm).resolve_left hqp

/-- A dividing position takes the place of the top of the stack. -/
theorem step_divides (hi : ms[i]? = some (some .divides)) :
    Matched ms (i + 1) (i :: stack) (Function.update table p (some i)) := by
  have hlev : level ms (i + 1) = level ms i := by rw [level_succ hi]; simp [delta]
  have hlen := h.length_eq
  simp only [length_cons] at hlen
  refine ⟨by rw [hlev]; exact h.length_eq, ?_, h.update_top (.inl hi), ?_, ?_⟩
  · intro n q hq
    cases n with
    | zero =>
      obtain rfl : i = q := by simpa using hq
      refine ⟨by omega, .inr hi, ?_, fun k hik hki => by omega⟩
      simp only [length_cons]
      push_cast at hlen ⊢
      omega
    | succ n =>
      obtain ⟨hlt, hp, hl, hfirst⟩ := h.entry_below n q (by simpa using hq)
      refine ⟨by omega, hp, ?_, hfirst⟩
      simp only [length_cons]
      push_cast
      omega
  · intro q hq hp
    rcases Nat.lt_succ_iff_lt_or_eq.mp hq with hq | rfl
    · exact (h.waits_below hq hp).imp_left (mem_cons_of_mem i)
    · exact .inl (by simp)
  · intro q hq hp
    rcases Nat.lt_succ_iff_lt_or_eq.mp hq with hq | rfl
    · exact h.pops_pos q hq hp
    · push_cast at hlen
      omega

theorem step_closes (hi : ms[i]? = some (some .closes)) :
    Matched ms (i + 1) stack (Function.update table p (some i)) := by
  have hlev : level ms (i + 1) = level ms i - 1 := by rw [level_succ hi]; simp [delta]; ring
  have hlen := h.length_eq
  simp only [length_cons] at hlen
  push_cast at hlen
  refine ⟨by omega, ?_, h.update_top (.inr hi), ?_, ?_⟩
  · intro n q hq
    obtain ⟨hlt, hp, hl, hfirst⟩ := h.entry_below n q hq
    exact ⟨by omega, hp, hl, hfirst⟩
  · intro q hq hp
    rcases Nat.lt_succ_iff_lt_or_eq.mp hq with hq | rfl
    · exact h.waits_below hq hp
    · rcases hp with hp | hp <;> simp [hi] at hp
  · intro q hq hp
    rcases Nat.lt_succ_iff_lt_or_eq.mp hq with hq | rfl
    · exact h.pops_pos q hq hp
    · omega

end Matched

/-- The pass from position `i` on ends with all marks matched. -/
theorem matchLoop_matched {ms : List (Option Bracket)} :
    ∀ (rest : List (Option Bracket)) (i : ℕ) (stack : List ℕ) (table : ℕ → Option ℕ),
      rest = ms.drop i → i ≤ ms.length → Matched ms i stack table →
      ∀ {stack' table'}, matchLoop i rest stack table = some (stack', table') →
        Matched ms ms.length stack' table' := by
  intro rest
  induction rest with
  | nil =>
    intro i stack table hrest hi h stack' table' hrun
    obtain rfl : i = ms.length := le_antisymm hi (drop_eq_nil_iff.mp hrest.symm)
    simp only [matchLoop, Option.some.injEq, Prod.mk.injEq] at hrun
    obtain ⟨rfl, rfl⟩ := hrun
    exact h
  | cons m rest ih =>
    intro i stack table hrest hi h stack' table' hrun
    have hm : ms[i]? = some m := by
      rw [← head?_drop, ← hrest, head?_cons]
    have hlt : i < ms.length := (List.getElem?_eq_some_iff.mp hm).1
    have hrest' : rest = ms.drop (i + 1) := by
      rw [← tail_drop, ← hrest, tail_cons]
    rcases m with _ | _ | _ | _
    · exact ih _ _ _ hrest' hlt (h.step_none hm) hrun
    · exact ih _ _ _ hrest' hlt (h.step_opens hm) hrun
    · cases stack with
      | nil => simp [matchLoop] at hrun
      | cons p stack => exact ih _ _ _ hrest' hlt (h.step_divides hm) hrun
    · cases stack with
      | nil => simp [matchLoop] at hrun
      | cons p stack => exact ih _ _ _ hrest' hlt (h.step_closes hm) hrun

/-- The pass from `i` on gets through where every position ahead that needs an open block has
one. -/
theorem matchLoop_ne_none {ms : List (Option Bracket)} (hpos : ∀ p, Pops ms p → 0 < level ms p) :
    ∀ (rest : List (Option Bracket)) (i : ℕ) (stack : List ℕ) (table : ℕ → Option ℕ),
      rest = ms.drop i → Matched ms i stack table → matchLoop i rest stack table ≠ none := by
  intro rest
  induction rest with
  | nil => simp [matchLoop]
  | cons m rest ih =>
    intro i stack table hrest h
    have hm : ms[i]? = some m := by
      rw [← head?_drop, ← hrest, head?_cons]
    have hrest' : rest = ms.drop (i + 1) := by
      rw [← tail_drop, ← hrest, tail_cons]
    have hlen := h.length_eq
    rcases m with _ | _ | _ | _
    · exact ih _ _ _ hrest' (h.step_none hm)
    · exact ih _ _ _ hrest' (h.step_opens hm)
    · cases stack with
      | nil =>
        have := hpos i (.inl hm)
        simp only [length_nil, Nat.cast_zero] at hlen
        omega
      | cons p stack => exact ih _ _ _ hrest' (h.step_divides hm)
    · cases stack with
      | nil =>
        have := hpos i (.inr hm)
        simp only [length_nil, Nat.cast_zero] at hlen
        omega
      | cons p stack => exact ih _ _ _ hrest' (h.step_closes hm)

def run (ms : List (Option Bracket)) : Option (List ℕ × (ℕ → Option ℕ)) :=
  matchLoop 0 ms [] fun _ => none

section

variable {ms : List (Option Bracket)} {stack : List ℕ} {table : ℕ → Option ℕ}

theorem run_matched (h : run ms = some (stack, table)) : Matched ms ms.length stack table :=
  matchLoop_matched ms 0 [] _ (by simp) (Nat.zero_le _) .start h

theorem run_isSome_iff : (run ms).isSome ↔ ∀ p, Pops ms p → 0 < level ms p := by
  constructor
  · intro h p hp
    obtain ⟨⟨stack, table⟩, hrun⟩ := Option.isSome_iff_exists.mp h
    exact (run_matched hrun).pops_pos p hp.lt hp
  · intro h
    exact Option.isSome_iff_ne_none.mpr (matchLoop_ne_none h ms 0 [] _ (by simp) .start)

namespace Matched

variable (h : Matched ms ms.length stack table)
include h

/-- The finished table is the relation `Target`. -/
theorem target_iff (p q : ℕ) : table p = some q ↔ Target ms p q := by
  rw [h.table_iff]
  exact ⟨fun ht => ht.2, fun ht => ⟨ht.pops.lt, ht⟩⟩

/-- Every position that opens or divides a block has a target exactly when the marks are
balanced. -/
theorem total_iff : (∀ p, Pushes ms p → ∃ q, table p = some q) ↔ level ms ms.length = 0 := by
  rw [← h.length_eq]
  constructor
  · intro hall
    cases stack with
    | nil => rfl
    | cons p stack =>
      obtain ⟨hlt, hp, hlev, hfirst⟩ := h.entry 0 p rfl
      obtain ⟨q, hq⟩ := hall p hp
      have ht := (h.target_iff p q).mp hq
      exact absurd ht.level_eq (hfirst q ht.lt ht.pops.lt ht.pops)
  · intro hlen p hp
    rcases h.waits p hp.lt hp with hm | hq
    · obtain rfl : stack = [] := length_eq_zero_iff.mp (by exact_mod_cast hlen)
      simp at hm
    · exact hq

end Matched

end

end Kairos.Matching
