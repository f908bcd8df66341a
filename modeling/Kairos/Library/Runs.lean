import Mathlib.Data.DFinsupp.WellFounded

/-!
# Runs of a machine

A machine is a step function that either ends with a result or goes on. `Reaches` is what some steps
lead to, `Ends` says that a run ends with a result, and `Along` restricts a run to the points that
meet a condition. `run` is the machine with fuel.
-/

namespace Kairos.Runs

open Relation.ReflTransGen (mono head_induction_on cases_head)

variable {P F : Type*} (step : P → F ⊕ P)

def Steps (p q : P) : Prop := step p = .inr q

abbrev Reaches : P → P → Prop := Relation.ReflTransGen (Steps step)

def Ends (p : P) (f : F) : Prop := ∃ q, Reaches step p q ∧ step q = .inl f

abbrev Along (C : P → Prop) : P → P → Prop := Relation.ReflTransGen fun p q => C p ∧ Steps step p q

def run : ℕ → P → Option F
  | 0, _ => none
  | n + 1, p =>
    match step p with
    | .inl f => some f
    | .inr q => run n q

section

variable {step} {C I : P → Prop} {p q r : P} {f g : F}

theorem Steps.unique (h : Steps step p q) (h' : Steps step p r) : q = r :=
  Sum.inr.inj (h.symm.trans h')

theorem Steps.reaches (h : Steps step p q) : Reaches step p q := .single h

theorem Reaches.invariant (h : Reaches step p q) (hp : I p)
    (keep : ∀ a b, I a → Steps step a b → I b) : I q := by
  induction h with
  | refl => exact hp
  | tail _ hstep ih => exact keep _ _ ih hstep

theorem Along.invariant (h : Along step C p q) (hp : I p)
    (keep : ∀ a b, I a → C a → Steps step a b → I b) : I q := by
  induction h with
  | refl => exact hp
  | tail _ hstep ih => exact keep _ _ ih hstep.1 hstep.2

theorem Along.reaches (h : Along step C p q) : Reaches step p q :=
  mono (fun _ _ hstep => hstep.2) p q h

theorem Reaches.along (h : Reaches step p q) (hC : ∀ r, Reaches step p r → C r) :
    Along step C p q := by
  induction h with
  | refl => exact .refl
  | tail hab hstep ih => exact .tail ih ⟨hC _ hab, hstep⟩

theorem Reaches.exists_exit (h : Reaches step p q) (hp : C p) (hq : ¬ C q) :
    ∃ a b, Along step C p a ∧ C a ∧ Steps step a b ∧ ¬ C b := by
  induction h using head_induction_on with
  | refl => exact absurd hp hq
  | @head p p' hstep _ ih =>
    by_cases hp' : C p'
    · obtain ⟨a, b, halong, hrest⟩ := ih hp'
      exact ⟨a, b, .head ⟨hp, hstep⟩ halong, hrest⟩
    · exact ⟨p, p', .refl, hp, hstep, hp'⟩

theorem Ends.of_reaches (h : Reaches step p q) (hq : Ends step q f) : Ends step p f := by
  obtain ⟨r, hr, hf⟩ := hq
  exact ⟨r, h.trans hr, hf⟩

theorem Ends.of_start (h : Ends step p f) (hq : Reaches step p q) : Ends step q f := by
  induction hq with
  | refl => exact h
  | @tail a b _ hstep ih =>
    obtain ⟨r, hr, hf⟩ := ih
    rcases cases_head hr with rfl | ⟨c, hc, hcr⟩
    · exact absurd (hstep.symm.trans hf) (by simp)
    · obtain rfl := hstep.unique hc
      exact ⟨r, hcr, hf⟩

theorem Ends.unique (h : Ends step p f) (h' : Ends step p g) : f = g := by
  obtain ⟨q, hq, hf⟩ := h
  obtain ⟨r, hr, hg⟩ := h'
  have hright : Relator.RightUnique (Steps step) := fun a b c hab hac => hab.unique hac
  -- of the two last points one is reached from the other, and neither has a step
  rcases Relation.ReflTransGen.total_of_right_unique hright hq hr with hqr | hrq
  · rcases cases_head hqr with rfl | ⟨b, hb, -⟩
    · exact Sum.inl.inj (hf.symm.trans hg)
    · exact absurd (hb.symm.trans hf) (by simp)
  · rcases cases_head hrq with rfl | ⟨b, hb, -⟩
    · exact Sum.inl.inj (hf.symm.trans hg)
    · exact absurd (hb.symm.trans hg) (by simp)

/-- The machine with fuel gives a result exactly when the run ends with it. -/
theorem exists_run_iff : (∃ n, run step n p = some f) ↔ Ends step p f := by
  constructor
  · rintro ⟨n, h⟩
    induction n generalizing p with
    | zero => cases h
    | succ n ih =>
      unfold run at h
      cases hp : step p with
      | inl g =>
        simp only [hp, Option.some.injEq] at h
        exact ⟨p, .refl, h ▸ hp⟩
      | inr q =>
        simp only [hp] at h
        exact Ends.of_reaches (Steps.reaches hp) (ih h)
  · rintro ⟨q, hpq, hf⟩
    induction hpq using head_induction_on with
    | refl => exact ⟨1, by simp only [run, hf]⟩
    | head hstep _ ih =>
      obtain ⟨n, hn⟩ := ih
      refine ⟨n + 1, ?_⟩
      unfold run
      rw [show step _ = _ from hstep]
      exact hn

theorem exists_ends_of_wf {α : Type*} {lt : α → α → Prop} (hwf : WellFounded lt) (m : P → α)
    (hI : I p) (keep : ∀ a b, I a → Steps step a b → I b ∧ lt (m b) (m a)) :
    ∃ f, Ends step p f := by
  induction hm : m p using hwf.induction generalizing p with
  | _ x ih =>
    cases hp : step p with
    | inl f => exact ⟨f, p, .refl, hp⟩
    | inr q =>
      obtain ⟨hq, hlt⟩ := keep p q hI hp
      obtain ⟨f, hf⟩ := ih (m q) (hm ▸ hlt) hq rfl
      exact ⟨f, Ends.of_reaches (Steps.reaches hp) hf⟩

def after (step : P → F ⊕ P) : ℕ → P → Option P
  | 0, p => some p
  | n + 1, p =>
    match step p with
    | .inl _ => none
    | .inr q => after step n q

variable {n : ℕ}

theorem reaches_of_after (h : after step n p = some q) : Reaches step p q := by
  induction n generalizing p with
  | zero =>
    cases h
    exact .refl
  | succ n ih =>
    unfold after at h
    cases hp : step p with
    | inl f => rw [hp] at h; cases h
    | inr r =>
      rw [hp] at h
      exact .head hp (ih h)

def trail (step : P → F ⊕ P) : ℕ → P → Option (List P)
  | 0, _ => none
  | n + 1, p =>
    match step p with
    | .inl _ => some [p]
    | .inr q => (trail step n q).map (p :: ·)

/-- The trail of a run has every point that is reached. -/
theorem mem_trail {ps : List P} (h : trail step n p = some ps) (hq : Reaches step p q) :
    q ∈ ps := by
  induction n generalizing p ps with
  | zero => cases h
  | succ n ih =>
    unfold trail at h
    rcases cases_head hq with rfl | ⟨r, hpr, hrq⟩
    · cases hp : step p with
      | inl f =>
        rw [hp] at h
        simp [← Option.some.inj h]
      | inr r =>
        rw [hp] at h
        obtain ⟨rs, -, rfl⟩ := Option.map_eq_some_iff.mp h
        exact List.mem_cons_self
    · rw [show step p = .inr r from hpr] at h
      obtain ⟨rs, hrs, rfl⟩ := Option.map_eq_some_iff.mp h
      exact List.mem_cons_of_mem _ (ih hrs hrq)

theorem forall_of_trail (c : P → Bool)
    (h : (trail step n p).any (·.all c)) (hq : Reaches step p q) : c q := by
  cases ht : trail step n p with
  | none => simp [ht] at h
  | some ps =>
    rw [ht, Option.any_some] at h
    exact List.all_eq_true.mp h q (mem_trail ht hq)

end

/-- Smaller at one place and no larger before it. -/
theorem lex_lt {n : ℕ} {α : Type*} [PartialOrder α] {a b : Fin n → α} {i : Fin n}
    (hle : ∀ j < i, a j ≤ b j) (hlt : a i < b i) : toLex a < toLex b := by
  -- the first place where the two differ is at `i` or before it
  have hex : ∃ j, a j ≠ b j := ⟨i, hlt.ne⟩
  obtain ⟨j, hj, hmin⟩ := WellFounded.has_min (wellFounded_lt (α := Fin n)) {j | a j ≠ b j} hex
  have heq : ∀ k < j, a k = b k := by
    intro k hk
    by_contra hne
    exact hmin k hne hk
  have hji : j ≤ i := by
    by_contra hgt
    exact hlt.ne (heq i (not_le.mp hgt))
  refine ⟨j, heq, ?_⟩
  rcases hji.lt_or_eq with hlt' | rfl
  · exact lt_of_le_of_ne (hle j hlt') hj
  · exact hlt

end Kairos.Runs
