import Mathlib.Data.Nat.Notation
import Mathlib.Data.Option.Basic

/-!
# Runs of actions

A system of several parties is a function `next` that says what an action leads to, or that it
cannot be taken. A run is a list of actions. `Meets` restricts a run to the actions that meet a
condition on the state they are taken in, and `run_invariant` is the rule for what such runs keep.
-/

namespace Kairos.Transitions

open Option

variable {S A : Type*} (next : S → A → Option S)

def run : S → List A → Option S
  | s, [] => some s
  | s, a :: as => (next s a).bind fun s' => run s' as

def Meets (C : S → A → Prop) : S → List A → Prop
  | _, [] => True
  | s, a :: as => C s a ∧ ∀ s' ∈ next s a, Meets C s' as

def decidableMeets (C : S → A → Prop) [∀ s a, Decidable (C s a)] :
    (s : S) → (as : List A) → Decidable (Meets next C s as)
  | _, [] => .isTrue trivial
  | s, a :: as =>
    have (s' : S) : Decidable (Meets next C s' as) := decidableMeets C s' as
    inferInstanceAs (Decidable (C s a ∧ ∀ s' ∈ next s a, Meets next C s' as))

instance (C : S → A → Prop) [∀ s a, Decidable (C s a)] (s : S) (as : List A) :
    Decidable (Meets next C s as) :=
  decidableMeets next C s as

variable {next} {C : S → A → Prop}

theorem run_append {s t : S} {as : List A} (h : run next s as = some t) (bs : List A) :
    run next s (as ++ bs) = run next t bs := by
  induction as generalizing s with
  | nil =>
    rw [run, some.injEq] at h
    rw [h, List.nil_append]
  | cons a as ih =>
    rw [run, bind_eq_some_iff] at h
    obtain ⟨s', hnext, hrun⟩ := h
    rw [List.cons_append, run, hnext, bind_some, ih hrun]

theorem meets_true (s : S) (as : List A) : Meets next (fun _ _ => True) s as := by
  induction as generalizing s with
  | nil => trivial
  | cons a as ih => exact ⟨trivial, fun s' _ => ih s'⟩

theorem meets_of_forall {P : A → Prop} {as : List A} (h : ∀ a ∈ as, P a) (s : S) :
    Meets next (fun _ a => P a) s as := by
  induction as generalizing s with
  | nil => trivial
  | cons a as ih =>
    rw [List.forall_mem_cons] at h
    exact ⟨h.1, fun s' _ => ih h.2 s'⟩

theorem Meets.mono {D : S → A → Prop} (hCD : ∀ s a, C s a → D s a) {s : S} {as : List A}
    (h : Meets next C s as) : Meets next D s as := by
  induction as generalizing s with
  | nil => trivial
  | cons a as ih => exact ⟨hCD s a h.1, fun s' hs' => ih (h.2 s' hs')⟩

theorem Meets.and {D : S → A → Prop} {s : S} {as : List A} (hC : Meets next C s as)
    (hD : Meets next D s as) : Meets next (fun s a => C s a ∧ D s a) s as := by
  induction as generalizing s with
  | nil => trivial
  | cons a as ih => exact ⟨⟨hC.1, hD.1⟩, fun s' hs' => ih (hC.2 s' hs') (hD.2 s' hs')⟩

theorem meets_append {s t : S} {as : List A} (h : run next s as = some t) (bs : List A) :
    Meets next C s (as ++ bs) ↔ Meets next C s as ∧ Meets next C t bs := by
  induction as generalizing s with
  | nil =>
    rw [run, some.injEq] at h
    simp [Meets, h]
  | cons a as ih =>
    rw [run, bind_eq_some_iff] at h
    obtain ⟨s', hnext, hrun⟩ := h
    simp [Meets, hnext, ih hrun, and_assoc]

theorem run_invariant {I : S → Prop} (keep : ∀ s a s', I s → C s a → next s a = some s' → I s')
    {s t : S} {as : List A} (hs : I s) (hC : Meets next C s as) (hrun : run next s as = some t) :
    I t := by
  induction as generalizing s with
  | nil =>
    rw [run, some.injEq] at hrun
    exact hrun ▸ hs
  | cons a as ih =>
    rw [run, bind_eq_some_iff] at hrun
    obtain ⟨s', hnext, hrun⟩ := hrun
    exact ih (keep s a s' hs hC.1 hnext) (hC.2 s' hnext) hrun

theorem meets_iff_of_invariant {I : S → Prop} {D : S → A → Prop}
    (keep : ∀ s a s', I s → C s a → next s a = some s' → I s')
    (same : ∀ s a, I s → (C s a ↔ D s a)) {s : S} (hs : I s) (as : List A) :
    Meets next C s as ↔ Meets next D s as := by
  induction as generalizing s with
  | nil => rfl
  | cons a as ih =>
    constructor
    · exact fun h => ⟨(same s a hs).1 h.1, fun s' hs' =>
        (ih (keep s a s' hs h.1 hs')).1 (h.2 s' hs')⟩
    · intro h
      have hC := (same s a hs).2 h.1
      exact ⟨hC, fun s' hs' => (ih (keep s a s' hs hC hs')).2 (h.2 s' hs')⟩

/-- If no action that meets the condition makes a measure larger, and the counted ones make it
smaller, it bounds how many of these a run has. -/
theorem countP_add_le_of_run {I : S → Prop} {μ : S → ℕ} {counted : A → Bool}
    (keep : ∀ s a s', I s → C s a → next s a = some s' → I s')
    (drop : ∀ s a s', I s → C s a → next s a = some s' → μ s' + (counted a).toNat ≤ μ s)
    {s t : S} {as : List A} (hs : I s) (hC : Meets next C s as) (hrun : run next s as = some t) :
    as.countP counted + μ t ≤ μ s := by
  induction as generalizing s with
  | nil =>
    rw [run, some.injEq] at hrun
    simp [hrun]
  | cons a as ih =>
    rw [run, bind_eq_some_iff] at hrun
    obtain ⟨s', hnext, hrun⟩ := hrun
    have hrest := ih (keep s a s' hs hC.1 hnext) (hC.2 s' hnext) hrun
    have hdrop := drop s a s' hs hC.1 hnext
    rw [List.countP_cons]
    cases hcounted : counted a <;> simp [hcounted] at hdrop ⊢ <;> omega

end Kairos.Transitions
