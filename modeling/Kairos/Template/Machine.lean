import Kairos.Library.Runs
import Kairos.Template.Execute

/-!
# The interpreter as a machine

The two loops of `Execute` taken apart into steps: a point of a run is either the arrival at a row,
before it opens its scope, or a place within a row, with the stages that are left.
-/

namespace Kairos

inductive Point where
  | row (row expIdx : ℕ) (s : State)
  /-- Within a row: `idx` of the outer loop, the number of the next stage, and the stages that are
  left. -/
  | stage (row : ℕ) (idx : ℤ) (edx : ℕ) (rest : Row) (s : State)

def Point.state : Point → State
  | .row _ _ s => s
  | .stage _ _ _ _ s => s

def endOfRow (idx : ℤ) (s : State) : Point := .row (idx + 1).toNat 0 { s with expInput := some [] }

section

variable (H : Host) (t : Program)

def step : Point → Final ⊕ Point
  | .row row expIdx s =>
    match t.exps[row]? with
    | none => .inl (.done s)
    | some exp => .inr (.stage row row expIdx (exp.drop expIdx) (openScope exp s))
  | .stage _ idx _ [] s => .inr (endOfRow idx s)
  | .stage row idx edx (e :: rest) s =>
    match runStage H t idx edx e s with
    | .next idx s => .inr (.stage row idx (edx + 1) rest s)
    | .leave idx s => .inr (endOfRow idx s)
    | .stop why s => .inl (.stop why s)
    | .panic => .inl .panic

def startPoint (s : State) : Point :=
  .row (parseIndex s.expIndex).1.toNat (parseIndex s.expIndex).2.toNat s.enter

end

open Runs (Steps Reaches Ends)

section

variable {H : Host} {t : Program}

/-! ## The loops against the machine -/

theorem runStages_reaches (row : ℕ) (rest : Row) (idx : ℤ) (edx : ℕ) (s : State) :
    match (runStages H t idx edx rest s).endOfRow with
    | .goto row' s' => Reaches (step H t) (.stage row idx edx rest s) (.row row' 0 s')
    | .stop why s' => Ends (step H t) (.stage row idx edx rest s) (.stop why s')
    | .panic => Ends (step H t) (.stage row idx edx rest s) .panic := by
  induction rest generalizing idx edx s with
  | nil => exact Steps.reaches rfl
  | cons e rest ih =>
    have hstep : step H t (.stage row idx edx (e :: rest) s) =
        match runStage H t idx edx e s with
        | .next idx s => .inr (.stage row idx (edx + 1) rest s)
        | .leave idx s => .inr (endOfRow idx s)
        | .stop why s => .inl (.stop why s)
        | .panic => .inl .panic := rfl
    unfold runStages
    cases hrun : runStage H t idx edx e s with
    | next idx' s' =>
      rw [hrun] at hstep
      have hrest := ih idx' (edx + 1) s'
      cases hend : (runStages H t idx' (edx + 1) rest s').endOfRow with
      | goto row' s'' =>
        simp only [hend] at hrest ⊢
        exact .head hstep hrest
      | stop why s'' | panic =>
        simp only [hend] at hrest ⊢
        exact Ends.of_reaches (Steps.reaches hstep) hrest
    | leave idx' s' =>
      rw [hrun] at hstep
      exact Steps.reaches hstep
    | stop why s' | panic =>
      rw [hrun] at hstep
      exact ⟨_, .refl, hstep⟩

variable {f : Final}

theorem ends_of_runFrom (fuel row expIdx : ℕ) (s : State)
    (h : runFrom H t fuel row expIdx s = some f) : Ends (step H t) (.row row expIdx s) f := by
  induction fuel generalizing row expIdx s with
  | zero => cases h
  | succ fuel ih =>
    unfold runFrom at h
    cases hexp : t.exps[row]? with
    | none =>
      rw [hexp] at h
      cases h
      exact ⟨_, .refl, by simp only [step, hexp]⟩
    | some exp =>
      have hstep : Steps (step H t) (.row row expIdx s)
          (.stage row row expIdx (exp.drop expIdx) (openScope exp s)) := by
        simp only [Steps, step, hexp]
      have hrow := runStages_reaches (H := H) (t := t) row (exp.drop expIdx) row expIdx
        (openScope exp s)
      simp only [hexp, runRow] at h
      cases hend : (runStages H t row expIdx (exp.drop expIdx) (openScope exp s)).endOfRow with
      | goto row' s' =>
        simp only [hend] at h hrow
        exact Ends.of_reaches (hstep.reaches.trans hrow) (ih _ _ _ h)
      | stop why s' | panic =>
        simp only [hend, Option.some.injEq] at h hrow
        exact h ▸ Ends.of_reaches hstep.reaches hrow

variable {s : State}

theorem runFrom_mono {m n : ℕ} (hmn : m ≤ n) {row expIdx : ℕ}
    (h : runFrom H t m row expIdx s = some f) : runFrom H t n row expIdx s = some f := by
  induction m generalizing n row expIdx s with
  | zero => cases h
  | succ m ih =>
    obtain ⟨n, rfl⟩ : ∃ k, n = k + 1 := ⟨n - 1, by omega⟩
    unfold runFrom at h ⊢
    cases hexp : t.exps[row]? with
    | none => simpa only [hexp] using h
    | some exp =>
      simp only [hexp] at h ⊢
      cases hrow : runRow H t row expIdx exp s with
      | goto row' s' =>
        simp only [hrow] at h ⊢
        exact ih (by omega) h
      | stop why s' | panic => simpa only [hrow] using h

theorem runFrom_of_run_stage (n : ℕ)
    (ih : ∀ m < n, ∀ row expIdx s, Runs.run (step H t) m (.row row expIdx s) = some f →
      runFrom H t m row expIdx s = some f) : ∀ (k : ℕ), k ≤ n → ∀ row idx edx rest s,
      Runs.run (step H t) k (.stage row idx edx rest s) = some f →
      (match (runStages H t idx edx rest s).endOfRow with
        | .goto row' s' => runFrom H t n row' 0 s'
        | .stop why s' => some (.stop why s')
        | .panic => some .panic) = some f := by
  intro k
  induction k with
  | zero => intro _ row idx edx rest s h; cases h
  | succ k ihk =>
    intro hk row idx edx rest s h
    unfold Runs.run at h
    cases rest with
    | nil =>
      simp only [step, endOfRow] at h
      exact runFrom_mono (by omega) (ih k (by omega) _ _ _ h)
    | cons e rest =>
      unfold runStages
      cases hrun : runStage H t idx edx e s with
      | next idx' s' =>
        simp only [step, hrun] at h ⊢
        exact ihk (by omega) _ _ _ _ _ h
      | leave idx' s' =>
        simp only [step, hrun, endOfRow] at h
        exact runFrom_mono (by omega) (ih k (by omega) _ _ _ h)
      | stop why s' | panic => simpa only [step, hrun, StageResult.endOfRow] using h

theorem runFrom_of_run (n row expIdx : ℕ) (s : State)
    (h : Runs.run (step H t) n (.row row expIdx s) = some f) :
    runFrom H t n row expIdx s = some f := by
  induction n using Nat.strong_induction_on generalizing row expIdx s with
  | _ n ih =>
    cases n with
    | zero => cases h
    | succ n =>
      unfold Runs.run at h
      unfold runFrom
      cases hexp : t.exps[row]? with
      | none => simpa only [step, hexp] using h
      | some exp =>
        simp only [step, hexp] at h
        have hrow := runFrom_of_run_stage n (fun m hm => ih m (by omega)) n le_rfl _ _ _ _ _ h
        simp only [runRow]
        exact hrow

theorem execute_iff : (∃ fuel, execute H t fuel s = some f) ↔ Ends (step H t) (startPoint s) f := by
  constructor
  · rintro ⟨fuel, h⟩
    exact ends_of_runFrom fuel _ _ _ h
  · intro h
    obtain ⟨n, hn⟩ := Runs.exists_run_iff.mpr h
    exact ⟨n, runFrom_of_run n _ _ _ hn⟩

end

/-! ## Calls of `Execute` -/

def State.reply (s : State) (v : Val) : State :=
  { s with expInput := some (s.expInput.getD [] ++ [v]) }

/-- What `Execute` is called on: the state of `NewRutime`, and one that has got its reply. -/
inductive Session (H : Host) (t : Program) (s₀ : State) : State → Prop where
  | start : Session H t s₀ s₀
  | resume {s s' : State} (h : Session H t s₀ s) (v : Val)
      (hrun : ∃ fuel, execute H t fuel s = some (.stop .suspended s')) :
      Session H t s₀ (s'.reply v)

variable {s : State} {f : Final}

theorem Session.eq_start {H : Host} {t : Program} {s₀ : State}
    (h : Session H t s₀ s) (hend : Ends (step H t) (startPoint s₀) f)
    (hf : ∀ s', f ≠ .stop .suspended s') : s = s₀ := by
  induction h with
  | start => rfl
  | resume h v hrun ih =>
    subst ih
    exact absurd (hend.unique (execute_iff.mp hrun)) (hf _)

/-- The program and the first state of a template that `Build` accepts. -/
def Started (H : Host) (t : Program) (s₀ : State) : Prop :=
  ∃ funcs input text vars restrict tmpl funcCall outputVars heap js,
    build H funcs input text vars restrict = .ok tmpl ∧
    tmpl.newRutime funcCall outputVars heap js = (t, s₀)

def plainRun (exps : List String) : Option (Program × State) :=
  (build plainHost none [] (templateText exps) (some []) true).toOption.map fun tmpl =>
    tmpl.newRutime none [] [] 0

theorem plainRun_started {exps : List String} {t : Program} {s₀ : State}
    (h : plainRun exps = some (t, s₀)) : Started plainHost t s₀ := by
  obtain ⟨tmpl, htmpl, hrt⟩ := Option.map_eq_some_iff.mp h
  exact ⟨none, [], templateText exps, some [], true, tmpl, none, [], [], 0,
    Res.toOption_eq_some.mp htmpl, hrt⟩

theorem exists_of_any {α : Type} {o : Option α} {c : α → Bool} (h : o.any c) :
    ∃ a, o = some a ∧ c a := by
  cases o with
  | none => cases h
  | some a => exact ⟨a, rfl, h⟩

def Final.done? : Final → Option State
  | .done s => some s
  | _ => none

theorem Final.eq_done (h : f.done? = some s) : f = .done s := by
  unfold Final.done? at h
  split at h
  · rw [Option.some.inj h]
  · cases h

def Final.waiting? : Final → Option State
  | .stop .suspended s => some s
  | _ => none

theorem Final.eq_waiting (h : f.waiting? = some s) : f = .stop .suspended s := by
  unfold Final.waiting? at h
  split at h
  · rw [Option.some.inj h]
  · cases h

def Visits (H : Host) (t : Program) (s₀ : State) (p : Point) : Prop :=
  ∃ s, Session H t s₀ s ∧ Reaches (step H t) (startPoint s) p

def Follows (H : Host) (t : Program) (p q : Point) : Prop :=
  Steps (step H t) p q ∨ ∃ s v, step H t p = .inl (.stop .suspended s) ∧ q = startPoint (s.reply v)

section

variable {H : Host} {t : Program} {s₀ : State} {p q : Point}

theorem Visits.follows (h : Visits H t s₀ p) (hq : Follows H t p q) : Visits H t s₀ q := by
  obtain ⟨s, hs, hreach⟩ := h
  rcases hq with hstep | ⟨s', v, hstop, rfl⟩
  · exact ⟨s, hs, hreach.tail hstep⟩
  · exact ⟨s'.reply v, hs.resume v (execute_iff.mpr ⟨p, hreach, hstop⟩), .refl⟩

theorem Visits.reaches (h : Visits H t s₀ p) (hq : Reaches (step H t) p q) : Visits H t s₀ q := by
  obtain ⟨s, hs, hreach⟩ := h
  exact ⟨s, hs, hreach.trans hq⟩

/-- What holds at the start, and is kept from each point to the next, holds throughout the
session. -/
theorem Visits.invariant {I : Point → Prop} (h : Visits H t s₀ p) (hstart : I (startPoint s₀))
    (keep : ∀ a b, Visits H t s₀ a → I a → Follows H t a b → I b) : I p := by
  obtain ⟨s, hs, hreach⟩ := h
  -- within a call the induction is on its steps, and the start of a call on the call before it
  have hcall : ∀ s, Session H t s₀ s → I (startPoint s) → ∀ p, Reaches (step H t) (startPoint s) p →
      I p := by
    intro s hs hI p hp
    induction hp with
    | refl => exact hI
    | tail hab hstep ih => exact keep _ _ ⟨s, hs, hab⟩ ih (.inl hstep)
  refine hcall s hs ?_ p hreach
  clear hreach
  induction hs with
  | start => exact hstart
  | @resume s s' hs v hrun ih =>
    obtain ⟨q, hq, hstop⟩ := execute_iff.mp hrun
    exact keep q _ ⟨s, hs, hq⟩ (hcall s hs ih q hq) (.inr ⟨s', v, hstop, rfl⟩)

end

section

variable {exps : List String} {t : Program} {s₀ : State} {p : Point} {n : ℕ}

theorem plainRun_startPoint (h : plainRun exps = some (t, s₀)) :
    startPoint s₀ = .row 0 0 s₀.enter := by
  obtain ⟨tmpl, -, hrt⟩ := Option.map_eq_some_iff.mp h
  cases hrt
  rfl

def everyVisit (t : Program) (s₀ : State) (n : ℕ) (c : Point → Prop) [DecidablePred c] : Bool :=
  (Runs.trail (step plainHost t) n (startPoint s₀)).any (·.all fun p => decide (c p)) &&
    (Runs.run (step plainHost t) n (startPoint s₀)).any (!·.isSuspended)

theorem of_everyVisit {c : Point → Prop} [DecidablePred c] (h : everyVisit t s₀ n c)
    (hp : Visits plainHost t s₀ p) : c p := by
  obtain ⟨s, hs, hreach⟩ := hp
  obtain ⟨htrail, hend⟩ := Bool.and_eq_true_iff.mp h
  obtain ⟨f, hf, hsusp⟩ := exists_of_any hend
  have hends : Ends (step plainHost t) (startPoint s₀) f := Runs.exists_run_iff.mp ⟨n, hf⟩
  have hstart : s = s₀ := hs.eq_start hends fun s' heq => by simp [heq, Final.isSuspended] at hsusp
  rw [hstart] at hreach
  exact of_decide_eq_true (Runs.forall_of_trail (fun p => decide (c p)) htrail hreach)

def visitAt (t : Program) (s₀ : State) (n : ℕ) (c : Point → Bool) : Bool :=
  (Runs.after (step plainHost t) n (startPoint s₀)).any c

theorem exists_of_visitAt {c : Point → Bool} (h : visitAt t s₀ n c) :
    ∃ p, Visits plainHost t s₀ p ∧ c p := by
  obtain ⟨p, hp, hc⟩ := exists_of_any h
  exact ⟨p, ⟨s₀, .start, Runs.reaches_of_after hp⟩, hc⟩

end

end Kairos
