import Kairos.Template.Termination

/-!
# What the caller is told of a failure

`Execute` returns early with `Tracking.Err` set where an expression fails in a row without a target.
It also does where a stage that sends fails or has no value to send, and there `Tracking.Err` stays
empty (`Point.silent`).
-/

namespace Kairos

open Runs (Steps Reaches Ends)

/-! ## The logs of a call -/

def StageResult.logs : StageResult → Option (List TrackLog)
  | .next _ s => some s.logs
  | .leave _ s => some s.logs
  | .stop _ s => some s.logs
  | .panic => none

def Final.logs : Final → List TrackLog
  | .done s => s.logs
  | .stop _ s => s.logs
  | .panic => []

def Point.logged (H : Host) (t : Program) : Point → List TrackLog
  | .stage _ idx _ (e :: _) s =>
    match e.execute H t.env s.expInput s.toMem with
    | .err msg _ => s.logs ++ [trackLog idx e msg]
    | _ => s.logs
  | p => p.state.logs

section

variable {H : Host} {t : Program} {idx : ℤ} {edx : ℕ} {e : Expression} {s : State} {p : Point}

theorem logs_eq_logged (row : ℕ) (rest : Row) (hpanic : runStage H t idx edx e s ≠ .panic) :
    (runStage H t idx edx e s).logs =
      some (Point.logged H t (.stage row idx edx (e :: rest) s)) := by
  obtain ⟨s', hs⟩ : ∃ s', (runStage H t idx edx e s).state? = some s' := by
    cases hrun : runStage H t idx edx e s with
    | next | leave | stop => exact ⟨_, rfl⟩
    | panic => exact absurd hrun hpanic
  have hlogs : (runStage H t idx edx e s).logs = some s'.logs := by
    cases hrun : runStage H t idx edx e s <;> rw [hrun] at hs <;> cases hs <;> rfl
  obtain ⟨out, err, s₀, hx, hlogs₀, -⟩ := runStage_state hs
  rw [hlogs, hlogs₀]
  cases hx with
  | ok out m hx | err msg m hx => simp [Point.logged, hx]

theorem steps_logs {q : Point} (h : Steps (step H t) p q) : q.state.logs = p.logged H t := by
  match p with
  | .row row expIdx s =>
    obtain ⟨exp, -, rfl⟩ := follows_row (.inl h)
    simp only [Point.state, Point.logged, openScope]
    split_ifs <;> rfl
  | .stage row idx edx [] s =>
    obtain rfl := follows_nil (.inl h)
    rfl
  | .stage row idx edx (e :: rest) s =>
    simp only [Steps, step] at h
    cases hrun : runStage H t idx edx e s with
    | next idx' s' | leave idx' s' =>
      have hlogs := logs_eq_logged row rest (by rw [hrun]; simp)
      rw [hrun] at h hlogs
      cases h
      exact Option.some.inj hlogs
    | stop why s' | panic => rw [hrun] at h; cases h

variable {f : Final}

theorem final_logs (h : step H t p = .inl f) (hf : f ≠ .panic) : f.logs = p.logged H t := by
  match p with
  | .row row expIdx s =>
    simp only [step] at h
    cases hexp : t.exps[row]? with
    | none =>
      rw [hexp] at h
      cases h
      rfl
    | some exp => rw [hexp] at h; cases h
  | .stage row idx edx [] s => cases h
  | .stage row idx edx (e :: rest) s =>
    simp only [step] at h
    cases hrun : runStage H t idx edx e s with
    | next idx' s' | leave idx' s' => rw [hrun] at h; cases h
    | stop why s' =>
      have hlogs := logs_eq_logged row rest (by rw [hrun]; simp)
      rw [hrun] at h hlogs
      cases h
      exact Option.some.inj hlogs
    | panic =>
      rw [hrun] at h
      exact absurd (Sum.inl.inj h).symm hf

end

/-! ## The error of a call -/

def Final.trackErr : Final → GoString
  | .done s => s.trackErr
  | .stop _ s => s.trackErr
  | .panic => []

def Point.silent (H : Host) (t : Program) : Point → Bool
  | .stage _ idx _ (e :: _) s =>
    match e.execute H t.env s.expInput s.toMem with
    | .ok out _ => e.isSend && (out.getD []).isEmpty
    | .err msg _ => e.isSend || !e.is .returnExp && t.target idx == 0 && msg.isEmpty
    | .panic => false
  | _ => false

def Point.errs (H : Host) (t : Program) : Point → Bool
  | .stage _ _ _ (e :: _) s =>
    match e.execute H t.env s.expInput s.toMem with
    | .err _ _ => true
    | _ => false
  | _ => false

/-- A call that stops on a failure has a text in `Tracking.Err`, and one in which no expression
fails has neither that nor a log. -/
structure Accounts (H : Host) (t : Program) (s : State) (f : Final) : Prop where
  failure : ∀ s', f = .stop .failed s' → s'.trackErr ≠ []
  clean : (∀ p, Reaches (step H t) (startPoint s) p → p.errs H t = false) → f ≠ .panic →
    f.trackErr = [] ∧ f.logs = []

section

variable {H : Host} {t : Program} {idx : ℤ} {edx : ℕ} {e : Expression} {s s' : State}

theorem Program.target_nonneg (t : Program) (idx : ℤ) : 0 ≤ t.target idx := by
  unfold Program.target
  split
  · exact Int.natCast_nonneg _
  · exact le_rfl

variable {out : Out} {idx' : ℤ}

theorem Moves.trackErr_eq {err : Option GoString}
    (hm : Moves H t idx e out err s idx' s') : s'.trackErr = s.trackErr :=
  congrArg Output.trackErr hm.output_eq

variable {p : Point}

theorem steps_trackErr {q : Point} (h : Steps (step H t) p q) :
    q.state.trackErr = p.state.trackErr := by
  match p with
  | .row row expIdx s =>
    obtain ⟨exp, -, rfl⟩ := follows_row (.inl h)
    simp only [Point.state, openScope]
    split_ifs <;> rfl
  | .stage row idx edx [] s =>
    obtain rfl := follows_nil (.inl h)
    rfl
  | .stage row idx edx (e :: rest) s =>
    cases steps_stage h with
    | sends s' hs =>
      obtain ⟨v, vs, m, reciever, -, -, rfl⟩ := hs.sent
      rfl
    | continues idx' s' hc =>
      obtain ⟨out, m, s₁, -, hm, rfl, -⟩ := hc.moved
      exact hm.trackErr_eq
    | leaves idx' s' hl =>
      obtain ⟨out, err, s₀, idx₁, hx, hm, -⟩ := hl.moved
      have hkeep : s'.trackErr = s.trackErr := by
        rw [hm.trackErr_eq]
        cases hx with
        | ok | err => rfl
      exact hkeep

variable {msg : GoString}

theorem Moves.eq_of_err
    (hm : Moves H t idx e none (some msg) s idx' s') (hend : e.is .endExp = false) :
    idx' = idx := by
  cases hm with
  | plain | breaks | entered | endsBlock | endsOwn | endsLast | endsInner => rfl
  | skipped r h herr => cases herr
  | restarts h | restartsOuter h => rw [hend] at h; cases h

variable {m : Mem}

theorem not_end_of_err {m' : Mem} {input : Out}
    (h : e.execute H t.env input m = .err msg m') : e.is .endExp = false := by
  cases hend : e.is .endExp with
  | false => rfl
  | true =>
    unfold Expression.execute at h
    rw [Expression.is_iff.mp hend] at h
    cases h

theorem target_pos_of_panic {err : Option GoString}
    (h : finishStage H t idx e out err s = .panic) : 0 < t.target idx := by
  unfold finishStage at h
  split_ifs at h with h1 h2 h3 h4
  exact h4.2

theorem finishOther_failed_iff (msg : GoString) (hend : e.is .endExp = false) :
    (∃ s', finishOther H t idx e none (some msg) s = .stop .failed s' ∧ s'.trackErr = []) ↔
      e.is .returnExp = false ∧ t.target idx = 0 ∧ msg = [] := by
  rcases finishOther_cases (H := H) t idx e none (some msg) s with
    hpanic | ⟨hret, h⟩ | ⟨hret, idx₁, s₁, hm, h⟩
  · -- only the jump of a row with a target panics after an error
    have hpos : 0 < t.target idx := by
      unfold finishOther at hpanic
      rw [if_neg (by simp), hend, if_neg (by simp : ¬ (false))] at hpanic
      split_ifs at hpanic <;> exact target_pos_of_panic hpanic
    simp [hpanic, hpos.ne']
  · rw [h, hret]
    simp
  · obtain rfl := hm.eq_of_err hend
    rw [h, hret]
    unfold finishStage
    by_cases htarget : t.target idx₁ = 0
    · rw [if_pos ⟨rfl, htarget⟩]
      simp [htarget]
    · have hpos : 0 < t.target idx₁ := lt_of_le_of_ne (t.target_nonneg idx₁) (Ne.symm htarget)
      rw [if_neg fun hc => htarget hc.2]
      simp only [htarget, false_and, and_false, iff_false]
      rintro ⟨s', hs', -⟩
      split_ifs at hs' with h1 h2 h3
      exact h3 ⟨.inr rfl, hpos⟩

theorem afterExecute_failed_iff (hs : s.trackErr = []) (out : Out) :
    (∃ s', afterExecute H t idx edx e out none s = .stop .failed s' ∧ s'.trackErr = []) ↔
      e.isSend ∧ (out.getD []).isEmpty := by
  unfold afterExecute
  cases hsend : e.isSend with
  | true =>
    rw [and_iff_right rfl]
    cases hout : out.getD [] with
    | nil => simp [finishSend, hout, hs]
    | cons v vs =>
      simp only [List.isEmpty_cons, Bool.false_eq_true, iff_false]
      rintro ⟨s', hs', -⟩
      split_ifs at hs' with hprint
      simp only [finishSend, hout] at hs'
      split at hs'
      · cases hs'
      · split_ifs at hs'
        cases hs'
  | false =>
    simp only [Bool.false_eq_true, false_and, iff_false, if_false]
    rintro ⟨s', hs', -⟩
    split_ifs at hs' with hprint
    rcases finishOther_cases (H := H) t idx e out none s with h | ⟨-, h⟩ | ⟨-, idx₁, s₁, -, h⟩
    · rw [h] at hs'; cases hs'
    · rw [h] at hs'; cases hs'
    · rw [h] at hs'
      rcases finishStage_cases (H := H) t idx₁ e out none s₁ with
        hc | ⟨_, -, hne⟩ | ⟨-, hc⟩ | ⟨-, -, hc⟩ | ⟨-, -, hc⟩ | ⟨-, -, -, -, hc⟩
      · rw [hc] at hs'
        cases hs'
      · exact hne rfl
      all_goals
        rw [hc] at hs'
        cases hs'

theorem step_failed_iff {i : ℕ} {rest : Row} {c : State → Prop} :
    (∃ s', step H t (.stage i idx edx (e :: rest) s) = .inl (.stop .failed s') ∧ c s') ↔
      ∃ s', runStage H t idx edx e s = .stop .failed s' ∧ c s' := by
  simp only [step]
  cases runStage H t idx edx e s <;> simp

theorem step_silent_iff (hp : p.state.trackErr = []) :
    (∃ s', step H t p = .inl (.stop .failed s') ∧ s'.trackErr = []) ↔ p.silent H t := by
  match p with
  | .row i expIdx s =>
    simp only [step, Point.silent, Bool.false_eq_true, iff_false]
    rintro ⟨s', hs', -⟩
    cases hexp : t.exps[i]? with
    | none | some exp => rw [hexp] at hs'; cases hs'
  | .stage i idx edx [] s => simp [step, Point.silent]
  | .stage i idx edx (e :: rest) s =>
    rw [step_failed_iff]
    simp only [Point.silent]
    cases hx : e.execute H t.env s.expInput s.toMem with
    | panic => simp [runStage, hx]
    | ok out m =>
      have hkeep : { s with toMem := m }.trackErr = [] := hp
      simp only [runStage, hx, Bool.and_eq_true]
      exact afterExecute_failed_iff hkeep out
    | err msg m =>
      have hend := not_end_of_err hx
      simp only [runStage, hx, afterExecute]
      cases hsend : e.isSend with
      | true =>
        have hkeep : s.trackErr = [] := hp
        simpa [finishSend] using hkeep
      | false =>
        simpa [and_assoc] using finishOther_failed_iff (H := H) (t := t) msg hend

theorem stop_trackErr {why : Stop} (hx : e.execute H t.env s.expInput s.toMem = .ok out m)
    (hrun : runStage H t idx edx e s = .stop why s') : s'.trackErr = s.trackErr := by
  have hs : (runStage H t idx edx e s).state? = some s' := by rw [hrun]; rfl
  obtain ⟨out', err, s₀, hex, -, htrack, -⟩ := runStage_state hs
  cases hex with
  | err msg m' hx' => rw [hx] at hx'; cases hx'
  | ok out' m' hx' => exact htrack rfl

variable {f : Final}

theorem final_trackErr (h : step H t p = .inl f) (hf : f ≠ .panic)
    (herrs : p.errs H t = false) : f.trackErr = p.state.trackErr := by
  match p with
  | .row i expIdx s =>
    simp only [step] at h
    cases hexp : t.exps[i]? with
    | none =>
      rw [hexp] at h
      cases h
      rfl
    | some exp => rw [hexp] at h; cases h
  | .stage i idx edx [] s => cases h
  | .stage i idx edx (e :: rest) s =>
    simp only [step] at h
    cases hx : e.execute H t.env s.expInput s.toMem with
    | err msg m => simp [Point.errs, hx] at herrs
    | panic =>
      simp only [runStage, hx] at h
      exact absurd (Sum.inl.inj h).symm hf
    | ok out m =>
      cases hrun : runStage H t idx edx e s with
      | next idx' s' | leave idx' s' => rw [hrun] at h; cases h
      | stop why s' =>
        rw [hrun] at h
        cases h
        exact stop_trackErr hx hrun
      | panic =>
        rw [hrun] at h
        exact absurd (Sum.inl.inj h).symm hf

theorem Point.logged_of_not_errs (h : p.errs H t = false) : p.logged H t = p.state.logs := by
  match p with
  | .row i expIdx s => rfl
  | .stage i idx edx [] s => rfl
  | .stage i idx edx (e :: rest) s =>
    simp only [Point.errs] at h
    simp only [Point.logged, Point.state]
    cases hx : e.execute H t.env s.expInput s.toMem with
    | ok out m | panic => rfl
    | err msg m => rw [hx] at h; cases h

theorem reaches_trackErr (h : Reaches (step H t) (startPoint s) p) : p.state.trackErr = [] :=
  Runs.Reaches.invariant h (I := fun q => q.state.trackErr = []) rfl fun _ _ ha hstep =>
    (steps_trackErr hstep).trans ha

theorem clean_of_ends (h : Ends (step H t) (startPoint s) f)
    (herrs : ∀ p, Reaches (step H t) (startPoint s) p → p.errs H t = false) (hf : f ≠ .panic) :
    f.trackErr = [] ∧ f.logs = [] := by
  obtain ⟨p, hreach, hp⟩ := h
  have hlogs : p.state.logs = [] :=
    (hreach.along herrs).invariant (I := fun q => q.state.logs = []) rfl
      fun a b ha herr hstep => by rw [steps_logs hstep, Point.logged_of_not_errs herr, ha]
  constructor
  · rw [final_trackErr hp hf (herrs p hreach), reaches_trackErr hreach]
  · rw [final_logs hp hf, Point.logged_of_not_errs (herrs p hreach), hlogs]

end

/-- The tracking tells whether a call failed exactly if the session comes to no stage that sends and
fails or has nothing to send, nor to an error without a text in a row without a target. -/
theorem accounts_iff (H : Host) (t : Program) (s₀ : State) :
    (∀ s, Session H t s₀ s → ∀ fuel f, execute H t fuel s = some f → Accounts H t s f) ↔
      ∀ p, Visits H t s₀ p → p.silent H t = false := by
  constructor
  · rintro haccounts p ⟨s, hs, hreach⟩
    by_contra hsilent
    obtain ⟨s', hstep, hs'⟩ :=
      (step_silent_iff (reaches_trackErr hreach)).mpr (by simpa using hsilent)
    obtain ⟨fuel, hfuel⟩ := execute_iff.mpr ⟨p, hreach, hstep⟩
    exact (haccounts s hs fuel _ hfuel).failure s' rfl hs'
  · intro hsilent s hs fuel f hf
    have hends := execute_iff.mp ⟨fuel, hf⟩
    refine ⟨?_, clean_of_ends hends⟩
    rintro s' rfl hs'
    obtain ⟨p, hreach, hp⟩ := hends
    have hp' := (step_silent_iff (reaches_trackErr hreach)).mp ⟨s', hp, hs'⟩
    rw [hsilent p ⟨s, hs, hreach⟩] at hp'
    cases hp'

def Final.failsSilently : Final → Bool
  | .stop .failed s => s.trackErr.isEmpty && !s.logs.isEmpty
  | _ => false

/-- A message without a value ends the call, and only the logs tell. -/
theorem send_without_value_untracked :
    ∃ t s₀, plainRun ["send x_task"] = some (t, s₀) ∧ ∃ fuel s',
      execute plainHost t fuel s₀ = some (.stop .failed s') ∧ s'.trackErr = [] ∧ s'.logs ≠ [] := by
  have hcheck : (plainRun ["send x_task"]).any (fun p =>
      (execute plainHost p.1 2 p.2).any Final.failsSilently) := by
    decide +kernel
  obtain ⟨⟨t, s₀⟩, hrun, hcheck⟩ := exists_of_any hcheck
  obtain ⟨f, hf, hfails⟩ := exists_of_any hcheck
  unfold Final.failsSilently at hfails
  split at hfails
  · next s' =>
    rw [Bool.and_eq_true] at hfails
    refine ⟨t, s₀, hrun, 2, s', hf, List.isEmpty_iff.mp hfails.1, ?_⟩
    intro hlogs
    rw [hlogs] at hfails
    cases hfails.2
  · cases hfails

end Kairos
