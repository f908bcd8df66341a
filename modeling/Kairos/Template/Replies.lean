import Kairos.Template.Ranges

/-!
# Waiting for replies

A `sendsync` ends the call of `Execute`, and the next call goes on behind it with the reply in the
input. `stepSync` is the run that this stands for, in which a `sendsync` does not wait. A call that
starts behind the first row prints the rows that it comes to, with the input that each expression
had last (`callStep`). The two agree where each `sendsync` has no input, stands outside of all
ranges, its row opens no scope, and what is printed can be.
-/

namespace Kairos

open List
open Runs (Steps Reaches Ends)

def Point.answered (s : State) (v : Val) : Point → Point
  | .stage i idx edx rest _ => .stage i idx (edx + 1) rest.tail { s with expInput := some [v] }
  | .row i expIdx _ => .row i expIdx s

/-- One step of a run in which a `sendsync` takes the next reply at once. -/
def stepSync (H : Host) (t : Program) : Point × List Val → Final ⊕ (Point × List Val)
  | (p, vs) =>
    match step H t p, vs with
    | .inr q, vs => .inr (q, vs)
    | .inl (.stop .suspended s), v :: vs => .inr (p.answered s v, vs)
    | .inl f, _ => .inl f

/-! ## Sessions -/

def Final.flows : Final → List DeliverFlow
  | .done s => s.deliverFlows
  | .stop _ s => s.deliverFlows
  | .panic => []

/-- The last `Input` of each expression, by row and stage. -/
abbrev Inputs := ℕ → ℕ → List Val

def Point.record (ins : Inputs) : Point → Inputs
  | .stage i _ edx (_ :: _) s => fun row k =>
      if row = i ∧ k = edx then s.expInput.getD [] else ins row k
  | _ => ins

/-- `fmt` comes to an end on the expressions of the row that the run is at. -/
def Point.prints (H : Host) (t : Program) (ins : Inputs) : Point → Bool
  | .row i _ s => (List.range (t.exps[i]?.getD []).length).all fun k =>
      (ins i k).all (s.heap.nestsIn H.printDepth)
  | .stage _ _ _ _ _ => true

/-- The test `rowIdx > 0` of `Execute`. -/
def State.printsRows (s : State) : Bool := decide (0 < (parseIndex s.expIndex).1)

/-- One step of a call of `Execute`: `step`, with the print of the rows and the inputs that the
expressions keep. -/
def callStep (H : Host) (t : Program) (printsRows : Bool) :
    Point × Inputs → (Final × Inputs) ⊕ (Point × Inputs)
  | (p, ins) =>
    if printsRows && !p.prints H t ins then .inl (.panic, ins)
    else Sum.map (·, p.record ins) (·, p.record ins) (step H t p)

/-- The calls from a point on, with a reply for each that waits while there are any: their messages
and the end of the last. -/
inductive Calls (H : Host) (t : Program) :
    Bool → Point × Inputs → List Val → List DeliverFlow → Final → Prop where
  | returns {r : Bool} {c : Point × Inputs} {vs : List Val} {f : Final} {ins : Inputs}
      (h : Ends (callStep H t r) c (f, ins)) (hf : f.isSuspended = false ∨ vs = []) :
      Calls H t r c vs f.flows f
  | resumes {r : Bool} {c : Point × Inputs} {s : State} {ins : Inputs} {v : Val} {vs : List Val}
      {flows : List DeliverFlow} {f : Final}
      (h : Ends (callStep H t r) c (.stop .suspended s, ins))
      (hrest : Calls H t (s.reply v).printsRows (startPoint (s.reply v), ins) vs flows f) :
      Calls H t r c (v :: vs) (s.deliverFlows ++ flows) f

/-- What the calls of a session come to, whatever the replies: whether the call prints its rows,
the point, and the inputs. -/
inductive Seen (H : Host) (t : Program) (s₀ : State) (ins₀ : Inputs) :
    Bool → Point × Inputs → Prop where
  | start : Seen H t s₀ ins₀ s₀.printsRows (startPoint s₀, ins₀)
  | next {r : Bool} {p q : Point} {ins : Inputs} (h : Seen H t s₀ ins₀ r (p, ins))
      (hstep : step H t p = .inr q) : Seen H t s₀ ins₀ r (q, p.record ins)
  | resume {r : Bool} {p : Point} {ins : Inputs} {s : State} (v : Val)
      (h : Seen H t s₀ ins₀ r (p, ins)) (hstop : step H t p = .inl (.stop .suspended s)) :
      Seen H t s₀ ins₀ (s.reply v).printsRows (startPoint (s.reply v), p.record ins)

/-- The calls without their prints. -/
inductive QuietCalls (H : Host) (t : Program) :
    Point → List Val → List DeliverFlow → Final → Prop where
  | returns {p : Point} {vs : List Val} {f : Final} (h : Ends (step H t) p f)
      (hf : f.isSuspended = false ∨ vs = []) : QuietCalls H t p vs f.flows f
  | resumes {p : Point} {s : State} {v : Val} {vs : List Val} {flows : List DeliverFlow} {f : Final}
      (h : Ends (step H t) p (.stop .suspended s))
      (hrest : QuietCalls H t (startPoint (s.reply v)) vs flows f) :
      QuietCalls H t p (v :: vs) (s.deliverFlows ++ flows) f

/-- Calls that have sent `flows` and ended with `f` have produced what the run without waiting has
that ends with `f'`. A panic loses the messages of its call. -/
inductive Produced : List DeliverFlow → Final → Final → Prop where
  | done {s s' : State} (hmem : s.toMem = s'.toMem) : Produced s'.deliverFlows (.done s) (.done s')
  | stop {s s' : State} (why : Stop) (hmem : s.toMem = s'.toMem) :
      Produced s'.deliverFlows (.stop why s) (.stop why s')
  | panic (flows : List DeliverFlow) : Produced flows .panic .panic

theorem Produced.mem {flows : List DeliverFlow} {s s' : State}
    (h : Produced flows (.done s) (.done s')) : s.toMem = s'.toMem := by
  cases h with
  | done hmem => exact hmem

/-- The calls with the replies `vs`, where the expressions had the inputs `ins` before, against the
run that does not wait. -/
structure CallsAgree (H : Host) (t : Program) (s₀ : State) (ins : Inputs) (vs : List Val) :
    Prop where
  answered : ∀ flows f, Calls H t s₀.printsRows (startPoint s₀, ins) vs flows f →
    ∃ f', Ends (stepSync H t) (startPoint s₀, vs) f' ∧ Produced flows f f'
  resumed : ∀ f', Ends (stepSync H t) (startPoint s₀, vs) f' →
    ∃ flows f, Calls H t s₀.printsRows (startPoint s₀, ins) vs flows f ∧ Produced flows f f'

/-- The next call finds all that there was: the row index is that of its row, which opens no scope,
its input is empty, and no range is under way. -/
def Point.Resumable (t : Program) : Point → Prop
  | .row _ _ _ => True
  | .stage _ _ _ [] _ => True
  | .stage i idx _ (e :: _) s => e.is .sendsync →
      idx = i ∧ (t.exps[i]?.getD []).any Expression.isOpen = false ∧
        s.expInput.getD [] = [] ∧ s.rangeStack = []

/-- A call that prints its rows can print this one. -/
def Resumable (H : Host) (t : Program) (r : Bool) (c : Point × Inputs) : Prop :=
  c.1.Resumable t ∧ (r → c.1.prints H t c.2)

/-! ## States that a step does not tell apart -/

def State.withOutput (s : State) (o : Output) : State :=
  { s with
    expIndex := o.expIndex
    deliverFlows := o.deliverFlows
    logs := o.logs
    trackErr := o.trackErr }

/-- The states differ in their output only, the second one's messages behind `sent`. -/
def Akin (sent : List DeliverFlow) (s s' : State) : Prop :=
  ∃ o : Output, s = s'.withOutput o ∧ o.deliverFlows = sent ++ s'.deliverFlows

inductive AkinStage (sent : List DeliverFlow) : StageResult → StageResult → Prop where
  | next (idx : ℤ) {s s' : State} (h : Akin sent s s') : AkinStage sent (.next idx s) (.next idx s')
  | leave (idx : ℤ) {s s' : State} (h : Akin sent s s') :
      AkinStage sent (.leave idx s) (.leave idx s')
  | stop (why : Stop) {s s' : State} (h : Akin sent s s') :
      AkinStage sent (.stop why s) (.stop why s')
  | panic : AkinStage sent .panic .panic

inductive AkinPoint (sent : List DeliverFlow) : Point → Point → Prop where
  | row (i k : ℕ) {s s' : State} (h : Akin sent s s') :
      AkinPoint sent (.row i k s) (.row i k s')
  | stage (i : ℕ) (idx : ℤ) (edx : ℕ) (rest : Row) {s s' : State} (h : Akin sent s s') :
      AkinPoint sent (.stage i idx edx rest s) (.stage i idx edx rest s')

inductive AkinFinal (sent : List DeliverFlow) : Final → Final → Prop where
  | done {s s' : State} (h : Akin sent s s') : AkinFinal sent (.done s) (.done s')
  | stop (why : Stop) {s s' : State} (h : Akin sent s s') :
      AkinFinal sent (.stop why s) (.stop why s')
  | panic : AkinFinal sent .panic .panic

section

variable {H : Host} {t : Program} {sent : List DeliverFlow} {s s' : State} {p p' : Point}

theorem Akin.refl (s : State) : Akin [] s s := ⟨⟨_, _, _, _⟩, rfl, rfl⟩

abbrev withOutput (o : Output) (r : Option (ℤ × State)) : Option (ℤ × State) :=
  r.map fun a => (a.1, a.2.withOutput o)

theorem bindRange_withOutput (r : RangeValue) (kv : Kv) (s : State) (o : Output) :
    bindRange H r kv (s.withOutput o) = (bindRange H r kv s).map (·.withOutput o) := by
  have hmem : (s.withOutput o).toMem = s.toMem := rfl
  unfold bindRange
  rw [hmem]
  split
  · rfl
  · rfl

theorem advance_withOutput (s : State) (o : Output) :
    (s.withOutput o).advance = s.advance.withOutput o := by
  cases hv : s.rangeValue <;> simp [State.advance, State.withOutput, hv]

theorem restart_withOutput (r : RangeValue) (s : State) (o : Output) :
    restart H r (s.withOutput o) = withOutput o (restart H r s) := by
  unfold restart
  cases r.value[r.index]? with
  | none => rfl
  | some kv =>
    have hscope : (s.withOutput o).appendScope = s.appendScope.withOutput o := rfl
    simp only [hscope, bindRange_withOutput, withOutput, Option.map_map]
    congr 1
    funext s'
    simp [advance_withOutput]

theorem enterRange_withOutput (idx : ℤ) (e : Expression) (out : Out) (s : State) (o : Output) :
    enterRange H t idx e out (s.withOutput o) = withOutput o (enterRange H t idx e out s) := by
  have hheap : (s.withOutput o).heap = s.heap := rfl
  unfold enterRange
  rw [hheap]
  split
  · dsimp only
    split
    · rfl
    · simp only [bindRange_withOutput, withOutput, Option.map_map]
      rfl
  · rfl

theorem endRow_withOutput (idx : ℤ) (s : State) (o : Output) :
    endRow H idx (s.withOutput o) = withOutput o (endRow H idx s) := by
  have hpop : ∀ s : State, (s.withOutput o).popScope = s.popScope.withOutput o := fun _ => rfl
  have hcur : ∀ s : State, (s.withOutput o).current = s.current := fun _ => rfl
  have hstack : ∀ s : State, (s.withOutput o).rangeStack = s.rangeStack := fun _ => rfl
  unfold endRow
  simp only [hpop, hcur, hstack]
  split
  · rfl
  · split_ifs
    · rfl
    · exact restart_withOutput _ _ _
    · split
      · rfl
      · rfl
      · rename_i q r' outer _
        -- the states are taken apart here, since `restart` would be on the way
        have houter : ({ s.popScope.withOutput o with
              rangeStack := r' :: outer, rangeValue := .top } : State).popScope =
            State.withOutput ({ s.popScope with
              rangeStack := r' :: outer, rangeValue := .top } : State).popScope o := rfl
        split_ifs
        · rw [houter]
          exact restart_withOutput _ _ _
        · rfl

theorem Akin.setInput (h : Akin sent s s') (x : Out) :
    Akin sent { s with expInput := x } { s' with expInput := x } := by
  obtain ⟨o, rfl, ho⟩ := h
  exact ⟨o, rfl, ho⟩

theorem Akin.setErr (h : Akin sent s s') (x : GoString) :
    Akin sent { s with trackErr := x } { s' with trackErr := x } := by
  obtain ⟨o, rfl, ho⟩ := h
  exact ⟨{ o with trackErr := x }, rfl, ho⟩

theorem Akin.finishStage (h : Akin sent s s') (idx : ℤ) (e : Expression) (out : Out)
    (err : Option GoString) :
    AkinStage sent (finishStage H t idx e out err s) (finishStage H t idx e out err s') := by
  have hprint : (s.expInput.getD []).all (s.heap.nestsIn H.printDepth) =
      (s'.expInput.getD []).all (s'.heap.nestsIn H.printDepth) := by
    obtain ⟨o, rfl, -⟩ := h
    rfl
  unfold Kairos.finishStage
  rw [hprint]
  split_ifs
  · exact .stop _ (h.setErr _)
  · exact .leave _ h
  · exact .leave _ h
  · exact .leave _ h
  · exact .panic
  · exact .stop _ (h.setInput _)
  · exact .next _ (h.setInput _)

theorem Akin.finishSend (h : Akin sent s s') (idx : ℤ) (edx : ℕ) (e : Expression) (out : Out)
    (err : Option GoString) :
    AkinStage sent (finishSend idx edx e out err s) (finishSend idx edx e out err s') := by
  unfold Kairos.finishSend
  split
  · exact .stop _ h
  · exact .stop _ h
  · rename_i v vs _
    split
    · exact .panic
    · rename_i reciever _
      have hsent : Akin sent
          { s with
            expIndex := formatIndex idx (edx + 1)
            deliverFlows := s.deliverFlows ++ [⟨reciever, e.func, v⟩] }
          { s' with
            expIndex := formatIndex idx (edx + 1)
            deliverFlows := s'.deliverFlows ++ [⟨reciever, e.func, v⟩] } := by
        obtain ⟨o, rfl, ho⟩ := h
        refine ⟨{ o with
          expIndex := formatIndex idx (edx + 1)
          deliverFlows := o.deliverFlows ++ [⟨reciever, e.func, v⟩] }, rfl, ?_⟩
        rw [ho, append_assoc]
      split_ifs
      · exact .stop _ hsent
      · exact .next _ hsent

theorem Akin.of_output {o : Output} (ho : o.deliverFlows = sent ++ s.deliverFlows)
    (h : s'.output = s.output) : Akin sent (s'.withOutput o) s' := by
  have hflows : s'.deliverFlows = s.deliverFlows := congrArg Output.deliverFlows h
  exact ⟨o, rfl, by rw [hflows]; exact ho⟩

theorem Akin.finishOther (h : Akin sent s s') (idx : ℤ) (e : Expression) (out : Out)
    (err : Option GoString) :
    AkinStage sent (finishOther H t idx e out err s) (finishOther H t idx e out err s') := by
  obtain ⟨o, rfl, ho⟩ := h
  unfold Kairos.finishOther
  split_ifs with hrange hreturn hend hbreak
  · rw [enterRange_withOutput]
    cases hr : Kairos.enterRange H t idx e out s' with
    | none => exact .panic
    | some a => exact (Akin.of_output ho (enterRange_moves hrange.1 hr).output_eq).finishStage ..
  · exact .stop _ ⟨o, rfl, ho⟩
  · rw [endRow_withOutput]
    cases hr : Kairos.endRow H idx s' with
    | none => exact .panic
    | some a =>
      have hm : Moves H t idx e out err s' a.1 a.2 := endRow_moves hend hr
      exact (Akin.of_output ho hm.output_eq).finishStage ..
  · have hnull : Akin sent { s'.withOutput o with rangeValue := .null }
        { s' with rangeValue := .null } := ⟨o, rfl, ho⟩
    exact hnull.finishStage idx e out err
  · exact Akin.finishStage ⟨o, rfl, ho⟩ idx e out err

theorem Akin.runStage (h : Akin sent s s') (idx : ℤ) (edx : ℕ) (e : Expression) :
    AkinStage sent (runStage H t idx edx e s) (runStage H t idx edx e s') := by
  obtain ⟨o, rfl, ho⟩ := h
  have hinput : (s'.withOutput o).expInput = s'.expInput := rfl
  have hmem : (s'.withOutput o).toMem = s'.toMem := rfl
  unfold Kairos.runStage
  rw [hinput, hmem]
  cases e.execute H t.env s'.expInput s'.toMem with
  | ok out m =>
    have hmem : Akin sent { s'.withOutput o with toMem := m } { s' with toMem := m } := ⟨o, rfl, ho⟩
    simp only [afterExecute]
    split_ifs
    · exact .panic
    · exact hmem.finishSend idx edx e out none
    · exact hmem.finishOther idx e out none
  | err msg m =>
    have hlogged : Akin sent
        { s'.withOutput o with toMem := m, logs := o.logs ++ [trackLog idx e msg] }
        { s' with toMem := m, logs := s'.logs ++ [trackLog idx e msg] } :=
      ⟨{ o with logs := o.logs ++ [trackLog idx e msg] }, rfl, ho⟩
    simp only [afterExecute]
    split_ifs
    · exact .panic
    · exact hlogged.finishSend idx edx e none (some msg)
    · exact hlogged.finishOther idx e none (some msg)
  | panic => exact .panic

theorem step_akin (h : AkinPoint sent p p') :
    Sum.LiftRel (AkinFinal sent) (AkinPoint sent) (step H t p) (step H t p') := by
  cases h with
  | row i k h =>
    simp only [step]
    cases t.exps[i]? with
    | none => exact .inl (.done h)
    | some exp =>
      refine .inr (.stage i i k (exp.drop k) ?_)
      obtain ⟨o, rfl, ho⟩ := h
      unfold openScope
      split_ifs
      · exact ⟨o, rfl, ho⟩
      · exact ⟨o, rfl, ho⟩
  | @stage i idx edx rest s s' h =>
    cases rest with
    | nil => exact .inr (.row _ 0 (h.setInput _))
    | cons e rest =>
      have hstage := h.runStage (H := H) (t := t) idx edx e
      simp only [step]
      generalize runStage H t idx edx e s = r, runStage H t idx edx e s' = r' at hstage
      cases hstage with
      | next idx' h => exact .inr (.stage i idx' (edx + 1) rest h)
      | leave idx' h => exact .inr (.row _ 0 (h.setInput _))
      | stop why h => exact .inl (.stop why h)
      | panic => exact .inl .panic

/-! ## The next call -/

/-- The stages left are those of their row, and where the current range is on the stack, it is not
empty. -/
def Point.Regular (t : Program) : Point → Prop
  | .row _ _ s => s.rangeValue = .top → s.rangeStack ≠ []
  | .stage i _ edx rest s => (s.rangeValue = .top → s.rangeStack ≠ []) ∧
      ∃ exp, t.exps[i]? = some exp ∧ rest = exp.drop edx

theorem Moves.top {idx idx' : ℤ} {e : Expression} {out : Out} {err : Option GoString}
    (hm : Moves H t idx e out err s idx' s') (h : s.rangeValue = .top → s.rangeStack ≠ []) :
    s'.rangeValue = .top → s'.rangeStack ≠ [] := by
  cases hm with
  | plain | endsBlock | endsOwn => exact h
  | breaks | skipped | endsLast => intro htop; cases htop
  | entered | endsInner | restartsOuter => intro _; simp
  | restarts hk r hcur hstop kv hkv =>
    have hcur' : (s.popScope.appendScope.withItem r kv [] s.popScope.varTemp).current = some r :=
      hcur
    rcases State.advance_cases hcur' with ⟨stack, -, -, hadv⟩ | ⟨-, hadv⟩
    · rw [hadv]
      intro _
      simp
    · rw [hadv]
      intro htop
      cases htop

theorem State.enter_not_top (s : State) : s.enter.rangeValue ≠ .top := by
  unfold State.enter
  cases s.current with
  | none | some r => simp

theorem startPoint_regular (s : State) : (startPoint s).Regular t := fun htop =>
  absurd htop s.enter_not_top

theorem SameRanges.top (h : SameRanges s s') (htop : s.rangeValue = .top → s.rangeStack ≠ []) :
    s'.rangeValue = .top → s'.rangeStack ≠ [] := by
  rw [h.rangeValue_eq, h.rangeStack_eq]
  exact htop

theorem Point.Regular.follows {q : Point} (hp : p.Regular t) (h : Follows H t p q) :
    q.Regular t := by
  cases p with
  | row i expIdx s =>
    obtain ⟨exp, hexp, rfl⟩ := follows_row h
    exact ⟨(SameRanges.openScope exp s).top hp, exp, hexp, rfl⟩
  | stage i idx edx rest s =>
    obtain ⟨htop, exp, hexp, hrest⟩ := hp
    cases rest with
    | nil =>
      obtain rfl := follows_nil h
      exact htop
    | cons e rest =>
      have hrest' := (getElem?_of_drop hrest).2
      rcases h with hstep | ⟨s', v, -, rfl⟩
      · cases stageStep_of_steps hstep with
        | sends s' hsame => exact ⟨hsame.top htop, exp, hexp, hrest'⟩
        | next out s₀ s₁ s' idx' hsame hm hsame' =>
          exact ⟨hsame'.top (hm.top (hsame.top htop)), exp, hexp, hrest'⟩
        | leaves out err s₀ s₁ s' idx₁ idx' hsame hm _ hsame' =>
          exact hsame'.top (hm.top (hsame.top htop))
      · exact startPoint_regular _

variable {s₀ : State}

theorem Visits.regular (h : Visits H t s₀ p) : p.Regular t :=
  h.invariant (startPoint_regular s₀) fun _ _ _ ha hab => ha.follows hab

theorem State.enter_eq (hstack : s.rangeStack = [])
    (htop : s.rangeValue = .top → s.rangeStack ≠ []) :
    s.enter = s.withOutput ⟨s.expIndex, [], [], []⟩ := by
  cases hv : s.rangeValue with
  | null | own r => simp [State.enter, State.current, State.withOutput, hv, hstack]
  | top => exact absurd hstack (htop hv)

theorem resume_akin {f : Final} (hfits : t.Fits) (hvisit : Visits H t s₀ p')
    (hres : p'.Resumable t) (hp : AkinPoint sent p p')
    (hstop : step H t p' = .inl (.stop .suspended s')) (hstop' : step H t p = .inl f) (v : Val) :
    ∃ s q, f = .stop .suspended s ∧ Steps (step H t) (startPoint (s'.reply v)) q ∧
      AkinPoint (sent ++ s'.deliverFlows) (p.answered s v) q := by
  have hfinal : AkinFinal sent f (.stop .suspended s') := by
    have hlift := step_akin (H := H) (t := t) hp
    rw [hstop, hstop'] at hlift
    cases hlift with
    | inl h => exact h
  have hregular := hvisit.regular
  cases hfinal with
  | @stop _ s₁ _ hs =>
    refine ⟨s₁, ?_⟩
    cases hp with
    | row i k h =>
      simp only [step] at hstop
      split at hstop <;> cases hstop
    | @stage i idx edx rest _ s₂ _ =>
      cases rest with
      | nil => cases hstop
      | cons e rest =>
        have hsusp := suspends_of_step hstop
        -- the resumed call starts behind the request, in the scopes it was left in
        obtain ⟨rfl, hopen, hinput, hstack⟩ := hres hsusp.isSync
        obtain ⟨htop, exp, hexp, hrest⟩ := hregular
        obtain ⟨he, hrest'⟩ := getElem?_of_drop hrest
        rw [hsusp.startPoint_of_fits hfits hexp he v]
        refine ⟨.stage i i (edx + 1) (exp.drop (edx + 1)) (openScope exp (s'.reply v).enter), rfl,
          by simp only [Steps, step, hexp], ?_⟩
        obtain ⟨w, ws, m, reciever, -, -, rfl⟩ := hsusp.sent
        have hsame : SameRanges s₂ (({ s₂ with toMem := m } : State).sent i edx e reciever w) :=
          ⟨rfl, rfl⟩
        have hexpInput : (({ s₂ with toMem := m } : State).sent i edx e reciever w).expInput =
          s₂.expInput := rfl
        generalize ({ s₂ with toMem := m } : State).sent i edx e reciever w = S at *
        have hreply : S.reply v = { S with expInput := some [v] } := by
          rw [State.reply, hexpInput, hinput, nil_append]
        rw [hexp, Option.getD_some] at hopen
        have hscope : openScope exp (S.reply v).enter = (S.reply v).enter := by
          simp [openScope, hopen]
        have henter : (S.reply v).enter = (S.reply v).withOutput ⟨S.expIndex, [], [], []⟩ :=
          State.enter_eq (hsame.rangeStack_eq.trans hstack) (hsame.top htop)
        rw [hscope, henter, hreply, ← hrest']
        obtain ⟨o, rfl, ho⟩ := hs
        exact .stage i i (edx + 1) rest ⟨o, rfl, ho.trans (append_nil _).symm⟩

end

/-! ## Whole sessions -/

section

variable {H : Host} {t : Program} {sent flows : List DeliverFlow} {s s₀ : State} {p p' q : Point}
  {v : Val} {vs : List Val} {f f' : Final}

theorem stepSync_of_inr (h : step H t p = .inr q) (vs : List Val) :
    stepSync H t (p, vs) = .inr (q, vs) := by
  simp only [stepSync, h]

theorem stepSync_of_inl (h : step H t p = .inl f) (hf : f.isSuspended = false ∨ vs = []) :
    stepSync H t (p, vs) = .inl f := by
  simp only [stepSync, h]
  cases f with
  | done s | panic => rfl
  | stop why s =>
    cases why with
    | failed | returned result => rfl
    | suspended =>
      obtain rfl : vs = [] := by simpa [Final.isSuspended] using hf
      rfl

theorem stepSync_of_suspended (h : step H t p = .inl (.stop .suspended s)) (v : Val)
    (vs : List Val) : stepSync H t (p, v :: vs) = .inr (p.answered s v, vs) := by
  simp only [stepSync, h]

theorem QuietCalls.head (h : Steps (step H t) p q) (hq : QuietCalls H t q vs flows f) :
    QuietCalls H t p vs flows f := by
  cases hq with
  | returns hend hf => exact .returns (.of_reaches h.reaches hend) hf
  | resumes hend hrest => exact .resumes (.of_reaches h.reaches hend) hrest

theorem reaches_akin (hp : AkinPoint sent p p') (h : Reaches (step H t) p' q) (vs : List Val) :
    ∃ q', Reaches (stepSync H t) (p, vs) (q', vs) ∧ AkinPoint sent q' q := by
  induction h with
  | refl => exact ⟨p, .refl, hp⟩
  | @tail a b _ hstep ih =>
    obtain ⟨a', hreach, ha⟩ := ih
    have hlift := step_akin (H := H) (t := t) ha
    rw [show step H t a = .inr b from hstep] at hlift
    cases hb : step H t a' with
    | inl g => rw [hb] at hlift; cases hlift
    | inr b' =>
      rw [hb] at hlift
      cases hlift with
      | inr h => exact ⟨b', hreach.tail (stepSync_of_inr hb vs), h⟩

theorem AkinFinal.produced (h : AkinFinal sent f' f) :
    f'.isSuspended = f.isSuspended ∧ Produced (sent ++ f.flows) f f' := by
  cases h with
  | @done _ s h =>
    obtain ⟨o, rfl, ho⟩ := h
    have hflows : sent ++ (Final.done s).flows = (s.withOutput o).deliverFlows := ho.symm
    rw [hflows]
    exact ⟨rfl, .done rfl⟩
  | @stop why _ s h =>
    obtain ⟨o, rfl, ho⟩ := h
    have hflows : sent ++ (Final.stop why s).flows = (s.withOutput o).deliverFlows := ho.symm
    rw [hflows]
    exact ⟨by cases why <;> rfl, .stop why rfl⟩
  | panic => exact ⟨rfl, .panic _⟩

theorem ends_akin (hp : AkinPoint sent p p') (hq : step H t p' = .inl f) :
    ∃ f', step H t p = .inl f' ∧ AkinFinal sent f' f := by
  have hlift := step_akin (H := H) (t := t) hp
  rw [hq] at hlift
  cases hb : step H t p with
  | inr b => rw [hb] at hlift; cases hlift
  | inl g =>
    rw [hb] at hlift
    cases hlift with
    | inl h => exact ⟨g, rfl, h⟩

theorem QuietCalls.answered (hfits : t.Fits) (hres : ∀ p, Visits H t s₀ p → p.Resumable t)
    (h : QuietCalls H t p' vs flows f) :
    ∀ sent p q, Visits H t s₀ q → Reaches (step H t) p' q → AkinPoint sent p q →
      ∃ f', Ends (stepSync H t) (p, vs) f' ∧ Produced (sent ++ flows) f f' := by
  induction h with
  | @returns p' vs f hend hf =>
    intro sent p q hvisit hreach hp
    obtain ⟨a, hqa, ha⟩ := hend.of_start hreach
    obtain ⟨a', hpa, hakin⟩ := reaches_akin hp hqa vs
    obtain ⟨f', hf', hfinal⟩ := ends_akin hakin ha
    obtain ⟨hsusp, hprod⟩ := hfinal.produced
    exact ⟨f', ⟨(a', vs), hpa, stepSync_of_inl hf' (by rw [hsusp]; exact hf)⟩, hprod⟩
  | @resumes p' s v vs flows f hend _ ih =>
    intro sent p q hvisit hreach hp
    obtain ⟨a, hqa, ha⟩ := hend.of_start hreach
    obtain ⟨a', hpa, hakin⟩ := reaches_akin hp hqa (v :: vs)
    obtain ⟨g, hg, -⟩ := ends_akin hakin ha
    have hvisit' := hvisit.reaches hqa
    obtain ⟨s₁, b, rfl, hb, hbakin⟩ := resume_akin hfits hvisit' (hres a hvisit') hakin ha hg v
    have hvisitb : Visits H t s₀ b :=
      (hvisit'.follows (.inr ⟨s, v, ha, rfl⟩)).reaches hb.reaches
    obtain ⟨f', hend', hprod⟩ := ih _ _ b hvisitb hb.reaches hbakin
    refine ⟨f', .of_reaches (hpa.tail (stepSync_of_suspended hg v vs)) hend', ?_⟩
    rw [← append_assoc]
    exact hprod

theorem exists_calls (hfits : t.Fits) (hres : ∀ p, Visits H t s₀ p → p.Resumable t) (n : ℕ) :
    ∀ sent vs p p', Visits H t s₀ p' → AkinPoint sent p p' →
      Runs.run (stepSync H t) n (p, vs) = some f' →
        ∃ flows f, QuietCalls H t p' vs flows f ∧ Produced (sent ++ flows) f f' := by
  induction n with
  | zero => intro sent vs p p' _ _ hrun; cases hrun
  | succ n ih =>
    intro sent vs p p' hvisit hp hrun
    unfold Runs.run at hrun
    cases hstep : step H t p' with
    | inr q' =>
      have hlift := step_akin (H := H) (t := t) hp
      rw [hstep] at hlift
      cases hq : step H t p with
      | inl g => rw [hq] at hlift; cases hlift
      | inr q =>
        rw [hq] at hlift
        cases hlift with
        | inr hakin =>
          simp only [stepSync_of_inr hq] at hrun
          have hvisit' := hvisit.follows (.inl hstep)
          obtain ⟨flows, f, hcalls, hprod⟩ := ih sent vs q q' hvisit' hakin hrun
          exact ⟨flows, f, .head hstep hcalls, hprod⟩
    | inl f =>
      obtain ⟨g, hg, hfinal⟩ := ends_akin hp hstep
      obtain ⟨hsusp, hprod⟩ := hfinal.produced
      by_cases hf : f.isSuspended = false ∨ vs = []
      · simp only [stepSync_of_inl hg (by rw [hsusp]; exact hf), Option.some.injEq] at hrun
        subst hrun
        exact ⟨f.flows, f, .returns ⟨p', .refl, hstep⟩ hf, hprod⟩
      · -- a call that waits, and a reply for it
        obtain ⟨hf, hvs⟩ := not_or.mp hf
        obtain ⟨s, rfl⟩ : ∃ s, f = .stop .suspended s := by
          unfold Final.isSuspended at hf
          split at hf
          · exact ⟨_, rfl⟩
          · exact absurd rfl hf
        obtain ⟨v, vs, rfl⟩ := exists_cons_of_ne_nil hvs
        obtain ⟨s₁, b, rfl, hb, hbakin⟩ := resume_akin hfits hvisit (hres p' hvisit) hp hstep hg v
        simp only [stepSync_of_suspended hg] at hrun
        have hvisit' := hvisit.follows (.inr ⟨s, v, hstep, rfl⟩)
        obtain ⟨flows, f, hcalls, hprod⟩ := ih _ vs _ b (hvisit'.reaches hb.reaches) hbakin hrun
        refine ⟨_, f, .resumes ⟨p', .refl, hstep⟩ (.head hb hcalls), ?_⟩
        rw [← append_assoc]
        exact hprod

end

/-! ## The prints -/

section

variable {H : Host} {t : Program} {s₀ : State} {ins₀ ins ins' : Inputs} {r : Bool} {p q : Point}
  {c d : Point × Inputs} {vs : List Val} {flows : List DeliverFlow} {f : Final}

theorem callStep_of_prints (h : r → p.prints H t ins) : callStep H t r (p, ins) =
    Sum.map (·, p.record ins) (·, p.record ins) (step H t p) :=
  if_neg (by cases r <;> simp_all)

theorem step_of_callStep (h : callStep H t r (p, ins) = .inr d) :
    step H t p = .inr d.1 ∧ d.2 = p.record ins := by
  simp only [callStep] at h
  split_ifs at h
  cases hp : step H t p with
  | inl f => rw [hp] at h; cases h
  | inr q =>
    rw [hp] at h
    cases h
    exact ⟨rfl, rfl⟩

theorem Seen.visits (h : Seen H t s₀ ins₀ r c) : Visits H t s₀ c.1 := by
  induction h with
  | start => exact ⟨s₀, .start, .refl⟩
  | next _ hstep ih => exact ih.follows (.inl hstep)
  | resume v _ hstop ih => exact ih.follows (.inr ⟨_, v, hstop, rfl⟩)

theorem Visits.seen (h : Visits H t s₀ p) (ins₀ : Inputs) :
    ∃ r ins, Seen H t s₀ ins₀ r (p, ins) := by
  refine h.invariant (I := fun p => ∃ r ins, Seen H t s₀ ins₀ r (p, ins)) ⟨_, _, .start⟩ ?_
  rintro a b - ⟨r, ins, ha⟩ (hstep | ⟨s, v, hstop, rfl⟩)
  · exact ⟨r, _, ha.next hstep⟩
  · exact ⟨_, _, .resume v ha hstop⟩

theorem Seen.of_callStep (hc : Seen H t s₀ ins₀ r c) (h : Reaches (callStep H t r) c d) :
    Reaches (step H t) c.1 d.1 ∧ Seen H t s₀ ins₀ r d := by
  induction h with
  | refl => exact ⟨.refl, hc⟩
  | @tail a b _ hab ih =>
    obtain ⟨hreach, ha⟩ := ih
    obtain ⟨hstep, hins⟩ := step_of_callStep hab
    refine ⟨hreach.tail hstep, ?_⟩
    rw [← Prod.eta b, hins]
    exact ha.next hstep

section

variable (hprint : ∀ r c, Seen H t s₀ ins₀ r c → r → c.1.prints H t c.2)
include hprint

theorem Seen.reaches (hc : Seen H t s₀ ins₀ r (p, ins)) (h : Reaches (step H t) p q) :
    ∃ ins', Reaches (callStep H t r) (p, ins) (q, ins') ∧ Seen H t s₀ ins₀ r (q, ins') := by
  induction h with
  | refl => exact ⟨ins, .refl, hc⟩
  | @tail a b _ hab ih =>
    obtain ⟨ins', hreach, ha⟩ := ih
    have hstep : callStep H t r (a, ins') = .inr (b, a.record ins') := by
      rw [callStep_of_prints (hprint _ _ ha), show step H t a = .inr b from hab]
      rfl
    exact ⟨_, hreach.tail hstep, ha.next hab⟩

theorem Seen.ends (hc : Seen H t s₀ ins₀ r c) (h : Ends (callStep H t r) c (f, ins')) :
    ∃ p ins, Reaches (step H t) c.1 p ∧ step H t p = .inl f ∧ ins' = p.record ins ∧
      Seen H t s₀ ins₀ r (p, ins) := by
  obtain ⟨⟨p, ins⟩, hreach, hend⟩ := h
  obtain ⟨hquiet, hp⟩ := hc.of_callStep hreach
  rw [callStep_of_prints (hprint _ _ hp)] at hend
  refine ⟨p, ins, hquiet, ?_⟩
  cases hstep : step H t p with
  | inl g =>
    rw [hstep] at hend
    cases hend
    exact ⟨rfl, rfl, hp⟩
  | inr q => rw [hstep] at hend; cases hend

theorem Calls.quiet (h : Calls H t r c vs flows f) (hc : Seen H t s₀ ins₀ r c) :
    QuietCalls H t c.1 vs flows f := by
  induction h with
  | returns h hf =>
    obtain ⟨p, ins, hreach, hstop, -⟩ := hc.ends hprint h
    exact .returns ⟨p, hreach, hstop⟩ hf
  | @resumes r c s ins' v vs flows f h _ ih =>
    obtain ⟨p, ins, hreach, hstop, rfl, hp⟩ := hc.ends hprint h
    exact .resumes ⟨p, hreach, hstop⟩ (ih (.resume v hp hstop))

theorem QuietCalls.calls (h : QuietCalls H t p vs flows f) :
    ∀ r ins, Seen H t s₀ ins₀ r (p, ins) → Calls H t r (p, ins) vs flows f := by
  have hends {r : Bool} {p : Point} {ins : Inputs} {f : Final} (h : Ends (step H t) p f)
      (hp : Seen H t s₀ ins₀ r (p, ins)) : ∃ q ins', step H t q = .inl f ∧
        Seen H t s₀ ins₀ r (q, ins') ∧ Ends (callStep H t r) (p, ins) (f, q.record ins') := by
    obtain ⟨q, hreach, hstop⟩ := h
    obtain ⟨ins', hreach', hq⟩ := hp.reaches hprint hreach
    refine ⟨q, ins', hstop, hq, (q, ins'), hreach', ?_⟩
    rw [callStep_of_prints (hprint _ _ hq), hstop]
    rfl
  induction h with
  | returns h hf =>
    intro r ins hp
    obtain ⟨q, ins', -, -, hend⟩ := hends h hp
    exact .returns hend hf
  | @resumes p s v vs flows f h _ ih =>
    intro r ins hp
    obtain ⟨q, ins', hstop, hq, hend⟩ := hends h hp
    exact .resumes hend (ih _ _ (.resume v hq hstop))

end

end

/-- A session that is called again after each reply produces what the run does in which no
`sendsync` waits, where every `sendsync` can be resumed. -/
theorem calls_agree_of_resumable {H : Host} {t : Program} {s₀ : State} {ins : Inputs}
    (hfits : t.Fits) (hres : ∀ r c, Seen H t s₀ ins r c → Resumable H t r c) (vs : List Val) :
    CallsAgree H t s₀ ins vs := by
  have hpoint (p : Point) (hp : Visits H t s₀ p) : p.Resumable t := by
    obtain ⟨r, ins', hseen⟩ := hp.seen ins
    exact (hres _ _ hseen).1
  have hprint (r : Bool) (c : Point × Inputs) (hc : Seen H t s₀ ins r c) := (hres r c hc).2
  have hvisit : Visits H t s₀ (startPoint s₀) := ⟨s₀, .start, .refl⟩
  have hrefl : AkinPoint [] (startPoint s₀) (startPoint s₀) := .row _ _ (.refl _)
  refine ⟨fun flows f hcalls => ?_, fun f' hend => ?_⟩
  · exact (hcalls.quiet hprint .start).answered hfits hpoint [] _ _ hvisit .refl hrefl
  · obtain ⟨n, hn⟩ := Runs.exists_run_iff.mpr hend
    obtain ⟨flows, f, hquiet, hprod⟩ := exists_calls hfits hpoint n [] vs _ _ hvisit hrefl hn
    exact ⟨flows, f, hquiet.calls hprint _ _ .start, hprod⟩

/-! ## Templates whose sessions can be resumed -/

/-- No ranges, and each `sendsync` is the first stage of a row that opens no scope. So no row runs
twice. -/
@[mk_iff]
structure Program.PlainSync (t : Program) : Prop where
  noRange : ∀ exp ∈ t.exps, ∀ e ∈ exp, e.is .rangeExp = false
  first : ∀ exp ∈ t.exps, ∀ e ∈ exp.tail, e.is .sendsync = false
  noScope : ∀ exp ∈ t.exps, ∀ e ∈ exp, e.is .sendsync → exp.any Expression.isOpen = false
  targeted : ∀ i < t.exps.length, ∀ e ∈ t.exps[i]?.getD [],
    e.is .ifExp ∨ e.is .elseExp → t.target i ≠ 0

instance (t : Program) : Decidable t.PlainSync :=
  decidable_of_iff _ (Program.plainSync_iff t).symm

def Point.Plain (t : Program) : Point → Prop
  | .row _ expIdx s => s.rangeValue = .null ∧ s.rangeStack = [] ∧
      (expIdx = 0 → s.expInput.getD [] = [])
  | .stage i idx edx rest s => s.rangeValue = .null ∧ s.rangeStack = [] ∧ idx = i ∧
      (edx = 0 → s.expInput.getD [] = []) ∧ ∃ exp, t.exps[i]? = some exp ∧ rest = exp.drop edx

section

variable {H : Host} {t : Program} {s₀ : State} {p q : Point}

theorem Program.PlainSync.first_stage {exp : Row} {e : Expression} {edx : ℕ} (h : t.PlainSync)
    (hexp : exp ∈ t.exps) (he : exp[edx]? = some e) (hsync : e.is .sendsync) : edx = 0 := by
  cases edx with
  | zero => rfl
  | succ edx =>
    rw [← getElem?_tail] at he
    rw [h.first exp hexp e (mem_of_getElem? he)] at hsync
    cases hsync

theorem Point.Plain.follows (hp : p.Plain t) (hplain : t.PlainSync) (hfits : t.Fits)
    (h : Follows H t p q) : q.Plain t := by
  cases p with
  | row i expIdx s =>
    obtain ⟨hnull, hstack, hinput⟩ := hp
    obtain ⟨exp, hexp, rfl⟩ := follows_row h
    have hsame := SameRanges.openScope exp s
    have hopen : (openScope exp s).expInput = s.expInput := by
      unfold openScope
      split_ifs <;> rfl
    exact ⟨hsame.rangeValue_eq.trans hnull, hsame.rangeStack_eq.trans hstack, rfl,
      by rw [hopen]; exact hinput, exp, hexp, rfl⟩
  | stage i idx edx rest s =>
    obtain ⟨hnull, hstack, rfl, hinput, exp, hexp, hrest⟩ := hp
    cases rest with
    | nil =>
      obtain rfl := follows_nil h
      exact ⟨hnull, hstack, fun _ => rfl⟩
    | cons e rest =>
      obtain ⟨he, hrest'⟩ := getElem?_of_drop hrest
      have hmem := mem_of_getElem? hexp
      have hrange := hplain.noRange exp hmem e (mem_of_getElem? he)
      rcases h with hstep | ⟨s', v, hstop, rfl⟩
      · cases steps_stage hstep with
        | sends s' hsend =>
          obtain ⟨w, ws, m, reciever, -, -, rfl⟩ := hsend.sent
          exact ⟨hnull, hstack, rfl, by simp, exp, hexp, hrest'⟩
        | continues idx' s' hcont =>
          obtain ⟨out, m, s₁, -, hm, rfl, -⟩ := hcont.moved
          obtain ⟨rfl, hnull', hstack'⟩ := hm.of_null hnull hrange
          exact ⟨hnull', hstack'.trans hstack, rfl, by simp, exp, hexp, hrest'⟩
        | leaves idx' s' hleave =>
          obtain ⟨out, err, s₁, idx₁, hx, hm, -⟩ := hleave.moved
          have hsame : SameRanges s s₁ := by cases hx <;> exact ⟨rfl, rfl⟩
          obtain ⟨-, hnull', hstack'⟩ := hm.of_null (hsame.rangeValue_eq.trans hnull) hrange
          exact ⟨hnull', hstack'.trans (hsame.rangeStack_eq.trans hstack), fun _ => rfl⟩
      · have hsusp := suspends_of_step hstop
        -- the reply is the only input of the stage behind the request
        rw [hsusp.startPoint_of_fits hfits hexp he v]
        obtain ⟨w, ws, m, reciever, -, -, rfl⟩ := hsusp.sent
        refine ⟨?_, rfl, by simp⟩
        simp [State.enter, State.current, State.reply, State.sent, hnull]

theorem Point.Plain.resumable (hp : p.Plain t) (hplain : t.PlainSync) : p.Resumable t := by
  cases p with
  | row => trivial
  | stage i idx edx rest s =>
    cases rest with
    | nil => trivial
    | cons e rest =>
      intro hsync
      obtain ⟨-, hstack, rfl, hinput, exp, hexp, hrest⟩ := hp
      obtain ⟨he, -⟩ := getElem?_of_drop hrest
      have hmem := mem_of_getElem? hexp
      refine ⟨rfl, ?_, hinput (hplain.first_stage hmem he hsync), hstack⟩
      rw [hexp]
      exact hplain.noScope exp hmem e (mem_of_getElem? he) hsync

/-- The rows ahead have not run, and the one that is run again has had no input. -/
def Fresh : Point × Inputs → Prop
  | (.row i _ _, ins) => ∀ row ≥ i, ∀ k, ins row k = []
  | (.stage i _ edx _ _, ins) => (∀ row > i, ∀ k, ins row k = []) ∧ (edx = 0 → ∀ k, ins i k = [])

theorem Fresh.follows {ins : Inputs} (hp : p.Plain t) (hplain : t.PlainSync) (hfits : t.Fits)
    (hb : t.Built) (hf : Fresh (p, ins)) (h : Follows H t p q) : Fresh (q, p.record ins) := by
  cases p with
  | row i expIdx s =>
    obtain ⟨exp, -, rfl⟩ := follows_row h
    exact ⟨fun row hrow => hf row hrow.le, fun _ => hf i le_rfl⟩
  | stage i idx edx rest s =>
    obtain ⟨hnull, -, rfl, hinput, exp, hexp, hrest⟩ := hp
    obtain ⟨hahead, hfirst⟩ := hf
    cases rest with
    | nil =>
      obtain rfl := follows_nil h
      intro row (hrow : ((i : ℤ) + 1).toNat ≤ row)
      exact hahead row (by omega)
    | cons e rest =>
      obtain ⟨he, -⟩ := getElem?_of_drop hrest
      have hmem := mem_of_getElem? hexp
      have hi : i < t.exps.length := (List.getElem?_eq_some_iff.mp hexp).1
      -- the input that is kept is one of this row
      have hrecord : ∀ row > i, ∀ k, (Point.stage i i edx (e :: rest) s).record ins row k = [] :=
        fun row hrow k => (if_neg fun h => absurd h.1 hrow.ne').trans (hahead row hrow k)
      rcases h with hstep | ⟨s', v, hstop, rfl⟩
      · cases steps_stage hstep with
        | sends s' hsend => exact ⟨hrecord, by simp⟩
        | continues idx' s' hcont => exact ⟨hrecord, by simp⟩
        | leaves idx' s' hleave =>
          obtain ⟨out, err, s₁, idx₁, hx, hm, hj⟩ := hleave.moved
          have hrange := hplain.noRange exp hmem e (mem_of_getElem? he)
          have hsame : SameRanges s s₁ := by cases hx <;> exact ⟨rfl, rfl⟩
          obtain ⟨rfl, -, -⟩ := hm.of_null (hsame.rangeValue_eq.trans hnull) hrange
          have hle := hj.le_index hb hm (hplain.targeted i hi e (by
            rw [hexp]
            exact mem_of_getElem? he))
          intro row (hrow : (idx' + 1).toNat ≤ row)
          exact hrecord row (by omega)
      · have hsusp := suspends_of_step hstop
        obtain rfl := hplain.first_stage hmem he hsusp.isSync
        rw [hsusp.startPoint_of_fits hfits hexp he v]
        intro row hrow k
        rcases hrow.lt_or_eq with hlt | rfl
        · exact hrecord row hlt k
        · show (if _ then _ else _) = _
          split_ifs
          · exact hinput rfl
          · exact hfirst rfl k

theorem resumable_of_plainSync {r : Bool} {c : Point × Inputs} (hstart : Started H t s₀)
    (hfits : t.Fits) (hplain : t.PlainSync) (hc : Seen H t s₀ (fun _ _ => []) r c) :
    Resumable H t r c := by
  have hfirst : (startPoint s₀).Plain t := by
    obtain ⟨funcs, input, text, vars, restrict, tmpl, funcCall, outputVars, heap, js, -, hrt⟩ :=
      hstart
    cases hrt
    exact ⟨rfl, rfl, fun _ => rfl⟩
  have hpt (p : Point) (hp : Visits H t s₀ p) : p.Plain t :=
    hp.invariant hfirst fun _ _ _ ha hab => ha.follows hplain hfits hab
  have hfresh : Fresh c := by
    induction hc with
    | start => exact fun _ _ _ => rfl
    | next h hstep ih =>
      exact ih.follows (hpt _ h.visits) hplain hfits hstart.built (.inl hstep)
    | resume v h hstop ih =>
      exact ih.follows (hpt _ h.visits) hplain hfits hstart.built (.inr ⟨_, v, hstop, rfl⟩)
  refine ⟨(hpt _ hc.visits).resumable hplain, fun _ => ?_⟩
  obtain ⟨_ | _, ins⟩ := c
  · rename_i i expIdx s
    have hnil : ∀ k, ins i k = [] := hfresh i le_rfl
    simp [Point.prints, hnil]
  · rfl

end

/-- A reply that is sent on, by a call that prints its rows. -/
theorem sync_then_send_agrees : ∃ t s₀,
    plainRun ["set .a (1)", "sendsync _ping x_task | .y", "send .y y_task"] = some (t, s₀) ∧
    (∀ r c, Seen plainHost t s₀ (fun _ _ => []) r c → Resumable plainHost t r c) ∧
    CallsAgree plainHost t s₀ (fun _ _ => []) [.str "ok"] := by
  have hcheck : (plainRun ["set .a (1)", "sendsync _ping x_task | .y", "send .y y_task"]).any
      fun p => decide p.1.Fits && decide p.1.PlainSync := by
    decide +kernel
  obtain ⟨⟨t, s₀⟩, hrun, hcheck⟩ := exists_of_any hcheck
  simp only [Bool.and_eq_true, decide_eq_true_eq] at hcheck
  obtain ⟨hfits, hplain⟩ := hcheck
  have hres := fun r c hc =>
    resumable_of_plainSync (r := r) (c := c) (plainRun_started hrun) hfits hplain hc
  exact ⟨t, s₀, hrun, hres, calls_agree_of_resumable hfits hres _⟩

def State.hasText (s : State) (x : GoString) : Bool :=
  (s.varTemp.getValue x).any fun kv => kv.value.isStr

/-- A `sendsync` ends a pipe: the next stage gets the value that was sent, and not the reply. -/
theorem sync_pipe_keeps_input : ∃ t s₀ flows s s',
    plainRun ["set .a (1) | sendsync x_task | .y"] = some (t, s₀) ∧
    Calls plainHost t s₀.printsRows (startPoint s₀, fun _ _ => []) [.str "ok"] flows (.done s) ∧
    Ends (stepSync plainHost t) (startPoint s₀, [.str "ok"]) (.done s') ∧
    s.hasText ".y" = false ∧ s'.hasText ".y" ∧
    ¬ CallsAgree plainHost t s₀ (fun _ _ => []) [.str "ok"] := by
  have hcheck : (plainRun ["set .a (1) | sendsync x_task | .y"]).any (fun p =>
      (Runs.run (callStep plainHost p.1 p.2.printsRows) 9 (startPoint p.2, fun _ _ => [])).any
        (fun f => f.1.waiting?.any fun s =>
          (Runs.run (callStep plainHost p.1 (s.reply (.str "ok")).printsRows) 9
            (startPoint (s.reply (.str "ok")), f.2)).any fun g =>
              g.1.done?.any fun s => !s.hasText ".y") &&
      (Runs.run (stepSync plainHost p.1) 9 (startPoint p.2, [.str "ok"])).any fun g =>
        g.done?.any fun s => s.hasText ".y") := by
    decide +kernel
  obtain ⟨⟨t, s₀⟩, hrun, hcheck⟩ := exists_of_any hcheck
  obtain ⟨hcalls, hsync⟩ := Bool.and_eq_true_iff.mp hcheck
  obtain ⟨⟨f, ins⟩, hf, hwait⟩ := exists_of_any hcalls
  obtain ⟨s₁, hs₁, hnext⟩ := exists_of_any hwait
  obtain ⟨⟨g, ins'⟩, hg, hdone⟩ := exists_of_any hnext
  obtain ⟨s, hs, hnot⟩ := exists_of_any hdone
  obtain ⟨g', hg', hdone'⟩ := exists_of_any hsync
  obtain ⟨s', hs', htext⟩ := exists_of_any hdone'
  obtain rfl := Final.eq_waiting hs₁
  obtain rfl := Final.eq_done hs
  rw [Final.eq_done hs'] at hg'
  rw [Bool.not_eq_true'] at hnot
  have hcalls : Calls plainHost t s₀.printsRows (startPoint s₀, fun _ _ => []) [.str "ok"] _
      (.done s) :=
    .resumes (Runs.exists_run_iff.mp ⟨9, hf⟩)
      (.returns (Runs.exists_run_iff.mp ⟨9, hg⟩) (.inr rfl))
  have hend : Ends (stepSync plainHost t) (startPoint s₀, [.str "ok"]) (.done s') :=
    Runs.exists_run_iff.mp ⟨9, hg'⟩
  refine ⟨t, s₀, _, s, s', hrun, hcalls, hend, hnot, htext, fun hagree => ?_⟩
  obtain ⟨f', hend', hprod⟩ := hagree.answered _ _ hcalls
  rw [hend'.unique hend] at hprod
  unfold State.hasText at hnot htext
  rw [hprod.mem, htext] at hnot
  cases hnot

end Kairos
