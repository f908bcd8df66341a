import Kairos.Template.Restart
import Kairos.Workflow.Compile

/-!
# Restarting the runner

The HTTP server compiles a workflow with the runtime of its user's functions. When the runner
restarts, `startInitWorkflow` of `server/runner/runner.go` loads the stored workflows one after the
other and compiles each without a runtime.
-/

namespace Kairos.Workflow

open List Option

variable {H : Host} {P : PayloadHost} {js : JsRuntime} {wf : Workflow}

/-! ## Compiling again -/

def rowsAndJumps (t : Option Template) : Option (List Row × IndexRun) :=
  t.map fun t => (t.exps, t.indexRun)

def Broker.Restarts (H : Host) (js : JsRuntime) (wf : Workflow) (b : Broker) : Prop :=
  b.flows.condition ≠ [] →
    Restartable H js ⟨b.listens, wf.userVars, none, b.restrict⟩ b.flows.condition

theorem Broker.compile_restart_iff {b : Broker} {t : Option Template}
    (ht : b.compile H wf (some js) = .ok t) :
    (∃ t', b.compile H wf none = .ok t' ∧ rowsAndJumps t' = rowsAndJumps t) ↔
      b.Restarts H js wf := by
  unfold Broker.Restarts
  by_cases hcond : b.flows.condition = []
  · -- The endpoints are checked alike.
    have heq : b.compile H wf none = b.compile H wf (some js) := by
      unfold Broker.compile
      simp only [hcond, ne_eq, not_true_eq_false, if_false]
    rw [heq]
    exact iff_of_true ⟨t, ht, rfl⟩ fun h => absurd hcond h
  · have hbuild (funcs : Option JsRuntime) (t : Option Template) :
        b.compile H wf funcs = .ok t ↔
          ∃ t', build H funcs b.listens b.flows.condition wf.userVars b.restrict = .ok t' ∧
            some t' = t := by
      rw [Broker.compile, if_pos hcond, Res.bind_eq_ok]
      simp only [Res.ok.injEq]
    obtain ⟨t, hj, rfl⟩ := (hbuild _ _).1 ht
    rw [forall_prop_of_true hcond, ← build_restart_iff hj]
    simp only [hbuild]
    constructor
    · rintro ⟨_, ⟨t', ht', rfl⟩, hrows⟩
      obtain ⟨hexps, hjumps⟩ := Prod.mk.inj (some.inj hrows)
      exact ⟨t', ht', hexps, hjumps⟩
    · rintro ⟨t', ht', hexps, hjumps⟩
      exact ⟨some t', ⟨t', ht', rfl⟩, congrArg some (Prod.ext hexps hjumps)⟩

theorem brokers_restart_iff {bs : List (GoString × Broker)} {ts : List (Option Template)}
    (hts : List.Forall₂ (fun b t => Broker.compile H wf (some js) b.2 = .ok t) bs ts) :
    (∃ ts', List.Forall₂ (fun b t => Broker.compile H wf none b.2 = .ok t) bs ts' ∧
        ts'.map rowsAndJumps = ts.map rowsAndJumps) ↔ ∀ b ∈ bs, b.2.Restarts H js wf := by
  induction hts with
  | nil => exact iff_of_true ⟨[], .nil, rfl⟩ nofun
  | cons ht hts ih =>
    rw [forall_mem_cons, ← ih, ← Broker.compile_restart_iff ht]
    constructor
    · rintro ⟨ts', hts', hrows⟩
      obtain ⟨t', ts', ht', hts'', rfl⟩ := forall₂_cons_left_iff.1 hts'
      obtain ⟨hrow, hrows⟩ := List.cons.inj hrows
      exact ⟨⟨t', ht', hrow⟩, ts', hts'', hrows⟩
    · rintro ⟨⟨t', ht', hrow⟩, ts', hts', hrows⟩
      exact ⟨t' :: ts', .cons ht' hts', congrArg₂ List.cons hrow hrows⟩

/-- A workflow is compiled without the runtime as with it exactly when its brokers' conditions mean
the same. -/
theorem compile_restart_iff {c : Compiled} (hc : wf.compile H P (some js) = .ok c) :
    (∃ c', wf.compile H P none = .ok c' ∧
        c'.templates.map rowsAndJumps = c.templates.map rowsAndJumps) ↔
      ∀ b ∈ wf.brokers.entries, b.2.Restarts H js wf := by
  obtain ⟨hvars, hts, hps⟩ := compile_eq_ok.1 hc
  rw [← brokers_restart_iff hts]
  constructor
  · rintro ⟨c', hc', hrows⟩
    exact ⟨c'.templates, (compile_eq_ok.1 hc').2.1, hrows⟩
  · rintro ⟨ts', hts', hrows⟩
    exact ⟨⟨ts', c.payloads⟩, compile_eq_ok.2 ⟨hvars, hts', hps⟩, hrows⟩

/-! ## Starting the stored workflows -/

structure Startup where
  started : List (Workflow × Compiled)
  result : Res Unit

def ready (H : Host) (P : PayloadHost) (stored : Res Workflow) : Res (Workflow × Compiled) := do
  let wf ← stored
  let c ← wf.compile H P none
  .ok (wf, c)

def startInitWorkflow (H : Host) (P : PayloadHost) : List (Res Workflow) → Startup
  | [] => ⟨[], .ok ()⟩
  | stored :: rest =>
    match ready H P stored with
    | .ok wf =>
      let startup := startInitWorkflow H P rest
      ⟨wf :: startup.started, startup.result⟩
    | .err msg => ⟨[], .err msg⟩
    | .panic => ⟨[], .panic⟩

def startable (H : Host) (P : PayloadHost) (stored : List (Res Workflow)) :
    List (Workflow × Compiled) :=
  stored.filterMap fun s => (ready H P s).toOption

def Starts (H : Host) (P : PayloadHost) (stored : Res Workflow) : Prop :=
  ∃ wf, ready H P stored = .ok wf

variable {stored : Res Workflow} {rest : List (Res Workflow)}

theorem startInitWorkflow_cons_ok {x : Workflow × Compiled} (hx : ready H P stored = .ok x) :
    (startInitWorkflow H P (stored :: rest)).started =
      x :: (startInitWorkflow H P rest).started := by
  rw [startInitWorkflow, hx]

theorem startInitWorkflow_cons_fails
    (hx : ¬ Starts H P stored) : (startInitWorkflow H P (stored :: rest)).started = [] := by
  unfold Starts at hx
  rw [startInitWorkflow]
  cases h : ready H P stored with
  | ok x => exact absurd ⟨x, h⟩ hx
  | err msg | panic => rfl

theorem startable_eq_nil {stored : List (Res Workflow)} :
    startable H P stored = [] ↔ ∀ s ∈ stored, ¬ Starts H P s := by
  unfold startable Starts
  rw [filterMap_eq_nil_iff]
  refine forall₂_congr fun s _ => ?_
  rw [← not_iff_not, not_not, ← ne_eq, ne_none_iff_exists']
  simp only [Res.toOption_eq_some]

theorem started_iff (stored : List (Res Workflow)) :
    (startInitWorkflow H P stored).started = startable H P stored ↔
      stored.Pairwise fun before after => Starts H P after → Starts H P before := by
  induction stored with
  | nil => exact iff_of_true rfl .nil
  | cons s rest ih =>
    rw [pairwise_cons]
    by_cases hs : Starts H P s
    · obtain ⟨x, hx⟩ := hs
      have hstartable : startable H P (s :: rest) = x :: startable H P rest :=
        filterMap_cons_some (f := fun s => (ready H P s).toOption) (Res.toOption_eq_some.2 hx)
      rw [startInitWorkflow_cons_ok hx, hstartable, List.cons.injEq, ih]
      exact and_congr (iff_of_true rfl fun _ _ _ => ⟨x, hx⟩) Iff.rfl
    · have hstartable : startable H P (s :: rest) = startable H P rest := by
        refine filterMap_cons_none ?_
        cases h : ready H P s with
        | ok x => exact absurd ⟨x, h⟩ hs
        | err msg | panic => rfl
      rw [startInitWorkflow_cons_fails hs, hstartable, eq_comm, startable_eq_nil]
      constructor
      · intro hnone
        refine ⟨fun a ha h => absurd h (hnone a ha), pairwise_of_forall_mem_list ?_⟩
        exact fun _ _ b hb h => absurd h (hnone b hb)
      · rintro ⟨hhead, -⟩ a ha h
        exact hs (hhead a ha h)

/-- Compiling without the runtime gives the same templates exactly when the conditions mean the
same, and all stored workflows that can be started are exactly when none that fails comes before. -/
theorem restart_iff (H : Host) (P : PayloadHost) : (∀ js wf c, compile H P (some js) wf = .ok c →
      ((∃ c', compile H P none wf = .ok c' ∧
          c'.templates.map rowsAndJumps = c.templates.map rowsAndJumps) ↔
        ∀ b ∈ wf.brokers.entries, b.2.Restarts H js wf)) ∧
      ∀ stored, (startInitWorkflow H P stored).started = startable H P stored ↔
        stored.Pairwise fun before after => Starts H P after → Starts H P before :=
  ⟨fun _ _ _ hc => compile_restart_iff hc, started_iff⟩

def doubleRuntime : JsRuntime where
  get name := if name = "double" then some true else none
  exportError _ := []
  call _ _ heap n := (.other [], heap, n)

def doubleWorkflow (clients : List GoString) : Workflow where
  vars := some .empty
  tasks := .singleton "t" ⟨"t", "http", []⟩
  brokers := .singleton "b"
    ⟨"b", ["t_task"], clients, ⟨[], templateText ["double (1)"]⟩⟩
  channels := []
  clients := clients

theorem restart_iff_double : ∃ c c',
    compile plainHost plainPayloads (some doubleRuntime) (doubleWorkflow ["c"]) = .ok c ∧
      compile plainHost plainPayloads none (doubleWorkflow ["c"]) = .ok c' ∧
      c'.templates.map rowsAndJumps = c.templates.map rowsAndJumps := by
  obtain ⟨c, hc⟩ : ∃ c, (compile plainHost plainPayloads (some doubleRuntime)
      (doubleWorkflow ["c"])).toOption = some c :=
      isSome_iff_exists.1 (by decide +kernel)
  rw [Res.toOption_eq_some] at hc
  have hrestarts : ∀ b ∈ (doubleWorkflow ["c"]).brokers.entries,
      b.2.Restarts plainHost doubleRuntime (doubleWorkflow ["c"]) := by
    refine forall_mem_singleton.2 fun _ es hes => ?_
    obtain rfl : es = ["double (1)"] := some.inj (hes.symm.trans (by decide +kernel))
    refine ⟨forall_mem_singleton.2 ⟨⟨⟨rfl, fun _ => nofun⟩, trivial⟩, by decide +kernel⟩, ?_⟩
    exact isSome_iff_ne_none.1 (by decide +kernel)
  obtain ⟨c', hc', hrows⟩ := ((restart_iff plainHost plainPayloads).1 _ _ c hc).2 hrestarts
  exact ⟨c, c', hc, hc', hrows⟩

/-- A workflow is created and not started again, nor is the one behind it. -/
theorem double_not_restarted :
    (∃ c, compile plainHost plainPayloads (some doubleRuntime) (doubleWorkflow []) = .ok c) ∧
      (∀ c, compile plainHost plainPayloads none (doubleWorkflow []) ≠ .ok c) ∧
      Starts plainHost plainPayloads (.ok (doubleWorkflow ["c"])) ∧
      (startInitWorkflow plainHost plainPayloads
        [.ok (doubleWorkflow []), .ok (doubleWorkflow ["c"])]).started = [] := by
  have hok : (compile plainHost plainPayloads (some doubleRuntime)
    (doubleWorkflow [])).toOption.isSome := by decide +kernel
  have hfails : (compile plainHost plainPayloads none (doubleWorkflow [])).toOption.isSome =
      false := by
    decide +kernel
  have hstarts : (ready plainHost plainPayloads
    (.ok (doubleWorkflow ["c"]))).toOption.isSome := by decide +kernel
  have hstarted : (startInitWorkflow plainHost plainPayloads
    [.ok (doubleWorkflow []),
      .ok (doubleWorkflow ["c"])]).started.isEmpty := by decide +kernel
  obtain ⟨c, hc⟩ := isSome_iff_exists.1 hok
  obtain ⟨x, hx⟩ := isSome_iff_exists.1 hstarts
  refine ⟨⟨c, Res.toOption_eq_some.1 hc⟩, fun c h => ?_, ⟨x, Res.toOption_eq_some.1 hx⟩,
    isEmpty_iff.1 hstarted⟩
  rw [Res.toOption_eq_some.2 h] at hfails
  cases hfails

end Kairos.Workflow
