import Kairos.Library.EarlyReturn
import Kairos.Runner.Routes

/-!
# The output of a broker on the server and on a daemon

What a template sends is delivered by `handleDeliver` of `server/runner/worker.go` or by
`handleBrokerDeliver` of `kairos-local/kairosdeamon/agent/agent.go`. The server looks up every name
in the `Reciever` of a flow, and the daemon one name for all of it.
-/

namespace Kairos

open List
open Strings (hasSuffix)

def rawSuffixes : List GoString :=
  [subChannel, subTask, subClient] ++ subClients ++ subChannels ++ subTasks

def getRawName (H : Host) (t : GoString) : GoString :=
  match rawSuffixes.find? (hasSuffix (H.toLower t)) with
  | some e => Strings.trimSuffix (H.toLower t) e
  | none => []

def marshalText (H : Host) (h : Heap) (v : Val) : GoString :=
  ((encode H h maxNestingDepth v).map H.jsonRender).getD []

structure TaskInput where
  id : ℤ
  name : GoString
  input : GoString
deriving DecidableEq

/-! ## The server -/

namespace Worker

inductive Content where
  | message (msg : Val)
  | task (t : TaskInput)
  | inherited

def Content.task? : Content → Option TaskInput
  | .task t => some t
  | _ => none

structure Delivery where
  spawn : Spawn
  content : Content

def taskInput (H : Host) (h : Heap) (msg : Val) : GoString :=
  match msg with
  | .str s => s
  | v => marshalText H h v

namespace Routes

variable (H : Host) (h : Heap) (R : Routes)

def content (flow : DeliverFlow) (rev : GoString) (p : Point) : Content :=
  if hasSuffix rev subChannel then .message flow.msg
  else if hasSuffix rev subTask then .task ⟨p.id, p.name, taskInput H h flow.msg⟩
  else .inherited

def due (flow : DeliverFlow) (rev : GoString) : List Delivery :=
  match R.points rev with
  | none => []
  | some p => (R.request flow p).spawns.map (⟨·, content H h flow rev p⟩)

def deliverFlow (flow : DeliverFlow) : List (List Delivery) :=
  EarlyReturn.loop (fun rev => (R.due H h flow rev, (R.points rev).isSome)) (fun _ => [])
    (Strings.split ',' flow.reciever)

def deliverFlows (flows : List DeliverFlow) : List (List (List Delivery)) :=
  EarlyReturn.loop
    (fun flow => (R.deliverFlow H h flow,
      (Strings.split ',' flow.reciever).all fun rev => (R.points rev).isSome))
    (fun flow => (Strings.split ',' flow.reciever).map fun _ => []) flows

def recipients (p : Point) : List Point := if p.type = .task then R.clients p.id else [p]

def reached (rev : GoString) : List Point := (R.points rev).elim [] R.recipients

def task? (rev : GoString) : Option ℤ :=
  (R.points rev).bind fun p =>
    if !hasSuffix rev subChannel && hasSuffix rev subTask &&
      !(R.recipients p).isEmpty then some p.id else none

def named (flow : DeliverFlow) : List ℤ := (Strings.split ',' flow.reciever).filterMap R.task?

variable {H h R} {p : Point}

theorem request_spawns_eq_nil_iff (flow : DeliverFlow) :
    (R.request flow p).spawns = [] ↔ R.recipients p = [] := by
  rw [request, recipients]
  split_ifs <;> simp

variable {flow : DeliverFlow} {rev : GoString}

theorem due_eq_nil_iff : R.due H h flow rev = [] ↔ R.reached rev = [] := by
  rw [due, reached]
  cases R.points rev with
  | none => simp
  | some p => simp [request_spawns_eq_nil_iff]

theorem content_task?_eq_some {t : TaskInput} : (content H h flow rev p).task? = some t ↔
      hasSuffix rev subChannel = false ∧ hasSuffix rev subTask ∧
        t = ⟨p.id, p.name, taskInput H h flow.msg⟩ := by
  rw [content]
  split_ifs with hchannel htask
  · simp [Content.task?, hchannel]
  · simp [Content.task?, hchannel, htask, eq_comm]
  · simp [Content.task?, htask]

variable {id : ℤ}

theorem task?_eq_some : R.task? rev = some id ↔ ∃ p, R.points rev = some p ∧ R.recipients p ≠ [] ∧
      hasSuffix rev subChannel = false ∧ hasSuffix rev subTask ∧ p.id = id := by
  rw [task?, Option.bind_eq_some_iff]
  simp only [Option.ite_none_right_eq_some, Bool.and_eq_true, Bool.not_eq_true', Option.some.injEq,
    isEmpty_eq_false_iff]
  constructor
  · rintro ⟨p, hp, ⟨⟨hchannel, htask⟩, hsome⟩, hid⟩
    exact ⟨p, hp, hsome, hchannel, htask, hid⟩
  · rintro ⟨p, hp, hsome, hchannel, htask, hid⟩
    exact ⟨p, hp, ⟨⟨hchannel, htask⟩, hsome⟩, hid⟩

theorem mem_due_task? {input : GoString} :
    (∃ d ∈ R.due H h flow rev, ∃ t, d.content.task? = some t ∧ t.id = id ∧ t.input = input) ↔
      R.task? rev = some id ∧ input = taskInput H h flow.msg := by
  rw [task?_eq_some, due]
  cases hp : R.points rev with
  | none => simp
  | some p =>
    simp only [List.mem_map, Option.some.injEq, exists_eq_left']
    constructor
    · rintro ⟨_, ⟨spawn, hspawn, rfl⟩, t, ht, rfl, rfl⟩
      obtain ⟨hchannel, htask, rfl⟩ := content_task?_eq_some.mp ht
      have hsome : R.recipients p ≠ [] := fun hnone =>
        ne_nil_of_mem hspawn ((request_spawns_eq_nil_iff flow).mpr hnone)
      exact ⟨⟨hsome, hchannel, htask, rfl⟩, rfl⟩
    · rintro ⟨⟨hsome, hchannel, htask, rfl⟩, rfl⟩
      obtain ⟨spawn, hspawn⟩ := exists_mem_of_ne_nil _
        fun hnone => hsome ((request_spawns_eq_nil_iff flow).mp hnone)
      exact ⟨_, ⟨spawn, hspawn, rfl⟩, _, content_task?_eq_some.mpr ⟨hchannel, htask, rfl⟩, rfl, rfl⟩

/-! ### Receivers that are not known -/

variable (H h R)

def dueFlow (flow : DeliverFlow) : List (List Delivery) :=
  (Strings.split ',' flow.reciever).map (R.due H h flow)

variable {H h R}

theorem dueFlow_eq_nothing_iff :
    (R.dueFlow H h flow = (Strings.split ',' flow.reciever).map fun _ => []) ↔
      ∀ rev ∈ Strings.split ',' flow.reciever, R.reached rev = [] := by
  rw [dueFlow, map_inj_left]
  simp only [due_eq_nil_iff]

theorem deliverFlow_eq_iff : R.deliverFlow H h flow = R.dueFlow H h flow ↔
      (Strings.split ',' flow.reciever).Pairwise fun rev rev' =>
        R.points rev = none → R.reached rev' = [] := by
  rw [deliverFlow, dueFlow, EarlyReturn.loop_eq_map_iff fun _ hnone => hnone]
  simp [due_eq_nil_iff]

/-- Every receiver of every flow is served exactly when those not known come last. -/
theorem deliverFlows_eq_iff {flows : List DeliverFlow} :
    R.deliverFlows H h flows = flows.map (R.dueFlow H h) ↔
      (receivers flows).Pairwise fun x y => R.points x.2 = none → R.reached y.2 = [] := by
  have hidle : ∀ flow : DeliverFlow,
      (R.dueFlow H h flow = (Strings.split ',' flow.reciever).map fun _ => []) →
        R.deliverFlow H h flow = (Strings.split ',' flow.reciever).map fun _ => [] := by
    intro flow hnone
    rw [← hnone, deliverFlow_eq_iff]
    rw [dueFlow_eq_nothing_iff] at hnone
    exact pairwise_of_forall_mem_list fun _ _ rev' hrev' _ => hnone rev' hrev'
  rw [deliverFlows, EarlyReturn.loop_eq_map_iff hidle, receivers, pairwise_flatMap]
  refine and_congr (forall₂_congr fun flow _ => ?_) (List.Pairwise.iff fun flow flow' => ?_)
  · rw [deliverFlow_eq_iff, pairwise_map]
  · dsimp only
    rw [dueFlow_eq_nothing_iff]
    simp only [List.all_eq_false, List.forall_mem_map, Option.isSome_iff_ne_none, ne_eq, not_not]
    constructor
    · intro hall rev hrev rev' hrev' hnone
      exact hall ⟨rev, hrev, hnone⟩ rev' hrev'
    · rintro hall ⟨rev, hrev, hnone⟩ rev' hrev'
      exact hall rev hrev rev' hrev' hnone

end Routes

end Worker

namespace Agent

structure Task where
  id : ℤ
  name : GoString
  workflowID : ℤ
deriving DecidableEq

def getTasks (store : List Task) (name : GoString) (workflowID : ℤ) : List Task :=
  store.filter fun t =>
    (workflowID == 0 || workflowID == t.workflowID) && (name == [] || t.name == name)

def found (H : Host) (store : List Task) (workflowID : ℤ) (flow : DeliverFlow) : List Task :=
  getTasks store (getRawName H flow.reciever) workflowID

def runFlow (H : Host) (h : Heap) (store : List Task) (workflowID : ℤ) (flow : DeliverFlow) :
    List TaskInput × Bool :=
  match found H store workflowID flow with
  | [] => ([], false)
  | [t] => ([⟨t.id, t.name, marshalText H h flow.msg⟩], true)
  | _ => ([], true)

def handleBrokerDeliver (H : Host) (h : Heap) (store : List Task) (workflowID : ℤ)
    (flows : List DeliverFlow) : List (List TaskInput) :=
  EarlyReturn.loop (runFlow H h store workflowID) (fun _ => []) flows

variable {H : Host} {h : Heap} {store : List Task} {workflowID : ℤ} {flow : DeliverFlow}

theorem runFlow_snd : (runFlow H h store workflowID flow).2 ↔
    found H store workflowID flow ≠ [] := by
  rw [runFlow]
  split <;> simp_all

theorem mem_runFlow_fst {t : TaskInput} :
    t ∈ (runFlow H h store workflowID flow).1 ↔ ∃ task, found H store workflowID flow = [task] ∧
      t = ⟨task.id, task.name, marshalText H h flow.msg⟩ := by
  rw [runFlow]
  split <;> simp_all

end Agent

/-! ## The comparison -/

section

variable (H : Host) (h : Heap) (R : Worker.Routes) (store : List Agent.Task) (workflowID : ℤ)

/-- The server delivers to the task under some name, and it is in the daemon's store. -/
def Shared (id : ℤ) : Prop :=
  (∃ rev, R.task? rev = some id) ∧ ∃ t ∈ Agent.getTasks store [] workflowID, t.id = id

def Gives (ds : List (List Worker.Delivery)) (id : ℤ) (input : GoString) : Prop :=
  ∃ d ∈ ds.flatten, ∃ t, d.content.task? = some t ∧ t.id = id ∧ t.input = input

def Executes (ts : List TaskInput) (id : ℤ) (input : GoString) : Prop :=
  ∃ t ∈ ts, t.id = id ∧ t.input = input

/-- Every receiver is served whatever the others are, and the tasks known to both get the same
inputs from each flow. -/
structure Equivalent (flows : List DeliverFlow) : Prop where
  served : R.deliverFlows H h flows = flows.map (R.dueFlow H h)
  same : List.Forall₂
    (fun ds ts => ∀ id input, Shared R store workflowID id →
      (Gives ds id input ↔ Executes ts id input))
    (R.deliverFlows H h flows) (Agent.handleBrokerDeliver H h store workflowID flows)

inductive Alike (before : List DeliverFlow) (flow : DeliverFlow) : Prop where
  /-- It names one shared task, its whole `Reciever` is the daemon's name of it, as for each flow
  before, and the message is no string. -/
  | one (id : ℤ) (hshared : Shared R store workflowID id)
    (honly : ∀ id', Shared R store workflowID id' → (id' ∈ R.named flow ↔ id' = id))
    (hfound : ∃ t, Agent.found H store workflowID flow = [t] ∧ t.id = id)
    (hbefore : ∀ g ∈ before, Agent.found H store workflowID g ≠ [])
    (hmsg : flow.msg.isStr = false)
  /-- It names no shared task, and the daemon returned before or does not take it for one. -/
  | none (hnone : ∀ id, Shared R store workflowID id → id ∉ R.named flow)
    (hother : (∃ g ∈ before, Agent.found H store workflowID g = []) ∨
      ∀ t, Agent.found H store workflowID flow = [t] → ¬ Shared R store workflowID t.id)

end

section

variable {H : Host} {h : Heap} {R : Worker.Routes} {store : List Agent.Task} {workflowID : ℤ}

variable {flow : DeliverFlow} {id : ℤ} {input : GoString}

theorem gives_dueFlow : Gives (R.dueFlow H h flow) id input ↔
      id ∈ R.named flow ∧ input = Worker.taskInput H h flow.msg := by
  have hmem : Gives (R.dueFlow H h flow) id input ↔ ∃ rev ∈ Strings.split ',' flow.reciever,
      ∃ d ∈ R.due H h flow rev, ∃ t, d.content.task? = some t ∧ t.id = id ∧ t.input = input := by
    simp only [Gives, Worker.Routes.dueFlow, mem_flatten, List.mem_map]
    constructor
    · rintro ⟨d, ⟨_, ⟨rev, hrev, rfl⟩, hd⟩, ht⟩
      exact ⟨rev, hrev, d, hd, ht⟩
    · rintro ⟨rev, hrev, d, hd, ht⟩
      exact ⟨d, ⟨_, ⟨rev, hrev, rfl⟩, hd⟩, ht⟩
  rw [hmem, Worker.Routes.named, List.mem_filterMap]
  simp only [Worker.Routes.mem_due_task?]
  constructor
  · rintro ⟨rev, hrev, htask, hinput⟩
    exact ⟨⟨rev, hrev, htask⟩, hinput⟩
  · rintro ⟨⟨rev, hrev, htask⟩, hinput⟩
    exact ⟨rev, hrev, htask, hinput⟩

variable {before : List DeliverFlow}

theorem executes_outcome :
    Executes (if before.all fun g => (Agent.runFlow H h store workflowID g).2 then
        (Agent.runFlow H h store workflowID flow).1 else []) id input ↔
      (∀ g ∈ before, Agent.found H store workflowID g ≠ []) ∧
        (∃ t, Agent.found H store workflowID flow = [t] ∧ t.id = id) ∧
        input = marshalText H h flow.msg := by
  simp only [List.all_eq_true, Agent.runFlow_snd]
  split_ifs with hbefore
  · simp only [Executes, Agent.mem_runFlow_fst]
    constructor
    · rintro ⟨_, ⟨t, ht, rfl⟩, hid, rfl⟩
      exact ⟨hbefore, ⟨t, ht, hid⟩, rfl⟩
    · rintro ⟨-, ⟨t, ht, hid⟩, rfl⟩
      exact ⟨_, ⟨t, ht, rfl⟩, hid, rfl⟩
  · simp [Executes, hbefore]

theorem taskInput_eq_marshalText_iff
    (hquote : ∀ s : GoString, s.length < (H.jsonRender (.str s)).length)
    {v : Val} : Worker.taskInput H h v = marshalText H h v ↔ v.isStr = false := by
  cases v with
  | str s =>
    have htext : marshalText H h (.str s) = H.jsonRender (.str s) := rfl
    simp only [Worker.taskInput, Val.isStr, Bool.true_eq_false, iff_false, htext]
    intro heq
    have := hquote s
    rw [← heq] at this
    exact lt_irrefl _ this
  | _ => simp [Worker.taskInput, Val.isStr]

theorem alike_iff (hquote : ∀ s : GoString, s.length < (H.jsonRender (.str s)).length) :
    (∀ id input, Shared R store workflowID id → (Gives (R.dueFlow H h flow) id input ↔
      Executes (if before.all fun g => (Agent.runFlow H h store workflowID g).2 then
        (Agent.runFlow H h store workflowID flow).1 else []) id input)) ↔
      Alike H R store workflowID before flow := by
  simp only [gives_dueFlow, executes_outcome]
  constructor
  · intro hsame
    by_cases hsome : ∃ id, Shared R store workflowID id ∧ id ∈ R.named flow
    · obtain ⟨id, hshared, hid⟩ := hsome
      obtain ⟨hbefore, ⟨t, ht, rfl⟩, hinput⟩ := (hsame id _ hshared).mp ⟨hid, rfl⟩
      refine .one t.id hshared ?_ ⟨t, ht, rfl⟩ hbefore
        ((taskInput_eq_marshalText_iff hquote).mp hinput)
      intro id' hshared'
      constructor
      · intro hid'
        obtain ⟨-, ⟨t', ht', rfl⟩, -⟩ := (hsame id' _ hshared').mp ⟨hid', rfl⟩
        rw [ht, List.cons.injEq] at ht'
        rw [ht'.1]
      · rintro rfl
        exact hid
    · rw [not_exists] at hsome
      refine .none (fun id hshared hid => hsome id ⟨hshared, hid⟩) ?_
      -- the daemon stops at the first flow that it finds no task for
      by_cases hbefore : ∃ g ∈ before, Agent.found H store workflowID g = []
      · exact .inl hbefore
      · refine .inr fun t ht hshared => hsome t.id ⟨hshared, ?_⟩
        have hreach : ∀ g ∈ before, Agent.found H store workflowID g ≠ [] :=
          fun g hg hnone => hbefore ⟨g, hg, hnone⟩
        exact ((hsame t.id _ hshared).mpr ⟨hreach, ⟨t, ht, rfl⟩, rfl⟩).1
  · rintro (⟨id, hshared, honly, ⟨t, ht, rfl⟩, hbefore, hmsg⟩ | ⟨hnone, hother⟩) id' input hshared'
    · rw [honly id' hshared', (taskInput_eq_marshalText_iff hquote).mpr hmsg]
      constructor
      · rintro ⟨rfl, rfl⟩
        exact ⟨hbefore, ⟨t, ht, rfl⟩, rfl⟩
      · rintro ⟨-, ⟨t', ht', rfl⟩, rfl⟩
        rw [ht, List.cons.injEq] at ht'
        exact ⟨by rw [ht'.1], rfl⟩
    · refine ⟨fun hnamed => absurd hnamed.1 (hnone id' hshared'), ?_⟩
      rintro ⟨hbefore, ⟨t, ht, rfl⟩, -⟩
      rcases hother with ⟨g, hg, hgnone⟩ | hnot
      · exact absurd hgnone (hbefore g hg)
      · exact absurd hshared' (hnot t ht)

/-- The flows for which it does not matter where the broker runs, and each receiver is served. -/
theorem equivalent_iff (hquote : ∀ s : GoString, s.length < (H.jsonRender (.str s)).length)
    {flows : List DeliverFlow} : Equivalent H h R store workflowID flows ↔
      ((Worker.Routes.receivers flows).Pairwise fun x y =>
        R.points x.2 = none → R.reached y.2 = []) ∧
      ∀ before flow after, flows = before ++ flow :: after →
        Alike H R store workflowID before flow := by
  have hsame : R.deliverFlows H h flows = flows.map (R.dueFlow H h) →
      (List.Forall₂ (fun ds ts => ∀ id input, Shared R store workflowID id →
          (Gives ds id input ↔ Executes ts id input))
        (R.deliverFlows H h flows) (Agent.handleBrokerDeliver H h store workflowID flows) ↔
      ∀ before flow after, flows = before ++ flow :: after →
        Alike H R store workflowID before flow) := by
    intro hserved
    rw [hserved, forall₂_map_left_iff, Agent.handleBrokerDeliver, EarlyReturn.forall₂_loop_iff]
    simp only [alike_iff hquote]
  rw [← Worker.Routes.deliverFlows_eq_iff (H := H) (h := h)]
  constructor
  · rintro ⟨hserved, hforall⟩
    exact ⟨hserved, (hsame hserved).mp hforall⟩
  · rintro ⟨hserved, hall⟩
    exact ⟨hserved, (hsame hserved).mpr hall⟩

theorem Equivalent.gives_iff_executes {flows : List DeliverFlow}
    (heq : Equivalent H h R store workflowID flows) (hshared : Shared R store workflowID id)
    (input : GoString) : Gives (R.deliverFlows H h flows).flatten id input ↔
      Executes (Agent.handleBrokerDeliver H h store workflowID flows).flatten id input := by
  have hsplit : ∀ dss : List (List (List Worker.Delivery)), Gives dss.flatten id input ↔
      ∃ ds ∈ dss, Gives ds id input := by
    intro dss
    simp only [Gives, mem_flatten]
    grind
  have hruns : ∀ tss : List (List TaskInput), Executes tss.flatten id input ↔
      ∃ ts ∈ tss, Executes ts id input := by
    intro tss
    simp only [Executes, mem_flatten]
    grind
  rw [hsplit, hruns]
  have hsame := heq.same
  generalize R.deliverFlows H h flows = dss at hsame ⊢
  generalize Agent.handleBrokerDeliver H h store workflowID flows = tss at hsame ⊢
  induction hsame with
  | nil => simp
  | cons hhead _ ih => simp [hhead id input hshared, ih]

end

/-! ## A workflow with two tasks -/

deriving instance DecidableEq for DeliverFlow

def writingHost : Host :=
  { plainHost with
    jsonRender := fun j =>
      match j with
      | .str s => ['"'] ++ (s.flatMap fun c => if c = '"' ∨ c = '\\' then ['\\', c] else [c]) ++
          ['"']
      | .obj [] => "\x7b\x7d"
      | _ => [] }

theorem writingHost_quotes (s : GoString) :
    s.length < (writingHost.jsonRender (.str s)).length := by
  have hle : s.length ≤ (s.flatMap fun c =>
      if c = '"' ∨ c = '\\' then ['\\', c] else [c]).length := by
    induction s with
    | nil => simp
    | cons c s ih =>
      rw [flatMap_cons, length_append, length_cons]
      split_ifs <;> simp only [length_cons, length_nil] <;> omega
  simp only [writingHost, length_append, length_cons, length_nil]
  omega

def flowsOf (exps : List String) : Option (List DeliverFlow × Heap) := do
  let tmpl ← (build writingHost none [] (templateText exps) (some []) true).toOption
  match execute writingHost (tmpl.newRutime none [] [] 0).1 10 (tmpl.newRutime none [] [] 0).2 with
  | some (.done s) => some (s.deliverFlows, s.heap)
  | _ => none

theorem flowsOf_eq {exps : List String} {v : List DeliverFlow × Heap}
    (h : (flowsOf exps).any (fun x => decide (x = v))) : flowsOf exps = some v := by
  obtain ⟨x, hx, hv⟩ := (Option.any_eq_true _ _).mp h
  rw [hx, of_decide_eq_true hv]

def twoTasks : Worker.Routes where
  points := fun name =>
    if name = "a_task" then some ⟨1, .task, "a"⟩
    else if name = "b_task" then some ⟨2, .task, "b"⟩
    else none
  tasks := [⟨1, [⟨9, .client, "c"⟩]⟩, ⟨2, [⟨9, .client, "c"⟩]⟩]

def twoStored : List Agent.Task := [⟨1, "a", 7⟩, ⟨2, "b", 7⟩]

def mapFlow (receiver : String) (a : Addr) : DeliverFlow :=
  ⟨receiver.toList, "send", .mapPtr .reply (some a)⟩

theorem shared_one : Shared twoTasks twoStored 7 1 :=
  ⟨⟨"a_task", by decide⟩, ⟨1, "a", 7⟩, by decide, rfl⟩

theorem shared_two : Shared twoTasks twoStored 7 2 :=
  ⟨⟨"b_task", by decide⟩, ⟨2, "b", 7⟩, by decide, rfl⟩

theorem mapFlow_equivalent :
    flowsOf ["define .m map", "send .m a_task", "send .m b_task"] =
        some ([mapFlow "a_task" 1, mapFlow "b_task" 2], [.map [], .map [], .map []]) ∧
      Equivalent writingHost [.map [], .map [], .map []] twoTasks twoStored 7
        [mapFlow "a_task" 1, mapFlow "b_task" 2] := by
  refine ⟨flowsOf_eq (by decide +kernel),
    (equivalent_iff writingHost_quotes).mpr ⟨by decide +kernel, ?_⟩⟩
  intro before flow after heq
  have hone : twoTasks.named (mapFlow "a_task" 1) = [1] := by decide
  have htwo : twoTasks.named (mapFlow "b_task" 2) = [2] := by decide
  rcases before with _ | ⟨g, _ | ⟨g', before⟩⟩
  · cases heq
    refine .one 1 shared_one (fun id' _ => ?_)
      ⟨⟨1, "a", 7⟩, by decide +kernel, rfl⟩ nofun rfl
    rw [hone, mem_singleton]
  · rw [cons_append, nil_append, List.cons.injEq, List.cons.injEq] at heq
    obtain ⟨rfl, rfl, -⟩ := heq
    refine .one 2 shared_two (fun id' _ => ?_) ⟨⟨2, "b", 7⟩, by decide +kernel, rfl⟩ ?_ rfl
    · rw [htwo, mem_singleton]
    · decide +kernel
  · simp at heq

/-- The server delivers the map to both tasks. The daemon looks for one task by both names, and runs
nothing. -/
theorem mapFlow_not_equivalent :
    flowsOf ["define .m map", "send .m a_task,b_task"] =
      some ([mapFlow "a_task,b_task" 1], [.map [], .map []]) ∧
    Shared twoTasks twoStored 7 1 ∧
    Gives (twoTasks.deliverFlows writingHost [.map [], .map []] [mapFlow "a_task,b_task" 1]).flatten
      1 "\x7b\x7d" ∧
    (Agent.handleBrokerDeliver writingHost [.map [], .map []] twoStored 7
      [mapFlow "a_task,b_task" 1]).flatten = [] ∧
    ¬ Equivalent writingHost [.map [],
      .map []] twoTasks twoStored 7 [mapFlow "a_task,b_task" 1] := by
  have hgives : Gives (twoTasks.deliverFlows writingHost [.map [], .map []]
      [mapFlow "a_task,b_task" 1]).flatten 1 "\x7b\x7d" :=
    ⟨⟨⟨⟨9, .client, "c"⟩, false⟩, .task ⟨1, "a", "\x7b\x7d"⟩⟩, .head _, _, rfl,
      rfl, rfl⟩
  have hnone : (Agent.handleBrokerDeliver writingHost [.map [], .map []] twoStored 7
      [mapFlow "a_task,b_task" 1]).flatten = [] := by
    decide +kernel
  refine ⟨flowsOf_eq (by decide +kernel), shared_one, hgives, hnone, fun heq => ?_⟩
  have hexecutes := (heq.gives_iff_executes shared_one _).mp hgives
  rw [hnone] at hexecutes
  obtain ⟨t, ht, -⟩ := hexecutes
  cases ht

end Kairos
