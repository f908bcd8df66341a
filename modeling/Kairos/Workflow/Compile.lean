import Kairos.Go.OrderedMap
import Kairos.Template.Compile

/-!
# Compiling a workflow

`Workflow.Compile` of `pkg/workflow/complie.go` compiles the variables, the brokers and the tasks,
and returns the first error. A variable has no expression in braces. A task's payload is rendered
with the variables and must be JSON. Only the templates of brokers see the user's functions.
-/

namespace Kairos

/-- A match of `(.*?)\x7d\x7d`: the text up to the first two closing braces, without a newline, and
the rest. -/
def Strings.untilBraces : GoString → Option (GoString × GoString)
  | [] => none
  | c :: s =>
    if Strings.hasPrefix (c :: s) "\x7d\x7d" then some ([], s.drop 1)
    else if c = '\n' then none
    else (Strings.untilBraces s).map fun r => (c :: r.1, r.2)

/-- The submatches of `\x7b\x7b(.*?)\x7d\x7d`, from the left. -/
def Strings.findBraces : ℕ → GoString → List GoString
  | 0, _ => []
  | _ + 1, [] => []
  | fuel + 1, c :: s =>
    match (if Strings.hasPrefix (c :: s) "\x7b\x7b" then Strings.untilBraces (s.drop 1)
      else none) with
    | some (t, rest) => t :: Strings.findBraces fuel rest
    | none => Strings.findBraces fuel s

def extractVariableNames (H : Host) (s : GoString) : List GoString :=
  (Strings.findBraces s.length s).map H.toLower

example : extractVariableNames plainHost
      "a \x7b\x7b.X\x7d\x7d\x7b\x7b b\x7d\x7d\x7d \x7b\x7bc" =
    [".x", " b"] := by decide

/-! ## The parts of a workflow -/

structure Workflow.Var where
  id : ℤ
  name : GoString
  value : GoString

structure Workflow.BrokerFlows where
  endpoints : List GoString
  condition : GoString

structure Workflow.Broker where
  name : GoString
  listens : List GoString
  clients : List GoString
  flows : Workflow.BrokerFlows

structure Workflow.Task where
  name : GoString
  executor : GoString
  payload : GoString

structure Workflow where
  vars : Option (OrderedMap Workflow.Var)
  tasks : OrderedMap Workflow.Task
  brokers : OrderedMap Workflow.Broker
  channels : List GoString
  clients : List GoString

/-- `text/template` on payloads, and the texts of json errors. -/
structure PayloadHost where
  render : GoString → Vars → Res GoString
  jsonError : GoString → GoString

def plainPayloads : PayloadHost := ⟨fun s _ => .ok s, fun _ => []⟩

namespace Workflow

def varValues (vs : OrderedMap Var) : Vars := vs.entries.map fun v => (v.1, v.2.value)

def userVars (wf : Workflow) : Option Vars := wf.vars.map varValues

def keyValueVars (wf : Workflow) : Vars := wf.userVars.getD []

section

variable (H : Host)

def Var.compile (v : Var) : Res Unit :=
  if v.value = [] then .err (errorf "var " v.name ": empty")
  else if extractVariableNames H v.value ≠ [] then
    .err (errorf "var " v.name ": No dynamic variables allowed")
  else .ok ()

def validateVarListen (wf : Workflow) (dv : GoString) : Bool :=
  let d := bareName (getRootDefaultVar H dv)
  wf.clients.any (fun c => getClientName H c == d) ||
    wf.channels.any (fun c => getChannelName H c == d) ||
    wf.tasks.keys.any fun t => getTaskName H t == d

def Broker.restrict (b : Broker) : Bool := b.clients.isEmpty

/-- `Broker.Compile`, and its template. Nothing fills `ListenVars`, so the loop over them does
nothing. -/
def Broker.compile (wf : Workflow) (funcs : Option JsRuntime) (b : Broker) :
    Res (Option Template) :=
  if b.flows.condition ≠ [] then do
    let t ← build H funcs b.listens b.flows.condition wf.userVars b.restrict
    .ok (some t)
  else if b.flows.endpoints = [] then .err (errorf "broker " b.name ": empty flows")
  else
    match b.flows.endpoints.find? fun e => !validateVarListen H wf e with
    | some e => .err (errorf "broker " b.name ": var " ++ e ++ " not exist!")
    | none => .ok none

/-- The variable ends as those of replies do. -/
def isDefaultVar (v : GoString) : Bool :=
  Strings.hasSuffix v subTask || Strings.hasSuffix v subChannel ||
    subTasks.any (Strings.hasSuffix v) || subChannels.any (Strings.hasSuffix v)

def Task.checkName (t : Task) (vars : Vars) (v : GoString) : Res Unit :=
  if !isVariable v then .err (errorf "task " t.name ": " ++ v ++ " not is variable")
  else if vars.exists (bareName v) then .ok ()
  else if !isDefaultVar v || getRootDefaultVar H v = [] then
    .err (errorf "task " t.name ": " ++ v ++ " is not define")
  else .ok ()

def isObject : Json → Bool
  | .obj _ => true
  | .null => true
  | _ => false

def isObjects : Json → Bool
  | .arr items => items.all isObject
  | j => isObject j

/-- `Task.Compile`: the payload with its variables filled in. -/
def Task.compile (P : PayloadHost) (vars : Vars) (t : Task) : Res GoString :=
  if t.payload = [] then .ok []
  else do
    let _ ← Res.forEach (t.checkName H vars) (extractVariableNames H t.payload)
    let text ← P.render t.payload vars
    match H.jsonText text with
    | none => .err (errorf "task " t.name " complie payload err: " ++ P.jsonError text)
    | some j =>
      if t.executor = "pubsub" ∧ isObjects j = false then .err (P.jsonError text)
      else .ok text

structure Compiled where
  templates : List (Option Template)
  payloads : List GoString

def compile (P : PayloadHost) (funcs : Option JsRuntime) (wf : Workflow) : Res Compiled := do
  let _ ← Res.forEach (fun v => Var.compile H v.2) (wf.vars.getD .empty).entries
  let templates ← Res.forEach (fun b => Broker.compile H wf funcs b.2) wf.brokers.entries
  let payloads ← Res.forEach (fun t => Task.compile H P wf.keyValueVars t.2) wf.tasks.entries
  .ok ⟨templates, payloads⟩

end

variable {funcs : Option JsRuntime} {wf : Workflow}

theorem Broker.compile_cases {H : Host} {b : Broker}
    {t : Option Template} (h : b.compile H wf funcs = .ok t) : (b.flows.condition ≠ [] ∧ ∃ u,
        build H funcs b.listens b.flows.condition wf.userVars b.restrict = .ok u ∧ t = some u) ∨
      b.flows.condition = [] ∧ b.flows.endpoints ≠ [] ∧ t = none := by
  unfold Broker.compile at h
  by_cases hcond : b.flows.condition = []
  · refine .inr ⟨hcond, ?_⟩
    rw [if_neg (not_not.2 hcond)] at h
    split_ifs at h with hend
    split at h
    · cases h
    · exact ⟨hend, (Res.ok.inj h).symm⟩
  · rw [if_pos hcond] at h
    obtain ⟨u, hu, h⟩ := Res.bind_eq_ok.1 h
    exact .inl ⟨hcond, u, hu, (Res.ok.inj h).symm⟩

theorem compile_eq_ok {H : Host} {P : PayloadHost} {c : Compiled} : wf.compile H P funcs = .ok c ↔
    (∃ us, List.Forall₂ (fun v u => Var.compile H v.2 = .ok u) (wf.vars.getD .empty).entries us) ∧
      List.Forall₂ (fun b t => Broker.compile H wf funcs b.2 = .ok t) wf.brokers.entries
        c.templates ∧
      List.Forall₂ (fun t p => Task.compile H P wf.keyValueVars t.2 = .ok p) wf.tasks.entries
        c.payloads := by
  simp only [compile, Res.bind_eq_ok, Res.forEach_eq_ok, Res.ok.injEq]
  constructor
  · rintro ⟨us, hus, ts, hts, ps, hps, rfl⟩
    exact ⟨⟨us, hus⟩, hts, hps⟩
  · rintro ⟨⟨us, hus⟩, hts, hps⟩
    exact ⟨us, hus, c.templates, hts, c.payloads, hps, rfl⟩

end Workflow

end Kairos
