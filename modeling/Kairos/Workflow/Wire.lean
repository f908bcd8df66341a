import Kairos.Go.JsonText
import Kairos.Template.Execute
import Kairos.Template.JumpTable
import Kairos.Workflow.Compile

/-!
# Sending a workflow

The HTTP server sends a compiled workflow to the runner as JSON. The runner sends a broker to a
daemon: `deliverBrokers` of `server/runner/worker.go` decodes the command into itself, and so into
the broker. A variable is written as an object, whose text `Var.UnmarshalJSON` takes for its value.
-/

namespace Kairos

open OrderedMap (MapOrder mem_keys mem_map marshalJSON_isOk unmarshalJSON get_eq_some_iff)

/-! ## Records -/

def jsonStr : Codec Json GoString where
  encode := .str
  decode
    | .str s => some s
    | _ => none
  decode_encode _ := rfl

def jsonArr : Codec Json (List Json) where
  encode := .arr
  decode
    | .arr items => some items
    | .null => some []
    | _ => none
  decode_encode _ := rfl

def jsonStrs : Codec Json (List GoString) := jsonArr.list jsonStr

def jsonField (name : String) (j : Json) : GoString × Json := (name.toList, j)

/-- A field is decoded into what the record holds; one that is missing leaves it. -/
def readInto {α : Type} (fields : List (GoString × Json)) (name : String) (into : α)
    (dec : Json → Option α) : Option α :=
  match fields.find? fun f => f.1 = name.toList with
  | none => some into
  | some f => dec f.2

variable {α : Type}

@[simp] theorem readInto_nil (name : String) (into : α) (dec : Json → Option α) :
    readInto [] name into dec = some into := rfl

@[simp] theorem readInto_cons (k name : String) (j : Json)
    (fields : List (GoString × Json)) (into : α) (dec : Json → Option α) :
    readInto (jsonField k j :: fields) name into dec =
      if k = name then dec j else readInto fields name into dec := by
  unfold readInto jsonField
  rw [List.find?_cons]
  by_cases h : k = name
  · simp [h]
  · have hne : ¬ k.toList = name.toList := fun heq => h (String.toList_inj.1 heq)
    simp [h, hne]

def jsonExpression : Codec Json Expression where
  encode e := .obj [jsonField "Func" (jsonStr.encode e.func),
    jsonField "Params" (jsonStrs.encode e.params),
    jsonField "Input" .null]
  decode
    | .obj fields => do
      let func ← readInto fields "Func" [] jsonStr.decode
      let params ← readInto fields "Params" [] jsonStrs.decode
      some ⟨func, params⟩
    | _ => none
  decode_encode e := by
    simp [jsonStr.decode_encode, jsonStrs.decode_encode]

def jsonRows : Codec Json (List Row) := jsonArr.list (jsonArr.list jsonExpression)

def indexField (ir : IndexRun) (i : ℕ) : Option (GoString × Json) :=
  (ir i).map fun j : ℕ => (Strings.natDigits i, .int j)

def encodeIndexRun (n : ℕ) (ir : IndexRun) : Json := .obj ((List.range n).filterMap (indexField ir))

def setIndexRun (ir : IndexRun) : GoString × Json → Option IndexRun
  | (k, .int j) => (Strings.unsigned? k).map fun i => Function.update ir i (some j.toNat)
  | _ => none

def decodeIndexRun (into : IndexRun) : Json → Option IndexRun
  | .obj fields => fields.foldlM setIndexRun into
  | .null => some into
  | _ => none

theorem foldlM_indexField (ir into : IndexRun) (i : ℕ) :
    (indexField ir i).toList.foldlM setIndexRun into =
      some (Function.update into i ((ir i).or (into i))) := by
  unfold indexField
  cases h : ir i with
  | none => simp
  | some j => simp [setIndexRun, Strings.unsigned?_natDigits]

theorem decodeIndexRun_encode (n : ℕ) (ir into : IndexRun) :
    decodeIndexRun into (encodeIndexRun n ir) =
      some fun i => if i < n then (ir i).or (into i) else into i := by
  change ((List.range n).filterMap (indexField ir)).foldlM setIndexRun into = _
  induction n with
  | zero => simp
  | succ n ih =>
    have hlast : [n].filterMap (indexField ir) = (indexField ir n).toList := by
      cases h : indexField ir n <;> simp [h]
    rw [List.range_succ, List.filterMap_append, List.foldlM_append, ih, hlast]
    refine (foldlM_indexField ir _ n).trans (congrArg some (funext fun i => ?_))
    rcases lt_trichotomy i n with h | rfl | h
    · rw [Function.update_of_ne h.ne, if_pos h, if_pos (by omega)]
    · rw [Function.update_self, if_neg (lt_irrefl i), if_pos (by omega)]
    · rw [Function.update_of_ne h.ne', if_neg (by omega), if_neg (by omega)]

theorem decodeIndexRun_self {n : ℕ} {ir into : IndexRun} (hir : ∀ i, n ≤ i → ir i = none)
    (hinto : into = ir ∨ into = fun _ => none) :
    decodeIndexRun into (encodeIndexRun n ir) = some ir := by
  rw [decodeIndexRun_encode, Option.some.injEq]
  funext i
  by_cases hi : i < n
  · rw [if_pos hi]
    rcases hinto with rfl | rfl
    · exact Option.or_self
    · exact Option.or_none
  · rw [if_neg hi]
    rcases hinto with rfl | rfl
    · rfl
    · exact (hir i (not_lt.1 hi)).symm

namespace Workflow

/-! ## Variables -/

def Var.json (v : Var) : Json :=
  .obj [jsonField "id" (.int v.id), jsonField "name" (.str v.name),
    jsonField "value" (.str v.value)]

def Var.unmarshalJSON (data : GoString) : Var := ⟨0, [], data⟩

section

variable (showFloat : Float64 → GoString)

def Var.sent (v : Var) : Var := Var.unmarshalJSON (jsonCompact showFloat v.json)

theorem Var.sent_value_ne (v : Var) : (v.sent showFloat).value ≠ v.value := by
  intro h
  have hlen : v.value.length < (v.sent showFloat).value.length := by
    have hquote := length_lt_jsonQuote v.value
    simp only [Var.sent, Var.unmarshalJSON, Var.json, jsonField, jsonCompact, jsonFields,
      Strings.join,
      List.length_cons, List.length_append]
    omega
  rw [h] at hlen
  exact lt_irrefl _ hlen

def encodeVars : Option (OrderedMap Var) → Res Json
  | none => .ok .null
  | some vs => vs.marshalJSON fun v => .ok v.json

def Var.decode (j : Json) : Option Var := some (.unmarshalJSON (jsonCompact showFloat j))

def decodeVars (O : MapOrder) (into : Option (OrderedMap Var)) :
    Json → Option (Option (OrderedMap Var))
  | .null => some none
  | j => ((into.getD .empty).unmarshalJSON O (Var.decode showFloat) j).map some

variable {into : Option (OrderedMap Var)} {j : Json}

theorem decodeVars_encodeVars (O : MapOrder) {m : OrderedMap Var}
    (hinto : into = some m ∨ into = none) (hj : encodeVars (some m) = .ok j) :
    ∃ m', decodeVars showFloat O into j = some (some m') ∧ ∀ k v,
      (k, v) ∈ m'.entries ↔ (k, v) ∈ (m.map (Var.sent showFloat)).entries := by
  have hdec : ∀ k a j, (k, a) ∈ m.entries → Res.ok (Var.json a) = .ok j →
      Var.decode showFloat j = some (a.sent showFloat) := by
    intro k a j _ h
    rw [← Res.ok.inj h]
    rfl
  have hj : m.marshalJSON (fun v => .ok v.json) = .ok j := hj
  obtain ⟨m', hm', hmem⟩ :=
    OrderedMap.unmarshalJSON_marshalJSON O (into.getD .empty) hj hdec
  obtain ⟨fields, -, hfields⟩ := Res.bind_eq_ok.1 hj
  cases hfields
  refine ⟨m', congrArg (Option.map some) hm', fun k v => (hmem k v).trans (or_iff_left ?_)⟩
  -- The map that is decoded into has no other keys.
  rintro ⟨hk, hkv⟩
  rcases hinto with rfl | rfl
  · exact hk (mem_keys.2 ⟨v, hkv⟩)
  · cases hkv

theorem decodeVars_of_empty (O : MapOrder) {vs : Option (OrderedMap Var)}
    (hempty : ∀ m ∈ vs, m.entries = []) (hinto : into = vs ∨ into = none)
    (hj : encodeVars vs = .ok j) : decodeVars showFloat O into j = some vs := by
  cases vs with
  | none =>
    cases hj
    rfl
  | some m =>
    obtain ⟨m', hm', hmem⟩ := decodeVars_encodeVars showFloat O hinto hj
    have hnil : m.entries = [] := hempty m rfl
    have hnil' : m'.entries = [] := by
      refine List.eq_nil_iff_forall_not_mem.2 fun e he => ?_
      obtain ⟨a, ha, -⟩ := mem_map.1 ((hmem e.1 e.2).1 he)
      rw [hnil] at ha
      cases ha
    obtain ⟨es, hes⟩ := m
    obtain ⟨es', hes'⟩ := m'
    obtain rfl : es = [] := hnil
    obtain rfl : es' = [] := hnil'
    exact hm'

theorem encodeVars_isOk (vs : Option (OrderedMap Var)) : ∃ j, encodeVars vs = .ok j := by
  cases vs with
  | none => exact ⟨.null, rfl⟩
  | some m => exact marshalJSON_isOk fun _ v _ => ⟨Var.json v, rfl⟩

end

/-! ## Templates -/

structure SentTemplate where
  vars : Option (OrderedMap Var)
  indexRun : IndexRun
  input : List GoString
  exps : List Row
  funcNotFound : List GoString

namespace SentTemplate

def zero : SentTemplate := ⟨none, fun _ => none, [], [], []⟩

def template (t : SentTemplate) : Template :=
  ⟨t.vars.map varValues, t.input, t.exps, t.indexRun, t.funcNotFound⟩

def encode (t : SentTemplate) : Res Json := do
  let vars ← encodeVars t.vars
  .ok (.obj [jsonField "ListenVars" (.obj []), jsonField "Vars" vars,
    jsonField "IndexRun" (encodeIndexRun t.exps.length t.indexRun),
    jsonField "Input" (jsonStrs.encode t.input), jsonField "Exps" (jsonRows.encode t.exps),
    jsonField "FuncCalls" (.obj []), jsonField "FuncNotFound" (jsonStrs.encode t.funcNotFound)])

section

variable (showFloat : Float64 → GoString) (O : MapOrder)

def decode (into : SentTemplate) : Json → Option SentTemplate
  | .obj fields => do
    let vars ← readInto fields "Vars" into.vars (decodeVars showFloat O into.vars)
    let indexRun ← readInto fields "IndexRun" into.indexRun (decodeIndexRun into.indexRun)
    let input ← readInto fields "Input" into.input jsonStrs.decode
    let exps ← readInto fields "Exps" into.exps jsonRows.decode
    let funcNotFound ← readInto fields "FuncNotFound" into.funcNotFound jsonStrs.decode
    some ⟨vars, indexRun, input, exps, funcNotFound⟩
  | _ => none

theorem decode_encode {t into : SentTemplate} (hvars : ∀ m ∈ t.vars, m.entries = [])
    (hjumps : ∀ i, t.exps.length ≤ i → t.indexRun i = none) (hinto : into = t ∨ into = zero)
    {j : Json} (hj : t.encode = .ok j) : decode showFloat O into j = some t := by
  obtain ⟨vars, hvarsJ, h⟩ := Res.bind_eq_ok.1 hj
  cases h
  have hvars' : decodeVars showFloat O into.vars vars = some t.vars :=
    decodeVars_of_empty showFloat O hvars
      (hinto.imp (congrArg SentTemplate.vars) (congrArg _)) hvarsJ
  have hjumps' : decodeIndexRun into.indexRun (encodeIndexRun t.exps.length t.indexRun) =
      some t.indexRun :=
    decodeIndexRun_self hjumps (hinto.imp (congrArg SentTemplate.indexRun) (congrArg _))
  simp [decode, hvars', hjumps', jsonStrs.decode_encode, jsonRows.decode_encode]

end

end SentTemplate

/-! ## Brokers -/

def BrokerFlows.marshalJSON (f : BrokerFlows) : Res Json :=
  if f.condition ≠ [] then .ok (.str f.condition)
  else if f.endpoints ≠ [] then .ok (jsonStrs.encode f.endpoints)
  else .err "json: cannot marshal brokerflows"

def BrokerFlows.unmarshalJSON (into : BrokerFlows) : Json → Option BrokerFlows
  | .str s => some { into with condition := s }
  | .obj fields => do
    let endpoints ← readInto fields "Endpoints" [] jsonStrs.decode
    let condition ← readInto fields "Condition" [] jsonStr.decode
    some ⟨endpoints, condition⟩
  | j => (jsonStrs.decode j).map fun endpoints => { into with endpoints := endpoints }

def BrokerFlows.received (into f : BrokerFlows) : BrokerFlows :=
  if f.condition ≠ [] then { into with condition := f.condition }
  else { into with endpoints := f.endpoints }

theorem BrokerFlows.unmarshalJSON_marshalJSON {into f : BrokerFlows} {j : Json}
    (hj : f.marshalJSON = .ok j) : into.unmarshalJSON j = some (into.received f) := by
  unfold BrokerFlows.marshalJSON at hj
  unfold BrokerFlows.received
  split_ifs at hj with hcond hend
  · cases hj
    rw [if_pos hcond]
    rfl
  · cases hj
    have hdecode := jsonStrs.decode_encode f.endpoints
    rw [if_neg hcond]
    exact congrArg (Option.map _) hdecode

structure SentBroker extends Broker where
  template : Option SentTemplate

namespace SentBroker

def zero : SentBroker := ⟨⟨[], [], [], ⟨[], []⟩⟩, none⟩

def encodeTemplate : Option SentTemplate → Res (List (GoString × Json))
  | none => .ok []
  | some t => do
    let j ← t.encode
    .ok [jsonField "template" j]

def encode (b : SentBroker) : Res Json := do
  let flows ← b.flows.marshalJSON
  let template ← encodeTemplate b.template
  .ok (.obj ((if b.name = [] then [] else [jsonField "name" (jsonStr.encode b.name)]) ++
    [jsonField "listens" (jsonStrs.encode b.listens),
      jsonField "clients" (jsonStrs.encode b.clients),
      jsonField "flows" flows] ++ template))

section

variable (showFloat : Float64 → GoString) (O : MapOrder)

def decode (into : SentBroker) : Json → Option SentBroker
  | .obj fields => do
    let name ← readInto fields "name" into.name jsonStr.decode
    let listens ← readInto fields "listens" into.listens jsonStrs.decode
    let clients ← readInto fields "clients" into.clients jsonStrs.decode
    let flows ← readInto fields "flows" into.flows into.flows.unmarshalJSON
    let template ← readInto fields "template" into.template fun j =>
      (SentTemplate.decode showFloat O (into.template.getD .zero) j).map some
    some ⟨⟨name, listens, clients, flows⟩, template⟩
  | _ => none

variable {t : Option SentTemplate} {fields : List (GoString × Json)}

theorem readInto_template {into : Option SentTemplate}
    (hvars : ∀ u ∈ t, ∀ m ∈ u.vars, m.entries = [])
    (hjumps : ∀ u ∈ t, ∀ i, u.exps.length ≤ i → u.indexRun i = none)
    (hinto : into = t ∨ into = none) (hfields : encodeTemplate t = .ok fields) :
    readInto fields "template" into (fun j =>
      (SentTemplate.decode showFloat O (into.getD .zero) j).map some) = some t := by
  cases t with
  | none =>
    cases hfields
    exact congrArg some (hinto.elim id id)
  | some t =>
    obtain ⟨j, hj, h⟩ := Res.bind_eq_ok.1 hfields
    cases h
    have hinto' : into.getD .zero = t ∨ into.getD .zero = SentTemplate.zero := by
      rcases hinto with rfl | rfl
      · exact .inl rfl
      · exact .inr rfl
    rw [readInto_cons, if_pos rfl,
      SentTemplate.decode_encode showFloat O (hvars t rfl) (hjumps t rfl) hinto' hj]
    rfl

theorem readInto_name_template
    (hfields : encodeTemplate t = .ok fields) (into : GoString) (dec : Json → Option GoString) :
    readInto fields "name" into dec = some into := by
  cases t with
  | none =>
    cases hfields
    rfl
  | some t =>
    obtain ⟨j, hj, h⟩ := Res.bind_eq_ok.1 hfields
    cases h
    simp

theorem decode_encode {b into : SentBroker} (hvars : ∀ t ∈ b.template, ∀ m ∈ t.vars, m.entries = [])
    (hjumps : ∀ t ∈ b.template, ∀ i, t.exps.length ≤ i → t.indexRun i = none)
    (hinto : into = b ∨ into = zero) {j : Json} (hj : b.encode = .ok j) :
    decode showFloat O into j =
      some ⟨⟨b.name, b.listens, b.clients, into.flows.received b.flows⟩, b.template⟩ := by
  obtain ⟨flows, hflows, h⟩ := Res.bind_eq_ok.1 hj
  obtain ⟨template, htemplate, h⟩ := Res.bind_eq_ok.1 h
  cases h
  have hflows' : into.flows.unmarshalJSON flows = some (into.flows.received b.flows) :=
    BrokerFlows.unmarshalJSON_marshalJSON hflows
  have htemplate' := readInto_template showFloat O hvars hjumps
    (hinto.imp (congrArg SentBroker.template) (congrArg SentBroker.template)) htemplate
  by_cases hname : b.name = []
  · -- A name that is not written is that of the broker that is decoded into.
    have hinto' : into.name = [] := by
      rcases hinto with rfl | rfl
      · exact hname
      · rfl
    simp [decode, hname, hinto', readInto_name_template htemplate, jsonStrs.decode_encode, hflows',
      htemplate']
  · simp [decode, hname, jsonStr.decode_encode, jsonStrs.decode_encode, hflows', htemplate']

end

end SentBroker

/-! ## Workflows -/

/-- `Workflow` with the templates of its brokers, without the plain records. -/
structure SentWorkflow where
  vars : Option (OrderedMap Var)
  brokers : OrderedMap SentBroker

namespace SentWorkflow

def encodeVarsField : Option (OrderedMap Var) → Res (List (GoString × Json))
  | none => .ok []
  | some vs => do
    let j ← encodeVars (some vs)
    .ok [jsonField "vars" j]

def encode (wf : SentWorkflow) : Res Json := do
  let vars ← encodeVarsField wf.vars
  let brokers ← wf.brokers.marshalJSON SentBroker.encode
  .ok (.obj (vars ++ [jsonField "brokers" brokers]))

def decode (showFloat : Float64 → GoString) (O : MapOrder) : Json → Option SentWorkflow
  | .obj fields => do
    let vars ← readInto fields "vars" none (decodeVars showFloat O none)
    let brokers ← readInto fields "brokers" .empty
      (unmarshalJSON O (SentBroker.decode showFloat O .zero) .empty)
    some ⟨vars, brokers⟩
  | _ => none

end SentWorkflow

def sentTemplate (wf : Workflow) (t : Template) : SentTemplate :=
  ⟨wf.vars, t.indexRun, t.input, t.exps, t.funcNotFound⟩

def sent (wf : Workflow) (c : Compiled) : SentWorkflow :=
  ⟨wf.vars, (wf.brokers.zip c.templates).map fun b => ⟨b.1, b.2.map wf.sentTemplate⟩⟩

def SameVars (vs vs' : Option (OrderedMap Var)) : Prop :=
  ∀ k, ((vs'.bind fun m => m.get k).map fun v => (v.name, v.value)) =
    (vs.bind fun m => m.get k).map fun v => (v.name, v.value)

def SameRuns (H : Host) (t t' : SentTemplate) : Prop :=
  ∀ (funcs : Option JsRuntime) (outputVars : List (GoString × Option Addr)) (heap : Heap)
    (js fuel : ℕ),
    execute H (t'.template.newRutime funcs outputVars heap js).1 fuel
        (t'.template.newRutime funcs outputVars heap js).2 =
      execute H (t.template.newRutime funcs outputVars heap js).1 fuel
        (t.template.newRutime funcs outputVars heap js).2

def EventAgrees (H : Host) (showFloat : Float64 → GoString) (O : MapOrder)
    (wf : SentWorkflow) : Prop :=
  ∃ j wf', wf.encode = .ok j ∧ SentWorkflow.decode showFloat O j = some wf' ∧
    SameVars wf.vars wf'.vars ∧ ∀ k b, (k, b) ∈ wf.brokers.entries →
      ∃ b', (k, b') ∈ wf'.brokers.entries ∧ Option.Rel (SameRuns H) b.template b'.template

def CommandAgrees (H : Host) (showFloat : Float64 → GoString) (O : MapOrder)
    (b : SentBroker) : Prop :=
  ∃ j b', b.encode = .ok j ∧ b.decode showFloat O j = some b' ∧
    Option.Rel (fun t t' => SameVars t.vars t'.vars ∧ SameRuns H t t') b.template b'.template

/-! ## What is sent and what is received -/

section

variable {H : Host} {P : PayloadHost} {funcs : Option JsRuntime} {showFloat : Float64 → GoString}
  {O : MapOrder} {wf : Workflow} {c : Compiled}

theorem build_indexRun {input : List GoString} {s : GoString} {vars : Option Vars} {restrict : Bool}
    {t : Template} (ht : build H funcs input s vars restrict = .ok t) {i : ℕ}
    (hi : t.exps.length ≤ i) : t.indexRun i = none := by
  obtain ⟨st, hparse, -⟩ := Res.bind_eq_ok.1 ht
  obtain ⟨stack, hrun, heq⟩ := (build_eq_ok hparse t).1 ht
  cases hj : t.indexRun i with
  | none => rfl
  | some j =>
    obtain ⟨hlt, htarget⟩ := ((Matching.run_matched hrun).table_iff i j).1 hj
    have hlen : (buildMarks st.rows).length = t.exps.length := by
      rw [heq, buildMarks, List.length_map, List.length_map]
    exact absurd htarget.lt (by omega)

variable {k : GoString} {b : SentBroker}

theorem compile_broker (hc : wf.compile H P funcs = .ok c)
    (hb : (k, b) ∈ (wf.sent c).brokers.entries) :
    (∃ j, b.encode = .ok j) ∧ (∀ t ∈ b.template, t.vars = wf.vars) ∧
      ∀ t ∈ b.template, ∀ i, t.exps.length ≤ i → t.indexRun i = none := by
  obtain ⟨⟨b, t⟩, hmem, rfl⟩ := mem_map.1 hb
  obtain ⟨⟨⟨k', b'⟩, t'⟩, hzip, heq⟩ := List.mem_map.1 hmem
  simp only [Prod.mk.injEq] at heq
  obtain ⟨rfl, rfl, rfl⟩ := heq
  have hcompile : b'.compile H wf funcs = .ok t' := List.forall₂_zip (compile_eq_ok.1 hc).2.1 hzip
  have hencode {flows : Json} (hflows : b'.flows.marshalJSON = .ok flows)
      {template : List (GoString × Json)}
      (htemplate : SentBroker.encodeTemplate (t'.map wf.sentTemplate) = .ok template) :
      ∃ j, SentBroker.encode ⟨b', t'.map wf.sentTemplate⟩ = .ok j :=
    ⟨_, Res.bind_eq_ok.2 ⟨flows, hflows, Res.bind_eq_ok.2 ⟨template, htemplate, rfl⟩⟩⟩
  rcases Broker.compile_cases hcompile with ⟨hcond, u, hu, rfl⟩ | ⟨hcond, hend, rfl⟩
  · obtain ⟨vars, hvars⟩ := encodeVars_isOk wf.vars
    refine ⟨hencode (if_pos hcond) (Res.bind_eq_ok.2 ⟨_, Res.bind_eq_ok.2 ⟨vars, hvars, rfl⟩, rfl⟩),
      ?_, ?_⟩
    · rintro t ⟨⟩
      rfl
    · rintro t ⟨⟩ i hi
      exact build_indexRun hu hi
  · exact ⟨hencode ((if_neg (not_not.2 hcond)).trans (if_pos hend)) rfl, nofun, nofun⟩

theorem optionRel_refl {α : Type} {r : α → α → Prop} (h : ∀ a, r a a) (o : Option α) :
    Option.Rel r o o := by
  cases o with
  | none => exact .none
  | some a => exact .some (h a)

theorem commandAgrees_of_empty (hc : wf.compile H P funcs = .ok c)
    (hempty : ∀ vs ∈ wf.vars, vs.entries = [])
    (hb : (k, b) ∈ (wf.sent c).brokers.entries) : CommandAgrees H showFloat O b := by
  obtain ⟨⟨j, hj⟩, hvars, hjumps⟩ := compile_broker hc hb
  have hempty' : ∀ t ∈ b.template, ∀ m ∈ t.vars, m.entries = [] := by
    intro t ht m hm
    rw [hvars t ht] at hm
    exact hempty m hm
  exact ⟨j, _, hj, SentBroker.decode_encode showFloat O hempty' hjumps (.inl rfl) hj,
    optionRel_refl (fun t => ⟨fun _ => rfl, fun _ _ _ _ _ => rfl⟩) _⟩

theorem eventAgrees_of_empty (hc : wf.compile H P funcs = .ok c)
    (hempty : ∀ vs ∈ wf.vars, vs.entries = []) : EventAgrees H showFloat O (wf.sent c) := by
  obtain ⟨brokers, hbrokers⟩ := marshalJSON_isOk fun k b hb => (compile_broker hc hb).1
  have hdec : ∀ k b j, (k, b) ∈ (wf.sent c).brokers.entries → b.encode = .ok j →
      SentBroker.decode showFloat O .zero j =
        some ⟨⟨b.name, b.listens, b.clients, SentBroker.zero.flows.received b.flows⟩,
          b.template⟩ := by
    intro k b j hb hj
    obtain ⟨-, hvars, hjumps⟩ := compile_broker hc hb
    refine SentBroker.decode_encode showFloat O (fun t ht m hm => ?_) hjumps (.inr rfl) hj
    rw [hvars t ht] at hm
    exact hempty m hm
  obtain ⟨brokers', hbrokers', hmem⟩ :=
    OrderedMap.unmarshalJSON_marshalJSON O .empty hbrokers hdec
  obtain ⟨vars, hvars, hvars'⟩ : ∃ vars, SentWorkflow.encodeVarsField wf.vars = .ok vars ∧
      ∀ fields : Json, readInto (vars ++ [jsonField "brokers" fields]) "vars" none
        (decodeVars showFloat O none) = some wf.vars ∧
      readInto (vars ++ [jsonField "brokers" fields]) "brokers" .empty
        (unmarshalJSON O (SentBroker.decode showFloat O .zero) .empty) =
          unmarshalJSON O (SentBroker.decode showFloat O .zero) .empty fields := by
    cases hwf : wf.vars with
    | none => exact ⟨[], rfl, fun fields => ⟨by simp, by simp⟩⟩
    | some m =>
      obtain ⟨j, hj⟩ := encodeVars_isOk (some m)
      have hread := decodeVars_of_empty showFloat O (hwf ▸ hempty) (.inr rfl) hj
      exact ⟨[jsonField "vars" j], Res.bind_eq_ok.2 ⟨j, hj, rfl⟩, fun fields =>
        ⟨by simp [hread], by simp⟩⟩
  refine ⟨_, ⟨wf.vars, brokers'⟩,
    Res.bind_eq_ok.2 ⟨vars, hvars, Res.bind_eq_ok.2 ⟨brokers, hbrokers, rfl⟩⟩, ?_, fun _ => rfl, ?_⟩
  · simp [SentWorkflow.decode, hvars', hbrokers']
  · intro k b hb
    refine ⟨_, (hmem k _).2 (.inl (mem_map.2 ⟨b, hb, rfl⟩)), ?_⟩
    exact optionRel_refl (fun t _ _ _ _ _ => rfl) b.template

theorem eq_nil_of_eventAgrees (h : EventAgrees H showFloat O (wf.sent c)) :
    ∀ vs ∈ wf.vars, vs.entries = [] := by
  intro m hm
  obtain ⟨j, wf', hj, hdec, hsame, -⟩ := h
  have hwf : (wf.sent c).vars = some m := hm
  rw [SentWorkflow.encode, hwf] at hj
  obtain ⟨fields, hfields, hj⟩ := Res.bind_eq_ok.1 hj
  obtain ⟨vars, hvars, hfields⟩ := Res.bind_eq_ok.1 hfields
  cases hfields
  obtain ⟨brokers, -, hj⟩ := Res.bind_eq_ok.1 hj
  cases hj
  obtain ⟨m', hm', hmem⟩ := decodeVars_encodeVars showFloat O (.inr rfl) hvars
  have hvars' : wf'.vars = some m' := by
    obtain ⟨vs, hvs, hdec⟩ := Option.bind_eq_some_iff.1 hdec
    obtain ⟨bs, -, hdec⟩ := Option.bind_eq_some_iff.1 hdec
    rw [List.singleton_append, readInto_cons, if_pos rfl, hm'] at hvs
    rw [← Option.some.inj hdec, ← Option.some.inj hvs]
  refine List.eq_nil_iff_forall_not_mem.2 fun e he => ?_
  have hget : m.get e.1 = some e.2 := get_eq_some_iff.2 he
  have hget' : m'.get e.1 = some (e.2.sent showFloat) :=
    get_eq_some_iff.2 ((hmem _ _).2 (mem_map.2 ⟨e.2, he, rfl⟩))
  have h := hsame e.1
  rw [hwf, hvars', Option.bind_some, Option.bind_some, hget, hget'] at h
  exact e.2.sent_value_ne showFloat (Prod.mk.inj (Option.some.inj h)).2

end

/-- A compiled workflow keeps its variables and its executions exactly when it has no variables. -/
theorem round_trip_iff (H : Host) (P : PayloadHost) (funcs : Option JsRuntime)
    (showFloat : Float64 → GoString) (O : MapOrder) (wf : Workflow) (c : Compiled)
    (hc : wf.compile H P funcs = .ok c) : (EventAgrees H showFloat O (wf.sent c) ∧
        ∀ k b, (k, b) ∈ (wf.sent c).brokers.entries → CommandAgrees H showFloat O b) ↔
      ∀ vs ∈ wf.vars, vs.entries = [] :=
  ⟨fun h => eq_nil_of_eventAgrees h.1, fun hempty =>
    ⟨eventAgrees_of_empty hc hempty, fun _ _ hb => commandAgrees_of_empty hc hempty hb⟩⟩

def hello (vars : OrderedMap Var) (value : String) : Workflow where
  vars := some vars
  tasks := .singleton "t" ⟨"t", "http", []⟩
  brokers := .singleton "b" ⟨"b", ["t_task"], ["c"],
    ⟨[], templateText ["sendsync " ++ value ++ " .c_client"]⟩⟩
  channels := []
  clients := ["c"]

def textOrder : MapOrder := ⟨id, fun _ => .refl _⟩

theorem round_trip_iff_hello :
    ∃ c, compile plainHost plainPayloads none (hello .empty "(\"hi\")") = .ok c ∧
    EventAgrees plainHost (fun _ => []) textOrder ((hello .empty "(\"hi\")").sent c) ∧
      ∀ k b, (k, b) ∈ ((hello .empty "(\"hi\")").sent c).brokers.entries →
        CommandAgrees plainHost (fun _ => []) textOrder b := by
  have hsome : (compile plainHost plainPayloads none
      (hello .empty "(\"hi\")")).toOption.isSome := by
    decide +kernel
  obtain ⟨c, hc⟩ := Option.isSome_iff_exists.1 hsome
  rw [Res.toOption_eq_some] at hc
  have hempty : ∀ vs ∈ (hello .empty "(\"hi\")").vars, vs.entries = [] := by
    rintro vs ⟨⟩
    rfl
  exact ⟨c, hc, (round_trip_iff plainHost plainPayloads none
    (fun _ => []) textOrder _ c hc).2 hempty⟩

def messages (wf : SentWorkflow) : List Val :=
  wf.brokers.entries.flatMap fun b => b.2.template.toList.flatMap fun t =>
    match execute plainHost (t.template.newRutime none [] [] 0).1 10
      (t.template.newRutime none [] [] 0).2 with
    | some (.stop _ s) => s.deliverFlows.map DeliverFlow.msg
    | _ => []

def hiReceived : Option (SentWorkflow × SentWorkflow) := do
  let wf := hello (.singleton "x" ⟨1, [], "hi"⟩) ".x"
  let c ← (compile plainHost plainPayloads none wf).toOption
  let j ← (wf.sent c).encode.toOption
  let wf' ← SentWorkflow.decode (fun _ => []) textOrder j
  some (wf.sent c, wf')

/-- After the round trip the template sends the text of the object that the variable was written
as. -/
theorem variable_not_received : ∃ wf wf', hiReceived = some (wf, wf') ∧
    messages wf = [.str "hi"] ∧
    messages wf' =
      [.str "\x7b\"id\":1,\"name\":\"\",\"value\":\"hi\"\x7d"] := by
  have h : hiReceived.any (fun x => decide (messages x.1 = [.str "hi"] ∧ messages x.2 =
      [.str "\x7b\"id\":1,\"name\":\"\",\"value\":\"hi\"\x7d"])) := by
    decide +kernel
  obtain ⟨⟨wf, wf'⟩, hwf, hmessages⟩ := (Option.any_eq_true _ _).1 h
  exact ⟨wf, wf', hwf, of_decide_eq_true hmessages⟩

end Workflow

end Kairos
