import Mathlib.Data.List.Induction
import Kairos.Runner.Routes
import Kairos.Workflow.Compile

/-!
# The endpoints of a broker

`Broker.Compile` checks the endpoints of a broker by the root of each name, without its leading dot,
and only without a condition. `processBroker` looks each up as it is written in the table of
`setPoints` (`server/runner/worker.go`): an endpoint without a point is a nil pointer.
-/

namespace Kairos.Worker

open List Option

structure Named where
  id : ℤ
  name : GoString

structure TaskRow extends Workflow.Task where
  id : ℤ
  clients : List GoString

structure BrokerRow extends Workflow.Broker where
  id : ℤ

structure Deployment where
  vars : Option (OrderedMap Workflow.Var)
  tasks : OrderedMap TaskRow
  brokers : OrderedMap BrokerRow
  channels : List Named
  clients : List Named
  ids : (tasks.entries.map fun t => t.2.id).Nodup

def Named.clientPoint (c : Named) : Point := ⟨c.id, .client, c.name⟩

def Named.channelPoint (c : Named) : Point := ⟨c.id, .channel, c.name⟩

def TaskRow.point (t : TaskRow) : Point := ⟨t.id, .task, t.name⟩

def BrokerRow.point (b : BrokerRow) : Point := ⟨b.id, .broker, b.name⟩

def kairosPoint : Point := ⟨-1, .kairos, "kairos"⟩

def getBrokerName (H : Host) (s : GoString) : GoString := H.toLower (s ++ "_broker")

/-! ## The table of the points -/

def assign (m : GoString → Option Point) (a : GoString × Point) : GoString → Option Point :=
  fun k => if a.1 = k then some a.2 else m k

def lastPoint (as : List (GoString × Point)) (k : GoString) : Option Point :=
  (as.reverse.find? (·.1 = k)).map Prod.snd

theorem lastPoint_append (as bs : List (GoString × Point)) (k : GoString) :
    lastPoint (as ++ bs) k = (lastPoint bs k).or (lastPoint as k) := by
  rw [lastPoint, reverse_append, find?_append, map_or]
  rfl

variable {α : Type}

theorem lastPoint_map (l : List α) (key : α → GoString) (point : α → Point)
    (k : GoString) : lastPoint (l.map fun x => (key x, point x)) k =
      (l.reverse.find? (key · = k)).map point := by
  rw [lastPoint, ← List.map_reverse, List.find?_map, Option.map_map]
  rfl

theorem foldl_assign (as : List (GoString × Point)) (k : GoString) :
    as.foldl assign (fun _ => none) k = lastPoint as k := by
  induction as using reverseRecOn with
  | nil => rfl
  | append_singleton as a ih =>
    rw [foldl_concat, lastPoint, reverse_concat, find?_cons]
    by_cases ha : a.1 = k
    · simp [assign, ha]
    · simp only [assign, ha, if_false, ih, decide_false, lastPoint]

theorem mem_of_last {p : α → Prop} [DecidablePred p] {l : List α} {a : α}
    (h : l.reverse.find? (fun x => p x) = some a) : a ∈ l ∧ p a := by
  refine ⟨mem_reverse.1 (mem_of_find?_eq_some h), ?_⟩
  have ha := find?_some h
  exact of_decide_eq_true ha

namespace Deployment

variable (H : Host) (D : Deployment)

def workflow : Workflow where
  vars := D.vars
  tasks := D.tasks.map TaskRow.toTask
  brokers := D.brokers.map BrokerRow.toBroker
  channels := D.channels.map Named.name
  clients := D.clients.map Named.name

def taskRows : List TaskRow := D.tasks.entries.map Prod.snd

def setPoints : GoString → Option Point :=
  ([("kairos".toList, kairosPoint)] ++
    D.brokers.entries.map (fun b => (getBrokerName H b.1, b.2.point)) ++
    D.tasks.entries.map (fun t => (getTaskName H t.1, t.2.point)) ++
    D.channels.map (fun c => (getChannelName H c.name, c.channelPoint)) ++
    D.clients.map (fun c => (getClientName H c.name, c.clientPoint))).foldl assign fun _ => none

def client (e : GoString) : Option Named := D.clients.reverse.find? (getClientName H ·.name = e)

def channel (e : GoString) : Option Named := D.channels.reverse.find? (getChannelName H ·.name = e)

def task (e : GoString) : Option TaskRow :=
  (D.tasks.entries.reverse.find? (getTaskName H ·.1 = e)).map Prod.snd

def broker (e : GoString) : Option BrokerRow :=
  (D.brokers.entries.reverse.find? (getBrokerName H ·.1 = e)).map Prod.snd

theorem setPoints_eq (e : GoString) : D.setPoints H e =
      ((D.client H e).map Named.clientPoint).or (((D.channel H e).map Named.channelPoint).or
        (((D.task H e).map TaskRow.point).or (((D.broker H e).map BrokerRow.point).or
          (if "kairos".toList = e then some kairosPoint else none)))) := by
  have hkairos : lastPoint [("kairos".toList, kairosPoint)] e =
      if "kairos".toList = e then some kairosPoint else none := by
    by_cases he : "kairos".toList = e
    · subst he
      rfl
    · have hmiss : [("kairos".toList, kairosPoint)].find? (·.1 = e) = none :=
        find?_eq_none.2 (forall_mem_singleton.2 fun h => he (of_decide_eq_true h))
      rw [if_neg he, lastPoint, reverse_singleton, hmiss]
      rfl
  rw [setPoints, foldl_assign]
  simp only [lastPoint_append, lastPoint_map, hkairos]
  simp only [client, channel, task, broker, Option.map_map, Function.comp_def]

/-- The loop of a task endpoint over the tasks left, with the points that get the request.
`receiver` is the last of them, nil if that client has no point. -/
def taskDeliveries (points : GoString → Option Point) :
    Option Point → List TaskRow → Res (List (Option Point))
  | _, [] => .ok []
  | none, _ :: _ => .panic
  | some r, t :: ts =>
    if r.id = t.id then do
      let ps := t.clients.map fun c => points (getClientName H c)
      let rest ← taskDeliveries points (ps.getLast?.getD (some r)) ts
      .ok (ps ++ rest)
    else taskDeliveries points (some r) ts

def endpoint (e : GoString) : Res (List (Option Point)) :=
  match D.setPoints H e with
  | none => .panic
  | some r =>
    if r.type = .task then taskDeliveries H (D.setPoints H) (some r) D.taskRows else .ok [some r]

def endpoints (es : List GoString) : Res (List (Option Point)) := do
  let pss ← Res.forEach (D.endpoint H) es
  .ok pss.flatten

/-! ## What an endpoint names -/

inductive Target where
  | client (c : Named)
  | channel (c : Named)
  | task (t : TaskRow)

def named (e : GoString) : Option Target :=
  ((D.client H e).map .client).or (((D.channel H e).map .channel).or ((D.task H e).map .task))

def Receivers (ps : List (Option Point)) : Target → Prop
  | .client c => ps = [some c.clientPoint]
  | .channel c => ps = [some c.channelPoint]
  | .task t => List.Forall₂
      (fun name p => ∃ c ∈ D.clients, c.name = name ∧ p = some c.clientPoint) t.clients ps

structure Reaches (e : GoString) : Prop where
  key : ∃ p, D.setPoints H e = some p
  delivered : ∃ t ps, D.named H e = some t ∧ D.endpoint H e = .ok ps ∧ D.Receivers ps t

def names : List GoString :=
  D.clients.map (getClientName H ·.name) ++ D.channels.map (getChannelName H ·.name) ++
    D.tasks.keys.map (getTaskName H)

variable {H D} {e : GoString}

theorem named_of_mem (he : e ∈ D.names H) : ∃ t, D.named H e = some t := by
  rw [← isSome_iff_exists]
  simp only [names, List.mem_append, List.mem_map, OrderedMap.keys] at he
  simp only [named, isSome_or, isSome_map, client, channel, task,
    find?_isSome, Bool.or_eq_true, mem_reverse, decide_eq_true_eq]
  obtain (⟨c, hc, rfl⟩ | ⟨c, hc, rfl⟩) | ⟨_, ⟨t, ht, rfl⟩, rfl⟩ := he
  · exact .inl ⟨c, hc, rfl⟩
  · exact .inr (.inl ⟨c, hc, rfl⟩)
  · exact .inr (.inr ⟨t, ht, rfl⟩)

theorem mem_of_named {t : Target} (ht : D.named H e = some t) : e ∈ D.names H := by
  simp only [names, List.mem_append, List.mem_map, OrderedMap.keys]
  simp only [named, or_eq_some_iff, map_eq_some_iff, client, channel, task] at ht
  obtain ⟨c, hc, -⟩ | ⟨-, ⟨c, hc, -⟩ | ⟨-, _, ⟨r, hr, -⟩, -⟩⟩ := ht
  · exact .inl (.inl ⟨c, mem_of_last hc⟩)
  · exact .inl (.inr ⟨c, mem_of_last hc⟩)
  · obtain ⟨hmem, hname⟩ := mem_of_last hr
    exact .inr ⟨r.1, ⟨r, hmem, rfl⟩, hname⟩

def Target.point : Target → Point
  | .client c => c.clientPoint
  | .channel c => c.channelPoint
  | .task t => t.point

theorem setPoints_of_named {t : Target} (ht : D.named H e = some t) :
    D.setPoints H e = some t.point := by
  rw [setPoints_eq]
  unfold named at ht
  cases hcl : D.client H e with
  | some c =>
    rw [hcl] at ht
    cases ht
    rfl
  | none =>
    cases hch : D.channel H e with
    | some c =>
      rw [hcl, hch] at ht
      cases ht
      rfl
    | none =>
      rw [hcl, hch] at ht
      obtain ⟨r, hr, rfl⟩ := map_eq_some_iff.1 ht
      rw [hr]
      rfl

/-! ## The clients of a task -/

variable {points : GoString → Option Point} {r : Point}

theorem taskDeliveries_skip {pre : List TaskRow}
    (hpre : ∀ t ∈ pre, r.id ≠ t.id) (post : List TaskRow) :
    taskDeliveries H points (some r) (pre ++ post) = taskDeliveries H points (some r) post := by
  induction pre with
  | nil => rfl
  | cons t pre ih =>
    obtain ⟨ht, hpre⟩ := forall_mem_cons.1 hpre
    rw [cons_append, taskDeliveries, if_neg ht, ih hpre]

variable {ts : List TaskRow}

theorem taskDeliveries_eq_nil :
    taskDeliveries H points (some r) ts = .ok [] ↔ ∀ t ∈ ts, t.id = r.id → t.clients = [] := by
  induction ts with
  | nil => exact iff_of_true rfl nofun
  | cons t ts ih =>
    rw [forall_mem_cons, taskDeliveries]
    by_cases hid : r.id = t.id
    · rw [if_pos hid, Res.bind_eq_ok]
      by_cases hcs : t.clients = []
      · have hkeep : (t.clients.map fun c => points (getClientName H c)).getLast?.getD (some r) =
            some r := by rw [hcs]; rfl
        rw [hkeep, hcs]
        simp only [List.map_nil, nil_append, Res.ok.injEq, exists_eq_right, ih, implies_true,
          true_and]
      · refine iff_of_false ?_ fun h => hcs (h.1 hid.symm)
        rintro ⟨rest, -, h⟩
        have hnil := (append_eq_nil_iff.1 (Res.ok.inj h)).1
        exact hcs (map_eq_nil_iff.1 hnil)
    · rw [if_neg hid, ih]
      exact ⟨fun h => ⟨fun h' => absurd h'.symm hid, h⟩, And.right⟩

def after (D : Deployment) (t : TaskRow) : List TaskRow := (D.taskRows.dropWhile (·.id ≠ t.id)).tail

theorem taskRows_ids (D : Deployment) : (D.taskRows.map TaskRow.id).Nodup := by
  unfold taskRows
  rw [List.map_map]
  exact D.ids

variable {t : TaskRow}

theorem taskRows_split (ht : t ∈ D.taskRows) :
    ∃ pre, D.taskRows = pre ++ t :: D.after t ∧ (∀ u ∈ pre, t.id ≠ u.id) ∧
      ∀ u ∈ D.after t, u.id ≠ t.id := by
  obtain ⟨pre, post, hsplit⟩ := append_of_mem ht
  have hnodup := D.taskRows_ids
  rw [hsplit, map_append, List.map_cons, nodup_append, nodup_cons] at hnodup
  obtain ⟨-, ⟨hpost, -⟩, hdisj⟩ := hnodup
  have hpre : ∀ u ∈ pre, t.id ≠ u.id := fun u hu h =>
    hdisj u.id (mem_map_of_mem hu) t.id mem_cons_self h.symm
  have hafter : D.after t = post := by
    unfold after
    rw [hsplit, dropWhile_append_of_pos fun u hu => by simpa using (hpre u hu).symm,
      dropWhile_cons_of_neg (by simp), tail_cons]
  rw [hafter]
  exact ⟨pre, hsplit, hpre, fun u hu h => hpost (h ▸ mem_map_of_mem hu)⟩

variable {c : Named}

theorem client_isSome (hc : c ∈ D.clients) :
    ∃ c', D.client H (getClientName H c.name) = some c' := by
  rw [← isSome_iff_exists]
  unfold client
  rw [find?_isSome]
  exact ⟨c, mem_reverse.2 hc, decide_eq_true rfl⟩

theorem setPoints_of_client (hc : D.client H e = some c) :
    D.setPoints H e = some c.clientPoint := by
  rw [setPoints_eq, hc]
  rfl

theorem client_handed_iff {name : GoString} : (∃ c ∈ D.clients, c.name = name ∧
        D.setPoints H (getClientName H name) = some c.clientPoint) ↔
      ∃ c, D.client H (getClientName H name) = some c ∧ c.name = name := by
  constructor
  · rintro ⟨c, hc, rfl, hpoint⟩
    obtain ⟨c', hc'⟩ := client_isSome (H := H) hc
    rw [setPoints_of_client hc'] at hpoint
    exact ⟨c', hc', congrArg Point.name (some.inj hpoint)⟩
  · rintro ⟨c, hc, hname⟩
    exact ⟨c, (mem_of_last hc).1, hname, setPoints_of_client hc⟩

variable (H D) in
def clientPoints (t : TaskRow) : List (Option Point) :=
  t.clients.map fun c => D.setPoints H (getClientName H c)

theorem clientPoints_receivers : D.Receivers (D.clientPoints H t) (.task t) ↔
    ∀ name ∈ t.clients, ∃ c, D.client H (getClientName H name) = some c ∧ c.name = name := by
  simp only [Receivers, clientPoints, forall₂_map_right_iff, forall₂_same]
  exact forall₂_congr fun name _ => client_handed_iff

theorem taskDeliveries_task (ht : t ∈ D.taskRows) :
    taskDeliveries H (D.setPoints H) (some t.point) D.taskRows =
      (taskDeliveries H (D.setPoints H) ((D.clientPoints H t).getLast?.getD (some t.point))
        (D.after t) >>= fun rest => .ok (D.clientPoints H t ++ rest)) := by
  obtain ⟨pre, hsplit, hpre, -⟩ := taskRows_split ht
  have hself : t.point.id = t.id := rfl
  conv_lhs => rw [hsplit]
  rw [taskDeliveries_skip (r := t.point) hpre, taskDeliveries, if_pos hself]
  rfl

/-- What is delivered is right exactly when the clients' points are and nothing follows. -/
theorem task_receivers_iff (ht : t ∈ D.taskRows) :
    (∃ ps, taskDeliveries H (D.setPoints H) (some t.point) D.taskRows = .ok ps ∧
        D.Receivers ps (.task t)) ↔
      D.Receivers (D.clientPoints H t) (.task t) ∧ taskDeliveries H (D.setPoints H)
        ((D.clientPoints H t).getLast?.getD (some t.point)) (D.after t) = .ok [] := by
  rw [taskDeliveries_task ht]
  constructor
  · rintro ⟨ps, hps, hrec⟩
    obtain ⟨rest, hrest, hps⟩ := Res.bind_eq_ok.1 hps
    cases hps
    -- As many points are handed the request as the task has clients.
    have hlen := List.Forall₂.length_eq hrec
    rw [length_append, clientPoints, length_map] at hlen
    have hnil : rest = [] := length_eq_zero_iff.1 (by omega)
    subst hnil
    rw [append_nil] at hrec
    exact ⟨hrec, hrest⟩
  · rintro ⟨hrec, hrest⟩
    exact ⟨D.clientPoints H t ++ [], Res.bind_eq_ok.2 ⟨[], hrest, rfl⟩, by rwa [append_nil]⟩

theorem after_eq_nil_iff (ht : t ∈ D.taskRows)
    (hknown : ∀ name ∈ t.clients, ∃ c, D.client H (getClientName H name) = some c ∧ c.name = name) :
    taskDeliveries H (D.setPoints H) ((D.clientPoints H t).getLast?.getD (some t.point))
        (D.after t) = .ok [] ↔
      ∀ name ∈ t.clients.getLast?, ∀ c, D.client H (getClientName H name) = some c →
        ∀ u ∈ D.after t, u.id = c.id → u.clients = [] := by
  obtain ⟨pre, -, -, hafter⟩ := taskRows_split ht
  unfold clientPoints
  rw [getLast?_map]
  cases hlast : t.clients.getLast? with
  | none =>
    rw [map_none, getD_none, taskDeliveries_eq_nil]
    exact iff_of_true (fun u hu h => absurd h (hafter u hu)) nofun
  | some name =>
    obtain ⟨c, hc, -⟩ := hknown name (mem_of_getLast? hlast)
    rw [Option.map_some, setPoints_of_client hc, getD_some, taskDeliveries_eq_nil]
    constructor
    · rintro h _ ⟨⟩ c' hc'
      cases hc.symm.trans hc'
      exact h
    · intro h
      exact h name rfl c hc

/-! ## The endpoints that reach what they name -/

variable (H D) in
/-- The endpoint is the name of a client, a channel or a task, of which each client is the last with
its name, and no later task with clients has the `ID` of its last client. -/
structure Routable (e : GoString) : Prop where
  spelled : e ∈ D.names H
  known : ∀ t, D.named H e = some (.task t) → ∀ name ∈ t.clients,
    ∃ c, D.client H (getClientName H name) = some c ∧ c.name = name
  apart : ∀ t, D.named H e = some (.task t) → ∀ name ∈ t.clients.getLast?,
    ∀ c, D.client H (getClientName H name) = some c →
      ∀ u ∈ D.after t, u.id = c.id → u.clients = []

theorem reaches_iff_of_named {t : Target} (ht : D.named H e = some t) :
    D.Reaches H e ↔ ∃ ps, D.endpoint H e = .ok ps ∧ D.Receivers ps t := by
  constructor
  · rintro ⟨-, t', ps, ht', hps, hrec⟩
    cases ht.symm.trans ht'
    exact ⟨ps, hps, hrec⟩
  · rintro ⟨ps, hps, hrec⟩
    exact ⟨⟨_, setPoints_of_named ht⟩, t, ps, ht, hps, hrec⟩

theorem task_mem (ht : D.named H e = some (.task t)) : t ∈ D.taskRows := by
  simp only [named, or_eq_some_iff, map_eq_some_iff, task] at ht
  obtain ⟨c, -, ⟨⟩⟩ | ⟨-, ⟨c, -, ⟨⟩⟩ | ⟨-, _, ⟨r, hr, rfl⟩, ⟨⟩⟩⟩ := ht
  exact mem_map_of_mem (mem_of_last hr).1

theorem routable_of_named {t : Target} (ht : D.named H e = some t) (hnot : ∀ r, t ≠ .task r) :
    D.Routable H e := by
  have hne : ∀ r, D.named H e ≠ some (.task r) := fun r hr =>
    hnot r (some.inj (ht.symm.trans hr))
  exact ⟨mem_of_named ht, fun r hr => absurd hr (hne r), fun r hr => absurd hr (hne r)⟩

theorem reaches_iff_routable : D.Reaches H e ↔ D.Routable H e := by
  by_cases hn : ∃ t, D.named H e = some t
  · obtain ⟨t, ht⟩ := hn
    have hpoint := setPoints_of_named ht
    have hmem := mem_of_named ht
    rw [reaches_iff_of_named ht]
    cases t with
    | client c =>
      refine iff_of_true ⟨[some c.clientPoint], ?_, rfl⟩
        (routable_of_named ht fun _ h => by cases h)
      rw [endpoint, hpoint]
      rfl
    | channel c =>
      refine iff_of_true ⟨[some c.channelPoint], ?_, rfl⟩
        (routable_of_named ht fun _ h => by cases h)
      rw [endpoint, hpoint]
      rfl
    | task t =>
      have hrun : D.endpoint H e =
          taskDeliveries H (D.setPoints H) (some t.point) D.taskRows := by
        rw [endpoint, hpoint]
        rfl
      rw [hrun, task_receivers_iff (task_mem ht), clientPoints_receivers,
        and_congr_right fun hknown => after_eq_nil_iff (task_mem ht) hknown]
      constructor
      · rintro ⟨hknown, hapart⟩
        refine ⟨hmem, fun t' ht' => ?_, fun t' ht' => ?_⟩
        · cases ht.symm.trans ht'
          exact hknown
        · cases ht.symm.trans ht'
          exact hapart
      · rintro ⟨-, hknown, hapart⟩
        exact ⟨hknown t ht, hapart t ht⟩
  · refine iff_of_false ?_ fun h => hn (named_of_mem h.spelled)
    rintro ⟨-, t, ps, ht, -⟩
    exact hn ⟨t, ht⟩

/-! ## The routes of a workflow -/

variable (H D) in
def routes : Routes where
  points := D.setPoints H
  tasks := D.taskRows.map fun t => ⟨t.id, t.clients.filterMap fun c =>
    D.setPoints H (getClientName H c)⟩

theorem taskDeliveries_routes
    (hts : ∀ t ∈ ts, ∀ c ∈ t.clients, ∃ p, points (getClientName H c) = some p) (r : Point) :
    taskDeliveries H points (some r) ts = .ok ((Routes.endpointClients r.id (ts.map fun t =>
      ⟨t.id, t.clients.filterMap fun c => points (getClientName H c)⟩)).map some) := by
  induction ts generalizing r with
  | nil => rfl
  | cons t ts ih =>
    obtain ⟨ht, hts⟩ := forall_mem_cons.1 hts
    have hps : (t.clients.map fun c => points (getClientName H c)) =
        (t.clients.filterMap fun c => points (getClientName H c)).map some := by
      generalize t.clients = cs at ht
      induction cs with
      | nil => rfl
      | cons c cs ih =>
        obtain ⟨⟨p, hp⟩, hcs⟩ := forall_mem_cons.1 ht
        rw [List.map_cons, filterMap_cons, hp, ih hcs, List.map_cons]
    rw [taskDeliveries, List.map_cons, Routes.endpointClients]
    by_cases hid : r.id = t.id
    · rw [if_pos hid, if_pos hid.symm]
      simp only [hps, getLast?_map]
      cases hlast : (t.clients.filterMap fun c => points (getClientName H c)).getLast? with
      | none =>
        simp only [map_none, getD_none, ih hts, Res.ok_bind, map_append]
      | some p =>
        simp only [Option.map_some, getD_some, ih hts, Res.ok_bind, map_append]
    · rw [if_neg hid, if_neg (Ne.symm hid), ih hts]

theorem endpoints_routes
    (hknown : ∀ t ∈ D.taskRows, ∀ c ∈ t.clients, ∃ p, D.setPoints H (getClientName H c) = some p)
    (es : List GoString) : (D.endpoints H es).toOption =
      ((D.routes H).endpoints es).map fun spawns => spawns.map fun s => some s.receiver := by
  have hpoint : ∀ {e p}, D.setPoints H e = some p →
      D.endpoint H e = .ok (((D.routes H).endpoint p).map fun s => some s.receiver) := by
    intro e p hp
    rw [endpoint, hp, Routes.endpoint]
    by_cases htype : p.type = .task
    · simp only [htype, if_true, taskDeliveries_routes hknown, routes, List.map_map,
        Function.comp_def]
    · simp only [htype, if_false, List.map_cons, List.map_nil]
  unfold endpoints Routes.endpoints
  induction es with
  | nil => rfl
  | cons e es ih =>
    rw [mapM_cons, Res.forEach]
    cases hp : D.setPoints H e with
    | none =>
      have hpanic : D.endpoint H e = .panic := by rw [endpoint, hp]
      have hmiss : (D.routes H).points e = none := hp
      rw [hpanic, hmiss]
      rfl
    | some p =>
      have hfound : (D.routes H).points e = some p := hp
      rw [hpoint hp, hfound]
      cases hpss : Res.forEach (D.endpoint H) es with
      | ok pss =>
        cases hps : es.mapM (D.routes H).points with
        | none => simp [hpss, hps, Res.toOption] at ih
        | some ps =>
          simp only [hpss, hps, Res.ok_bind, Res.toOption, Option.map_some, some.injEq] at ih
          simp [Res.toOption, ih]
      | err msg | panic =>
        cases hps : es.mapM (D.routes H).points with
        | none => rfl
        | some ps => simp [hpss, hps, Res.toOption] at ih

/-! ## What the compiler accepts -/

theorem validateVarListen_iff :
    D.workflow.validateVarListen H e ↔ bareName (getRootDefaultVar H e) ∈ D.names H := by
  have hkeys : (D.tasks.map TaskRow.toTask).keys = D.tasks.keys := by
    simp [OrderedMap.keys, OrderedMap.map, Function.comp_def]
  simp only [Workflow.validateVarListen, names, workflow, hkeys, Bool.or_eq_true, List.any_eq_true,
    List.mem_map, List.mem_append, beq_iff_eq, exists_exists_and_eq_and]

variable {P : PayloadHost} {funcs : Option JsRuntime}

theorem checked_of_compile {c : Workflow.Compiled}
    (hc : D.workflow.compile H P funcs = .ok c) {b : GoString × BrokerRow}
    (hb : b ∈ D.brokers.entries) (hcond : b.2.flows.condition = [])
    (he : e ∈ b.2.flows.endpoints) : D.workflow.validateVarListen H e := by
  obtain ⟨-, hbrokers, -⟩ := Workflow.compile_eq_ok.1 hc
  have hmem : (b.1, b.2.toBroker) ∈ D.workflow.brokers.entries :=
    mem_map_of_mem (f := fun b => (b.1, b.2.toBroker)) hb
  have hall := (forall₂_and_left (p := fun b : GoString × Workflow.Broker =>
    ∃ t, b.2.compile H D.workflow funcs = .ok t) _ _).1 (hbrokers.imp fun _ t ht => ⟨⟨t, ht⟩, ht⟩)
  obtain ⟨t, ht⟩ := hall.1 _ hmem
  unfold Workflow.Broker.compile at ht
  rw [if_neg (not_not.2 hcond)] at ht
  split_ifs at ht with hnil
  cases hfind : b.2.flows.endpoints.find? fun e => !D.workflow.validateVarListen H e with
  | some e' =>
    rw [hfind] at ht
    cases ht
  | none =>
    have hcheck := find?_eq_none.1 hfind e he
    simpa using hcheck

/-- The endpoints of a broker reach what they name, and nothing else, exactly when they are
routable. Without a condition, one with no leading dot and no field is written as a name. -/
theorem reaches_iff {P : PayloadHost} {funcs : Option JsRuntime} {c : Workflow.Compiled}
    (hc : D.workflow.compile H P funcs = .ok c) {b : GoString × BrokerRow}
    (hb : b ∈ D.brokers.entries) :
    ((∀ e ∈ b.2.flows.endpoints, D.Reaches H e) ↔ ∀ e ∈ b.2.flows.endpoints, D.Routable H e) ∧
      (b.2.flows.condition = [] → ∀ e ∈ b.2.flows.endpoints,
        isVariable e = false → isRoot e → e ∈ D.names H) := by
  refine ⟨forall₂_congr fun e _ => reaches_iff_routable, fun hcond e he hdot hroot => ?_⟩
  have hcheck := validateVarListen_iff.1 (checked_of_compile hc hb hcond he)
  rw [getRootDefaultVar, if_pos hroot] at hcheck
  unfold isVariable at hdot
  rwa [bareName, Strings.trimPrefix, if_neg (ne_true_of_eq_false hdot)] at hcheck

def relayDeployment (endpoint : GoString) : Deployment where
  vars := none
  tasks := .singleton "build"
    { name := "build", executor := "http", payload := [], id := 3,
      clients := ["node"] }
  brokers := .singleton "relay"
    { name := "relay", listens := ["log_channel"], clients := [],
      flows := ⟨[endpoint], []⟩, id := 1 }
  channels := [⟨2, "log"⟩]
  clients := [⟨4, "node"⟩]
  ids := nodup_singleton 3

/-- The endpoint `build_task` reaches the client of the task. -/
theorem build_endpoint_reached :
    (relayDeployment "build_task".toList).Reaches plainHost "build_task".toList := by
  have hc : (relayDeployment "build_task".toList).workflow.compile plainHost plainPayloads none =
    .ok ⟨[none], [[]]⟩ := rfl
  have hrow : (relayDeployment "build_task".toList).named plainHost "build_task".toList =
    some (.task ((relayDeployment "build_task".toList).taskRows.head (cons_ne_nil _ _))) := rfl
  refine (reaches_iff hc mem_cons_self).1.2 (forall_mem_singleton.2 ⟨?_, ?_, ?_⟩) _
    mem_cons_self
  · decide
  · intro t ht
    cases hrow.symm.trans ht
    exact forall_mem_singleton.2 ⟨⟨4, "node".toList⟩, rfl, rfl⟩
  · intro t ht
    cases hrow.symm.trans ht
    exact fun _ _ _ _ => nofun

/-- The endpoint `.log_channel` is accepted, and has no point. -/
theorem dotted_endpoint_missing :
    (∃ c, (relayDeployment ".log_channel".toList).workflow.compile plainHost plainPayloads none =
        .ok c) ∧
      (relayDeployment ".log_channel".toList).setPoints plainHost ".log_channel".toList = none ∧
      (relayDeployment ".log_channel".toList).endpoints plainHost [".log_channel".toList] =
        .panic ∧
      ¬ (relayDeployment ".log_channel".toList).Reaches plainHost ".log_channel".toList := by
  have hnone : (relayDeployment ".log_channel".toList).setPoints plainHost ".log_channel".toList =
    none := by decide
  refine ⟨⟨⟨[none], [[]]⟩, rfl⟩, hnone, rfl, fun h => ?_⟩
  obtain ⟨p, hp⟩ := h.key
  cases hnone.symm.trans hp

end Deployment

end Kairos.Worker
