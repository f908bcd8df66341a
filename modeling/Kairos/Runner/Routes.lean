import Kairos.Template.Execute

/-!
# Where a broker's output goes

`processBroker` and `handleDeliver` of `server/runner/worker.go` turn endpoints or `DeliverFlows`
into request structs and goroutines that deliver them. Endpoints use the struct of the caller, and
each receiver of a flow has a copy, which the clients of a task share.
-/

namespace Kairos.Worker

inductive PointType where
  | kairos
  | client
  | channel
  | broker
  | task
  deriving DecidableEq

structure Point where
  id : ℤ
  type : PointType
  name : GoString
  deriving DecidableEq

structure RoutedTask where
  id : ℤ
  clients : List Point

structure Spawn where
  receiver : Point
  sync : Bool

structure Request where
  drawn : Bool
  spawns : List Spawn

structure Handled where
  requests : List Request
  hasSync : Bool
  returned : Bool

/-- `points`, and the tasks of the workflow in order. -/
structure Routes where
  points : GoString → Option Point
  tasks : List RoutedTask

namespace Routes

variable (R : Routes)

def clients (id : ℤ) : List Point := R.tasks.flatMap fun t => if t.id = id then t.clients else []

/-- The clients that an endpoint goes to. Each is assigned to `receiver`, whose `ID` the next tasks
are compared with. -/
def endpointClients : ℤ → List RoutedTask → List Point
  | _, [] => []
  | id, t :: ts =>
    if t.id = id then t.clients ++ endpointClients ((t.clients.getLast?.map Point.id).getD id) ts
    else endpointClients id ts

def endpoint (p : Point) : List Spawn :=
  if p.type = .task then (endpointClients p.id R.tasks).map (⟨·, false⟩) else [⟨p, false⟩]

def endpoints (es : List GoString) : Option (List Spawn) :=
  (es.mapM R.points).map fun ps => ps.flatMap R.endpoint

/-! ## Flows -/

def request (flow : DeliverFlow) (p : Point) : Request where
  drawn := flow.send = Keyword.sendu.name
  spawns :=
    if p.type = .task then (R.clients p.id).map (⟨·, flow.send = Keyword.sendsync.name⟩)
    else [⟨p, false⟩]

def receivers (flows : List DeliverFlow) : List (DeliverFlow × GoString) :=
  flows.flatMap fun f => (Strings.split ',' f.reciever).map (f, ·)

def deliverTo : List (DeliverFlow × GoString) → Handled
  | [] => ⟨[], false, false⟩
  | (flow, rev) :: rest =>
    match R.points rev with
    | none => ⟨[], false, true⟩
    | some p =>
      { deliverTo rest with
        requests := R.request flow p :: (deliverTo rest).requests
        hasSync := flow.send = Keyword.sendsync.name || (deliverTo rest).hasSync }

/-- `handleDeliver`, up to its send. Without flows, the broker logs the tracking to itself. -/
def handleDeliver (broker : Point) (flows : List DeliverFlow) : Handled :=
  if flows = [] then ⟨[⟨false, [⟨broker, false⟩]⟩], false, false⟩ else R.deliverTo (receivers flows)

/-- The requests for a broker with endpoints, or else with the flows of its template. With endpoints
it is the caller's struct. -/
def processBroker (broker : Point) (es : List GoString) (flows : List DeliverFlow) :
    Option (List Request) :=
  if es = [] then some (R.handleDeliver broker flows).requests
  else (R.endpoints es).map fun spawns => [⟨false, spawns⟩]

def sample (clients : List Point) : Routes where
  points := fun name =>
    if name = "log_channel" then some ⟨2, .channel, "log"⟩
    else if name = "build_task" then some ⟨3, .task, "build"⟩
    else none
  tasks := [⟨3, clients⟩]

end Routes

end Kairos.Worker
