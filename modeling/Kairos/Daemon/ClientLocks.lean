import Kairos.Go.Strings
import Kairos.Library.Transitions

/-!
# The mutex of the daemon's client

What goroutines of `pubsub/client.go` and `pubsub/subscription.go` do with `Client.mu`. A way
through a function is a list of events: the mutex is taken or released, or a handler is waited for.
What a function reads from outside is given with the call.
-/

namespace Kairos.Daemon.ClientLocks

/-- What a goroutine does with `Client.mu`, or its wait for a handler. -/
inductive Event where
  | acquire
  | release
  | wait
deriving DecidableEq

/-- A goroutine does not take the mutex again, nor waits for a handler while it holds it. -/
def Disciplined : Bool → List Event → Prop
  | _, [] => True
  | held, .acquire :: es => held = false ∧ Disciplined true es
  | _, .release :: es => Disciplined false es
  | held, .wait :: es => held = false ∧ Disciplined held es

/-- Which handlers are registered. -/
structure Handlers where
  onError : Bool := false
  onConnecting : Bool := false
  onConnected : Bool := false
  onMessage : Bool := false
  onServerSubscribe : Bool := false
  onServerSubscribing : Bool := false
  onServerUnsubscribed : Bool := false
  onServerPublication : Bool := false

def locked : List Event := [.acquire, .release]

/-- The mutex is taken to queue the handler, which is then waited for. -/
def runHandlerSync (registered : Bool) : List Event :=
  if registered then [.acquire, .release, .wait] else []

inductive Token where
  | token
  | unauthorized
  | timeout
  | error
deriving DecidableEq

structure Sub where
  subscribing : Bool
  asks : Bool
  token : Token
  onError : Bool

def Sub.reports (s : Sub) : Bool :=
  s.subscribing && s.asks && s.token = .error && s.onError

/-- `Subscription.resubscribe`. The token function is called where the caller stands, also under
`Client.mu`; it is a function of the subscription's configuration, none of the registered handlers,
and is taken not to use the client. -/
def Sub.resubscribe (s : Sub) : List Event := runHandlerSync s.reports

def unsubscribe : List Event := locked ++ locked

/-! ## The client -/

section

variable (h : Handlers)

def handleError : List Event := runHandlerSync h.onError

def moveToDisconnected : List Event := locked

def moveToConnecting (connected : Bool) : List Event :=
  if connected then
    locked ++ runHandlerSync h.onServerSubscribing ++ runHandlerSync h.onConnecting ++ locked
  else locked

def handleDisconnect (reconnect connected : Bool) : List Event :=
  if reconnect then moveToConnecting h connected else moveToDisconnected

/-- How an attempt to connect goes. -/
inductive Attempt where
  | stale
  | dialError
  | noGetToken
  | unauthorized
  | refreshError
  | send (refreshed ok : Bool)

def startReconnecting : Attempt → List Event
  | .stale => locked
  | .dialError | .refreshError => locked ++ handleError h ++ locked
  | .noGetToken => locked ++ handleError h ++ moveToDisconnected
  | .unauthorized => locked ++ moveToDisconnected
  | .send refreshed ok =>
    -- the error of `sendConnect` is reported before the mutex is released
    locked ++ (if refreshed then locked else []) ++
      .acquire :: ((if ok then [] else handleError h) ++ [.release])

def startConnecting (idle : Bool) (attempt : Attempt) : List Event :=
  locked ++ if idle then runHandlerSync h.onConnecting ++ startReconnecting h attempt else []

/-- The reply to the connect command. -/
inductive Connected where
  | stale
  | retry
  | serverError
  /-- A result with some channels, the other channels of the server, and the client's subscriptions.
  -/
  | result (channels left : ℕ) (subs : List Sub)

def onConnected : Connected → List Event
  | .stale => locked
  | .retry => locked ++ handleError h ++ locked
  | .serverError => locked ++ handleError h ++ moveToDisconnected
  | .result channels left subs =>
    locked ++ locked ++ runHandlerSync h.onConnected ++
      (List.replicate channels (locked ++ runHandlerSync h.onServerSubscribe ++
        runHandlerSync h.onServerPublication)).flatten ++
      -- the source looks for `onServerSubscribing` before it reads `onServerUnsubscribed`
      (List.replicate left
        (runHandlerSync (h.onServerSubscribing && h.onServerUnsubscribed))).flatten ++
      -- the client's own subscriptions are renewed under the mutex
      .acquire :: (subs.flatMap Sub.resubscribe ++ [.release])

inductive Push where
  | message
  | unsubscribe
  | resubscribe (sub : Sub)
  | publication
  | subscribe
  | disconnect (reconnect : Bool)

def handlePush : Push → List Event
  | .message => locked ++ locked ++ runHandlerSync h.onMessage
  | .unsubscribe => locked ++ locked ++ locked ++ runHandlerSync h.onServerUnsubscribed
  | .resubscribe sub => locked ++ locked ++ sub.resubscribe
  | .publication => locked ++ locked ++ runHandlerSync h.onServerPublication
  | .subscribe => locked ++ locked ++ locked ++ runHandlerSync h.onServerSubscribe
  | .disconnect reconnect => locked ++ locked ++ handleDisconnect h reconnect true

end

inductive Refresh where
  | done
  | error
  | rejected

def sendRefresh (h : Handlers) : Refresh → List Event
  | .done => locked
  | .error => handleError h ++ locked
  | .rejected => locked ++ moveToDisconnected

inductive Act where
  | register (h : Handlers)
  | connect (idle : Bool) (attempt : Attempt)
  | retry (attempt : Attempt)
  | reply (r : Connected)
  | push (p : Push)
  | refresh (r : Refresh)
  | disconnect (again connected : Bool)
  | subscribe (sub : Sub)
  | subscription (handlers : List Bool)
  | unsubscribe
  | call
  | close

def Act.path (h : Handlers) : Act → List Event
  | .register _ => []
  | .connect idle attempt => startConnecting h idle attempt
  | .retry attempt => startReconnecting h attempt
  | .reply r => onConnected h r
  | .push p => handlePush h p
  | .refresh r => sendRefresh h r
  | .disconnect again connected => locked ++ handleDisconnect h again connected
  | .subscribe sub => locked ++ locked ++ sub.resubscribe
  | .subscription handlers => handlers.flatMap runHandlerSync
  | .unsubscribe => locked ++ ClientLocks.unsubscribe
  | .call => locked ++ locked
  | .close => locked ++ moveToDisconnected ++ locked ++ locked

def next (h : Handlers) : Act → Option Handlers
  | .register h' => some h'
  | _ => some h

/-- No error handler is waited for under the mutex. -/
def Attempt.Quiet (h : Handlers) : Attempt → Prop
  | .send _ ok => ok ∨ h.onError = false
  | _ => True

def Orderly (h : Handlers) : Act → Prop
  | .connect idle attempt => idle → attempt.Quiet h
  | .retry attempt => attempt.Quiet h
  | .reply (.result _ _ subs) => ∀ sub ∈ subs, sub.reports = false
  | _ => True

/-! ## The paths -/

variable {h : Handlers} {p : List Event}

@[simp] theorem disciplined_locked (q : List Event) :
    Disciplined false (locked ++ q) ↔ Disciplined false q := by
  simp [locked, Disciplined]

@[simp] theorem disciplined_sync (registered : Bool) (q : List Event) :
    Disciplined false (runHandlerSync registered ++ q) ↔ Disciplined false q := by
  cases registered <;> simp [runHandlerSync, Disciplined]

@[simp] theorem disciplined_locked_nil : Disciplined false locked :=
  (disciplined_locked []).2 trivial

@[simp] theorem disciplined_sync_nil (registered : Bool) :
    Disciplined false (runHandlerSync registered) := by
  simpa using (disciplined_sync registered []).2 trivial

@[simp] theorem disciplined_replicate (hp : ∀ q, Disciplined false (p ++ q) ↔ Disciplined false q)
    (n : ℕ) (q : List Event) :
    Disciplined false ((List.replicate n p).flatten ++ q) ↔ Disciplined false q := by
  induction n with
  | zero => rfl
  | succ n ih => rw [List.replicate_succ, List.flatten_cons, List.append_assoc, hp, ih]

theorem disciplined_syncs (registered : List Bool) :
    Disciplined false (registered.flatMap runHandlerSync) := by
  induction registered with
  | nil => trivial
  | cons b registered ih => simpa using ih

theorem disciplined_under (registered : List Bool) :
    Disciplined false (.acquire :: (registered.flatMap runHandlerSync ++ [.release])) ↔
      ∀ b ∈ registered, b = false := by
  induction registered with
  | nil => simp [Disciplined]
  | cons b registered ih =>
    cases b with
    | false => simpa [runHandlerSync] using ih
    | true => simp [runHandlerSync, Disciplined]

theorem startReconnecting_iff (attempt : Attempt) :
    Disciplined false (startReconnecting h attempt) ↔ attempt.Quiet h := by
  cases attempt with
  | send refreshed ok =>
    cases ok with
    | true => cases refreshed <;> simp [startReconnecting, Attempt.Quiet, Disciplined]
    | false =>
      have hunder := disciplined_under [h.onError]
      cases refreshed <;> simpa [startReconnecting, Attempt.Quiet, handleError] using hunder
  | _ => simp [startReconnecting, Attempt.Quiet, handleError, moveToDisconnected]

theorem onConnected_iff (r : Connected) :
    Disciplined false (onConnected h r) ↔ Orderly h (.reply r) := by
  cases r with
  | result channels left subs =>
    have hunder : Disciplined false (.acquire :: (subs.flatMap Sub.resubscribe ++ [.release])) ↔
        ∀ b ∈ subs.map Sub.reports, b = false := by
      rw [← disciplined_under, List.flatMap_map]
      rfl
    simpa [onConnected, Orderly, disciplined_replicate] using hunder
  | _ => simp [onConnected, Orderly, handleError, moveToDisconnected]

theorem path_iff (act : Act) : Disciplined false (act.path h) ↔ Orderly h act := by
  cases act with
  | register h' => simp [Act.path, Orderly, Disciplined]
  | connect idle attempt =>
    cases idle <;> simp [Act.path, Orderly, startConnecting, startReconnecting_iff]
  | retry attempt => exact startReconnecting_iff attempt
  | reply r => exact onConnected_iff r
  | push p =>
    refine iff_of_true ?_ trivial
    cases p with
    | disconnect reconnect =>
      cases reconnect <;> simp [Act.path, handlePush, handleDisconnect, moveToConnecting,
        moveToDisconnected]
    | _ => simp [Act.path, handlePush, Sub.resubscribe]
  | refresh r =>
    cases r <;> simp [Act.path, Orderly, sendRefresh, handleError, moveToDisconnected]
  | disconnect again connected =>
    cases again <;> cases connected <;> simp [Act.path, Orderly, handleDisconnect,
      moveToConnecting, moveToDisconnected]
  | subscription handlers => exact iff_of_true (disciplined_syncs handlers) trivial
  | _ => simp [Act.path, Orderly, Sub.resubscribe, unsubscribe, moveToDisconnected]

/-- The mutex is never taken twice, nor a handler waited for under it, exactly if no command to
connect fails with an error handler there, and no subscription reports an error on connecting. -/
theorem disciplined_iff (h : Handlers) (acts : List Act) :
    Transitions.Meets next (fun h act => Disciplined false (act.path h)) h acts ↔
      Transitions.Meets next Orderly h acts :=
  Transitions.meets_iff_of_invariant (I := fun _ => True) (fun _ _ _ _ _ _ => trivial)
    (fun _ act _ => path_iff act) trivial acts

/-- An error handler, and a command to connect that cannot be written. -/
theorem write_error_blocks :
    ¬ Transitions.Meets next (fun h act => Disciplined false (act.path h)) {}
      [.register { onError := true }, .connect true (.send false false)] := by
  intro hmeets
  have hpath := (path_iff _).1 ((hmeets.2 _ rfl).1) rfl
  simp [Attempt.Quiet] at hpath

end Kairos.Daemon.ClientLocks
