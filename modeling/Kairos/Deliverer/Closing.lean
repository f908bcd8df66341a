import Kairos.Deliverer.Client

/-!
# A client that is closed

`Client.close` of `server/deliverer/client.go` while commands and callbacks of the client are under
way. It sets the status, copies the channel table, unsubscribes from the copy, and takes an
authenticated client out of the hub. A thread is the list of its steps (`Move`), each one under one
lock.
-/

namespace Kairos.Deliverer

open List Option
open Transitions (Meets run)

/-- A goroutine of `connectCmd` that subscribes to one channel on the server's side. -/
inductive Goroutine where
  | start (channel : GoString) (options : SubscribeOptions)
  | add (channel : GoString) (options : SubscribeOptions) (target : GoString) (role : Role)
  | done (channel : GoString) (result : Except SubscribeError ChannelContext)

/-- What is left to do of a command, one step between two releases of the mutex at a time. -/
inductive Move where
  | connect (subscriptions : List (GoString × SubscribeOptions))
  | authorize (subscriptions : List (GoString × SubscribeOptions))
  | authenticate (subscriptions : List (GoString × SubscribeOptions))
  | addClient (subscriptions : List (GoString × SubscribeOptions))
  | subscribeAll (goroutines : List Goroutine)
  | complete (ctxs : List (GoString × ChannelContext))
  | validate (channel : GoString) (reply : Option SubscribeReply)
  | callback (channel : GoString) (reply : Option SubscribeReply)
  | addSub (channel : GoString) (reply : SubscribeReply) (target : GoString) (role : Role)
  | write (target : GoString) (ctx : ChannelContext)
  | undo (channel : GoString)
  | read (channel : GoString)
  | delete (channel : GoString)
  | remove (channel : GoString)
  | close
  | leave
  | removeClient

/-- A client, whether it is in the hub, and what its goroutines have left to do. -/
structure Connection where
  session : Session
  authenticated : Bool
  inHub : Bool
  threads : List (List Move)

namespace Connection

variable (config : Config) (c : Uid)

def start (subs : Subs) : Connection := ⟨⟨∅, subs, false⟩, false, false, []⟩

def setChannels (s : Connection) (channels : Channels) : Connection :=
  { s with session := { s.session with channels := channels } }

def setSubs (s : Connection) (subs : Subs) : Connection :=
  { s with session := { s.session with subs := subs } }

/-- The channel and role that `subscribeCmd` subscribes with. -/
def choose (s : Connection) (calls : Calls) (channel : GoString) (reply : SubscribeReply) :
    Option (Except SubscribeError (GoString × Role)) :=
  if reply.Expired calls.now then some (.error .expired)
  else
    match s.session.channels.target calls.order channel reply.options.role with
    | .ok (some target) => some (.ok target)
    | .ok none => some (.error .permissionDenied)
    | _ => none

def stepGoroutine (s : Connection) (calls : Calls) : Goroutine → Option (Goroutine × Connection)
  | .start channel options =>
    (s.choose calls channel { options }).map fun
      | .ok (target, role) => (.add channel options target role, s)
      | .error e => (.done channel (.error e), s)
  | .add channel options target role =>
    let r := s.session.subscribeTo c calls { options } true target role
    some (.done channel r.1, { s with session := r.2 })
  | .done _ _ => none

/-- The results of the goroutines, if all are done. -/
def results : List Goroutine → Option (List (GoString × Except SubscribeError ChannelContext))
  | [] => some []
  | .done channel r :: gs => (results gs).map ((channel, r) :: ·)
  | _ :: _ => none

/-- The contexts of the channels, if no goroutine failed. -/
def contexts :
    List (GoString × Except SubscribeError ChannelContext) →
      Option (List (GoString × ChannelContext))
  | [] => some []
  | (channel, .ok ctx) :: rs => (contexts rs).map ((channel, ctx) :: ·)
  | (_, .error _) :: _ => none

/-- `connectCmd` waits: its goroutine `i` goes on, or, when all have ended, the command does. -/
def waitAll (s : Connection) (calls : Calls) (i : ℕ) (gs : List Goroutine) :
    Option (List Move × Connection) :=
  match results gs with
  | none => do
    let g ← gs[i]?
    let (g', s') ← s.stepGoroutine c calls g
    pure ([.subscribeAll (gs.set i g')], s')
  | some rs =>
    match contexts rs with
    | some ctxs => some ([.complete ctxs], s)
    | none =>
      if calls.order.isPerm (rs.map Prod.fst) then some (calls.order.map .undo, s) else none

/-- What a step does, and what its thread then has to do. `ok` is whether `connectCmd` keeps its
limits, `i` its goroutine. -/
def exec (s : Connection) (calls : Calls) (ok : Bool) (i : ℕ) :
    Move → Option (List Move × Connection)
  | .connect subs =>
    some (if s.session.closed || s.authenticated then [] else [.authorize subs], s)
  | .authorize subs => some (if s.session.closed || !ok then [] else [.authenticate subs], s)
  | .authenticate subs => some ([.addClient subs], { s with authenticated := true })
  | .addClient subs =>
    some ([.subscribeAll (subs.map fun sub => .start sub.1 sub.2)], { s with inHub := true })
  | .subscribeAll gs => s.waitAll c calls i gs
  | .complete ctxs =>
    some ([], s.setChannels
      (ctxs.foldl (fun channels ctx => channels.insert ctx.1 ctx.2) s.session.channels))
  | .validate channel reply =>
    match s.session.validateSubscribeRequest config channel with
    | none => some ([], s)
    | some session => some ([.callback channel reply], { s with session := session })
  | .callback channel none => some ([.undo channel], s)
  | .callback channel (some reply) =>
    (s.choose calls channel reply).map fun
      | .ok (target, role) => ([.addSub channel reply target role], s)
      | .error _ => ([.undo channel], s)
  | .addSub channel reply target role =>
    let r := s.session.subs.addSubscription target c calls.broker
    let fails := !r.1 || reply.options.emitPresence && !calls.presence
    some (if fails then [.undo channel] else [.write target (reply.context false role)],
      s.setSubs r.2)
  | .write target ctx => some ([], s.setChannels (s.session.channels.insert target ctx))
  | .undo channel =>
    some (if (s.session.channels.lookup channel).isSome then [.remove channel] else [],
      s.setChannels (s.session.channels.erase channel))
  | .read channel =>
    some (if (s.session.channels.lookup channel).isSome then [.delete channel] else [], s)
  | .delete channel =>
    some ([.remove channel], s.setChannels (s.session.channels.erase channel))
  | .remove channel => some ([], s.setSubs (s.session.subs.removeSub channel c).2)
  | .close =>
    if s.session.closed then some ([], s)
    else if calls.order.isPerm s.session.channels.keys then
      some (calls.order.map .read ++ [.leave],
        { s with session := { s.session with closed := true } })
    else none
  | .leave => some (if s.authenticated then [.removeClient] else [], s)
  | .removeClient => some ([], { s with inHub := false })

/-- A command arrives, the client is closed, or a goroutine takes a step. -/
inductive Act where
  | connect (subscriptions : List (GoString × SubscribeOptions))
  | subscribe (channel : GoString) (reply : Option SubscribeReply)
  | unsubscribe (channel : GoString)
  | close
  | step (t : ℕ) (calls : Calls) (ok : Bool) (i : ℕ)

def spawn (s : Connection) (op : Move) : Connection := { s with threads := s.threads ++ [[op]] }

/-- A command of a closed client is refused. -/
def command (s : Connection) (op : Move) : Option Connection :=
  if s.session.closed then none else some (s.spawn op)

def next (s : Connection) : Act → Option Connection
  | .connect subs => s.command (.connect subs)
  | .subscribe channel reply => s.command (.validate channel reply)
  | .unsubscribe channel => s.command (.read channel)
  | .close => some (s.spawn .close)
  | .step t calls ok i =>
    match s.threads[t]? with
    | some (op :: ops) =>
      (s.exec config c calls ok i op).map fun r =>
        { r.2 with threads := s.threads.set t (r.1 ++ ops) }
    | _ => none

end Connection

/-! ## What is still to be done -/

/-- The step leads to the client's removal from a channel, with the table as it is. -/
def Move.Clears (channels : Channels) (ch : GoString) : Move → Prop
  | .delete channel => channel = ch
  | .remove channel => channel = ch
  | .read channel => channel = ch ∧ ch ∈ channels
  | .undo channel => channel = ch ∧ ch ∈ channels
  | _ => False

def Move.Departs : Move → Prop
  | .leave => True
  | .removeClient => True
  | _ => False

def Move.adds (i : ℕ) : Move → Bool
  | .addClient _ => true
  | .addSub _ _ _ _ => true
  | .subscribeAll gs =>
    match gs[i]? with
    | some (.add _ _ _ _) => true
    | _ => false
  | _ => false

theorem Move.Clears.mono {channels channels' : Channels} {ch : GoString} {op : Move}
    (h : op.Clears channels ch) (hkeep : ch ∈ channels → ch ∈ channels') :
    op.Clears channels' ch := by
  cases op with
  | delete channel | remove channel => exact h
  | read channel | undo channel => exact ⟨h.1, hkeep h.2⟩
  | _ => exact h

namespace Connection

/-- Some goroutine has the channel yet to clear. -/
def Pending (s : Connection) (ch : GoString) : Prop :=
  ∃ ops ∈ s.threads, ∃ op ∈ ops, op.Clears s.session.channels ch

/-- Every subscription of a closed client, and its entry in the hub, some thread has yet to
remove. -/
structure Inv (c : Uid) (s : Connection) : Prop where
  sets : s.session.subs.Sets
  pending : s.session.closed → ∀ ch, c ∈ s.session.subs.of ch → s.Pending ch
  departs : s.session.closed → s.inHub → ∃ ops ∈ s.threads, ∃ op ∈ ops, op.Departs

structure Admitted (s : Connection) : Prop where
  inHub : s.inHub → s.authenticated
  adding : ∀ ops ∈ s.threads, ∀ subs, .addClient subs ∈ ops → s.authenticated

variable {config : Config} {c : Uid} {s s' : Connection} {t i : ℕ} {op : Move}
    {ops ops' : List Move}
  {calls : Calls} {ok : Bool}

theorem exists_set {P Q : Move → Prop} (ht : s.threads[t]? = some (op :: ops))
    (hP : ∃ ops ∈ s.threads, ∃ op ∈ ops, P op)
    (hop : P op → ∃ op' ∈ ops', Q op') (hmono : ∀ op, P op → Q op ∨ ∃ op' ∈ ops', Q op') :
    ∃ ops₁ ∈ s.threads.set t (ops' ++ ops), ∃ op ∈ ops₁, Q op := by
  have hlt : t < s.threads.length := (List.getElem?_eq_some_iff.mp ht).1
  have hself : ops' ++ ops ∈ s.threads.set t (ops' ++ ops) := mem_set hlt _
  have hnew (h : ∃ op' ∈ ops', Q op') :
      ∃ ops₁ ∈ s.threads.set t (ops' ++ ops), ∃ op ∈ ops₁, Q op := by
    obtain ⟨op', hmem, hQ⟩ := h
    exact ⟨_, hself, op', mem_append_left _ hmem, hQ⟩
  obtain ⟨ops₀, hops₀, op₀, hop₀, hP₀⟩ := hP
  rcases hmono op₀ hP₀ with hQ₀ | hleft
  swap
  · exact hnew hleft
  obtain ⟨t', ht'⟩ := mem_iff_getElem?.mp hops₀
  by_cases htt' : t' = t
  · -- the thread is the one that goes on
    subst htt'
    cases ht'.symm.trans ht
    rcases mem_cons.mp hop₀ with rfl | hrest
    · exact hnew (hop hP₀)
    · exact ⟨_, hself, op₀, mem_append_right _ hrest, hQ₀⟩
  · have hother : (s.threads.set t (ops' ++ ops))[t']? = some ops₀ :=
      (getElem?_set_ne (Ne.symm htt')).trans ht'
    exact ⟨ops₀, mem_of_getElem? hother, op₀, hop₀, hQ₀⟩

theorem Inv.open (hsets : s'.session.subs.Sets) (hopen : s'.session.closed = false) : s'.Inv c :=
  ⟨hsets, fun h => absurd (h.symm.trans hopen) (by decide),
    fun h => absurd (h.symm.trans hopen) (by decide)⟩

/-- A step that adds nothing. What it takes out of the table, and was to clear, it leaves to its
thread. -/
theorem Inv.advance (h : s.Inv c) (ht : s.threads[t]? = some (op :: ops))
    (hclosed : s'.session.closed = s.session.closed) (hsets : s'.session.subs.Sets)
    (hhub : s'.inHub → s.inHub) (hsubs : ∀ ch, c ∈ s'.session.subs.of ch → c ∈ s.session.subs.of ch)
    (hclears : ∀ ch, c ∈ s'.session.subs.of ch → op.Clears s.session.channels ch →
      ∃ op' ∈ ops', op'.Clears s'.session.channels ch) (hkeep : ∀ ch, ch ∈ s.session.channels →
      ch ∈ s'.session.channels ∨ ∃ op' ∈ ops', op'.Clears s'.session.channels ch)
    (hdeparts : s'.inHub → op.Departs → ∃ op' ∈ ops', op'.Departs) :
    Inv c { s' with threads := s.threads.set t (ops' ++ ops) } := by
  refine ⟨hsets, fun hc ch hch => ?_, fun hc hin => ?_⟩
  · have hpending := h.pending (hclosed.symm.trans hc) ch (hsubs ch hch)
    refine exists_set ht hpending (hclears ch hch) fun op₀ hop₀ => ?_
    by_cases hmem : ch ∈ s.session.channels
    · exact (hkeep ch hmem).imp_left fun hin => hop₀.mono fun _ => hin
    · exact .inl (hop₀.mono fun hin => absurd hin hmem)
  · exact exists_set ht (h.departs (hclosed.symm.trans hc) (hhub hin)) (hdeparts hin)
      fun op₀ hop₀ => .inl hop₀

theorem Inv.grow (h : s.Inv c) (ht : s.threads[t]? = some (op :: ops))
    (hclosed : s'.session.closed = s.session.closed) (hsubs : s'.session.subs = s.session.subs)
    (hhub : s'.inHub = s.inHub) (hkeep : ∀ ch, ch ∈ s.session.channels → ch ∈ s'.session.channels)
    (hclears : ∀ ch, ¬ op.Clears s.session.channels ch) (hdeparts : ¬ op.Departs) :
    Inv c { s' with threads := s.threads.set t (ops' ++ ops) } := by
  refine h.advance ht hclosed (hsubs ▸ h.sets) (fun hin => hhub ▸ hin) (fun ch hch => hsubs ▸ hch)
    (fun ch _ hop => absurd hop (hclears ch)) (fun ch hch => .inl (hkeep ch hch))
    (fun _ hop => absurd hop hdeparts)

variable {channel : GoString}

theorem Inv.take (h : s.Inv c) (ht : s.threads[t]? = some (op :: ops))
    (hremove : .remove channel ∈ ops' ∨ channel ∉ s.session.channels ∧
      ∀ ch, ¬ op.Clears s.session.channels ch)
    (hclears : ∀ ch, op.Clears s.session.channels ch → ch = channel) (hdeparts : ¬ op.Departs) :
    Inv c { s.setChannels (s.session.channels.erase channel) with
      threads := s.threads.set t (ops' ++ ops) } := by
  refine h.advance ht rfl h.sets id (fun _ => id) (fun ch _ hop => ?_) (fun ch hch => ?_)
    (fun _ hop => absurd hop hdeparts)
  · rcases hremove with hin | ⟨-, hnot⟩
    · exact ⟨_, hin, (hclears ch hop).symm⟩
    · exact absurd hop (hnot ch)
  · by_cases hne : ch = channel
    · subst hne
      rcases hremove with hin | ⟨hnot, -⟩
      · exact .inr ⟨_, hin, rfl⟩
      · exact absurd hch hnot
    · exact .inl (AList.mem_erase.mpr ⟨hne, hch⟩)

/-! ## The steps -/

theorem stepGoroutine_cases {g g' : Goroutine} (h : s.stepGoroutine c calls g = some (g', s')) :
    s' = s ∨ ∃ channel options target role, g = .add channel options target role ∧
      s' = s.setSubs (s.session.subs.addSubscription target c calls.broker).2 := by
  cases g with
  | start channel options =>
    left
    rw [stepGoroutine, map_eq_some_iff] at h
    obtain ⟨r, -, hr⟩ := h
    cases r with
    | error e | ok target => exact (Prod.ext_iff.mp hr).2.symm
  | add channel options target role =>
    right
    refine ⟨channel, options, target, role, rfl, ?_⟩
    obtain rfl := (Prod.ext_iff.mp (Option.some.inj h)).2
    dsimp only
    rw [Session.subscribeTo_serverSide]
    rfl
  | done channel r => cases h

theorem waitAll_cases {gs : List Goroutine} (h : s.waitAll c calls i gs = some (ops', s')) :
    (s' = s ∨ (Move.subscribeAll gs).adds i ∧
      ∃ target, s' = s.setSubs (s.session.subs.addSubscription target c calls.broker).2) ∧
    ∀ subs, .addClient subs ∉ ops' := by
  unfold waitAll at h
  cases hres : results gs with
  | none =>
    simp only [hres, bind_eq_bind, bind_eq_some_iff, Option.pure_def,
      Option.some.injEq] at h
    obtain ⟨g, hg, ⟨g', s''⟩, hstep, heq⟩ := h
    obtain ⟨rfl, rfl⟩ := Prod.ext_iff.mp heq
    refine ⟨?_, by simp⟩
    rcases stepGoroutine_cases hstep with rfl | ⟨channel, options, target, role, rfl, rfl⟩
    · exact .inl rfl
    · exact .inr ⟨by simp [Move.adds, hg], target, rfl⟩
  | some rs =>
    rw [hres] at h
    dsimp only at h
    cases hctxs : contexts rs with
    | some ctxs =>
      rw [hctxs] at h
      cases h
      exact ⟨.inl rfl, by simp⟩
    | none =>
      rw [hctxs] at h
      dsimp only at h
      split_ifs at h
      cases h
      exact ⟨.inl rfl, by simp⟩

theorem mem_complete {channels : Channels} {ch : GoString} (h : ch ∈ channels)
    (ctxs : List (GoString × ChannelContext)) :
    ch ∈ ctxs.foldl (fun channels ctx => channels.insert ctx.1 ctx.2) channels := by
  induction ctxs generalizing channels with
  | nil => exact h
  | cons ctx ctxs ih => exact ih ((AList.mem_insert _).mpr (.inr h))

theorem exec_callback {reply : Option SubscribeReply}
    (h : s.exec config c calls ok i (.callback channel reply) = some (ops', s')) :
    s' = s ∧ ∀ subs, .addClient subs ∉ ops' := by
  cases reply with
  | none =>
    cases h
    exact ⟨rfl, by simp⟩
  | some reply =>
    rw [exec, map_eq_some_iff] at h
    obtain ⟨r, -, hr⟩ := h
    cases r with
    | error e | ok target =>
      obtain ⟨rfl, rfl⟩ := Prod.ext_iff.mp hr
      exact ⟨rfl, by simp⟩

/-- No client is added once closed, and when `close` copies the table, every subscription is in it
or some thread has yet to remove it. -/
def Timely (c : Uid) (s : Connection) : Act → Prop
  | .step t _ _ i => ∀ op ops, s.threads[t]? = some (op :: ops) →
    (op.adds i → s.session.closed = false) ∧
    (op = .close → s.session.closed = false →
      ∀ ch, c ∈ s.session.subs.of ch → ch ∈ s.session.channels ∨ s.Pending ch)
  | _ => True

theorem Inv.same (h : s.Inv c) (ht : s.threads[t]? = some (op :: ops))
    (hclears : ∀ ch, ¬ op.Clears s.session.channels ch) (hdeparts : ¬ op.Departs) :
    Inv c { s with threads := s.threads.set t (ops' ++ ops) } :=
  h.grow ht rfl rfl rfl (fun _ hch => hch) hclears hdeparts

theorem Inv.copy (h : s.Inv c) (ht : s.threads[t]? = some (.close :: ops)) {order : List GoString}
    (horder : order.Perm s.session.channels.keys)
    (htable : ∀ ch, c ∈ s.session.subs.of ch → ch ∈ s.session.channels ∨ s.Pending ch) :
    Inv c { s with
      session := { s.session with closed := true }
      threads := s.threads.set t ((order.map .read ++ [.leave]) ++ ops) } := by
  have hlt : t < s.threads.length := (List.getElem?_eq_some_iff.mp ht).1
  refine ⟨h.sets, fun _ ch hch => ?_, fun _ _ => ?_⟩
  · rcases htable ch hch with hin | hpending
    · -- the channel is in the copy of the table
      have hkey : ch ∈ order := horder.mem_iff.mpr (AList.mem_keys.mp hin)
      refine ⟨_, mem_set hlt _, .read ch, ?_, rfl, hin⟩
      exact mem_append_left _ (mem_append_left _ (mem_map_of_mem hkey))
    · exact exists_set ht hpending (fun hop => hop.elim) fun op hop => .inl hop
  · refine ⟨_, mem_set hlt _, .leave, ?_, trivial⟩
    exact mem_append_left _ (mem_append_right _ (mem_singleton_self _))

theorem Inv.exec (h : s.Inv c) (hadmitted : s.Admitted) (ht : s.threads[t]? = some (op :: ops))
    (htimely : s.Timely c (.step t calls ok i))
    (hexec : s.exec config c calls ok i op = some (ops', s')) :
    Inv c { s' with threads := s.threads.set t (ops' ++ ops) } := by
  obtain ⟨hadds, hclose⟩ := htimely op ops ht
  cases op with
  | connect subs | authorize subs =>
    cases hexec
    exact h.same ht (fun _ => id) id
  | authenticate subs =>
    cases hexec
    exact h.grow ht rfl rfl rfl (fun _ => id) (fun _ => id) id
  | addClient subs =>
    cases hexec
    exact Inv.open h.sets (hadds rfl)
  | subscribeAll gs =>
    rcases (waitAll_cases hexec).1 with rfl | ⟨hadd, target, rfl⟩
    · exact h.same ht (fun _ => id) id
    · exact Inv.open (h.sets.addSubscription target c calls.broker) (hadds hadd)
  | complete ctxs =>
    cases hexec
    exact h.grow ht rfl rfl rfl (fun _ hch => mem_complete hch ctxs) (fun _ => id) id
  | validate channel reply =>
    rw [Connection.exec] at hexec
    cases hvalid : s.session.validateSubscribeRequest config channel with
    | none =>
      rw [hvalid] at hexec
      cases hexec
      exact h.same ht (fun _ => id) id
    | some session =>
      rw [hvalid] at hexec
      cases hexec
      obtain rfl := Session.validateSubscribeRequest_eq_some hvalid
      exact h.grow ht rfl rfl rfl (fun _ hch => (AList.mem_insert _).mpr (.inr hch))
        (fun _ => id) id
  | callback channel reply =>
    obtain ⟨rfl, -⟩ := exec_callback hexec
    exact h.same ht (fun _ => id) id
  | addSub channel reply target role =>
    cases hexec
    exact Inv.open (h.sets.addSubscription target c calls.broker) (hadds rfl)
  | write target ctx =>
    cases hexec
    exact h.grow ht rfl rfl rfl (fun _ hch => (AList.mem_insert _).mpr (.inr hch)) (fun _ => id) id
  | undo channel =>
    cases hexec
    refine h.take ht ?_ (fun ch hop => hop.1.symm) id
    split_ifs with hin
    · exact .inl mem_cons_self
    · have hnot : channel ∉ s.session.channels := fun hmem => hin (AList.lookup_isSome.mpr hmem)
      exact .inr ⟨hnot, fun ch hop => hnot (hop.1 ▸ hop.2)⟩
  | read channel =>
    cases hexec
    refine h.advance ht rfl h.sets id (fun _ => id) (fun ch _ hop => ?_) (fun _ hch => .inl hch)
      (fun _ hop => hop.elim)
    have hin : (s.session.channels.lookup channel).isSome :=
      AList.lookup_isSome.mpr (hop.1 ▸ hop.2)
    -- the channel is still there, so the goroutine goes on to delete it
    exact ⟨.delete channel, by simp [hin], hop.1⟩
  | delete channel =>
    cases hexec
    exact h.take ht (.inl mem_cons_self) (fun ch heq => heq.symm) id
  | remove channel =>
    cases hexec
    refine h.advance ht rfl (h.sets.removeSub channel c) id (fun ch hch => ?_)
      (fun ch hch hop => ?_) (fun _ hch => .inl hch) (fun _ hop => hop.elim)
    · exact (h.sets.mem_removeSub.mp hch).1
    · exact absurd ⟨hop.symm, rfl⟩ (h.sets.mem_removeSub.mp hch).2
  | close =>
    rw [Connection.exec] at hexec
    split_ifs at hexec with hclosed horder
    · cases hexec
      exact h.same ht (fun _ => id) id
    · cases hexec
      -- from here on every channel of the copied list has a goroutine that clears it
      exact h.copy ht (isPerm_iff.mp horder) (hclose rfl (Bool.eq_false_iff.mpr hclosed))
  | leave =>
    cases hexec
    refine h.advance ht rfl h.sets id (fun _ => id) (fun _ _ hop => hop.elim)
      (fun _ hch => .inl hch) (fun hin _ => ?_)
    exact ⟨.removeClient, by simp [hadmitted.inHub hin], trivial⟩
  | removeClient =>
    cases hexec
    exact h.advance ht rfl h.sets (fun hin => nomatch hin) (fun _ => id) (fun _ _ hop => hop.elim)
      (fun _ hch => .inl hch) (fun hin _ => nomatch hin)

theorem Admitted.set (h : s.Admitted) (hauth : s.authenticated → s'.authenticated)
    (hhub : s'.inHub → s'.authenticated) (hops : ∀ subs, .addClient subs ∈ ops' → s'.authenticated)
    (ht : s.threads[t]? = some (op :: ops)) :
    Admitted { s' with threads := s.threads.set t (ops' ++ ops) } := by
  refine ⟨hhub, fun ops₁ hops₁ subs hadd => ?_⟩
  rcases mem_or_eq_of_mem_set hops₁ with hold | rfl
  · exact hauth (h.adding ops₁ hold subs hadd)
  · rcases mem_append.mp hadd with hnew | hrest
    · exact hops subs hnew
    · have hmem : op :: ops ∈ s.threads := mem_of_getElem? ht
      exact hauth (h.adding _ hmem subs (mem_cons_of_mem _ hrest))

theorem Admitted.keep (h : s.Admitted) (hauth : s'.authenticated = s.authenticated)
    (hhub : s'.inHub = s.inHub) (hops : ∀ subs, .addClient subs ∉ ops')
    (ht : s.threads[t]? = some (op :: ops)) :
    Admitted { s' with threads := s.threads.set t (ops' ++ ops) } :=
  h.set (fun ha => hauth.trans ha) (fun hin => hauth.trans (h.inHub (hhub ▸ hin)))
    (fun subs hadd => absurd hadd (hops subs)) ht

theorem Admitted.exec (h : s.Admitted) (ht : s.threads[t]? = some (op :: ops))
    (hexec : s.exec config c calls ok i op = some (ops', s')) :
    Admitted { s' with threads := s.threads.set t (ops' ++ ops) } := by
  cases op with
  | authenticate subs =>
    cases hexec
    exact h.set (fun _ => rfl) (fun _ => rfl) (fun _ _ => rfl) ht
  | addClient subs =>
    cases hexec
    have hauth := h.adding _ (mem_of_getElem? ht) subs mem_cons_self
    exact h.set (fun _ => hauth) (fun _ => hauth) (fun _ _ => hauth) ht
  | removeClient =>
    cases hexec
    exact h.set id (fun hin => nomatch hin) (fun _ hadd => nomatch hadd) ht
  | subscribeAll gs =>
    obtain ⟨rfl | ⟨-, target, rfl⟩, hops⟩ := waitAll_cases hexec
    · exact h.keep rfl rfl hops ht
    · exact h.keep rfl rfl hops ht
  | callback channel reply =>
    obtain ⟨rfl, hops⟩ := exec_callback hexec
    exact h.keep rfl rfl hops ht
  | validate channel reply =>
    rw [Connection.exec] at hexec
    split at hexec
    · cases hexec
      exact h.keep rfl rfl (by simp) ht
    · cases hexec
      exact h.keep rfl rfl (by simp) ht
  | close =>
    rw [Connection.exec] at hexec
    split_ifs at hexec
    · cases hexec
      exact h.keep rfl rfl (by simp) ht
    · cases hexec
      exact h.keep rfl rfl (by simp) ht
  | connect _ | authorize _ | addSub _ _ _ _ | undo _ | read _ | leave =>
    cases hexec
    exact h.keep rfl rfl (by split_ifs <;> simp) ht
  | complete _ | write _ _ | delete _ | remove _ =>
    cases hexec
    exact h.keep rfl rfl (by simp) ht

theorem Inv.spawn (h : s.Inv c) (op : Move) : (s.spawn op).Inv c := by
  refine ⟨h.sets, fun hc ch hch => ?_, fun hc hin => ?_⟩
  · obtain ⟨ops, hops, hop⟩ := h.pending hc ch hch
    exact ⟨ops, mem_append_left _ hops, hop⟩
  · obtain ⟨ops, hops, hop⟩ := h.departs hc hin
    exact ⟨ops, mem_append_left _ hops, hop⟩

theorem Admitted.spawn (h : s.Admitted) (hop : ∀ subs, op ≠ .addClient subs) :
    (s.spawn op).Admitted := by
  refine ⟨h.inHub, fun ops hops subs hadd => ?_⟩
  rcases mem_append.mp hops with hold | hnew
  · exact h.adding ops hold subs hadd
  · obtain rfl := mem_singleton.mp hnew
    exact absurd (mem_singleton.mp hadd).symm (hop subs)

theorem next_spawn (h : s.Inv c ∧ s.Admitted) (hop : ∀ subs, op ≠ .addClient subs)
    (hnext : s.command op = some s') : s'.Inv c ∧ s'.Admitted := by
  unfold command at hnext
  split_ifs at hnext
  cases hnext
  exact ⟨h.1.spawn op, h.2.spawn hop⟩

variable {act : Act}

theorem inv_next (h : s.Inv c ∧ s.Admitted) (htimely : s.Timely c act)
    (hnext : s.next config c act = some s') : s'.Inv c ∧ s'.Admitted := by
  cases act with
  | connect subs | subscribe channel reply | unsubscribe channel =>
    exact next_spawn h (by rintro _ ⟨⟩) hnext
  | close =>
    cases hnext
    exact ⟨h.1.spawn _, h.2.spawn fun _ => nofun⟩
  | step t calls ok i =>
    rw [next] at hnext
    split at hnext
    · rename_i op ops ht
      obtain ⟨⟨ops', s''⟩, hexec, rfl⟩ := map_eq_some_iff.mp hnext
      exact ⟨h.1.exec h.2 ht htimely hexec, h.2.exec ht hexec⟩
    · cases hnext

/-- A closed client whose threads have ended is nowhere in the hub, if all its steps were timely. -/
theorem absent_of_run (config : Config) (c : Uid) {subs : Subs} (hsets : subs.Sets)
    {acts : List Act} {t : Connection}
    (htimely : Meets (next config c) (Timely c) (start subs) acts)
    (hrun : run (next config c) (start subs) acts = some t)
    (hclosed : t.session.closed) (hended : ∀ ops ∈ t.threads, ops = []) :
    t.inHub = false ∧ ∀ ch, c ∉ t.session.subs.of ch := by
  have hstart : (start subs).Inv c ∧ (start subs).Admitted :=
    ⟨Inv.open hsets rfl, nofun, fun ops hops => nomatch hops⟩
  have hinv := Transitions.run_invariant
    (fun s act s' h htimely hnext => inv_next h htimely hnext) hstart htimely hrun
  constructor
  · by_contra hin
    obtain ⟨ops, hops, op, hop, -⟩ := hinv.1.departs hclosed (by simpa using hin)
    rw [hended ops hops] at hop
    cases hop
  · intro ch hch
    obtain ⟨ops, hops, op, hop, -⟩ := hinv.1.pending hclosed ch hch
    rw [hended ops hops] at hop
    cases hop

/-- The step neither begins to close the client nor adds to the hub once it is closed. -/
def quiet (s : Connection) : Act → Bool
  | .step t _ _ i =>
    match s.threads[t]? with
    | some (.close :: _) => false
    | some (op :: _) => !(op.adds i && s.session.closed)
    | _ => true
  | _ => true

theorem timely_of_quiet (h : s.quiet act) : s.Timely c act := by
  cases act with
  | step t calls ok i =>
    intro op ops ht
    rw [quiet, ht] at h
    cases op with
    | close => cases h
    | _ => exact ⟨fun hadds => by simpa [hadds] using h, fun hclose => nomatch hclose⟩
  | _ => trivial

/-- A client that connects and subscribes. -/
def subscribeActs : List Act :=
  .connect [] :: replicate 6 (.step 0 { order := [] } true 0) ++
    [.subscribe "news" (some {}), .step 1 { order := [] } true 0,
      .step 1 { order := ["news"] } true 0, .step 1 { order := [] } true 0,
      .step 1 { order := [] } true 0]

def subscribedState : Connection where
  session.channels := AList.insert "news" ⟨flagSubscribed, 0⟩
    (AList.insert "news" {} ∅)
  session.subs := (Subs.addSub (fun _ => none) "news" 1).2
  authenticated := true
  inHub := true
  threads := [[], []]

def closeActs : List Act :=
  .close :: .step 2 { order := ["news"] } true 0 :: replicate 5 (.step 2 { order := [] } true 0)

theorem run_subscribeActs :
    run (next ⟨0, 0⟩ 1) (start fun _ => none) subscribeActs = some subscribedState := by
  rfl

theorem timely_closeActs : Meets (next ⟨0, 0⟩ 1) (Timely 1) subscribedState closeActs := by
  refine ⟨trivial, fun s hs => ?_⟩
  cases hs
  refine ⟨fun op ops ht => ?_, fun s' hs' => ?_⟩
  · -- the only subscription is in the table
    cases ht
    refine ⟨nofun, fun _ _ ch hch => .inl ?_⟩
    rcases Subs.mem_addSub.mp hch with ⟨rfl, -⟩ | hnone
    · exact (AList.mem_insert _).mpr (.inl rfl)
    · cases hnone
  · have hquiet : ∀ s' ∈ next ⟨0, 0⟩ 1 (subscribedState.spawn .close)
        (.step 2 { order := ["news"] } true 0),
        Meets (next ⟨0, 0⟩ 1) (fun s act => s.quiet act) s'
          (closeActs.drop 2) := by
      decide +kernel
    exact (hquiet s' hs').mono fun _ _ => timely_of_quiet

theorem closeActs_absent : ∃ t, Meets (next ⟨0, 0⟩ 1) (Timely 1) (start fun _ => none)
        (subscribeActs ++ closeActs) ∧
      run (next ⟨0, 0⟩ 1) (start fun _ => none) (subscribeActs ++ closeActs) = some t ∧
      t.session.closed ∧ (∀ ops ∈ t.threads, ops = []) ∧
      t.inHub = false ∧ ∀ ch, 1 ∉ t.session.subs.of ch := by
  have hquiet : Meets (next ⟨0, 0⟩ 1) (fun s act => s.quiet act)
      (start fun _ => none) subscribeActs := by
    decide +kernel
  have htimely := (Transitions.meets_append run_subscribeActs closeActs).mpr
    ⟨hquiet.mono fun _ _ => timely_of_quiet, timely_closeActs⟩
  have hcheck : (run (next ⟨0, 0⟩ 1) (start fun _ => none)
      (subscribeActs ++ closeActs)).any (fun t =>
        t.session.closed && t.threads.all isEmpty) := by
    decide +kernel
  obtain ⟨t, hrun, ht⟩ := (any_eq_true _ _).mp hcheck
  obtain ⟨hclosed, hall⟩ := Bool.and_eq_true_iff.mp ht
  have hended (ops : List Move) (hops : ops ∈ t.threads) : ops = [] :=
    isEmpty_iff.mp (all_eq_true.mp hall ops hops)
  have hsets : Subs.Sets fun _ => none := fun _ => nodup_nil
  exact ⟨t, htimely, hrun, hclosed, hended,
    absent_of_run ⟨0, 0⟩ 1 hsets htimely hrun hclosed hended⟩

def lateActs : List Act :=
  [.connect [("foo-3", { role := readRole })], .step 0 { order := [] } true 0,
    .step 0 { order := [] } true 0, .close, .step 1 { order := [] } true 0,
    .step 1 { order := [] } true 0, .step 0 { order := [] } true 0, .step 0 { order := [] } true 0,
    .step 0 { order := [] } true 0, .step 0 { order := [] } true 0, .step 0 { order := [] } true 0,
    .step 0 { order := [] } true 0]

/-- The client is then in the hub for ever. -/
theorem lateActs_present : ∃ t, run (next ⟨0, 0⟩ 1) (start fun _ => none) lateActs = some t ∧
      t.session.closed ∧ (∀ ops ∈ t.threads, ops = []) ∧ t.inHub ∧
      1 ∈ t.session.subs.of "foo-3" := by
  have hcheck : (run (next ⟨0, 0⟩ 1) (start fun _ => none) lateActs).any (fun t =>
      t.session.closed && t.threads.all isEmpty && t.inHub &&
        decide (1 ∈ t.session.subs.of "foo-3")) := by
    decide +kernel
  obtain ⟨t, hrun, ht⟩ := (any_eq_true _ _).mp hcheck
  simp only [Bool.and_eq_true, decide_eq_true_eq] at ht
  obtain ⟨⟨⟨hclosed, hall⟩, hin⟩, hsub⟩ := ht
  refine ⟨t, hrun, hclosed, fun ops hops => ?_, hin, hsub⟩
  exact isEmpty_iff.mp (all_eq_true.mp hall ops hops)

end Connection

end Kairos.Deliverer
