import Kairos.Deliverer.Channels
import Kairos.Deliverer.Hub
import Kairos.Library.Transitions

/-!
# Subscriptions of a client

How a client of `server/deliverer/client.go` subscribes and unsubscribes, in its own table
(`Channels`) and in the hub (`Subs`). A request puts a placeholder into the table under the name
that was sent. `subscribeCmd` works under the name of the channel, and `onSubscribeError` takes back
what stands under the name that was sent.
-/

namespace Kairos.Deliverer

open Option

structure Config where
  channelMaxLength : ℕ
  clientChannelLimit : ℕ

structure SubscribeOptions where
  expireAt : ℤ := 0
  role : Role := 0
  emitPresence : Bool := false
  emitJoinLeave : Bool := false
  pushJoinLeave : Bool := false

structure SubscribeReply where
  options : SubscribeOptions := {}
  clientSideRefresh : Bool := false

/-- What a subscription gets from outside: the time, the order of the map, and whether calls
succeed. -/
structure Calls where
  now : ℤ := 0
  order : List GoString
  broker : Bool := true
  presence : Bool := true

inductive SubscribeError where
  | expired
  | permissionDenied
  | broker
  | presence
deriving DecidableEq

namespace SubscribeReply

def Expired (reply : SubscribeReply) (now : ℤ) : Prop :=
  0 < reply.options.expireAt ∧ reply.options.expireAt - now ≤ 0

instance (reply : SubscribeReply) (now : ℤ) : Decidable (reply.Expired now) :=
  inferInstanceAs (Decidable (_ ∧ _))

/-- The `ChannelContext` that `subscribeCmd` builds. -/
def context (reply : SubscribeReply) (serverSide : Bool) (role : Role) : ChannelContext where
  flags := flagSubscribed ||| ((if serverSide then flagServerSide else 0) |||
    (if reply.clientSideRefresh then flagClientSideRefresh else 0) |||
    (if reply.options.emitPresence then flagEmitPresence else 0) |||
    (if reply.options.emitJoinLeave then flagEmitJoinLeave else 0) |||
    (if reply.options.pushJoinLeave then flagPushJoinLeave else 0))
  role := role

theorem context_subscribed (reply : SubscribeReply) (serverSide : Bool) (role : Role) :
    (reply.context serverSide role).subscribed :=
  channelHasFlag_or _

end SubscribeReply

/-- The channels of a client with its part of the hub. -/
structure Session where
  channels : Channels
  subs : Subs
  closed : Bool := false

def byteLength (s : GoString) : ℕ := (s.map Char.utf8Size).sum

namespace Session

/-- `Client.validateSubscribeRequest`, which puts the placeholder into the table. -/
def validateSubscribeRequest (s : Session) (config : Config) (channel : GoString) :
    Option Session :=
  if channel = [] then none
  else if 0 < config.channelMaxLength ∧ config.channelMaxLength < byteLength channel then none
  else if (s.channels.lookup channel).isSome then none
  else if 0 < config.clientChannelLimit ∧
    config.clientChannelLimit ≤ s.channels.keys.length then none
  else some { s with channels := s.channels.insert channel {} }

def onSubscribeError (s : Session) (c : Uid) (channel : GoString) : Session :=
  if (s.channels.lookup channel).isSome then
    { s with channels := s.channels.erase channel, subs := (s.subs.removeSub channel c).2 }
  else { s with channels := s.channels.erase channel }

/-- `Client.subscribeCmd` from the choice of the channel on. Server-side, the caller fills the
table. -/
def subscribeTo (s : Session) (c : Uid) (calls : Calls) (reply : SubscribeReply) (serverSide : Bool)
    (channel : GoString) (role : Role) : Except SubscribeError ChannelContext × Session :=
  let r := s.subs.addSubscription channel c calls.broker
  if !r.1 then (.error .broker, { s with subs := r.2 })
  else if reply.options.emitPresence && !calls.presence then
    (.error .presence, { s with subs := r.2 })
  else
    let ctx := reply.context serverSide role
    (.ok ctx,
      { s with
        subs := r.2
        channels := if serverSide then s.channels else s.channels.insert channel ctx })

def subscribeCmd (s : Session) (c : Uid) (calls : Calls) (channel : GoString)
    (reply : SubscribeReply)
    (serverSide : Bool) : Res (Except SubscribeError ChannelContext × Session) :=
  if reply.Expired calls.now then .ok (.error .expired, s)
  else do
    match ← s.channels.target calls.order channel reply.options.role with
    | none => pure (.error .permissionDenied, s)
    | some (ch, role) => pure (s.subscribeTo c calls reply serverSide ch role)

/-- What `handleSubscribe` does with the result of `subscribeCmd`. -/
def conclude (c : Uid) (channel : GoString) :
    Except SubscribeError ChannelContext × Session → Session
  | (.ok _, s) => s
  | (.error _, s) => s.onSubscribeError c channel

/-- The callback of `Client.handleSubscribe`, called with a reply or an error. -/
def subscribeCallback (s : Session) (c : Uid) (channel : GoString) (reply : Option SubscribeReply)
    (calls : Calls) : Res Session :=
  match reply with
  | none => .ok (s.onSubscribeError c channel)
  | some reply => do
    let r ← s.subscribeCmd c calls channel reply false
    pure (conclude c channel r)

def handleSubscribe (s : Session) (config : Config) (c : Uid) (channel : GoString)
    (reply : Option SubscribeReply) (calls : Calls) : Res Session :=
  match s.validateSubscribeRequest config channel with
  | none => .ok s
  | some s => s.subscribeCallback c channel reply calls

def unsubscribe (s : Session) (c : Uid) (channel : GoString) : Session :=
  if (s.channels.lookup channel).isSome then
    { s with channels := s.channels.erase channel, subs := (s.subs.removeSub channel c).2 }
  else s

def close (s : Session) (c : Uid) (order : List GoString) : Session :=
  order.foldl (fun s channel => s.unsubscribe c channel) { s with closed := true }

inductive Act where
  | subscribe (channel : GoString) (reply : Option SubscribeReply) (calls : Calls)
  | unsubscribe (channel : GoString)
  | close (order : List GoString)

/-- The session after an act, if the order is one of the map and nothing panics. A closed client
does nothing. -/
def next (config : Config) (c : Uid) (s : Session) (act : Act) : Option Session :=
  if s.closed then some s
  else
    match act with
    | .subscribe channel reply calls =>
      if calls.order.isPerm (s.channels.insert channel {}).keys then
        (s.handleSubscribe config c channel reply calls).toOption
      else none
    | .unsubscribe channel => some (s.unsubscribe c channel)
    | .close order => if order.isPerm s.channels.keys then some (s.close c order) else none

/-! ## Table and hub -/

/-- The client subscribes to exactly what its table has as complete, and no placeholder is left. -/
structure Agrees (c : Uid) (s : Session) : Prop where
  sets : s.subs.Sets
  listed : ∀ ch, c ∈ s.subs.of ch ↔ ∃ ctx, s.channels.lookup ch = some ctx ∧ ctx.subscribed
  complete : ∀ ch ctx, s.channels.lookup ch = some ctx → ctx.subscribed

variable {c : Uid} {s t : Session} {channel : GoString} {config : Config}

theorem Agrees.mem_iff (h : s.Agrees c) (ch : GoString) : c ∈ s.subs.of ch ↔ ch ∈ s.channels := by
  rw [h.listed]
  constructor
  · rintro ⟨ctx, hctx, -⟩
    exact Channels.mem_of_lookup hctx
  · intro hmem
    obtain ⟨ctx, hctx⟩ := Channels.exists_of_mem hmem
    exact ⟨ctx, hctx, h.complete ch ctx hctx⟩

theorem agrees_of_mem_iff (hsets : s.subs.Sets) (hmem : ∀ ch, c ∈ s.subs.of ch ↔ ch ∈ s.channels)
    (hcomplete : ∀ ch ctx, s.channels.lookup ch = some ctx → ctx.subscribed) : s.Agrees c := by
  refine ⟨hsets, fun ch => ?_, hcomplete⟩
  rw [hmem]
  constructor
  · intro hch
    obtain ⟨ctx, hctx⟩ := Channels.exists_of_mem hch
    exact ⟨ctx, hctx, hcomplete ch ctx hctx⟩
  · rintro ⟨ctx, hctx, -⟩
    exact Channels.mem_of_lookup hctx

theorem Agrees.drop (h : s.Agrees c) (channel : GoString) : Agrees c { s with
      channels := s.channels.erase channel
      subs := (s.subs.removeSub channel c).2 } := by
  refine agrees_of_mem_iff (h.sets.removeSub channel c) (fun ch => ?_) (fun ch ctx hctx => ?_)
  · rw [h.sets.mem_removeSub, h.mem_iff, AList.mem_erase]
    simp [and_comm]
  · have hne : ch ≠ channel := by
      rintro rfl
      rw [AList.lookup_erase] at hctx
      cases hctx
    rw [AList.lookup_erase_ne hne] at hctx
    exact h.complete ch ctx hctx

theorem Agrees.unsubscribe (h : s.Agrees c) (channel : GoString) :
    (s.unsubscribe c channel).Agrees c := by
  unfold Session.unsubscribe
  split_ifs
  · exact h.drop channel
  · exact h

theorem Agrees.notMem_unsubscribe (h : s.Agrees c) (channel : GoString) :
    c ∉ (s.unsubscribe c channel).subs.of channel := by
  rw [(h.unsubscribe channel).mem_iff]
  unfold Session.unsubscribe
  split_ifs with hmem
  · exact fun hin => (AList.mem_erase.mp hin).1 rfl
  · exact fun hin => hmem (AList.lookup_isSome.mpr hin)

theorem close_invariant {I : Session → Prop} (hstart : I { s with closed := true })
    (keep : ∀ s channel, I s → I (s.unsubscribe c channel)) (order : List GoString) :
    I (s.close c order) := by
  unfold Session.close
  generalize ({ s with closed := true } : Session) = t at hstart
  induction order generalizing t with
  | nil => exact hstart
  | cons channel order ih => exact ih _ (keep t channel hstart)

theorem Agrees.close (h : s.Agrees c) (order : List GoString) : (s.close c order).Agrees c :=
  close_invariant ⟨h.sets, h.listed, h.complete⟩ (fun _ channel h => h.unsubscribe channel) order

/-! ## A request to subscribe -/

theorem validateSubscribeRequest_eq_some (h : s.validateSubscribeRequest config channel = some t) :
    t = { s with channels := s.channels.insert channel {} } := by
  unfold validateSubscribeRequest at h
  split_ifs at h
  exact (some.inj h).symm

/-- A request for `channel` leads to `t`: table and hub agree, and only this channel has changed. -/
structure Follows (c : Uid) (channel : GoString) (s t : Session) : Prop where
  agrees : t.Agrees c
  other : ∀ ch ≠ channel, c ∈ t.subs.of ch ↔ c ∈ s.subs.of ch

theorem Agrees.onSubscribeError (h : s.Agrees c) {subs : Subs} (hsets : subs.Sets)
    (hsubs : ∀ ch ≠ channel, c ∈ subs.of ch ↔ c ∈ s.subs.of ch) :
    Follows c channel s (Session.onSubscribeError
      { s with channels := s.channels.insert channel {}, subs := subs } c channel) := by
  unfold Session.onSubscribeError
  rw [if_pos (by rw [AList.lookup_insert]; rfl)]
  have hother (ch : GoString) (hch : ch ≠ channel) :
      c ∈ (subs.removeSub channel c).2.of ch ↔ c ∈ s.subs.of ch := by
    rw [hsets.mem_removeSub, hsubs ch hch]
    simp [hch]
  refine ⟨agrees_of_mem_iff (hsets.removeSub channel c) (fun ch => ?_) (fun ch ctx hctx => ?_),
    hother⟩
  · rw [AList.mem_erase, AList.mem_insert]
    by_cases hch : ch = channel
    · simp [hch, hsets.mem_removeSub]
    · simp [hch, hother ch hch, h.mem_iff]
  · by_cases hch : ch = channel
    · rw [hch, AList.lookup_erase] at hctx
      cases hctx
    · rw [AList.lookup_erase_ne hch, AList.lookup_insert_ne hch] at hctx
      exact h.complete ch ctx hctx

theorem subscribeTo_cases (s : Session) (c : Uid) (calls : Calls) (reply : SubscribeReply)
    (serverSide : Bool) (channel : GoString) (role : Role) :
    (∃ e, s.subscribeTo c calls reply serverSide channel role =
      (.error e, { s with subs := (s.subs.addSubscription channel c calls.broker).2 })) ∨
    (s.subs.addSubscription channel c calls.broker).1 ∧
      s.subscribeTo c calls reply serverSide channel role =
        (.ok (reply.context serverSide role),
          { s with
            subs := (s.subs.addSubscription channel c calls.broker).2
            channels := if serverSide then s.channels
              else s.channels.insert channel (reply.context serverSide role) }) := by
  unfold subscribeTo
  dsimp only
  by_cases hbroker : (s.subs.addSubscription channel c calls.broker).1
  swap
  · exact .inl ⟨.broker, if_pos (by simpa using hbroker)⟩
  rw [if_neg (by simpa using hbroker)]
  by_cases hpresence : (reply.options.emitPresence && !calls.presence)
  · exact .inl ⟨.presence, if_pos hpresence⟩
  · exact .inr ⟨hbroker, if_neg hpresence⟩

theorem subscribeTo_serverSide (s : Session) (c : Uid) (calls : Calls) (reply : SubscribeReply)
    (channel : GoString) (role : Role) : (s.subscribeTo c calls reply true channel role).2 =
      { s with subs := (s.subs.addSubscription channel c calls.broker).2 } := by
  rcases subscribeTo_cases s c calls reply true channel role with ⟨e, heq⟩ | ⟨-, heq⟩
  · rw [heq]
  · rw [heq]
    rfl

theorem Agrees.subscribeTo (h : s.Agrees c) (calls : Calls) (reply : SubscribeReply) (role : Role) :
    Follows c channel s (conclude c channel (Session.subscribeTo
      { s with channels := s.channels.insert channel {} } c calls reply false channel role)) := by
  have hsets := h.sets.addSubscription channel c calls.broker
  have hmem (ch : GoString) := h.sets.mem_addSubscription channel ch c c calls.broker
  have hother (ch : GoString) (hch : ch ≠ channel) :
      c ∈ (s.subs.addSubscription channel c calls.broker).2.of ch ↔ c ∈ s.subs.of ch := by
    rw [hmem]
    simp [hch]
  rcases subscribeTo_cases { s with channels := s.channels.insert channel {} } c calls reply false
    channel role with ⟨e, heq⟩ | ⟨hok, heq⟩
  · rw [heq]
    exact h.onSubscribeError hsets hother
  -- every call succeeds: the placeholder becomes the entry of the subscription
  rw [heq]
  simp only [conclude, Bool.false_eq_true, if_false]
  refine ⟨agrees_of_mem_iff hsets (fun ch => ?_) (fun ch ctx hctx => ?_), hother⟩
  · rw [hmem, h.mem_iff]
    simp [hok, AList.mem_insert]
  · by_cases hch : ch = channel
    · subst hch
      rw [AList.lookup_insert] at hctx
      rw [← some.inj hctx]
      exact reply.context_subscribed false role
    · rw [AList.lookup_insert_ne hch, AList.lookup_insert_ne hch] at hctx
      exact h.complete ch ctx hctx

/-- The request is for no sub-channel, or for one without a parent, or the handler stops it. -/
def KeepsName (s : Session) : Act → Prop
  | .subscribe channel reply calls =>
    ':' ∈ channel → (∀ r ∈ reply, r.Expired calls.now) ∨
      ∀ k ∈ s.channels.keys, (Strings.split '-' k)[0]? ≠ (Strings.split ':' channel)[0]?
  | .unsubscribe _ => True
  | .close _ => True

instance (s : Session) (act : Act) : Decidable (s.KeepsName act) :=
  match act with
  | .subscribe channel reply calls =>
    inferInstanceAs (Decidable (':' ∈ channel → (∀ r ∈ reply, r.Expired calls.now) ∨
      ∀ k ∈ s.channels.keys, (Strings.split '-' k)[0]? ≠ (Strings.split ':' channel)[0]?))
  | .unsubscribe _ | .close _ => .isTrue trivial

theorem target_of_keepsName {channels : Channels} {order : List GoString}
    (horder : order.Perm (channels.insert channel {}).keys) (hnone : ':' ∈ channel →
      ∀ k ∈ channels.keys, (Strings.split '-' k)[0]? ≠ (Strings.split ':' channel)[0]?)
    (role : Role) : Channels.target (channels.insert channel {}) order channel role = .ok none ∨
      Channels.target (channels.insert channel {}) order channel role =
        .ok (some (channel, role)) := by
  unfold Channels.target
  by_cases hcolon : ':' ∈ channel
  swap
  · exact .inr (if_neg (by simpa using hcolon))
  left
  rw [if_pos (by simpa using hcolon)]
  obtain ⟨name, more, hsplit⟩ := List.exists_cons_of_ne_nil (Strings.split_ne_nil ':' channel)
  have hfirst := first_ne_of_colon hcolon
  have hkeys := hnone hcolon
  rw [hsplit] at hfirst hkeys ⊢
  apply parent_of_forall_ne
  intro k hk
  -- the key is that of the placeholder, or one that was there before
  have hmem := AList.mem_keys.mpr (horder.mem_iff.mp hk)
  rcases (AList.mem_insert _).mp hmem with rfl | hold
  · exact hfirst
  · exact hkeys k (AList.mem_keys.mp hold)

variable {reply : Option SubscribeReply} {calls : Calls}

theorem Agrees.subscribeCallback (h : s.Agrees c)
    (horder : calls.order.Perm (s.channels.insert channel {}).keys)
    (hname : s.KeepsName (.subscribe channel reply calls))
    (ht : Session.subscribeCallback { s with channels := s.channels.insert channel {} } c channel
      reply calls = .ok t) : Follows c channel s t := by
  -- what is taken back leaves nothing behind
  have hback : Follows c channel s (Session.onSubscribeError
      { s with channels := s.channels.insert channel {} } c channel) :=
    h.onSubscribeError h.sets fun _ _ => Iff.rfl
  cases reply with
  | none => exact Res.ok.inj ht ▸ hback
  | some reply =>
    rw [Session.subscribeCallback, Res.bind_eq_ok] at ht
    obtain ⟨r, hr, ht⟩ := ht
    rw [← Res.ok.inj ht]
    unfold Session.subscribeCmd at hr
    by_cases hexp : reply.Expired calls.now
    · rw [if_pos hexp] at hr
      rw [← Res.ok.inj hr]
      exact hback
    rw [if_neg hexp] at hr
    have hnone (hcolon : ':' ∈ channel) := (hname hcolon).resolve_left fun hall => hexp (hall _ rfl)
    rcases target_of_keepsName horder hnone reply.options.role with htarget | htarget
    · rw [htarget] at hr
      rw [← Res.ok.inj hr]
      exact hback
    · rw [htarget] at hr
      rw [← Res.ok.inj hr]
      exact h.subscribeTo calls reply reply.options.role

theorem Agrees.handleSubscribe (h : s.Agrees c)
    (horder : calls.order.Perm (s.channels.insert channel {}).keys)
    (hname : s.KeepsName (.subscribe channel reply calls))
    (ht : s.handleSubscribe config c channel reply calls = .ok t) : Follows c channel s t := by
  unfold Session.handleSubscribe at ht
  cases hvalid : s.validateSubscribeRequest config channel with
  | none =>
    rw [hvalid] at ht
    exact Res.ok.inj ht ▸ ⟨h, fun _ _ => Iff.rfl⟩
  | some s' =>
    rw [hvalid] at ht
    obtain rfl := validateSubscribeRequest_eq_some hvalid
    exact h.subscribeCallback horder hname ht

theorem Agrees.next_subscribe (h : s.Agrees c)
    (hname : s.KeepsName (.subscribe channel reply calls))
    (ht : s.next config c (.subscribe channel reply calls) = some t) : Follows c channel s t := by
  unfold Session.next at ht
  split_ifs at ht with hclosed
  · exact some.inj ht ▸ ⟨h, fun _ _ => Iff.rfl⟩
  dsimp only at ht
  split_ifs at ht with horder
  exact h.handleSubscribe (List.isPerm_iff.mp horder) hname (Res.toOption_eq_some.mp ht)

theorem Agrees.next {act : Act} (h : s.Agrees c) (hname : s.KeepsName act)
    (ht : s.next config c act = some t) : t.Agrees c := by
  cases act with
  | subscribe channel reply calls => exact (h.next_subscribe hname ht).agrees
  | unsubscribe channel =>
    unfold Session.next at ht
    split_ifs at ht
    · exact some.inj ht ▸ h
    · exact some.inj ht ▸ h.unsubscribe channel
  | close order =>
    unfold Session.next at ht
    split_ifs at ht
    · exact some.inj ht ▸ h
    dsimp only at ht
    split_ifs at ht
    exact some.inj ht ▸ h.close order

/-- Where every request has kept its name, table and hub agree, and unsubscribing with the name that
was sent ends the subscription. -/
theorem agrees_of_run (config : Config) (c : Uid) {s t : Session} {acts : List Act}
    (hs : s.Agrees c) (hname : Transitions.Meets (next config c) KeepsName s acts)
    (hrun : Transitions.run (next config c) s acts = some t) : t.Agrees c ∧
      ∀ before channel reply calls after, acts = before ++ .subscribe channel reply calls :: after →
        ∀ t₁ t₂, Transitions.run (next config c) s before = some t₁ →
          t₁.next config c (.subscribe channel reply calls) = some t₂ →
          ∀ ch, c ∈ t₂.subs.of ch → c ∉ t₁.subs.of ch →
            c ∉ (t.unsubscribe c channel).subs.of ch := by
  have hkeep (s : Session) (act : Act) (t : Session) (h : s.Agrees c) (hname : s.KeepsName act)
      (ht : s.next config c act = some t) : t.Agrees c := h.next hname ht
  have hagrees := Transitions.run_invariant hkeep hs hname hrun
  refine ⟨hagrees, ?_⟩
  rintro before channel reply calls after rfl t₁ t₂ hbefore hnext ch hin hout
  obtain ⟨hname₁, hname₂⟩ := (Transitions.meets_append hbefore _).mp hname
  have ht₁ := Transitions.run_invariant hkeep hs hname₁ hbefore
  -- the request has added the channel that it names
  have hch : ch = channel := by
    by_contra hne
    exact hout (((ht₁.next_subscribe hname₂.1 hnext).other ch hne).mp hin)
  rw [hch]
  exact hagrees.notMem_unsubscribe channel

def connected : Session where
  channels := Channels.granted
  subs ch := if ch == "foo-3" then some [1] else none

theorem connected_agrees : connected.Agrees 1 := by
  have hof (ch : GoString) : connected.subs.of ch = if ch == "foo-3".toList then [1] else [] := by
    unfold Subs.of connected
    dsimp only
    split_ifs <;> rfl
  refine agrees_of_mem_iff (fun ch => ?_) (fun ch => ?_) (fun ch ctx hctx => ?_)
  · rw [hof]
    split_ifs <;> decide
  · rw [hof, AList.mem_keys]
    show _ ↔ ch ∈ ["foo-3".toList]
    split_ifs with hch
    · simpa using hch
    · simpa using hch
  · have hmem : ch ∈ ["foo-3".toList] := AList.mem_keys.mp (Channels.mem_of_lookup hctx)
    obtain rfl := List.mem_singleton.mp hmem
    rw [← some.inj hctx]
    rfl

def plainActs : List Act :=
  [.subscribe "news" (some {}) { order := ["news", "foo-3"] },
    .subscribe "bar:x" (some {})
      { order := ["bar:x", "news", "foo-3"] },
    .unsubscribe "news"]

theorem plainActs_agrees : ∃ t, Transitions.Meets (next ⟨0, 0⟩ 1) KeepsName connected plainActs ∧
      Transitions.run (next ⟨0, 0⟩ 1) connected plainActs = some t ∧ t.Agrees 1 := by
  have hname : Transitions.Meets (next ⟨0, 0⟩ 1) KeepsName connected plainActs := by decide +kernel
  have hcheck : (Transitions.run (next ⟨0, 0⟩ 1) connected plainActs).isSome := by
    decide +kernel
  obtain ⟨t, hrun⟩ := isSome_iff_exists.mp hcheck
  exact ⟨t, hname, hrun, (agrees_of_run ⟨0, 0⟩ 1 connected_agrees hname hrun).1⟩

def renamedActs : List Act :=
  [.subscribe "foo:x" (some {}) { order := ["foo:x", "foo-3"] }]

/-- The client subscribes to `foo-3:x`, keeps the placeholder `foo:x`, and cannot unsubscribe from
`foo:x`. -/
theorem renamedActs_disagrees :
    ∃ t, connected.Agrees 1 ∧ Transitions.run (next ⟨0, 0⟩ 1) connected renamedActs = some t ∧
      ¬ t.Agrees 1 ∧ t.channels.lookup "foo:x".toList = some {} ∧
      1 ∉ connected.subs.of "foo-3:x".toList ∧ 1 ∈ t.subs.of "foo-3:x".toList ∧
      1 ∈ (t.unsubscribe 1 "foo:x".toList).subs.of "foo-3:x".toList := by
  have hcheck : (Transitions.run (next ⟨0, 0⟩ 1) connected renamedActs).any (fun t =>
      decide (t.channels.lookup "foo:x".toList = some {} ∧
        1 ∉ connected.subs.of "foo-3:x".toList ∧ 1 ∈ t.subs.of "foo-3:x".toList ∧
        1 ∈ (t.unsubscribe 1 "foo:x".toList).subs.of "foo-3:x".toList)) := by
    decide +kernel
  obtain ⟨t, hrun, ht⟩ := (any_eq_true _ _).mp hcheck
  have hfacts := of_decide_eq_true ht
  have hagrees : ¬ t.Agrees 1 := by
    intro h
    exact absurd (h.complete _ _ hfacts.1) (by decide)
  exact ⟨t, connected_agrees, hrun, hagrees, hfacts⟩

end Session

end Kairos.Deliverer
