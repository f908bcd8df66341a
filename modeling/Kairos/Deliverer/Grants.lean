import Kairos.Deliverer.Client

/-!
# Who receives a publication

The clients of a delivery server together. A client connects with the channels that
`DelivererServer.createNode` (`server/deliverer/server.go`) grants, each with a role.
`broadcastPublication` goes to subscribers with a role to read, and to all if the channel begins
with `kairosdeamon`.
-/

namespace Kairos.Deliverer

open List
open Transitions (Meets run)
open Strings (hasPrefix itoa)

structure Permit where
  channelName : GoString
  channelID : ℤ
  role : Role

/-- The users that `OnConnecting` tells apart. -/
inductive Account where
  | kairosUser (userID : GoString)
  | clientUser (clientID : GoString)
  | channelUser (permits : List Permit)

/-- The channels that `OnConnecting` subscribes the user to. -/
def Account.channels : Account → List (GoString × Role)
  | .kairosUser userID => [("kairosuser-" ++ userID, readWriteRole)]
  | .clientUser clientID => [("kairosdeamon-" ++ clientID, readWriteRole)]
  | .channelUser permits =>
    permits.map fun cp => (cp.channelName ++ '-' :: itoa cp.channelID, cp.role)

def Readable (role : Role) : Prop := role = readRole ∨ role = readWriteRole

instance (role : Role) : Decidable (Readable role) := inferInstanceAs (Decidable (_ ∨ _))

theorem not_readable_zero : ¬ Readable 0 := by decide

def isDaemon (channel : GoString) : Bool := hasPrefix channel "kairosdeamon"

/-- The channel, or a parent of it, was granted to read. -/
def Granted (grants : List (GoString × Role)) (channel : GoString) : Prop :=
  ∃ g ∈ grants, Readable g.2 ∧ (channel = g.1 ∨ g.1 ++ [':'] <+: channel)

instance (grants : List (GoString × Role)) (channel : GoString) :
    Decidable (Granted grants channel) :=
  inferInstanceAs (Decidable (∃ g ∈ grants, _))

namespace Session

/-- The goroutines of `connectCmd`. The table is written when all have ended, so their order does
not matter. -/
def subscribeAll (s : Session) (c : Uid) (calls : GoString → Calls) :
    List (GoString × SubscribeOptions) →
      Res (List (GoString × Except SubscribeError ChannelContext) × Session)
  | [] => .ok ([], s)
  | (channel, options) :: subscriptions => do
    let (ctx, s) ← s.subscribeCmd c (calls channel) channel { options } true
    let (ctxs, s) ← s.subscribeAll c calls subscriptions
    pure ((channel, ctx) :: ctxs, s)

def completeAll (channels : Channels) :
    List (GoString × Except SubscribeError ChannelContext) → Option Channels
  | [] => some channels
  | (_, .error _) :: _ => none
  | (channel, .ok ctx) :: ctxs => completeAll (channels.insert channel ctx) ctxs

/-- The end of `Client.connectCmd`. After an error the client gives no more commands. -/
def connectCmd (s : Session) (config : Config) (c : Uid) (calls : GoString → Calls)
    (subscriptions : List (GoString × SubscribeOptions)) : Res Session :=
  if 0 < config.clientChannelLimit ∧ config.clientChannelLimit < subscriptions.length then
    .ok { s with closed := true }
  else do
    let (ctxs, s) ← s.subscribeAll c calls subscriptions
    match completeAll s.channels ctxs with
    | some channels => pure { s with channels := channels }
    | none =>
      pure { ctxs.foldl (fun s ctx => s.onSubscribeError c ctx.1) s with closed := true }

end Session

/-- The subscriptions of the reply of `OnConnecting`: the last role of a name counts. -/
def subscriptions (grants : List (GoString × Role)) : AList fun _ : GoString => SubscribeOptions :=
  grants.foldl (fun subs g => subs.insert g.1 { role := g.2 }) ∅

structure Client where
  grants : List (GoString × Role)
  channels : Channels
  closed : Bool

/-- The connected clients with what each was granted, and the hub. -/
structure Clients where
  client : Uid → Option Client
  subs : Subs

inductive Command where
  | connect (c : Uid) (account : Account) (calls : GoString → Calls)
  | subscribe (c : Uid) (channel : GoString) (calls : Calls)
  | unsubscribe (c : Uid) (channel : GoString)
  | close (c : Uid) (order : List GoString)

namespace Clients

def start : Clients := ⟨fun _ => none, fun _ => none⟩

def session (s : Clients) (cl : Client) : Session := ⟨cl.channels, s.subs, cl.closed⟩

def put (c : Uid) (grants : List (GoString × Role)) (s : Clients) (t : Session) : Clients where
  client := Function.update s.client c (some ⟨grants, t.channels, t.closed⟩)
  subs := t.subs

def act (config : Config) (s : Clients) (c : Uid) (a : Session.Act) : Option Clients := do
  let cl ← s.client c
  let t ← (s.session cl).next config c a
  pure (s.put c cl.grants t)

/-- A client connects, with an empty table. An account without a channel is refused. -/
def connect (config : Config) (s : Clients) (c : Uid) (account : Account)
    (calls : GoString → Calls) :
    Option Clients :=
  if (s.client c).isSome || account.channels.isEmpty ||
      account.channels.any (fun g => !(calls g.1).order.isEmpty) then none
  else
    let subs := (subscriptions account.channels).entries.map fun e => (e.1, e.2)
    ((Session.connectCmd ⟨∅, s.subs, false⟩ config c calls subs).toOption).map
      (s.put c account.channels)

def next (config : Config) (s : Clients) : Command → Option Clients
  | .connect c account calls => s.connect config c account calls
  | .subscribe c channel calls => s.act config c (.subscribe channel (some {}) calls)
  | .unsubscribe c channel => s.act config c (.unsubscribe channel)
  | .close c order => s.act config c (.close order)

/-- The check of `broadcastPublication` before it writes to the client. -/
def receives (s : Clients) (channel : GoString) (c : Uid) : Bool :=
  match (s.client c).bind fun cl => cl.channels.lookup channel with
  | none => false
  | some ctx => (decide (Readable ctx.role) || isDaemon channel) && ctx.subscribed

def recipients (s : Clients) (channel : GoString) : List Uid :=
  (s.subs.of channel).filter (s.receives channel)

end Clients

/-! ## What a table holds -/

/-- What the client can read of its channels was granted. -/
def Covered (grants : List (GoString × Role)) (channels : Channels) : Prop :=
  ∀ k ctx, channels.lookup k = some ctx →
    Readable ctx.role ∨ ctx.subscribed ∧ isDaemon k → Granted grants k

section

variable {grants : List (GoString × Role)} {channels : Channels} {channel : GoString} {c : Uid}
  {s t : Session}

theorem Covered.insert (h : Covered grants channels) {ctx : ChannelContext}
    (hctx : Readable ctx.role ∨ ctx.subscribed ∧ isDaemon channel →
      Granted grants channel) : Covered grants (channels.insert channel ctx) := by
  intro k ctx' hk
  by_cases hch : k = channel
  · subst hch
    rw [AList.lookup_insert] at hk
    exact Option.some.inj hk ▸ hctx
  · rw [AList.lookup_insert_ne hch] at hk
    exact h k ctx' hk

theorem Covered.placeholder (h : Covered grants channels) (channel : GoString) :
    Covered grants (channels.insert channel {}) := by
  apply h.insert
  rintro (hrole | ⟨hsub, -⟩)
  · exact absurd hrole not_readable_zero
  · exact absurd hsub (by decide)

theorem Covered.erase (h : Covered grants channels) (channel : GoString) :
    Covered grants (channels.erase channel) := by
  intro k ctx hk
  by_cases hch : k = channel
  · rw [hch, AList.lookup_erase] at hk
    cases hk
  · rw [AList.lookup_erase_ne hch] at hk
    exact h k ctx hk

theorem Covered.onSubscribeError (h : Covered grants s.channels) (c : Uid) (channel : GoString) :
    Covered grants (s.onSubscribeError c channel).channels := by
  unfold Session.onSubscribeError
  split_ifs
  · exact h.erase channel
  · exact h.erase channel

theorem Covered.unsubscribe (h : Covered grants s.channels) (c : Uid) (channel : GoString) :
    Covered grants (s.unsubscribe c channel).channels := by
  unfold Session.unsubscribe
  split_ifs
  · exact h.erase channel
  · exact h

theorem Covered.close (h : Covered grants s.channels) (c : Uid) (order : List GoString) :
    Covered grants (s.close c order).channels :=
  Session.close_invariant (I := fun s => Covered grants s.channels) h
    (fun _ channel h => h.unsubscribe c channel) order

variable {ch : GoString} {role : Role}

theorem Covered.subscribeTo (h : Covered grants s.channels)
    (hch : Readable role ∨ isDaemon ch → Granted grants ch) (c : Uid) (calls : Calls)
    (reply : SubscribeReply) : Covered grants (Session.conclude c channel
      (s.subscribeTo c calls reply false ch role)).channels := by
  rcases Session.subscribeTo_cases s c calls reply false ch role with ⟨e, heq⟩ | ⟨-, heq⟩
  · rw [heq]
    refine Covered.onSubscribeError ?_ c channel
    exact h
  · rw [heq]
    exact h.insert fun hctx => hch (hctx.imp id And.right)

theorem Granted.sub (h : Granted grants channel) (sub : GoString) :
    Granted grants (channel ++ ':' :: sub) := by
  obtain ⟨g, hg, hrole, heq | hpre⟩ := h
  · exact ⟨g, hg, hrole, .inr ⟨sub, by simp [heq]⟩⟩
  · exact ⟨g, hg, hrole, .inr (hpre.trans (prefix_append _ _))⟩

/-- No daemon's channel is asked for unless granted, and the keys that a request for a sub-channel
may find are complete, without a dash in the name, or give no right to read. -/
def Fair (grants : List (GoString × Role)) (channels : Channels) (channel : GoString) : Prop :=
  (':' ∉ channel → isDaemon channel → Granted grants channel) ∧
  (':' ∈ channel → ∀ k ∈ channels.keys,
    (Strings.split '-' k)[0]? = (Strings.split ':' channel)[0]? →
    Readable (channels.get k).role ∨ isDaemon k →
    (Strings.split '-' k).length = 2 ∧ (channels.get k).subscribed)

instance (grants : List (GoString × Role)) (channels : Channels) (channel : GoString) :
    Decidable (Fair grants channels channel) :=
  inferInstanceAs (Decidable (_ ∧ _))

theorem Fair.parent {ks : List GoString}
    (hfair : Fair grants channels channel) (h : Covered grants channels) (hcolon : ':' ∈ channel)
    (hks : ∀ k ∈ ks, k = channel ∨ k ∈ channels)
    (hch : Channels.parent (channels.insert channel {}) (Strings.split ':' channel) ks =
      .ok (some (ch, role))) (hread : Readable role ∨ isDaemon ch) : Granted grants ch := by
  obtain ⟨k, hk, name, id, sub, hname, hfirst, hsecond, rfl, rfl⟩ := parent_eq_some hch
  -- the key is not the placeholder, so that it is an entry of before
  have hne : k ≠ channel := by
    rintro rfl
    exact first_ne_of_colon hcolon (hfirst.trans hname.symm)
  have hmem : k ∈ channels := (hks k hk).resolve_left hne
  obtain ⟨ctx, hctx⟩ := Channels.exists_of_mem hmem
  have hget : channels.get k = ctx := Channels.get_of_lookup hctx
  have hget' : Channels.get (channels.insert channel {}) k = ctx :=
    Channels.get_of_lookup ((AList.lookup_insert_ne hne).trans hctx)
  rw [hget'] at hread
  have hdaemon (hd : isDaemon (name ++ '-' :: id ++ ':' :: sub)) : isDaemon k := by
    have hname' : isDaemon name :=
      Strings.hasPrefix_of_append_cons (by decide)
        (Strings.hasPrefix_of_append_cons (s := name ++ '-' :: id) (by decide) hd)
    have hpre : name <+: k := by
      rw [Strings.split_head, Option.some.injEq] at hfirst
      exact hfirst ▸ takeWhile_prefix _
    unfold isDaemon Strings.hasPrefix at hname' ⊢
    rw [ isPrefixOf_iff_prefix] at hname' ⊢
    exact hname'.trans hpre
  have hkread := hread.imp_right hdaemon
  obtain ⟨hlen, hsub⟩ := hfair.2 hcolon k (AList.mem_keys.mp hmem) (hfirst.trans hname.symm)
    (by rwa [hget])
  have hk : k = name ++ '-' :: id := by
    obtain ⟨p, q, hsplit⟩ := length_eq_two.mp hlen
    rw [hsplit] at hfirst hsecond
    rw [← Strings.join_split '-' k, hsplit, Option.some.inj hfirst, Option.some.inj hsecond]
    simp [Strings.join]
  rw [← hk]
  refine (h k ctx hctx ?_).sub sub
  exact hkread.imp_right fun hd => ⟨hget ▸ hsub, hd⟩

theorem Fair.target {order : List GoString}
    (hfair : Fair grants channels channel) (h : Covered grants channels)
    (horder : order.Perm (channels.insert channel {}).keys)
    (hch : Channels.target (channels.insert channel {}) order channel 0 = .ok (some (ch, role)))
    (hread : Readable role ∨ isDaemon ch) : Granted grants ch := by
  unfold Channels.target at hch
  by_cases hcolon : ':' ∈ channel
  · rw [if_pos (by simpa using hcolon)] at hch
    refine hfair.parent h hcolon (fun k hk => ?_) hch hread
    exact (AList.mem_insert _).mp (AList.mem_keys.mpr (horder.mem_iff.mp hk))
  · rw [if_neg (by simpa using hcolon)] at hch
    obtain ⟨rfl, rfl⟩ := Prod.ext_iff.mp (Option.some.inj (Res.ok.inj hch))
    rcases hread with hrole | hd
    · exact absurd hrole not_readable_zero
    · exact hfair.1 hcolon hd

variable {config : Config} {calls : Calls}

theorem Covered.handleSubscribe (h : Covered grants s.channels)
    (hfair : Fair grants s.channels channel)
    (horder : calls.order.Perm (s.channels.insert channel {}).keys)
    (ht : s.handleSubscribe config c channel (some {}) calls = .ok t) :
    Covered grants t.channels := by
  unfold Session.handleSubscribe at ht
  cases hvalid : s.validateSubscribeRequest config channel with
  | none =>
    rw [hvalid] at ht
    exact Res.ok.inj ht ▸ h
  | some s' =>
    rw [hvalid] at ht
    obtain rfl := Session.validateSubscribeRequest_eq_some hvalid
    have hplace := h.placeholder channel
    have hexp : ¬ ({} : SubscribeReply).Expired calls.now := fun hexp => absurd hexp.1 (by decide)
    simp only [Session.subscribeCallback, Res.bind_eq_ok, Res.pure_eq] at ht
    obtain ⟨r, hr, ht⟩ := ht
    rw [← Res.ok.inj ht]
    rw [Session.subscribeCmd, if_neg hexp, Res.bind_eq_ok] at hr
    obtain ⟨o, ho, hr⟩ := hr
    cases o with
    | none =>
      rw [← Res.ok.inj hr]
      refine Covered.onSubscribeError ?_ c channel
      exact hplace
    | some o =>
      rw [← Res.ok.inj hr]
      refine Covered.subscribeTo ?_ (fun hread => hfair.target h horder ho hread) c calls {}
      exact hplace

/-! ## A connection -/

variable {options : SubscribeOptions}

theorem subscribeCmd_serverSide
    {r : Except SubscribeError ChannelContext} (horder : calls.order = [])
    (h : s.subscribeCmd c calls channel { options } true = .ok (r, t)) :
    t.channels = s.channels ∧ ∀ ctx, r = .ok ctx → ctx.role = options.role := by
  unfold Session.subscribeCmd at h
  split_ifs at h with hexp
  · cases h
    exact ⟨rfl, fun ctx hctx => by cases hctx⟩
  rw [horder, Channels.target, Res.bind_eq_ok] at h
  obtain ⟨o, ho, hr⟩ := h
  split_ifs at ho with hcolon
  · cases ho
    cases hr
    exact ⟨rfl, fun ctx hctx => by cases hctx⟩
  · cases ho
    have hto : s.subscribeTo c calls { options } true channel options.role = (r, t) := Res.ok.inj hr
    rcases Session.subscribeTo_cases s c calls { options } true channel options.role with
      ⟨e, heq⟩ | ⟨-, heq⟩
    · obtain ⟨rfl, rfl⟩ := Prod.ext_iff.mp (heq.symm.trans hto)
      exact ⟨rfl, fun ctx hctx => by cases hctx⟩
    · obtain ⟨rfl, rfl⟩ := Prod.ext_iff.mp (heq.symm.trans hto)
      exact ⟨rfl, fun ctx hctx => (Except.ok.inj hctx) ▸ rfl⟩

variable {subs : List (GoString × SubscribeOptions)}
  {ctxs : List (GoString × Except SubscribeError ChannelContext)}

theorem subscribeAll_spec {calls : GoString → Calls}
    (horder : ∀ sub ∈ subs, (calls sub.1).order = [])
    (h : s.subscribeAll c calls subs = .ok (ctxs, t)) :
    t.channels = s.channels ∧ ∀ ch ctx, (ch, Except.ok ctx) ∈ ctxs →
      ∃ options, (ch, options) ∈ subs ∧ ctx.role = options.role := by
  induction subs generalizing s ctxs with
  | nil =>
    cases h
    exact ⟨rfl, fun ch ctx hmem => nomatch hmem⟩
  | cons sub subs ih =>
    obtain ⟨channel, options⟩ := sub
    simp only [Session.subscribeAll, Res.bind_eq_ok, Res.pure_eq] at h
    obtain ⟨⟨r, s'⟩, hcmd, ⟨ctxs', t'⟩, hall, hres⟩ := h
    cases hres
    obtain ⟨hchannels, hrole⟩ := subscribeCmd_serverSide (horder _ mem_cons_self) hcmd
    obtain ⟨hchannels', hroles⟩ :=
      ih (fun sub hsub => horder sub (mem_cons_of_mem _ hsub)) hall
    refine ⟨hchannels'.trans hchannels, fun ch ctx hmem => ?_⟩
    rcases mem_cons.mp hmem with heq | hmem
    · obtain ⟨rfl, hr⟩ := Prod.ext_iff.mp heq
      exact ⟨options, mem_cons_self, hrole ctx hr.symm⟩
    · obtain ⟨options', hin, hrole'⟩ := hroles ch ctx hmem
      exact ⟨options', mem_cons_of_mem _ hin, hrole'⟩

theorem mem_of_subscriptions (h : (subscriptions grants).lookup channel = some options) :
    (channel, options.role) ∈ grants := by
  -- what the fold adds to a map comes from the list
  have hfold (base : AList fun _ : GoString => SubscribeOptions)
      (h : (grants.foldl (fun subs g => subs.insert g.1 { role := g.2 }) base).lookup channel =
        some options) : (channel, options.role) ∈ grants ∨ base.lookup channel = some options := by
    clear * - h
    induction grants generalizing base with
    | nil => exact .inr h
    | cons g grants ih =>
      rcases ih _ h with hmem | hbase
      · exact .inl (mem_cons_of_mem _ hmem)
      · by_cases hg : channel = g.1
        · subst hg
          rw [AList.lookup_insert] at hbase
          rw [← Option.some.inj hbase]
          exact .inl mem_cons_self
        · rw [AList.lookup_insert_ne hg] at hbase
          exact .inr hbase
  rcases hfold ∅ h with hmem | hempty
  · exact hmem
  · rw [AList.lookup_empty] at hempty
    cases hempty

theorem Covered.completeAll (h : Covered grants channels)
    (hctxs : ∀ ch ctx, (ch, Except.ok ctx) ∈ ctxs →
      Readable ctx.role ∨ isDaemon ch → Granted grants ch)
    {channels' : Channels} (heq : Session.completeAll channels ctxs = some channels') :
    Covered grants channels' := by
  induction ctxs generalizing channels with
  | nil => exact Option.some.inj heq ▸ h
  | cons e ctxs ih =>
    obtain ⟨ch, r⟩ := e
    cases r with
    | error e => cases heq
    | ok ctx =>
      refine ih (h.insert fun hread => ?_) (fun ch' ctx' hmem => ?_) heq
      · exact hctxs ch ctx mem_cons_self (hread.imp_right And.right)
      · exact hctxs ch' ctx' (mem_cons_of_mem _ hmem)

theorem Covered.connectCmd {calls : GoString → Calls} (h : Covered grants s.channels)
    (horder : ∀ sub ∈ subs, (calls sub.1).order = [])
    (hsubs : ∀ sub ∈ subs, Readable sub.2.role ∨ isDaemon sub.1 → Granted grants sub.1)
    (ht : s.connectCmd config c calls subs = .ok t) : Covered grants t.channels := by
  unfold Session.connectCmd at ht
  split_ifs at ht
  · exact Res.ok.inj ht ▸ h
  rw [Res.bind_eq_ok] at ht
  obtain ⟨⟨ctxs, s'⟩, hall, ht⟩ := ht
  obtain ⟨hchannels, hroles⟩ := subscribeAll_spec horder hall
  have hs' : Covered grants s'.channels := hchannels ▸ h
  dsimp only at ht
  cases hcomplete : Session.completeAll s'.channels ctxs with
  | some channels =>
    rw [hcomplete] at ht
    rw [← Res.ok.inj ht]
    refine hs'.completeAll (fun ch ctx hmem hread => ?_) hcomplete
    obtain ⟨options, hin, hrole⟩ := hroles ch ctx hmem
    exact hsubs _ hin (hrole ▸ hread)
  | none =>
    rw [hcomplete] at ht
    rw [← Res.ok.inj ht]
    -- what has failed is taken out of the table, where it has not been yet
    clear * - hs'
    induction ctxs generalizing s' with
    | nil => exact hs'
    | cons ctx ctxs ih => exact ih _ (hs'.onSubscribeError c ctx.1)

end

namespace Clients

/-- No daemon's channel is granted without the right to read, and every request to subscribe is
fair. -/
def Careful (s : Clients) : Command → Prop
  | .connect _ account _ => ∀ g ∈ account.channels, isDaemon g.1 → Readable g.2
  | .subscribe c channel _ => ∀ cl ∈ s.client c, Fair cl.grants cl.channels channel
  | .unsubscribe _ _ => True
  | .close _ _ => True

instance (s : Clients) (cmd : Command) : Decidable (s.Careful cmd) :=
  match cmd with
  | .connect _ account _ =>
    inferInstanceAs (Decidable (∀ g ∈ account.channels, isDaemon g.1 → Readable g.2))
  | .subscribe c channel _ =>
    inferInstanceAs (Decidable (∀ cl ∈ s.client c, Fair cl.grants cl.channels channel))
  | .unsubscribe _ _ | .close _ _ => .isTrue trivial

def AllCovered (s : Clients) : Prop :=
  ∀ c cl, s.client c = some cl → Covered cl.grants cl.channels

variable {config : Config} {s t : Clients} {c : Uid}

theorem AllCovered.put (h : s.AllCovered) {grants : List (GoString × Role)} {u : Session}
    (hu : Covered grants u.channels) : (s.put c grants u).AllCovered := by
  intro c' cl hcl
  by_cases hc : c' = c
  · subst hc
    have heq := (Function.update_self c' _ s.client).symm.trans hcl
    exact Option.some.inj heq ▸ hu
  · exact h c' cl ((Function.update_of_ne hc _ s.client).symm.trans hcl)

theorem AllCovered.act (h : s.AllCovered) {a : Session.Act}
    (ha : ∀ cl u, s.client c = some cl → ¬ (s.session cl).closed →
      (s.session cl).next config c a = some u → Covered cl.grants u.channels)
    (ht : s.act config c a = some t) : t.AllCovered := by
  unfold Clients.act at ht
  simp only [Option.bind_eq_bind, Option.bind_eq_some_iff, Option.pure_def, Option.some.injEq] at ht
  obtain ⟨cl, hcl, u, hu, rfl⟩ := ht
  refine h.put ?_
  by_cases hclosed : (s.session cl).closed
  · unfold Session.next at hu
    rw [if_pos hclosed] at hu
    exact Option.some.inj hu ▸ h c cl hcl
  · exact ha cl u hcl hclosed hu

theorem AllCovered.connect (h : s.AllCovered) {account : Account} {calls : GoString → Calls}
    (hcareful : ∀ g ∈ account.channels, isDaemon g.1 → Readable g.2)
    (ht : s.connect config c account calls = some t) : t.AllCovered := by
  unfold Clients.connect at ht
  split_ifs at ht with hrefused
  simp only [Option.map_eq_some_iff, Res.toOption_eq_some] at ht
  obtain ⟨u, hu, rfl⟩ := ht
  simp only [Bool.or_eq_true, not_or, List.any_eq_true, not_exists] at hrefused
  -- the subscriptions are granted, and the map is empty when they are made
  have hgranted (sub : GoString × SubscribeOptions)
      (hsub : sub ∈ (subscriptions account.channels).entries.map fun e => (e.1, e.2)) :
      (sub.1, sub.2.role) ∈ account.channels := by
    obtain ⟨e, he, rfl⟩ := mem_map.mp hsub
    exact mem_of_subscriptions (AList.mem_lookup_iff.mpr he)
  refine h.put (Covered.connectCmd ?_ (fun sub hsub => ?_) (fun sub hsub hread => ?_) hu)
  · intro k ctx hk
    rw [AList.lookup_empty] at hk
    cases hk
  · have hempty : ¬ (!(calls sub.1).order.isEmpty) :=
      fun hne => hrefused.2 _ ⟨hgranted sub hsub, hne⟩
    simpa using hempty
  · have hg := hgranted sub hsub
    exact ⟨_, hg, hread.elim id fun hd => hcareful _ hg hd, .inl rfl⟩

theorem AllCovered.next (h : s.AllCovered) {cmd : Command} (hcareful : s.Careful cmd)
    (ht : s.next config cmd = some t) : t.AllCovered := by
  cases cmd with
  | connect c account calls => exact h.connect hcareful ht
  | subscribe c channel calls =>
    refine h.act (fun cl u hcl hopen hu => ?_) ht
    simp only [Session.next, if_neg hopen] at hu
    split_ifs at hu with horder
    refine Covered.handleSubscribe ?_ (hcareful cl hcl) (isPerm_iff.mp horder)
      (Res.toOption_eq_some.mp hu)
    exact h c cl hcl
  | unsubscribe c channel =>
    refine h.act (fun cl u hcl hopen hu => ?_) ht
    rw [Session.next, if_neg hopen] at hu
    exact Option.some.inj hu ▸ Covered.unsubscribe (h c cl hcl) c channel
  | close c order =>
    refine h.act (fun cl u hcl hopen hu => ?_) ht
    simp only [Session.next, if_neg hopen] at hu
    split_ifs at hu
    exact Option.some.inj hu ▸ Covered.close (h c cl hcl) c order

/-- After careful commands, a publication is enqueued only to clients that were granted to read its
channel or its parent. -/
theorem granted_of_recipients (config : Config) {cmds : List Command} {t : Clients}
    (hcareful : Meets (next config) Careful start cmds)
    (hrun : run (next config) start cmds = some t) (channel : GoString) (c : Uid)
    (hc : c ∈ t.recipients channel) : ∃ cl, t.client c = some cl ∧ Granted cl.grants channel := by
  have hstart : start.AllCovered := fun c cl hcl => nomatch hcl
  have hcovered : t.AllCovered :=
    Transitions.run_invariant (fun s cmd t h hcareful ht => h.next hcareful ht) hstart hcareful hrun
  have hreceives : t.receives channel c := (mem_filter.mp hc).2
  unfold receives at hreceives
  split at hreceives
  · cases hreceives
  · rename_i ctx hctx
    obtain ⟨cl, hcl, hlookup⟩ := Option.bind_eq_some_iff.mp hctx
    simp only [Bool.and_eq_true, Bool.or_eq_true, decide_eq_true_eq] at hreceives
    exact ⟨cl, hcl, hcovered c cl hcl channel ctx hlookup
      (hreceives.1.imp_right fun hd => ⟨hreceives.2, hd⟩)⟩

/-- What `subscribeCmd` is given for a client with these keys. -/
private def callsFor (keys : List String) : Calls := { order := keys.map String.toList }

def fairCommands : List Command :=
  [.connect 1 (.clientUser "2") fun _ => callsFor [],
    .connect 2 (.clientUser "7") fun _ => callsFor [],
    .connect 3 (.channelUser [⟨"foo", 3, readRole⟩]) fun _ => callsFor [],
    .subscribe 3 "foo:x" (callsFor ["foo:x", "foo-3"])]

theorem fairCommands_granted : ∃ t cl, Meets (next ⟨0, 0⟩) Careful start fairCommands ∧
      run (next ⟨0, 0⟩) start fairCommands = some t ∧
      3 ∈ t.recipients "foo-3:x" ∧ t.client 3 = some cl ∧
      Granted cl.grants "foo-3:x" := by
  have hcareful : Meets (next ⟨0, 0⟩) Careful start fairCommands := by decide +kernel
  have hcheck : (run (next ⟨0, 0⟩) start fairCommands).any (fun t =>
      decide (3 ∈ t.recipients "foo-3:x")) := by
    decide +kernel
  obtain ⟨t, hrun, ht⟩ := (Option.any_eq_true _ _).mp hcheck
  have hrec := of_decide_eq_true ht
  obtain ⟨cl, hcl, hgranted⟩ := granted_of_recipients ⟨0, 0⟩ hcareful hrun _ 3 hrec
  exact ⟨t, cl, hcareful, hrun, hrec, hcl, hgranted⟩

def spyCommands : List Command :=
  [.connect 1 (.clientUser "2") fun _ => callsFor [],
    .connect 2 (.clientUser "7") fun _ => callsFor [],
    .subscribe 2 "kairosdeamon-2" (callsFor ["kairosdeamon-2", "kairosdeamon-7"])]

/-- The commands for the first daemon are enqueued to the second too. -/
theorem spyCommands_recipients : ∃ t cl, run (next ⟨0, 0⟩) start spyCommands = some t ∧
      2 ∈ t.recipients "kairosdeamon-2" ∧ t.client 2 = some cl ∧
      ¬ Granted cl.grants "kairosdeamon-2" := by
  have hcheck : (run (next ⟨0, 0⟩) start spyCommands).any (fun t =>
      decide (2 ∈ t.recipients "kairosdeamon-2") &&
        (t.client 2).any fun cl => decide (¬ Granted cl.grants "kairosdeamon-2")) =
          true := by
    decide +kernel
  obtain ⟨t, hrun, ht⟩ := (Option.any_eq_true _ _).mp hcheck
  obtain ⟨hrec, hcl⟩ := Bool.and_eq_true_iff.mp ht
  obtain ⟨cl, hcl, hnot⟩ := (Option.any_eq_true _ _).mp hcl
  exact ⟨t, cl, hrun, of_decide_eq_true hrec, hcl, of_decide_eq_true hnot⟩

end Clients

end Kairos.Deliverer
