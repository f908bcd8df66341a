import Kairos.Go.Memory
import Kairos.Library.Transitions
import Mathlib.Tactic.Linarith

/-!
# The timer of a client

A client of `server/deliverer/client.go` has one timer for its pings, its presence updates and its
expiration. Whoever changes one of these times arms it for the earliest (`scheduleNextTimer`), as
has what it starts; but `expire` does not without an expiration, before the refresh handler replies,
or where the expiration has not come: a duration is an `int64` of nanoseconds, and that of a far
expiration wraps around. Times are `int64`s too, as `UnixNano` gives them.
-/

namespace Kairos.Deliverer.Timer

open Option

/-- `timerOp`, without `timerOpStale`, which `connectCmd` clears. -/
inductive Op where
  | presence
  | expire
  | ping
deriving DecidableEq

/-- The durations that a client is configured with, in nanoseconds. -/
structure Config where
  /-- `ClientPresenceUpdateInterval`. -/
  presenceInterval : ℤ
  /-- `ClientExpiredCloseDelay`. -/
  closeDelay : ℤ
  pingInterval : ℤ
  presence_nonneg : 0 ≤ presenceInterval
  ping_pos : 0 < pingInterval

/-- A time of `UnixNano`, which is there until the year 2262, with the intervals added to it too. -/
def Config.InRange (config : Config) (now : ℤ) : Prop :=
  0 < now ∧ now + config.pingInterval < 2 ^ 63 ∧ now + config.presenceInterval < 2 ^ 63

instance (config : Config) (now : ℤ) : Decidable (config.InRange now) :=
  inferInstanceAs (Decidable (_ ∧ _))

/-- What `Client` has of its timer. -/
structure Conn where
  clientSideRefresh : Bool := false
  refreshHandler : Bool := false
  closed : Bool := false
  exp : ℤ := 0
  nextExpire : ℤ := 0
  nextPresence : ℤ := 0
  nextPing : ℤ := 0
  timerOp : Op := .presence
  timer : Option ℤ := none

/-- What the refresh handler replies. -/
inductive RefreshReply where
  | error
  | expired
  | expireAt (t : ℤ)

namespace Conn

/-- The time of each deadline, which is pending if it is positive. -/
def due (s : Conn) : Op → ℤ
  | .presence => s.nextPresence
  | .expire => s.nextExpire
  | .ping => s.nextPing

/-- `Client.scheduleNextTimer` (`client.go:278`). -/
def scheduleNextTimer (s : Conn) : Conn :=
  if s.closed then s
  else
    match ([.expire, .presence, .ping].filter (0 < s.due ·)).minOn? s.due with
    | some op => { s with timerOp := op, timer := some (s.due op) }
    | none => { s with timer := none }

def addPingUpdate (delay now : ℤ) (s : Conn) : Conn :=
  scheduleNextTimer { s with nextPing := wrap64 (now + delay) }

def addPresenceUpdate (config : Config) (now : ℤ) (s : Conn) : Conn :=
  scheduleNextTimer { s with nextPresence := wrap64 (now + config.presenceInterval) }

def addExpireUpdate (after now : ℤ) (s : Conn) : Conn :=
  scheduleNextTimer { s with nextExpire := wrap64 (now + after) }

def close (s : Conn) : Conn := { s with closed := true, timer := none }

/-- `exp - now`, in seconds. -/
def ttl (exp now : ℤ) : ℤ := wrap64 (exp - now / 10 ^ 9)

/-- `time.Duration(ttl) * time.Second`. -/
def seconds (ttl : ℤ) : ℤ := wrap64 (ttl * 10 ^ 9)

/-- `Client.checkExpired` (`client.go:881`). -/
def checkExpired (now : ℤ) (s : Conn) : Conn :=
  if s.closed ∨ s.exp = 0 then s
  else if 0 < ttl s.exp now then
    if !s.clientSideRefresh && s.refreshHandler then
      addExpireUpdate (seconds (ttl s.exp now)) now s
    else s
  else s.close

/-- The callback of `expire`. -/
def replied (now : ℤ) (s : Conn) : RefreshReply → Conn
  | .error | .expired => s.close
  | .expireAt t => checkExpired now (if 0 < t then { s with exp := t } else s)

/-- `Client.expire` (`client.go:909`), with what the handler replies before it returns. -/
def expire (now : ℤ) (reply : Option RefreshReply) (s : Conn) : Conn :=
  if s.closed ∨ s.exp = 0 then s
  else if !s.clientSideRefresh && s.refreshHandler then reply.elim s (replied now s)
  else checkExpired now s

def updatePresence (config : Config) (now : ℤ) (s : Conn) : Conn :=
  if s.closed then s else addPresenceUpdate config now s

/-- `Client.onTimerOp` (`client.go:259`). -/
def onTimerOp (config : Config) (now : ℤ) (reply : Option RefreshReply) (s : Conn) : Conn :=
  if s.closed then s
  else
    match s.timerOp with
    | .presence => updatePresence config now s
    | .expire => expire now reply s
    | .ping => addPingUpdate config.pingInterval now s

/-- `Client.Refresh` without `Expired`, and the end of the callback of `handleRefresh`, which keeps
`exp` where there is no expiration. -/
def refresh (config : Config) (now expireAt : ℤ) (server : Bool) (s : Conn) : Conn :=
  if 0 < expireAt then
    if 0 < ttl expireAt now then
      addExpireUpdate (wrap64 (seconds (ttl expireAt now) + config.closeDelay)) now
        { s with exp := expireAt }
    else s
  else if server then { s with exp := 0 }
  else s

/-- `Client.scheduleOnConnectTimers` (`client.go:978`). -/
def scheduleOnConnectTimers (config : Config) (now delay : ℤ) (s : Conn) : Conn :=
  let s := addPresenceUpdate config now s
  let s :=
    if 0 < s.exp then
      addExpireUpdate
        (wrap64 (seconds (ttl s.exp now) + if s.clientSideRefresh then config.closeDelay else 0))
        now s
    else s
  addPingUpdate delay now s

/-- How a client connects; the delay of its first ping is random. -/
structure Connect (config : Config) where
  clientSideRefresh : Bool
  refreshHandler : Bool
  exp : ℤ
  now : ℤ
  delay : ℤ
  inRange : config.InRange now
  delay_nonneg : 0 ≤ delay
  delay_lt : delay < config.pingInterval

def connected (config : Config) (c : Connect config) : Conn :=
  scheduleOnConnectTimers config c.now c.delay
    { clientSideRefresh := c.clientSideRefresh, refreshHandler := c.refreshHandler, exp := c.exp }

def fired (s : Conn) : Conn := { s with timer := none }

/-- The timer fires, or did before it was stopped; the refresh handler replies late; the calls of
the server and of the client. -/
inductive Act where
  | fire (reply : Option RefreshReply)
  | late (reply : Option RefreshReply)
  | replied (reply : RefreshReply)
  | refresh (expireAt : ℤ)
  | clientRefresh (expireAt : ℤ)
  | close

def next (config : Config) (s : Conn) (act : ℤ × Act) : Option Conn :=
  if ¬ config.InRange act.1 then none
  else
    match act.2 with
    | .fire reply =>
      if s.timer.any (· ≤ act.1) then some (s.fired.onTimerOp config act.1 reply) else none
    | .late reply => some (s.onTimerOp config act.1 reply)
    | .replied reply =>
      if !s.clientSideRefresh && s.refreshHandler then some (s.replied act.1 reply) else none
    | .refresh expireAt => some (s.refresh config act.1 expireAt true)
    | .clientRefresh expireAt =>
      if s.clientSideRefresh && s.refreshHandler then
        some (s.refresh config act.1 expireAt false)
      else some s
    | .close => some s.close

/-- The timer is armed for the earliest of the pending times. -/
def Armed (s : Conn) : Prop :=
  s.closed ∨ ∃ op, 0 < s.due op ∧ s.timer = some (s.due op) ∧
    ∀ op', 0 < s.due op' → s.due op ≤ s.due op'

/-- The server asks its refresh handler when the client expires. -/
def Asks (s : Conn) : Prop := s.clientSideRefresh = false ∧ s.refreshHandler

/-- A timer that fires for the expiration finds one, which the refresh handler, if it is asked,
answers at once, and which else has come. -/
def Orderly (config : Config) (s : Conn) : ℤ × Act → Prop
  | (now, .fire reply) =>
    config.InRange now → s.timer.any (· ≤ now) → s.closed = false → s.timerOp = .expire →
      s.exp ≠ 0 ∧ (s.Asks → reply.isSome) ∧ (¬ s.Asks → ttl s.exp now ≤ 0)
  | _ => True

/-- An open client has a time for its next ping, and the timer is armed. -/
structure Ready (s : Conn) : Prop where
  ping : 0 < s.nextPing
  timer : s.timer = some (s.due s.timerOp)
  pos : 0 < s.due s.timerOp
  least : ∀ op, 0 < s.due op → s.due s.timerOp ≤ s.due op

def Good (s : Conn) : Prop := s.closed = false → s.Ready

variable {config : Config} {s : Conn} {now : ℤ} {reply : Option RefreshReply}

theorem Good.isArmed (h : s.Good) : s.Armed := by
  cases hclosed : s.closed with
  | true => exact .inl hclosed
  | false =>
    obtain ⟨-, htimer, hpos, hleast⟩ := h hclosed
    exact .inr ⟨s.timerOp, hpos, htimer, hleast⟩

theorem good_of_closed (h : s.closed) : s.Good := fun hopen => by simp [h] at hopen

theorem good_close (s : Conn) : s.close.Good := good_of_closed rfl

theorem not_armed (hopen : s.closed = false) (htimer : s.timer = none) : ¬ s.Armed := by
  rintro (hclosed | ⟨op, -, hsome, -⟩)
  · simp [hopen] at hclosed
  · simp [htimer] at hsome

theorem schedule_good (hping : s.closed = false → 0 < s.nextPing) :
    (scheduleNextTimer s).Good := by
  unfold scheduleNextTimer
  by_cases hclosed : s.closed
  · rw [if_pos hclosed]
    exact good_of_closed hclosed
  · rw [if_neg hclosed]
    intro _
    have h := hping (by simpa using hclosed)
    have hmem (op : Op) (hpos : 0 < s.due op) :
        op ∈ [Op.expire, .presence, .ping].filter (0 < s.due ·) :=
      List.mem_filter.mpr ⟨by cases op <;> simp, decide_eq_true hpos⟩
    split
    · rename_i op hbest
      have hpos := of_decide_eq_true (List.mem_filter.mp (List.minOn?_mem hbest)).2
      refine ⟨h, rfl, hpos, fun op' hpos' => ?_⟩
      have hle := List.apply_get_minOn?_le_of_mem (f := s.due) (hmem op' hpos')
      simp only [hbest, get_some] at hle
      exact hle
    · rename_i hnone
      have hsome := List.isSome_minOn?_of_mem (f := s.due) (hmem .ping h)
      rw [hnone] at hsome
      cases hsome

theorem asks_iff : (!s.clientSideRefresh && s.refreshHandler) ↔ s.Asks := by simp [Asks]

/-- `checkExpired` arms the timer, closes the client, or leaves it as it is. -/
theorem checkExpired_cases (now : ℤ) (hping : s.closed = false → 0 < s.nextPing) :
    (s.checkExpired now).Good ∨
      s.checkExpired now = s ∧ (s.exp = 0 ∨ 0 < ttl s.exp now ∧ ¬ s.Asks) := by
  unfold checkExpired
  split_ifs with hidle httl hasks
  · rcases hidle with hclosed | hexp
    · exact .inl (good_of_closed hclosed)
    · exact .inr ⟨rfl, .inl hexp⟩
  · exact .inl (schedule_good hping)
  · exact .inr ⟨rfl, .inr ⟨httl, fun h => hasks (asks_iff.mpr h)⟩⟩
  · exact .inl (good_close s)

theorem replied_cases (hping : s.closed = false → 0 < s.nextPing) (hasks : s.Asks)
    (reply : RefreshReply) : (s.replied now reply).Good ∨ s.replied now reply = s ∧ s.exp = 0 := by
  cases reply with
  | error => exact .inl (good_close s)
  | expired => exact .inl (good_close s)
  | expireAt t =>
    by_cases ht : 0 < t
    · rw [replied, if_pos ht]
      rcases checkExpired_cases (s := { s with exp := t }) now hping with
        hgood | ⟨-, hzero | ⟨-, hno⟩⟩
      · exact .inl hgood
      · exact absurd hzero ht.ne'
      · exact absurd hasks hno
    · rw [replied, if_neg ht]
      refine (checkExpired_cases now hping).imp_right fun ⟨hsame, hrest⟩ => ⟨hsame, ?_⟩
      exact hrest.resolve_right fun h => h.2 hasks

theorem expire_cases (hping : s.closed = false → 0 < s.nextPing) :
    (s.expire now reply).Good ∨ s.expire now reply = s ∧
      (s.exp = 0 ∨ s.Asks ∧ reply = none ∨ 0 < ttl s.exp now ∧ ¬ s.Asks) := by
  unfold expire
  split_ifs with hidle hasks
  · rcases hidle with hclosed | hexp
    · exact .inl (good_of_closed hclosed)
    · exact .inr ⟨rfl, .inl hexp⟩
  · rw [asks_iff] at hasks
    cases reply with
    | none => exact .inr ⟨rfl, .inr (.inl ⟨hasks, rfl⟩)⟩
    | some reply => exact (replied_cases hping hasks reply).imp_right (And.imp_right .inl)
  · exact (checkExpired_cases now hping).imp_right (And.imp_right (Or.imp_right .inr))

/-- Within the range of the clock the next ping comes after a positive time. -/
theorem wrap64_ping_pos {delay : ℤ} (hnow : config.InRange now) (hdelay : 0 ≤ delay)
    (hle : delay ≤ config.pingInterval) : 0 < wrap64 (now + delay) := by
  obtain ⟨hpos, hping, -⟩ := hnow
  rw [wrap64_of_lt (by omega) (by omega)]
  omega

theorem onTimerOp_cases (reply : Option RefreshReply)
    (hping : s.closed = false → 0 < s.nextPing) (hnow : config.InRange now) :
    (s.onTimerOp config now reply).Good ∨ s.timerOp = .expire ∧ s.onTimerOp config now reply = s ∧
      (s.exp = 0 ∨ s.Asks ∧ reply = none ∨ 0 < ttl s.exp now ∧ ¬ s.Asks) := by
  unfold onTimerOp
  split_ifs with hclosed
  · exact .inl (good_of_closed hclosed)
  cases hop : s.timerOp with
  | presence =>
    simp only [updatePresence, if_neg hclosed]
    exact .inl (schedule_good hping)
  | ping =>
    exact .inl (schedule_good fun _ => wrap64_ping_pos hnow config.ping_pos.le le_rfl)
  | expire => exact (expire_cases hping).imp_right fun hrest => ⟨rfl, hrest⟩

theorem Good.late (h : s.Good) (hnow : config.InRange now) :
    (s.onTimerOp config now reply).Good := by
  rcases onTimerOp_cases reply (fun hopen => (h hopen).ping) hnow with hgood | ⟨-, hsame, -⟩
  · exact hgood
  · rwa [hsame]

theorem Good.replied (h : s.Good) (hasks : s.Asks) (reply : RefreshReply) :
    (s.replied now reply).Good := by
  rcases replied_cases (fun hopen => (h hopen).ping) hasks reply with hgood | ⟨hsame, -⟩
  · exact hgood
  · rwa [hsame]

theorem Good.refresh (h : s.Good) (expireAt : ℤ) (server : Bool) :
    (s.refresh config now expireAt server).Good := by
  unfold Conn.refresh
  split_ifs with hexp httl hserver
  · exact schedule_good (s := { s with exp := expireAt, nextExpire := _ })
      fun hopen => (h hopen).ping
  · exact h
  · intro hopen
    obtain ⟨hping, htimer, hpos, hleast⟩ := h hopen
    exact ⟨hping, htimer, hpos, hleast⟩
  · exact h

theorem Good.fire (h : s.Good) (hnow : config.InRange now) (hdue : s.timer.any (· ≤ now))
    (horderly : s.Orderly config (now, .fire reply)) :
    (s.fired.onTimerOp config now reply).Good := by
  have hping : s.fired.closed = false → 0 < s.fired.nextPing := fun hopen => (h hopen).ping
  rcases onTimerOp_cases reply hping hnow with hgood | ⟨hop, hsame, hidle⟩
  · exact hgood
  by_cases hclosed : s.closed
  · rw [hsame]
    exact good_of_closed hclosed
  · have hopen : s.closed = false := by simpa using hclosed
    obtain ⟨hexp, hreply, hcome⟩ := horderly hnow hdue hopen hop
    rcases hidle with hzero | ⟨hasks, rfl⟩ | ⟨httl, hasks⟩
    · exact absurd hzero hexp
    · simpa using hreply hasks
    · exact absurd (hcome hasks) httl.not_ge

theorem orderly_of_armed (h : (s.fired.onTimerOp config now reply).Armed) :
    s.Orderly config (now, .fire reply) := by
  intro _ _ hopen hop
  have hexpire : s.fired.onTimerOp config now reply = s.fired.expire now reply := by
    simp [onTimerOp, fired, hopen, hop]
  rw [hexpire] at h
  have hidle (hsame : s.fired.expire now reply = s.fired) : False := by
    rw [hsame] at h
    exact not_armed (s := s.fired) hopen rfl h
  have hexp : s.exp ≠ 0 := fun hzero => hidle (if_pos (.inr hzero))
  refine ⟨hexp, fun hasks => ?_, fun hasks => ?_⟩
  · cases reply with
    | none => exact (hidle (by simp [expire, fired, hasks.1, hasks.2])).elim
    | some reply => rfl
  · by_contra httl
    refine hidle ?_
    have httl : 0 < ttl s.fired.exp now := not_le.mp httl
    have hgo : ¬ (s.fired.closed = true ∨ s.fired.exp = 0) := by simp [fired, hopen, hexp]
    have hno : ¬ (!s.fired.clientSideRefresh && s.fired.refreshHandler) = true :=
      fun h => hasks (asks_iff.mp h)
    rw [expire, if_neg hgo, if_neg hno, checkExpired, if_neg hgo, if_pos httl, if_neg hno]

theorem Good.next (h : s.Good) {act : ℤ × Act} (horderly : s.Orderly config act) {s' : Conn}
    (hs' : s.next config act = some s') : s'.Good := by
  obtain ⟨now, act⟩ := act
  simp only [Conn.next, ite_none_left_eq_some, not_not] at hs'
  obtain ⟨hnow, hs'⟩ := hs'
  cases act with
  | fire reply =>
    obtain ⟨hdue, hs'⟩ := ite_none_right_eq_some.mp hs'
    exact some.inj hs' ▸ h.fire hnow hdue horderly
  | late reply => exact some.inj hs' ▸ h.late hnow
  | replied reply =>
    obtain ⟨hasks, hs'⟩ := ite_none_right_eq_some.mp hs'
    exact some.inj hs' ▸ h.replied (asks_iff.mp hasks) reply
  | refresh expireAt => exact some.inj hs' ▸ h.refresh expireAt true
  | clientRefresh expireAt =>
    dsimp only at hs'
    split_ifs at hs'
    · exact some.inj hs' ▸ h.refresh expireAt false
    · exact some.inj hs' ▸ h
  | close => exact some.inj hs' ▸ good_close s

/-- A handler leaves the timer armed exactly when it is orderly. -/
theorem Good.next_iff (h : s.Good) (act : ℤ × Act) :
    (∀ s' ∈ s.next config act, s'.Armed) ↔ s.Orderly config act := by
  refine ⟨fun hnext => ?_, fun horderly s' hs' => (h.next horderly hs').isArmed⟩
  match act with
  | (now, .fire reply) =>
    intro hnow hdue
    have hfire : s.fired.onTimerOp config now reply ∈ s.next config (now, .fire reply) := by
      simp [Conn.next, hnow, hdue]
    exact orderly_of_armed (hnext _ hfire) hnow hdue
  | (_, .late _) | (_, .replied _) | (_, .refresh _) | (_, .clientRefresh _) | (_, .close) =>
    trivial

theorem connected_good (config : Config) (c : Connect config) : (connected config c).Good :=
  schedule_good fun _ => wrap64_ping_pos c.inRange c.delay_nonneg c.delay_lt.le

/-- The timer of an open client is armed for the earliest time exactly if every expiration it starts
finds one to handle that has come, or that the refresh handler answers at once. -/
theorem armed_iff (config : Config) (c : Connect config) (acts : List (ℤ × Act)) :
    Transitions.Meets (Conn.next config) (fun s act => ∀ s' ∈ s.next config act, s'.Armed)
        (connected config c) acts ↔
      Transitions.Meets (Conn.next config) (Orderly config) (connected config c) acts :=
  Transitions.meets_iff_of_invariant (I := Good)
    (fun _ act _ hs hnext hs' => hs.next ((hs.next_iff act).mp hnext) hs')
    (fun _ act hs => hs.next_iff act) (connected_good config c) acts

theorem exists_not_armed {o : Option Conn}
    (h : o.any (fun s => !s.closed && s.timer.isNone)) : ∃ s, o = some s ∧ ¬ s.Armed := by
  cases o with
  | none => cases h
  | some s =>
    obtain ⟨hopen, htimer⟩ : s.closed = false ∧ s.timer = none := by simpa using h
    exact ⟨s, rfl, not_armed hopen htimer⟩

/-- Intervals of 25 seconds. -/
def usual : Config := ⟨25 * 10 ^ 9, 25 * 10 ^ 9, 25 * 10 ^ 9, by decide, by decide⟩

/-- A client that expires in second 1 connects at 1 ns and is to be pinged at once. -/
def early : Connect usual := ⟨false, false, 1, 1, 0, by decide, by decide, by decide⟩

/-- A client connects in the year 2033, without an expiration. -/
def late : Connect usual := ⟨false, false, 0, 2 * 10 ^ 18, 0, by decide, by decide, by decide⟩

/-- After a refresh without an expiration the timer fires for the old one, and is not armed again.
Nor is it after a refresh with an expiration in 553 years, for which it fires at once. -/
theorem refresh_stops_timer :
    (∃ s, Transitions.run (Conn.next usual) (connected usual early)
      [(2, .fire none), (3, .refresh 0), (10 ^ 9 + 1, .fire none)] = some s ∧ ¬ s.Armed) ∧
    ∃ s, Transitions.run (Conn.next usual) (connected usual late)
      [(2 * 10 ^ 18 + 1, .refresh (2 * 10 ^ 9 + 17446744073)), (2 * 10 ^ 18 + 2, .fire none)] =
        some s ∧ ¬ s.Armed :=
  ⟨exists_not_armed (by decide +kernel), exists_not_armed (by decide +kernel)⟩

end Conn

end Kairos.Deliverer.Timer
