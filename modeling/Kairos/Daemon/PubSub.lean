import Kairos.Library.Transitions
import Mathlib.Algebra.Group.Nat.Defs
import Mathlib.Data.List.Nodup

/-!
# The requests of the daemon's client

`kairos-local/kairosdeamon/pubsub/client.go`: a request is put into `c.requests` with a callback,
and then written. The reply, a timeout, `closeCh` and the end of the connection each call it, in
goroutines that hold `requestsMu` for a lookup and for a removal, but not in between.
-/

namespace Kairos.Daemon.PubSub

open List
open Transitions (Meets run)

/-- What a callback is called with. -/
inductive Answer where
  | reply
  | errTimeout
  | errClientDisconnected
deriving DecidableEq

inductive Status where
  | unsent
  | sent
  | failed
deriving DecidableEq

/-- Who looks a request up: the reader of the connection, or the goroutine of `sendAsync`. -/
inductive Role where
  | reader
  | waiter
deriving DecidableEq

/-- Where a goroutine stands with a request. -/
inductive Routine where
  | adding (r : ℕ)
  | sending (r : ℕ)
  | starting (r : ℕ)
  | selecting (r : ℕ) (closeCh : Option ℕ)
  | looking (id : ℕ) (answer : Answer) (role : Role)
  | calling (r : ℕ) (id : ℕ) (answer : Answer) (role : Role)
  | removing (id : ℕ) (found : Option ℕ) (role : Role)
  | reading
  | clearing
  | dropping (r : ℕ)
  | done
deriving DecidableEq

inductive ConnState where
  | disconnected
  | connecting
  | connected
  | closed
deriving DecidableEq

/-- The client: its connection, its requests, the goroutines, and the calls of callbacks. -/
structure Client where
  state : ConnState
  transport : Bool
  closeCh : Option ℕ
  channels : ℕ
  closedChs : List ℕ
  requests : List (ℕ × ℕ)
  made : ℕ
  status : ℕ → Status
  routines : List Routine
  calls : List (ℕ × Answer)

inductive Act where
  | startConnecting
  | transport
  | connect
  | disconnect (reconnect : Bool)
  | close
  | request
  | reply (i : ℕ) (id : ℕ)
  /-- A goroutine goes on. `ok` is the success of a write, or whether the timer fires. -/
  | go (i : ℕ) (ok : Bool)

def cmdID (r : ℕ) : ℕ := (r + 1) % 2 ^ 32

namespace Client

def start : Client :=
  { state := .disconnected
    transport := false
    closeCh := none
    channels := 0
    closedChs := []
    requests := []
    made := 0
    status := fun _ => .unsent
    routines := []
    calls := [] }

def clearing (s : Client) : Bool := s.routines.any (· = .clearing)

def remove (s : Client) (id : ℕ) : Client := { s with requests := s.requests.filter (·.1 ≠ id) }

def set (s : Client) (i : ℕ) (routine : Routine) : Client :=
  { s with routines := s.routines.set i routine }

def send (s : Client) (i : ℕ) (r : ℕ) (ok : Bool) : Client :=
  if s.transport ∧ ok then
    { s.set i (.starting r) with status := Function.update s.status r .sent }
  else { s.set i .done with status := Function.update s.status r .failed }

def clear (s : Client) (i : ℕ) : Client :=
  { s with
    routines := s.routines.set i .done ++ s.requests.map fun p => .dropping p.2
    requests := [] }

def after : Role → Routine
  | .reader => .reading
  | .waiter => .done

def go (s : Client) (i : ℕ) (ok : Bool) : Routine → Option Client
  | .adding r =>
    some { (s.remove (cmdID r)).set i (.sending r) with
      requests := (cmdID r, r) :: (s.remove (cmdID r)).requests }
  | .sending r => some (s.send i r ok)
  | .starting r => if s.clearing then none else some (s.set i (.selecting r s.closeCh))
  | .selecting r closeCh =>
    if ok then some (s.set i (.looking (cmdID r) .errTimeout .waiter))
    else if closeCh.any (· ∈ s.closedChs) then
      some (s.set i (.looking (cmdID r) .errClientDisconnected .waiter))
    else none
  | .looking id answer role =>
    match s.requests.lookup id with
    | some r => some (s.set i (.calling r id answer role))
    | none => some (s.set i (.removing id none role))
  | .calling r id answer role =>
    some { s.set i (.removing id (some r) role) with calls := s.calls ++ [(r, answer)] }
  | .removing id _ role => some ((s.remove id).set i (after role))
  | .reading => none
  | .clearing => some (s.clear i)
  | .dropping r =>
    some { s.set i .done with calls := s.calls ++ [(r, .errClientDisconnected)] }
  | .done => none

def next (s : Client) : Act → Option Client
  | .startConnecting =>
    if s.state = .disconnected ∧ s.clearing = false then
      match s.closeCh with
      | some _ => some { s with state := .connecting }
      | none =>
        some { s with
          state := .connecting
          closeCh := some s.channels
          channels := s.channels + 1 }
    else none
  | .transport =>
    if s.state = .connecting ∧ s.clearing = false then
      some { s with transport := true, routines := s.routines ++ [.reading] }
    else none
  | .connect =>
    if s.state = .connecting ∧ s.clearing = false then some { s with state := .connected } else none
  | .disconnect reconnect =>
    if s.clearing = false ∧
        (s.state = .connected ∨ s.state = .connecting ∧ reconnect = false) then
      some { s with
        transport := false
        state := if reconnect then .connecting else .disconnected
        closeCh := none
        closedChs := s.closeCh.toList ++ s.closedChs
        routines := s.routines ++ [.clearing] }
    else none
  | .close => if s.clearing = false then some { s with state := .closed } else none
  | .request => some { s with made := s.made + 1, routines := s.routines ++ [.adding s.made] }
  | .reply i id =>
    if s.routines[i]? = some .reading ∧ 0 < id then some (s.set i (.looking id .reply .reader))
    else none
  | .go i ok =>
    match s.routines[i]? with
    | some routine => s.go i ok routine
    | none => none

end Client

def Client.called (s : Client) (r : ℕ) : ℕ := s.calls.countP (·.1 = r)

/-- Each callback is called at most once, and never if `send` returned an error. -/
def Client.Once (s : Client) : Prop :=
  ∀ r, s.called r ≤ 1 ∧ (s.status r = .failed → s.called r = 0)

def Routine.holds (r : ℕ) : Routine → Bool
  | .calling r' _ _ _ => r' = r
  | .removing _ found _ => found = some r
  | _ => false

def Client.Free (s : Client) (r : ℕ) : Prop :=
  s.status r = .sent ∧ ∀ routine ∈ s.routines, routine.holds r = false

def Client.FindsFree (s : Client) : Routine → Prop
  | .looking id _ _ => ∀ r ∈ s.requests.lookup id, s.Free r
  | .clearing => ∀ p ∈ s.requests, s.Free p.2
  | _ => True

/-- Nobody else has found the request that the step finds. -/
def Client.Alone (s : Client) : Act → Prop
  | .go i _ => ∀ routine ∈ s.routines[i]?, s.FindsFree routine
  | _ => True

instance (s : Client) (r : ℕ) : Decidable (s.Free r) :=
  inferInstanceAs (Decidable (_ ∧ _))

instance (s : Client) : (routine : Routine) → Decidable (s.FindsFree routine)
  | .looking id _ _ => inferInstanceAs (Decidable (∀ r ∈ s.requests.lookup id, s.Free r))
  | .clearing => inferInstanceAs (Decidable (∀ p ∈ s.requests, s.Free p.2))
  | .adding _ | .sending _ | .starting _ | .selecting _ _ | .calling _ _ _ _ | .removing _ _ _
  | .reading | .dropping _ | .done => .isTrue trivial

instance (s : Client) : (act : Act) → Decidable (s.Alone act)
  | .go i _ => inferInstanceAs (Decidable (∀ routine ∈ s.routines[i]?, s.FindsFree routine))
  | .startConnecting | .transport | .connect | .disconnect _ | .close | .request | .reply _ _ =>
    .isTrue trivial

section Lists

variable {α : Type} {p : α → Bool} {l : List α} {i : ℕ} {a b : α}

theorem countP_set_add (h : l[i]? = some a) (b : α) :
    (l.set i b).countP p + (p a).toNat = l.countP p + (p b).toNat := by
  obtain ⟨hi, rfl⟩ := List.getElem?_eq_some_iff.mp h
  rw [List.countP_set hi]
  have hpos : p l[i] → 0 < l.countP p := fun hp =>
    countP_pos_iff.mpr ⟨_, getElem_mem hi, hp⟩
  cases ha : p l[i] with
  | true =>
    have := hpos ha
    cases p b <;> simp <;> omega
  | false => cases p b <;> simp

theorem exists_mem_set (h : l[i]? = some a) (hab : p a → p b)
    (hex : ∃ x ∈ l, p x) : ∃ x ∈ l.set i b, p x := by
  have hcount := countP_set_add (p := p) h b
  have hpos : 0 < l.countP p := countP_pos_iff.mpr hex
  apply countP_pos_iff.mp
  cases ha : p a with
  | true =>
    rw [ha, hab ha] at hcount
    omega
  | false =>
    rw [ha, Bool.toNat_false, Nat.add_zero] at hcount
    omega

theorem forall_mem_set {P : α → Prop} (h : ∀ x ∈ l, P x) (hb : P b) : ∀ x ∈ l.set i b, P x := by
  intro x hx
  rcases mem_or_eq_of_mem_set hx with hx | rfl
  · exact h x hx
  · exact hb

theorem mem_of_lookup {l : List (ℕ × ℕ)} {k v : ℕ} (h : l.lookup k = some v) : (k, v) ∈ l := by
  obtain ⟨l₁, l₂, rfl, -⟩ := lookup_eq_some_iff.mp h
  simp

end Lists

def Routine.owes (r : ℕ) : Routine → Bool
  | .calling r' _ _ _ => r' = r
  | .dropping r' => r' = r
  | _ => false

def Routine.submits (r : ℕ) : Routine → Bool
  | .adding r' => r' = r
  | .sending r' => r' = r
  | _ => false

def Routine.Under : Routine → Prop
  | .calling r id _ _ => id = cmdID r
  | .removing id found _ => ∀ r ∈ found, id = cmdID r
  | _ => True

def Client.due (s : Client) (r : ℕ) : ℕ := s.called r + s.routines.countP (Routine.owes r)

structure Submits (s : Client) : Prop where
  submits_le : ∀ r, s.routines.countP (Routine.submits r) ≤ 1
  submits_unsent : ∀ routine ∈ s.routines, ∀ r, routine.submits r →
    s.status r = .unsent ∧ r < s.made
  fresh : ∀ r, s.made ≤ r → s.status r = .unsent

structure Inv (s : Client) : Prop extends Submits s where
  due_le : ∀ r, s.due r ≤ 1
  due_sent : ∀ r, 0 < s.due r → s.status r = .sent
  /-- A request that is registered when its callback is due is one that somebody will remove. -/
  held : ∀ p ∈ s.requests, 0 < s.due p.2 → ∃ routine ∈ s.routines, routine.holds p.2
  ids : ∀ p ∈ s.requests, p.1 = cmdID p.2
  under : ∀ routine ∈ s.routines, routine.Under
  keys : (s.requests.map Prod.fst).Nodup

theorem Inv.start : Inv Client.start where
  due_le := fun _ => Nat.zero_le _
  due_sent := fun _ h => absurd h (Nat.lt_irrefl 0)
  held := fun _ hp => by cases hp
  ids := fun _ hp => by cases hp
  under := fun _ hr => by cases hr
  keys := nodup_nil
  submits_le := fun _ => Nat.zero_le _
  submits_unsent := fun _ hr => by cases hr
  fresh := fun _ _ => rfl

section Steps

variable {s s' : Client} {i r id : ℕ} {old new : Routine} {answer : Answer} {role : Role}

theorem due_set (hi : s.routines[i]? = some old) (new : Routine) (r : ℕ) :
    (s.set i new).due r + (old.owes r).toNat = s.due r + (new.owes r).toNat := by
  have hcount := countP_set_add (p := Routine.owes r) hi new
  simp only [Client.due, Client.set, Client.called]
  omega

theorem due_set_eq (hi : s.routines[i]? = some old) (new : Routine)
    (howes : ∀ r, new.owes r = old.owes r) (r : ℕ) : (s.set i new).due r = s.due r := by
  have hdue := due_set hi new r
  rw [howes] at hdue
  omega

theorem due_call (hi : s.routines[i]? = some old) (howes : ∀ r', old.owes r' = decide (r = r'))
    (hnew : ∀ r, new.owes r = false) (answer : Answer) (r' : ℕ) :
    Client.due { s.set i new with calls := s.calls ++ [(r, answer)] } r' = s.due r' := by
  have hcount := countP_set_add (p := Routine.owes r') hi new
  rw [howes, hnew, Bool.toNat_false, Nat.add_zero] at hcount
  simp only [Client.due, Client.called, Client.set, countP_append, countP_singleton]
  by_cases h : r = r'
  · simp only [h, decide_true, Bool.toNat_true, if_true] at hcount ⊢
    omega
  · simp only [h, decide_false, Bool.toNat_false] at hcount ⊢
    simp
    omega

theorem Submits.set (h : Submits s) (hi : s.routines[i]? = some old) (new : Routine)
    (hsubmits : ∀ r, new.submits r → old.submits r) : Submits (s.set i new) := by
  refine { h with
    submits_le := fun r => ?_
    submits_unsent := forall_mem_set h.submits_unsent fun r hr =>
      h.submits_unsent old (mem_of_getElem? hi) r (hsubmits r hr) }
  have hcount := countP_set_add (p := Routine.submits r) hi new
  have hle := h.submits_le r
  have hnew : (new.submits r).toNat ≤ (old.submits r).toNat := by
    cases hr : new.submits r with
    | true => exact Nat.le_of_eq (by rw [hsubmits r hr])
    | false => exact Nat.zero_le _
  simp only [Client.set]
  omega

theorem Inv.set (h : Inv s) (hi : s.routines[i]? = some old) (howes : ∀ r, new.owes r = old.owes r)
    (hsubmits : ∀ r, new.submits r → old.submits r)
    (hholds : ∀ r, old.holds r → new.holds r) (hunder : new.Under) : Inv (s.set i new) := by
  have hdue := due_set_eq hi new howes
  exact { h with
    toSubmits := h.toSubmits.set hi new hsubmits
    due_le := fun r => (hdue r).symm ▸ h.due_le r
    due_sent := fun r hr => h.due_sent r (hdue r ▸ hr)
    held := fun p hp hr => exists_mem_set hi (hholds p.2) (h.held p hp (hdue p.2 ▸ hr))
    under := forall_mem_set h.under hunder }

theorem Inv.add (h : Inv s) (hi : s.routines[i]? = some (.adding r)) :
    Inv { (s.remove (cmdID r)).set i (.sending r) with
      requests := (cmdID r, r) :: (s.remove (cmdID r)).requests } := by
  have hset : Inv (s.set i (.sending r)) :=
    h.set hi (fun _ => rfl) (fun _ hr => hr) (fun _ hr => hr) trivial
  have hunsent : s.status r = .unsent :=
    (h.submits_unsent _ (mem_of_getElem? hi) r (by simp [Routine.submits])).1
  refine { hset with
    held := fun p hp hr => ?_
    ids := fun p hp => ?_
    keys := ?_ }
  · rcases mem_cons.mp hp with rfl | hp
    · -- its callback is not due, since it was not yet written
      have hsent := hset.due_sent r hr
      rw [show (s.set i (.sending r)).status r = s.status r from rfl, hunsent] at hsent
      cases hsent
    · exact hset.held p (mem_filter.mp hp).1 hr
  · rcases mem_cons.mp hp with rfl | hp
    · rfl
    · exact h.ids p (mem_filter.mp hp).1
  · refine nodup_cons.mpr ⟨fun hmem => ?_, ?_⟩
    · obtain ⟨p, hp, hid⟩ := mem_map.mp hmem
      have := (mem_filter.mp hp).2
      simp [hid] at this
    · exact h.keys.sublist (filter_sublist.map _)

variable {status : Status}

theorem Submits.sent (h : Submits s) (hi : s.routines[i]? = some (.sending r))
    (hnew : ∀ r, new.submits r = false) :
    Submits { s.set i new with status := Function.update s.status r status } := by
  have hset : Submits (s.set i new) := h.set hi new fun r hr => absurd hr (by simp [hnew])
  have hold := h.submits_unsent _ (mem_of_getElem? hi) r (by simp [Routine.submits])
  refine { hset with
    submits_unsent := fun routine hr r' hsub => ?_
    fresh := fun r' hr => ?_ }
  · have hne : r' ≠ r := by
      rintro rfl
      -- it was the only one
      have hpos : 0 < (s.routines.set i new).countP (Routine.submits r') :=
        countP_pos_iff.mpr ⟨routine, hr, hsub⟩
      have hcount := countP_set_add (p := Routine.submits r') hi new
      have hle := h.submits_le r'
      rw [hnew] at hcount
      simp only [Routine.submits, decide_true, Bool.toNat_true, Bool.toNat_false] at hcount
      omega
    have hunsent := hset.submits_unsent routine hr r' hsub
    exact ⟨(Function.update_of_ne hne _ _).trans hunsent.1, hunsent.2⟩
  · have hne : r' ≠ r := by
      rintro rfl
      exact absurd hold.2 (Nat.not_lt.mpr hr)
    exact (Function.update_of_ne hne _ _).trans (h.fresh r' hr)

theorem Inv.sent (h : Inv s) (hi : s.routines[i]? = some (.sending r))
    (howes : ∀ r, new.owes r = false) (hsubmits : ∀ r, new.submits r = false) (hunder : new.Under) :
    Inv { s.set i new with status := Function.update s.status r status } := by
  have hset : Inv (s.set i new) := h.set hi howes (fun r hr => absurd hr (by simp [hsubmits]))
    (fun r hr => absurd hr (by simp [Routine.holds])) hunder
  have hunsent := (h.submits_unsent _ (mem_of_getElem? hi) r (by simp [Routine.submits])).1
  refine { hset with
    toSubmits := h.toSubmits.sent hi hsubmits
    due_sent := fun r' hr => ?_ }
  have hsent : s.status r' = .sent := hset.due_sent r' hr
  have hne : r' ≠ r := by
    rintro rfl
    rw [hunsent] at hsent
    cases hsent
  exact (Function.update_of_ne hne _ _).trans hsent

theorem Inv.send (h : Inv s) (hi : s.routines[i]? = some (.sending r)) (ok : Bool) :
    Inv (s.send i r ok) := by
  unfold Client.send
  split
  · exact h.sent hi (fun _ => rfl) (fun _ => rfl) trivial
  · exact h.sent hi (fun _ => rfl) (fun _ => rfl) trivial

theorem Inv.due_eq_zero (h : Inv s) {p : ℕ × ℕ} (hp : p ∈ s.requests) (hfree : s.Free p.2) :
    s.due p.2 = 0 := by
  rcases Nat.eq_zero_or_pos (s.due p.2) with h0 | hpos
  · exact h0
  · obtain ⟨routine, hr, hholds⟩ := h.held p hp hpos
    rw [hfree.2 routine hr] at hholds
    cases hholds

theorem Inv.find (h : Inv s) (hi : s.routines[i]? = some (.looking id answer role))
    (hmem : (id, r) ∈ s.requests) (hfree : s.Free r) :
    Inv (s.set i (.calling r id answer role)) := by
  have hdue := due_set hi (.calling r id answer role)
  have hother : ∀ r', r' ≠ r → (s.set i (.calling r id answer role)).due r' = s.due r' := by
    intro r' hne
    simpa [Routine.owes, hne.symm] using hdue r'
  have hthis : (s.set i (.calling r id answer role)).due r = 1 := by
    simpa [Routine.owes, h.due_eq_zero hmem hfree] using hdue r
  refine { h with
    toSubmits := h.toSubmits.set hi _ fun _ hr => hr
    due_le := fun r' => ?_
    due_sent := fun r' hr => ?_
    held := fun p hp hr => ?_
    under := forall_mem_set h.under (h.ids (id, r) hmem) }
  · by_cases hr : r' = r
    · rw [hr]
      exact Nat.le_of_eq hthis
    · rw [hother r' hr]
      exact h.due_le r'
  · by_cases hr' : r' = r
    · rw [hr']
      exact hfree.1
    · rw [hother r' hr'] at hr
      exact h.due_sent r' hr
  · by_cases hr' : p.2 = r
    · exact ⟨.calling r id answer role, mem_set (List.getElem?_eq_some_iff.mp hi).1 _,
        by simp [Routine.holds, hr']⟩
    · rw [hother p.2 hr'] at hr
      exact exists_mem_set hi (fun hh => by simp [Routine.holds] at hh) (h.held p hp hr)

theorem Inv.call (h : Inv s) (hi : s.routines[i]? = some old)
    (howes : ∀ r', old.owes r' = decide (r = r')) (hnew : ∀ r, new.owes r = false)
    (hsubmits : ∀ r, new.submits r = false)
    (hholds : ∀ r, old.holds r → new.holds r) (hunder : new.Under) :
    Inv { s.set i new with calls := s.calls ++ [(r, answer)] } := by
  have hdue := due_call hi howes hnew answer
  have hset := h.toSubmits.set hi new fun r hr => absurd hr (by simp [hsubmits])
  exact { h with
    submits_le := hset.submits_le
    submits_unsent := hset.submits_unsent
    due_le := fun r => (hdue r).symm ▸ h.due_le r
    due_sent := fun r hr => h.due_sent r (hdue r ▸ hr)
    held := fun p hp hr => exists_mem_set hi (hholds p.2) (h.held p hp (hdue p.2 ▸ hr))
    under := forall_mem_set h.under hunder }

theorem Inv.remove {found : Option ℕ} (h : Inv s)
    (hi : s.routines[i]? = some (.removing id found role)) :
    Inv ((s.remove id).set i (Client.after role)) := by
  have howes : ∀ r, (Client.after role).owes r = false := by cases role <;> exact fun _ => rfl
  have hsubmits : ∀ r, (Client.after role).submits r = false := by
    cases role <;> exact fun _ => rfl
  have hdue := due_set_eq hi (Client.after role) howes
  have hset := h.toSubmits.set hi (Client.after role) fun r hr => absurd hr (by simp [hsubmits])
  refine { h with
    submits_le := hset.submits_le
    submits_unsent := hset.submits_unsent
    due_le := fun r => (hdue r).symm ▸ h.due_le r
    due_sent := fun r hr => h.due_sent r (hdue r ▸ hr)
    held := fun p hp hr => ?_
    ids := fun p hp => h.ids p (mem_filter.mp hp).1
    under := forall_mem_set h.under (by cases role <;> trivial)
    keys := h.keys.sublist (filter_sublist.map _) }
  obtain ⟨hp, hid⟩ := mem_filter.mp hp
  refine exists_mem_set hi (fun hh => ?_) (h.held p hp (hdue p.2 ▸ hr))
  -- what it holds is registered under the id that is removed
  have hfound : found = some p.2 := by simpa [Routine.holds] using hh
  have hunder := h.under _ (mem_of_getElem? hi) p.2 hfound
  simp [h.ids p hp, hunder] at hid

theorem countP_dropping_le (h : Inv s) (r : ℕ) :
    (s.requests.map fun p => Routine.dropping p.2).countP (Routine.owes r) ≤ 1 := by
  have hkeys : s.requests.map Prod.fst = (s.requests.map Prod.snd).map cmdID := by
    rw [map_map]
    exact map_congr_left h.ids
  have hnodup : (s.requests.map Prod.snd).Nodup := List.Nodup.of_map cmdID (hkeys ▸ h.keys)
  calc (s.requests.map fun p => Routine.dropping p.2).countP (Routine.owes r)
      = (s.requests.map Prod.snd).count r := by
        rw [List.count, countP_map, countP_map]
        exact countP_congr fun p _ => by simp [Routine.owes]
    _ ≤ 1 := nodup_iff_count_le_one.mp hnodup r

theorem due_clear (hi : s.routines[i]? = some .clearing) (r : ℕ) : (s.clear i).due r =
      s.due r + (s.requests.map fun p => Routine.dropping p.2).countP (Routine.owes r) := by
  have hdue := due_set_eq hi .done (fun _ => rfl) r
  simp only [Client.due, Client.set, Client.called] at hdue
  simp only [Client.due, Client.clear, Client.called, countP_append]
  omega

theorem Inv.clear (h : Inv s) (hi : s.routines[i]? = some .clearing)
    (hfree : ∀ p ∈ s.requests, s.Free p.2) : Inv (s.clear i) := by
  have hset : Inv (s.set i .done) :=
    h.set hi (fun _ => rfl) (fun _ hr => hr) (fun _ hr => hr) trivial
  -- a goroutine is started for free requests only
  have hdrop : ∀ r, 0 < (s.requests.map fun p => Routine.dropping p.2).countP (Routine.owes r) →
      s.due r = 0 ∧ s.status r = .sent := by
    intro r hpos
    obtain ⟨routine, hmem, howes⟩ := countP_pos_iff.mp hpos
    obtain ⟨p, hp, rfl⟩ := mem_map.mp hmem
    obtain rfl : p.2 = r := by simpa [Routine.owes] using howes
    exact ⟨h.due_eq_zero hp (hfree p hp), (hfree p hp).1⟩
  refine { h with
    submits_le := fun r => ?_
    submits_unsent := forall_mem_append.mpr ⟨hset.submits_unsent, forall_mem_map.mpr ?_⟩
    due_le := fun r => ?_
    due_sent := fun r hr => ?_
    held := fun p hp => by cases hp
    ids := fun p hp => by cases hp
    under := forall_mem_append.mpr ⟨hset.under, forall_mem_map.mpr fun _ _ => trivial⟩
    keys := nodup_nil }
  · have hzero : (s.requests.map fun p => Routine.dropping p.2).countP (Routine.submits r) = 0 := by
      simp [countP_eq_zero, Routine.submits]
    simp only [Client.clear, countP_append, hzero]
    exact hset.submits_le r
  · exact fun p _ r hsub => by cases hsub
  · rw [due_clear hi]
    have hle := countP_dropping_le h r
    have hdue_le := h.due_le r
    have := hdrop r
    omega
  · rw [due_clear hi] at hr
    rcases Nat.eq_zero_or_pos
      ((s.requests.map fun p => Routine.dropping p.2).countP (Routine.owes r)) with hzero | hpos
    · exact h.due_sent r (by omega)
    · exact (hdrop r hpos).2

theorem Inv.spawn (h : Inv s) (new : Routine) (howes : ∀ r, new.owes r = false)
    (hsubmits : ∀ r, new.submits r = false) (hunder : new.Under) :
    Inv { s with routines := s.routines ++ [new] } := by
  have hdue : ∀ r, Client.due { s with routines := s.routines ++ [new] } r = s.due r := by
    intro r
    simp [Client.due, Client.called, howes]
  refine { h with
    submits_le := fun r => by simpa [hsubmits] using h.submits_le r
    submits_unsent := forall_mem_append.mpr ⟨h.submits_unsent, forall_mem_singleton.mpr ?_⟩
    due_le := fun r => (hdue r).symm ▸ h.due_le r
    due_sent := fun r hr => h.due_sent r (hdue r ▸ hr)
    held := fun p hp hr => ?_
    under := forall_mem_append.mpr ⟨h.under, forall_mem_singleton.mpr hunder⟩ }
  · exact fun r hr => absurd hr (by simp [hsubmits])
  · obtain ⟨routine, hmem, hholds⟩ := h.held p hp (hdue p.2 ▸ hr)
    exact ⟨routine, mem_append_left _ hmem, hholds⟩

theorem Inv.request (h : Inv s) :
    Inv { s with made := s.made + 1, routines := s.routines ++ [.adding s.made] } := by
  have hnone : s.routines.countP (Routine.submits s.made) = 0 := by
    refine countP_eq_zero.mpr fun routine hr hsub => ?_
    exact Nat.lt_irrefl _ (h.submits_unsent routine hr _ hsub).2
  have hdue : ∀ r, Client.due
      { s with made := s.made + 1, routines := s.routines ++ [.adding s.made] } r = s.due r := by
    intro r
    simp [Client.due, Client.called, Routine.owes]
  refine { h with
    submits_le := fun r => ?_
    submits_unsent := fun routine hr r hsub => ?_
    fresh := fun r hr => h.fresh r (Nat.le_of_succ_le hr)
    due_le := fun r => (hdue r).symm ▸ h.due_le r
    due_sent := fun r hr => h.due_sent r (hdue r ▸ hr)
    held := fun p hp hr => ?_
    under := forall_mem_append.mpr ⟨h.under, forall_mem_singleton.mpr trivial⟩ }
  · rw [countP_append, countP_singleton]
    by_cases hr : s.made = r
    · subst hr
      rw [hnone]
      split <;> omega
    · simpa [Routine.submits, hr] using h.submits_le r
  · rcases mem_append.mp hr with hr | hr
    · obtain ⟨hunsent, hlt⟩ := h.submits_unsent routine hr r hsub
      exact ⟨hunsent, Nat.lt_succ_of_lt hlt⟩
    · obtain rfl := mem_singleton.mp hr
      obtain rfl : s.made = r := by simpa [Routine.submits] using hsub
      exact ⟨h.fresh _ (Nat.le_refl _), Nat.lt_succ_self _⟩
  · obtain ⟨routine, hmem, hholds⟩ := h.held p hp (hdue p.2 ▸ hr)
    exact ⟨routine, mem_append_left _ hmem, hholds⟩

theorem Inv.go {routine : Routine} {ok : Bool} (h : Inv s) (hi : s.routines[i]? = some routine)
    (hfree : s.FindsFree routine) (hgo : s.go i ok routine = some s') : Inv s' := by
  cases routine with
  | adding r =>
    cases hgo
    exact h.add hi
  | sending r =>
    cases hgo
    exact h.send hi ok
  | starting r =>
    simp only [Client.go] at hgo
    split at hgo
    · cases hgo
    · cases hgo
      exact h.set hi (fun _ => rfl) (fun _ hr => hr) (fun _ hr => hr) trivial
  | selecting r closeCh =>
    simp only [Client.go] at hgo
    split at hgo
    · cases hgo
      exact h.set hi (fun _ => rfl) (fun _ hr => hr) (fun _ hr => hr) trivial
    · split at hgo
      · cases hgo
        exact h.set hi (fun _ => rfl) (fun _ hr => hr) (fun _ hr => hr) trivial
      · cases hgo
  | looking id answer role =>
    cases hlook : s.requests.lookup id with
    | some r =>
      rw [Client.go, hlook] at hgo
      cases hgo
      exact h.find hi (mem_of_lookup hlook) (hfree r hlook)
    | none =>
      rw [Client.go, hlook] at hgo
      cases hgo
      exact h.set hi (fun _ => rfl) (fun _ hr => hr) (fun _ hr => by cases hr)
        (fun r hr => by cases hr)
  | calling r id answer role =>
    cases hgo
    have hunder : id = cmdID r := h.under _ (mem_of_getElem? hi)
    refine h.call hi (fun _ => rfl) (fun _ => rfl) (fun _ => rfl) (fun r' hr => ?_) ?_
    · simpa [Routine.holds] using hr
    · rintro r' hr
      cases hr
      exact hunder
  | removing id found role =>
    cases hgo
    exact h.remove hi
  | reading | done => cases hgo
  | clearing =>
    cases hgo
    exact h.clear hi hfree
  | dropping r =>
    cases hgo
    exact h.call hi (fun _ => rfl) (fun _ => rfl) (fun _ => rfl) (fun _ hr => by cases hr) trivial

theorem Inv.next {act : Act} (h : Inv s) (halone : s.Alone act) (hnext : s.next act = some s') :
    Inv s' := by
  cases act with
  | startConnecting =>
    simp only [Client.next] at hnext
    split at hnext
    · split at hnext
      · cases hnext
        exact { h with }
      · cases hnext
        exact { h with }
    · cases hnext
  | transport =>
    simp only [Client.next] at hnext
    split at hnext
    · cases hnext
      exact { h.spawn .reading (fun _ => rfl) (fun _ => rfl) trivial with }
    · cases hnext
  | connect | close =>
    simp only [Client.next] at hnext
    split at hnext
    · cases hnext
      exact { h with }
    · cases hnext
  | disconnect reconnect =>
    simp only [Client.next] at hnext
    split at hnext
    · cases hnext
      exact { h.spawn .clearing (fun _ => rfl) (fun _ => rfl) trivial with }
    · cases hnext
  | request =>
    cases hnext
    exact h.request
  | reply i id =>
    simp only [Client.next] at hnext
    split at hnext
    · rename_i hreading
      cases hnext
      exact h.set hreading.1 (fun _ => rfl) (fun _ hr => hr) (fun _ hr => hr) trivial
    · cases hnext
  | go i ok =>
    simp only [Client.next] at hnext
    split at hnext
    · rename_i routine hi
      exact h.go hi (halone routine hi) hnext
    · cases hnext

end Steps

theorem Inv.once {s : Client} (h : Inv s) : s.Once := by
  intro r
  have hle : s.called r ≤ s.due r := Nat.le_add_right _ _
  refine ⟨Nat.le_trans hle (h.due_le r), fun hfailed => ?_⟩
  rcases Nat.eq_zero_or_pos (s.called r) with hzero | hpos
  · exact hzero
  · have hsent := h.due_sent r (Nat.lt_of_lt_of_le hpos hle)
    rw [hfailed] at hsent
    cases hsent

/-- If only free requests are found, every callback is called at most once, and not at all if
`sendAsync` returned an error. -/
theorem once_of_run {acts : List Act} {t : Client}
    (halone : Meets Client.next Client.Alone .start acts)
    (hrun : run Client.next .start acts = some t) : t.Once :=
  (Transitions.run_invariant (I := Inv) (fun _ _ _ h hC hnext => h.next hC hnext) .start halone
    hrun).once

def repliedActs : List Act :=
  [.startConnecting, .transport, .connect, .request, .go 1 true, .go 1 true, .go 1 true,
    .reply 0 1, .go 0 true, .go 0 true, .go 0 true, .go 1 true, .go 1 true, .go 1 true]

theorem repliedActs_once :
    ∃ t, run Client.next .start repliedActs = some t ∧ t.called 0 = 1 ∧ t.Once := by
  have halone : Meets Client.next Client.Alone .start repliedActs := by decide
  exact ⟨_, rfl, rfl, once_of_run halone rfl⟩

def raceActs : List Act :=
  [.startConnecting, .transport, .connect, .request, .go 1 true, .go 1 true, .go 1 true,
    .reply 0 1, .go 1 true, .go 0 true, .go 1 true, .go 0 true, .go 1 true]

def refusedActs : List Act :=
  [.startConnecting, .transport, .connect, .request, .go 1 true, .go 1 false, .disconnect false,
    .go 2 true, .go 3 true]

/-- A callback is called twice, and one although `sendAsync` returned an error. -/
theorem raceActs_refusedActs_not_once : (∃ t, run Client.next .start raceActs = some t ∧
      t.calls = [(0, .reply), (0, .errTimeout)] ∧ ¬ t.Once) ∧
    ∃ t, run Client.next .start refusedActs = some t ∧ t.status 0 = .failed ∧
      t.calls = [(0, .errClientDisconnected)] ∧ ¬ t.Once := by
  refine ⟨⟨_, rfl, rfl, fun h => ?_⟩, _, rfl, rfl, rfl, fun h => ?_⟩
  · exact absurd (h 0).1 (by decide)
  · exact absurd ((h 0).2 rfl) (by decide)

end Kairos.Daemon.PubSub
