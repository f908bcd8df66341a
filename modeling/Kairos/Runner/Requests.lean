import Mathlib.Data.Int.Order.Basic
import Mathlib.Data.List.Nodup
import Kairos.Library.Transitions

/-!
# The requests table

`deliverAsync` of `server/runner/worker.go` registers a callback in `requests`, under its
`DeliverID`, and starts a goroutine that waits for the timeout or the close. The handler of
`reciveMessage` and these goroutines look the callback up, invoke it and remove the entry as
separate steps, by the `DeliverID` alone.
-/

namespace Kairos

open List Option
open Transitions (Meets run)
open Function (update update_apply update_of_ne update_self)

inductive Timer where
  | off
  | waiting
  | found (j : ℕ)
  | leaving
  deriving DecidableEq

inductive Handler where
  | idle
  | looked (k : ℕ) (found : Option ℕ)
  | removed (found : Option ℕ)
  deriving DecidableEq

/-- The table and the goroutines. Deliveries are numbered by the calls of `deliverAsync`. -/
structure RequestState where
  count : ℕ
  deliverID : ℕ → ℤ
  requests : ℤ → Option ℕ
  timer : ℕ → Timer
  handler : Handler
  invoked : List ℕ
  /-- For each entry removed, the delivery that registered it and the one it was removed for. -/
  removals : List (ℕ × ℕ)

inductive RequestAct where
  | issue (deliverID : ℤ) (sent : Bool)
  | reply (k : ℕ)
  | takeOut
  | answer
  /-- The goroutine of `k` looks its entry up, at the timeout or when the worker closes. -/
  | fire (k : ℕ)
  | expire (k : ℕ)
  | leave (k : ℕ)

namespace RequestState

def start : RequestState := ⟨0, fun _ => 0, fun _ => none, fun _ => .off, .idle, [], []⟩

def remove (k : ℕ) (s : RequestState) : RequestState :=
  { s with
    requests := update s.requests (s.deliverID k) none
    removals := s.removals ++ ((s.requests (s.deliverID k)).map (·, k)).toList }

/-- `deliverAsync`: the callback is registered, and the goroutine started if the message is sent. -/
def issue (id : ℤ) (sent : Bool) (s : RequestState) : RequestState :=
  { s with
    count := s.count + 1
    deliverID := update s.deliverID s.count id
    requests := update s.requests id (some s.count)
    timer := update s.timer s.count (if sent then .waiting else .off) }

def next (s : RequestState) : RequestAct → Option RequestState
  | .issue id sent => some (s.issue id sent)
  | .reply k =>
    if s.handler = .idle ∧ k < s.count then
      some { s with handler := .looked k (s.requests (s.deliverID k)) }
    else none
  | .takeOut =>
    match s.handler with
    | .looked k found => some { s.remove k with handler := .removed found }
    | _ => none
  | .answer =>
    match s.handler with
    | .removed found => some { s with invoked := s.invoked ++ found.toList, handler := .idle }
    | _ => none
  | .fire k =>
    if s.timer k = .waiting then
      let found := match s.requests (s.deliverID k) with
        | some j => .found j
        | none => .leaving
      some { s with timer := update s.timer k found }
    else none
  | .expire k =>
    match s.timer k with
    | .found j =>
      some { s with invoked := s.invoked ++ [j], timer := update s.timer k .leaving }
    | _ => none
  | .leave k =>
    if s.timer k = .leaving then some { s.remove k with timer := update s.timer k .off }
    else none

def lookedUp (s : RequestState) : Option (ℕ × Option ℕ) :=
  match s.handler with
  | .looked k found => some (k, found)
  | _ => none

/-- A `DeliverID` is used again only when no goroutine with it is left and the handler is not about
to remove its entry. A reply finds the entry of its own delivery, whose goroutine has not looked up.
A goroutine does not look up what the handler has found and not removed. -/
def Orderly (s : RequestState) : RequestAct → Prop
  | .issue id _ => (∀ k < s.count, s.deliverID k = id → s.timer k = .off) ∧
      ∀ x ∈ s.lookedUp, s.deliverID x.1 ≠ id
  | .reply k => ∀ j ∈ s.requests (s.deliverID k), j = k ∧
      ∀ i < s.count, s.deliverID i = s.deliverID k → s.timer i = .off ∨ s.timer i = .waiting
  | .fire k => ∀ x ∈ s.lookedUp, x.2 ≠ none → s.deliverID x.1 ≠ s.deliverID k
  | .takeOut => True
  | .answer => True
  | .expire _ => True
  | .leave _ => True

instance (s : RequestState) : DecidablePred s.Orderly
  | .issue _ _ => inferInstanceAs (Decidable (_ ∧ _))
  | .reply k => inferInstanceAs (Decidable (∀ j ∈ s.requests (s.deliverID k), _))
  | .fire _ => inferInstanceAs (Decidable (∀ x ∈ s.lookedUp, _))
  | .takeOut | .answer | .expire _ | .leave _ => .isTrue trivial

structure Sane (s : RequestState) : Prop where
  registered : ∀ {id j}, s.requests id = some j → j < s.count ∧ s.deliverID j = id
  timed : ∀ {k}, s.timer k ≠ .off → k < s.count
  alone : ∀ {k j}, s.timer k ≠ .off → s.requests (s.deliverID k) = some j → j = k
  found : ∀ {k j}, s.timer k = .found j → j = k ∧ k ∉ s.invoked
  looked : ∀ {k f}, s.handler = .looked k f → k < s.count ∧
    (∀ {j}, s.requests (s.deliverID k) = some j → j = k) ∧
    ∀ {j}, f = some j → j = k ∧ k ∉ s.invoked ∧ s.timer k ≠ .found k
  removed : ∀ {j}, s.handler = .removed (some j) → j < s.count ∧
    s.requests (s.deliverID j) ≠ some j ∧ j ∉ s.invoked ∧ s.timer j ≠ .found j
  spent : ∀ {j}, j ∈ s.invoked → j < s.count ∧
    (s.requests (s.deliverID j) = some j → s.timer j = .leaving)
  once : s.invoked.Nodup
  own : ∀ x ∈ s.removals, x.1 = x.2

variable {s s' : RequestState} {k : ℕ}

theorem sane_start : start.Sane where
  registered := nofun
  timed := fun h => absurd rfl h
  alone := nofun
  found := nofun
  looked := nofun
  removed := nofun
  spent := fun h => absurd h not_mem_nil
  once := nodup_nil
  own := fun _ h => absurd h not_mem_nil

theorem requests_remove {id : ℤ} {j : ℕ} (h : (s.remove k).requests id = some j) :
    s.requests id = some j := by
  have h : update s.requests (s.deliverID k) none id = some j := h
  rw [update_apply] at h
  split_ifs at h
  exact h

theorem own_remove (hs : s.Sane) (hk : ∀ {j}, s.requests (s.deliverID k) = some j → j = k) :
    ∀ x ∈ (s.remove k).removals, x.1 = x.2 := by
  intro x hx
  rcases mem_append.1 hx with hx | hx
  · exact hs.own x hx
  · rw [mem_toList, map_eq_some_iff] at hx
    obtain ⟨j, hj, rfl⟩ := hx
    exact hk hj

/-! ### Registrations -/

section

variable {id : ℤ} {sent : Bool} {j : ℕ}

theorem deliverID_issue (hj : j < s.count) : (s.issue id sent).deliverID j = s.deliverID j :=
  update_of_ne (Nat.ne_of_lt hj) _ _

theorem deliverID_issue_new : (s.issue id sent).deliverID s.count = id := update_self ..

theorem timer_issue (hj : j < s.count) : (s.issue id sent).timer j = s.timer j :=
  update_of_ne (Nat.ne_of_lt hj) _ _

theorem timer_issue_ne_off (hs : s.Sane) (h : (s.issue id sent).timer j ≠ .off) (hj : j ≠ s.count) :
    j < s.count := by
  refine hs.timed ?_
  rwa [← show (s.issue id sent).timer j = s.timer j from update_of_ne hj _ _]

theorem timer_issue_new_ne_found {i : ℕ} : (s.issue id sent).timer s.count ≠ .found i := by
  unfold issue
  cases sent <;> simp

theorem requests_issue (i : ℤ) :
    (s.issue id sent).requests i = if i = id then some s.count else s.requests i :=
  update_apply ..

theorem requests_issue_old {i : ℤ} (hj : j < s.count) (h : (s.issue id sent).requests i = some j) :
    i ≠ id ∧ s.requests i = some j := by
  rw [requests_issue] at h
  split_ifs at h with hi
  · exact absurd (some.inj h).symm (Nat.ne_of_lt hj)
  · exact ⟨hi, h⟩

theorem Sane.issue (hs : s.Sane) (ha : s.Orderly (.issue id sent)) : (s.issue id sent).Sane where
  registered := by
    intro i j h
    rw [requests_issue] at h
    split_ifs at h with hi
    · cases h
      exact ⟨Nat.lt_succ_self _, deliverID_issue_new.trans hi.symm⟩
    · obtain ⟨hj, hid⟩ := hs.registered h
      exact ⟨Nat.lt_succ_of_lt hj, (deliverID_issue hj).trans hid⟩
  timed := by
    intro k hk
    by_cases hnew : k = s.count
    · exact hnew ▸ Nat.lt_succ_self _
    · exact Nat.lt_succ_of_lt (timer_issue_ne_off hs hk hnew)
  alone := by
    intro k j hk h
    by_cases hnew : k = s.count
    · subst hnew
      rw [deliverID_issue_new, requests_issue, if_pos rfl] at h
      exact (some.inj h).symm
    · have hlt := timer_issue_ne_off hs hk hnew
      rw [timer_issue hlt] at hk
      -- A goroutine with the `DeliverID` would have to be off.
      rw [deliverID_issue hlt, requests_issue, if_neg fun hid => hk (ha.1 k hlt hid)] at h
      exact hs.alone hk h
  found := by
    intro k j hk
    by_cases hnew : k = s.count
    · exact absurd (hnew ▸ hk) timer_issue_new_ne_found
    · have hlt := timer_issue_ne_off hs (by rw [hk]; exact nofun) hnew
      rw [timer_issue hlt] at hk
      exact hs.found hk
  looked := by
    intro k f hf
    obtain ⟨hlt, hreg, hfound⟩ := hs.looked hf
    refine ⟨Nat.lt_succ_of_lt hlt, fun {j} h => ?_, fun {j} hj => ?_⟩
    · have hid : s.deliverID k ≠ id :=
        ha.2 (k, f) (by rw [lookedUp, show s.handler = _ from hf]; rfl)
      rw [deliverID_issue hlt, requests_issue, if_neg hid] at h
      exact hreg h
    · rw [timer_issue hlt]
      exact hfound hj
  removed := by
    intro j hj
    obtain ⟨hlt, hreg, hinvoked, htimer⟩ := hs.removed hj
    refine ⟨Nat.lt_succ_of_lt hlt, fun h => ?_, hinvoked, ?_⟩
    · rw [deliverID_issue hlt] at h
      exact hreg (requests_issue_old hlt h).2
    · rwa [timer_issue hlt]
  spent := by
    intro j hj
    obtain ⟨hlt, hreg⟩ := hs.spent hj
    refine ⟨Nat.lt_succ_of_lt hlt, fun h => ?_⟩
    rw [deliverID_issue hlt] at h
    rw [timer_issue hlt]
    exact hreg (requests_issue_old hlt h).2
  once := hs.once
  own := hs.own

end

/-! ### Replies -/

theorem Sane.reply (hs : s.Sane) (hk : k < s.count) (ha : s.Orderly (.reply k)) :
    Sane { s with handler := .looked k (s.requests (s.deliverID k)) } where
  __ := hs
  looked := by
    intro k' f hf
    cases hf
    refine ⟨hk, fun {j} h => (ha j h).1, fun {j} hj => ?_⟩
    obtain ⟨rfl, htimers⟩ := ha j hj
    refine ⟨rfl, fun hinvoked => ?_, fun hfound => ?_⟩
    · -- An entry of a callback that has been invoked is held by its goroutine.
      have hleaving := (hs.spent hinvoked).2 hj
      exact (htimers j hk rfl).elim (by simp [hleaving]) (by simp [hleaving])
    · have hfound : s.timer j = .found j := hfound
      exact (htimers j hk rfl).elim (by simp [hfound]) (by simp [hfound])
  removed := nofun

variable {f : Option ℕ}

theorem Sane.takeOut (hs : s.Sane) (hf : s.handler = .looked k f) :
    Sane { s.remove k with handler := .removed f } where
  registered := fun h => hs.registered (requests_remove h)
  timed := hs.timed
  alone := fun hk h => hs.alone hk (requests_remove h)
  found := hs.found
  looked := nofun
  removed := by
    intro j hj
    obtain ⟨hlt, -, hfound⟩ := hs.looked hf
    obtain ⟨rfl, hinvoked, htimer⟩ := hfound (Handler.removed.inj hj)
    refine ⟨hlt, ?_, hinvoked, htimer⟩
    simp [remove]
  spent := fun hj => ⟨(hs.spent hj).1, fun h => (hs.spent hj).2 (requests_remove h)⟩
  once := hs.once
  own := own_remove hs (hs.looked hf).2.1

theorem Sane.answer (hs : s.Sane) (hf : s.handler = .removed f) :
    Sane { s with invoked := s.invoked ++ f.toList, handler := .idle } := by
  cases f with
  | none =>
    rw [toList_none, append_nil]
    exact { hs with looked := nofun, removed := nofun }
  | some j =>
    obtain ⟨hlt, hreg, hinvoked, htimer⟩ := hs.removed hf
    refine
      { hs with
        found := fun {k i} hk => ?_
        looked := nofun
        removed := nofun
        spent := fun {i} hi => ?_
        once := ?_ }
    · obtain ⟨rfl, hk'⟩ := hs.found hk
      refine ⟨rfl, ?_⟩
      rw [toList_some, mem_append, mem_singleton, not_or]
      refine ⟨hk', ?_⟩
      rintro rfl
      exact htimer hk
    · rcases mem_append.1 hi with hi | hi
      · exact hs.spent hi
      · obtain rfl : i = j := by simpa using hi
        exact ⟨hlt, fun h => absurd h hreg⟩
    · rw [toList_some, nodup_append_comm]
      exact nodup_cons.2 ⟨hinvoked, hs.once⟩

/-! ### Timeouts -/

theorem Sane.fire (hs : s.Sane) (hk : s.timer k = .waiting) (ha : s.Orderly (.fire k)) {t : Timer}
    (ht : t = .leaving ∨ t = .found k ∧ s.requests (s.deliverID k) = some k) :
    Sane { s with timer := update s.timer k t } := by
  have hsame {j : ℕ} (hj : j ≠ k) : update s.timer k t j = s.timer j :=
    update_of_ne hj _ _
  have hleaving {j : ℕ} (h : s.timer j = .leaving) : update s.timer k t j = .leaving := by
    rw [update_of_ne, h]
    rintro rfl
    simp [hk] at h
  -- Where it finds its entry, nobody else has found or invoked it.
  have hfree (h : s.requests (s.deliverID k) = some k) : k ∉ s.invoked := by
    intro hinvoked
    have := (hs.spent hinvoked).2 h
    simp [hk] at this
  have hne {j : ℕ} (h : update s.timer k t j ≠ .off) : s.timer j ≠ .off := by
    by_cases hj : j = k
    · simp [hj, hk]
    · rwa [update_of_ne hj] at h
  refine
    { hs with
      timed := fun h => hs.timed (hne h)
      alone := fun h => hs.alone (hne h)
      found := fun {i j} h => ?_
      looked := fun {i f} hf => ?_
      removed := fun {j} hj => ?_
      spent := fun {j} hj => ⟨(hs.spent hj).1, fun h => hleaving ((hs.spent hj).2 h)⟩ }
  · by_cases hi : i = k
    · subst hi
      have h : t = .found j := by simpa using h
      rcases ht with rfl | ⟨rfl, hreg⟩
      · exact absurd h nofun
      · exact ⟨(Timer.found.inj h).symm, hfree hreg⟩
    · exact hs.found ((hsame hi).symm.trans h)
  · obtain ⟨hlt', hreg, hfound⟩ := hs.looked hf
    refine ⟨hlt', hreg, fun {j} hj => ?_⟩
    obtain ⟨rfl, hinvoked, htimer⟩ := hfound hj
    refine ⟨rfl, hinvoked, ?_⟩
    have hid := ha (j, f) (by rw [lookedUp, show s.handler = _ from hf]; rfl) (by simp [hj])
    have hjk : j ≠ k := fun h => hid (congrArg s.deliverID h)
    exact fun h => htimer ((hsame hjk).symm.trans h)
  · obtain ⟨hlt', hreg, hinvoked, htimer⟩ := hs.removed hj
    refine ⟨hlt', hreg, hinvoked, ?_⟩
    by_cases hjk : j = k
    · subst hjk
      rcases ht with rfl | ⟨rfl, h⟩
      · simp
      · exact absurd h hreg
    · exact fun h => htimer ((hsame hjk).symm.trans h)

theorem Sane.expire (hs : s.Sane) {j : ℕ} (hk : s.timer k = .found j) :
    Sane { s with invoked := s.invoked ++ [j], timer := update s.timer k .leaving } := by
  obtain ⟨rfl, hinvoked⟩ := hs.found hk
  have hne {i : ℕ} (h : update s.timer j .leaving i ≠ .off) : s.timer i ≠ .off := by
    by_cases hi : i = j
    · simp [hi, hk]
    · rwa [update_of_ne hi] at h
  -- A callback that somebody else has found is another one.
  have hother {i : ℕ} (hi : i ∉ s.invoked) (h : s.timer i ≠ .found i) :
      i ∉ s.invoked ++ [j] ∧ update s.timer j .leaving i ≠ .found i := by
    have hij : i ≠ j := by
      rintro rfl
      exact h hk
    rw [mem_append, mem_singleton, not_or, update_of_ne hij]
    exact ⟨⟨hi, hij⟩, h⟩
  refine
    { hs with
      timed := fun h => hs.timed (hne h)
      alone := fun h => hs.alone (hne h)
      found := fun {i l} h => ?_
      looked := fun {i f} hf => ?_
      removed := fun {i} hi => ?_
      spent := fun {i} hi => ?_
      once := ?_ }
  · by_cases hi : i = j
    · subst hi
      simp at h
    · have h : s.timer i = .found l := by simpa [update_of_ne hi] using h
      obtain ⟨rfl, hl⟩ := hs.found h
      exact ⟨rfl, by simp [hl, hi]⟩
  · obtain ⟨hlt, hreg, hfound⟩ := hs.looked hf
    refine ⟨hlt, hreg, fun {l} hl => ?_⟩
    obtain ⟨rfl, hi, htimer⟩ := hfound hl
    exact ⟨rfl, hother hi htimer⟩
  · obtain ⟨hlt, hreg, hi, htimer⟩ := hs.removed hi
    exact ⟨hlt, hreg, hother hi htimer⟩
  · rcases mem_append.1 hi with hi | hi
    · have hij : i ≠ j := fun h => hinvoked (h ▸ hi)
      obtain ⟨hlt, hreg⟩ := hs.spent hi
      exact ⟨hlt, fun h => (update_of_ne hij _ _).trans (hreg h)⟩
    · obtain rfl := mem_singleton.1 hi
      exact ⟨hs.timed (by simp [hk]), fun _ => update_self ..⟩
  · rw [nodup_append_comm]
    exact nodup_cons.2 ⟨hinvoked, hs.once⟩

theorem Sane.leave (hs : s.Sane) (hk : s.timer k = .leaving) :
    Sane { s.remove k with timer := update s.timer k .off } := by
  have hne {i : ℕ} {t : Timer} (ht : t ≠ .off) (h : update s.timer k .off i = t) :
      s.timer i = t := by
    by_cases hi : i = k
    · rw [hi, update_self] at h
      exact absurd h.symm ht
    · rwa [update_of_ne hi] at h
  have hoff {i : ℕ} (h : update s.timer k .off i ≠ .off) : s.timer i ≠ .off :=
    fun hi => h ((hne h rfl).symm.trans hi)
  refine
    { registered := fun h => hs.registered (requests_remove h)
      timed := fun h => hs.timed (hoff h)
      alone := fun hi h => hs.alone (hoff hi) (requests_remove h)
      found := fun h => hs.found (hne nofun h)
      looked := fun {i f} hf => ?_
      removed := fun {j} hj => ?_
      spent := fun {j} hj => ⟨(hs.spent hj).1, fun h => ?_⟩
      once := hs.once
      own := own_remove hs (hs.alone (by simp [hk])) }
  · obtain ⟨hlt, hreg, hfound⟩ := hs.looked hf
    refine ⟨hlt, fun h => hreg (requests_remove h), fun hj => ?_⟩
    obtain ⟨rfl, hinvoked, htimer⟩ := hfound hj
    exact ⟨rfl, hinvoked, fun h => htimer (hne nofun h)⟩
  · obtain ⟨hlt, hreg, hinvoked, htimer⟩ := hs.removed hj
    exact ⟨hlt, fun h => hreg (requests_remove h), hinvoked, fun h => htimer (hne nofun h)⟩
  · -- The entry of the goroutine itself is gone.
    have hjk : j ≠ k := by
      rintro rfl
      simp [remove] at h
    exact (update_of_ne hjk _ _).trans ((hs.spent hj).2 (requests_remove h))

theorem Sane.next {a : RequestAct} (hs : s.Sane) (ha : s.Orderly a) (hnext : s.next a = some s') :
    s'.Sane := by
  cases a with
  | issue id sent => exact some.inj hnext ▸ hs.issue ha
  | reply k =>
    obtain ⟨⟨-, hk⟩, heq⟩ := ite_none_right_eq_some.1 hnext
    exact some.inj heq ▸ hs.reply hk ha
  | takeOut =>
    simp only [RequestState.next] at hnext
    split at hnext
    · exact some.inj hnext ▸ hs.takeOut ‹_›
    · exact absurd hnext nofun
  | answer =>
    simp only [RequestState.next] at hnext
    split at hnext
    · exact some.inj hnext ▸ hs.answer ‹_›
    · exact absurd hnext nofun
  | fire k =>
    obtain ⟨hk, heq⟩ := ite_none_right_eq_some.1 hnext
    refine some.inj heq ▸ hs.fire hk ha ?_
    cases h : s.requests (s.deliverID k) with
    | none => exact .inl rfl
    | some j =>
      obtain rfl := hs.alone (by simp [hk]) h
      exact .inr ⟨rfl, rfl⟩
  | expire k =>
    simp only [RequestState.next] at hnext
    split at hnext
    · exact some.inj hnext ▸ hs.expire ‹_›
    · exact absurd hnext nofun
  | leave k =>
    obtain ⟨hk, heq⟩ := ite_none_right_eq_some.1 hnext
    exact some.inj heq ▸ hs.leave hk

/-- In every orderly run, each callback is invoked at most once, and an entry is removed only for
the delivery that registered it. -/
theorem callbacks_once {as : List RequestAct} {s : RequestState} (has : Meets next Orderly start as)
    (hrun : run next start as = some s) : s.invoked.Nodup ∧ ∀ x ∈ s.removals, x.1 = x.2 := by
  have hs : s.Sane :=
    Transitions.run_invariant (I := Sane) (fun _ _ _ hI ha hnext => hI.next ha hnext) sane_start has
      hrun
  exact ⟨hs.once, hs.own⟩

/-- A delivery times out and is made again when its goroutine is gone, beside one answered twice. -/
theorem callbacks_once_after_retry :
    let as : List RequestAct := [.issue 5 true, .issue 6 true, .reply 1, .takeOut, .answer, .fire 0,
      .expire 0, .leave 0, .issue 5 true, .reply 1, .takeOut, .answer, .reply 2, .takeOut, .answer]
    ∃ s, Meets next Orderly start as ∧ run next start as = some s ∧
      s.invoked = [1, 0, 2] ∧ s.invoked.Nodup ∧ ∀ x ∈ s.removals, x.1 = x.2 := by
  intro as
  have has : Meets next Orderly start as := by decide +kernel
  exact ⟨_, has, rfl, rfl, callbacks_once has rfl⟩

/-- The goroutine looks up between the handler's look-up and removal: the callback is invoked twice.
And a retry before the first goroutine is gone loses its callback to it. -/
theorem callback_twice_and_entry_lost : (∃ s, run next start
        [.issue 5 true, .reply 0, .fire 0, .expire 0, .takeOut, .answer] = some s ∧
      s.invoked = [0, 0]) ∧ ∃ s, run next start
        [.issue 5 true, .fire 0, .expire 0, .issue 5 true, .leave 0] = some s ∧
      s.removals = [(1, 0)] :=
  ⟨⟨_, rfl, rfl⟩, ⟨_, rfl, rfl⟩⟩

end RequestState

end Kairos
