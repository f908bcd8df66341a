import Kairos.Daemon.BrokerRecords

/-!
# Transactions of the store

Bolt has one open write transaction at most, and whoever begins another one waits. Most functions of
`agent/store.go` run inside `Update`, which ends its transaction. The others begin and commit one
themselves, and some return in between.
-/

namespace Kairos.Daemon

open Strings

inductive BoltCall where
  | createBucketIfNotExists (name : GoString)
  | unmarshal (v : GoString)
  | other (ok : Bool)

def BoltCall.succeeds (json : Codec GoString BrokerRecordLocal) : BoltCall → Bool
  | .createBucketIfNotExists name => name != []
  | .unmarshal v => (json.decode v).isSome
  | .other ok => ok

structure Manual where
  deferred : Bool
  calls : List BoltCall

def Manual.ends (json : Codec GoString BrokerRecordLocal) (m : Manual) : Bool :=
  m.deferred || m.calls.all (BoltCall.succeeds json)

/-- The functions of the store. `ok` says whether all the texts that are read can be read. -/
inductive StoreCall where
  /-- The functions that run inside `Update`. -/
  | inUpdate
  | setBrokerRecord (fault : Option Fault) (br : BrokerRecordLocal)
  | deleteBroker (fault : Option Fault) (id : GoString)
  | getMeta (key : GoString)
  | getTasks (readable : Bool)
  | getBrokers (readable : Bool)
  | getExecutions (taskID : GoString) (readable : Bool)
  | getTriggers (readable : Bool)
  | deleteTrigger (trid : GoString)
  | getBrokerRecord (options : BrOptions)
  | getScript (name : GoString)
  | getScripts
  | deleteScript (name : GoString)
  | listScript
  | getQueue (k : GoString)

def StoreCall.manual (db : DB) : StoreCall → Option Manual
  | .inUpdate | .setBrokerRecord _ _ | .deleteBroker _ _ => none
  | .getMeta _ => some ⟨true, [.createBucketIfNotExists "meta"]⟩
  | .getTasks readable => some ⟨true, [.createBucketIfNotExists "tasks", .other readable]⟩
  | .getBrokers readable =>
    some ⟨true, [.createBucketIfNotExists "brokers", .other readable]⟩
  | .getExecutions taskID readable => some ⟨true,
    [.createBucketIfNotExists "executions", .other (db.executions.get taskID).isSome,
      .other readable]⟩
  | .getTriggers readable => some ⟨true, [.other readable]⟩
  | .deleteTrigger _ => some ⟨true, [.createBucketIfNotExists "trigger"]⟩
  | .getBrokerRecord options => some ⟨false,
    .createBucketIfNotExists "broker_record" ::
      .createBucketIfNotExists (itoa options.brokerID) ::
        (db.records (itoa options.brokerID)).entries.map fun e => .unmarshal e.2⟩
  | .getScript _ | .getScripts | .deleteScript _ | .listScript =>
    some ⟨false, [.createBucketIfNotExists "script"]⟩
  | .getQueue k =>
    some ⟨false, [.createBucketIfNotExists "queue", .createBucketIfNotExists k]⟩

/-- The database, as far as records of brokers go, and whether a transaction is left open. -/
structure LockRun where
  db : DB
  locked : Bool

namespace LockRun

variable (json : Codec GoString BrokerRecordLocal)

def after (db : DB) : StoreCall → DB
  | .setBrokerRecord fault br => (setBrokerRecord json fault br db).2
  | .deleteBroker fault id => deleteBroker fault id db
  | _ => db

def next (s : LockRun) (call : StoreCall × Bool) : Option LockRun :=
  if s.locked then none
  else if call.2 then
    some ⟨after json s.db call.1, (call.1.manual s.db).any fun m => !m.ends json⟩
  else some s

def Releases (s : LockRun) (call : StoreCall × Bool) : Prop :=
  ∃ s', s.next json call = some s' ∧ s'.locked = false

def Named (call : StoreCall × Bool) : Prop := call.2 → call.1 ≠ .getQueue []

structure Free (s : LockRun) : Prop where
  locked : s.locked = false
  readable : ∀ k, ∀ e ∈ (s.db.records k).entries, json.decode e.2 ≠ none

variable {json} {s s' : LockRun}

theorem readable_set (h : s.Free json) (fault : Option Fault) (br : BrokerRecordLocal)
    (k : GoString) : ∀ e ∈ ((setBrokerRecord json fault br s.db).2.records k).entries,
      json.decode e.2 ≠ none := by
  rcases update_cases fault (setBrokerRecordTx json br) s.db with ⟨err, hu⟩ | ⟨_, db', -, hf, hu⟩
  · rw [setBrokerRecord, hu]
    exact h.readable k
  · rw [setBrokerRecord, hu]
    cases hf
    by_cases hk : itoa br.brokerID = k
    · subst hk
      rw [DB.records, SortedMap.get_put_self, Option.getD_some]
      rcases putValue'_eq_or (itoa br.brokerID) (byteLength (json.encode br)) (json.encode br)
        with hsame | hput
      · rw [hsame]
        exact h.readable _
      · rw [hput]
        intro e he
        rcases SortedMap.mem_insert he with rfl | hold
        · simp [json.decode_encode]
        · exact h.readable _ e hold
    · rw [DB.records, SortedMap.get_put, if_neg hk]
      exact h.readable k

theorem readable_delete (h : s.Free json) (fault : Option Fault) (id k : GoString) :
    ∀ e ∈ ((deleteBroker fault id s.db).records k).entries, json.decode e.2 ≠ none := by
  by_cases hfound : fault = none ∧ (s.db.brokers.all.get id).isSome
  · obtain ⟨rfl, hsome⟩ := hfound
    obtain ⟨broker, hbroker⟩ := Option.isSome_iff_exists.mp hsome
    rw [deleteBroker_of_stored hbroker, DB.records, deleteBrokerRecordTx, SortedMap.get_erase]
    split_ifs
    · intro e he
      cases he
    · exact h.readable k
  · rw [deleteBroker_eq_self fun hfault => Option.not_isSome_iff_eq_none.mp
      fun hsome => hfound ⟨hfault, hsome⟩]
    exact h.readable k

theorem Free.any_manual (h : s.Free json) (op : StoreCall) :
    ((op.manual s.db).any fun m => !m.ends json) ↔ op = .getQueue [] := by
  cases op with
  | getBrokerRecord options =>
    have hall : ∀ e ∈ (s.db.records (itoa options.brokerID)).entries,
        json.decode e.2 ≠ none := h.readable _
    simpa [StoreCall.manual, Manual.ends, BoltCall.succeeds, itoa_ne_nil] using hall
  | getQueue k => simp [StoreCall.manual, Manual.ends, BoltCall.succeeds]
  | _ => simp [StoreCall.manual, Manual.ends, BoltCall.succeeds]

theorem Free.next_eq (h : s.Free json) (call : StoreCall × Bool) : s.next json call =
      if call.2 then some ⟨after json s.db call.1, (call.1.manual s.db).any fun m => !m.ends json⟩
      else some s := by
  rw [LockRun.next, if_neg (by simp [h.locked])]

theorem Free.releases_iff (h : s.Free json) (call : StoreCall × Bool) :
    s.Releases json call ↔ Named call := by
  obtain ⟨op, begins⟩ := call
  rw [Releases, Named, h.next_eq]
  cases begins with
  | false => simp [h.locked]
  | true => simp [← h.any_manual op]

theorem Free.next (h : s.Free json) (call : StoreCall × Bool) (hcall : s.Releases json call)
    (hnext : s.next json call = some s') : s'.Free json := by
  obtain ⟨t, ht, hlocked⟩ := hcall
  obtain rfl : t = s' := Option.some.inj (ht.symm.trans hnext)
  refine ⟨hlocked, ?_⟩
  rw [h.next_eq] at hnext
  split_ifs at hnext
  · cases hnext
    fun_cases after json s.db call.1 with
    | case1 fault br => exact readable_set h fault br
    | case2 fault id => exact readable_delete h fault id
    | case3 => exact h.readable
  · cases hnext
    exact h.readable

/-- No call leaves its transaction open exactly if no queue without a name is read. -/
theorem released_iff (json : Codec GoString BrokerRecordLocal) (db : DB)
    (calls : List (StoreCall × Bool)) :
    Transitions.Meets (next json) (Releases json) ⟨{ db with brokerRecords := .empty }, false⟩
        calls ↔
      Transitions.Meets (next json) (fun _ call => Named call)
        ⟨{ db with brokerRecords := .empty }, false⟩ calls :=
  Transitions.meets_iff_of_invariant (I := Free json)
    (fun _ call _ hs hC hnext => hs.next call hC hnext) (fun _ call hs => hs.releases_iff call)
    ⟨rfl, fun _ _ he => by cases he⟩ calls

/-- After a queue without a name has been read, a call waits for ever, however records are
encoded. -/
theorem unnamed_queue_blocks :
    ((fun json => Transitions.run (next json) ⟨.empty, false⟩ [(.getQueue [], true)]) =
      fun _ => some ⟨.empty, true⟩) ∧
    (fun json => next json ⟨.empty, true⟩ (.inUpdate, true)) = fun _ => none :=
  ⟨rfl, rfl⟩

end LockRun

end Kairos.Daemon
