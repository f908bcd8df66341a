import Kairos.Daemon.StoreCalls
import Kairos.Library.Codec
import Kairos.Library.Transitions

/-!
# Records of brokers

`SetBrokerRecord` and `GetBrokerRecord` of `agent/store.go`. The records of a broker are texts of
`json` in a bucket that `DeleteBroker` deletes. Their key is the id of the broker, so that each
record replaces the one before it.
-/

namespace Kairos.Daemon

open Strings

structure BrokerRecordLocal where
  id : ℤ := 0
  status : ℤ
  input : GoString
  output : GoString
  brokerID : ℤ
  createdAt : ℤ
  workflowID : ℤ := 0
deriving DecidableEq

structure BrOptions where
  workflowID : ℤ
  brokerID : ℤ

def BrOptions.allows (options : BrOptions) (br : BrokerRecordLocal) : Bool :=
  options.workflowID = 0 ∨ options.workflowID = br.workflowID

def DB.records (db : DB) (k : GoString) : Bucket GoString := (db.brokerRecords.get k).getD .empty

variable (json : Codec GoString BrokerRecordLocal)

def setBrokerRecordTx (br : BrokerRecordLocal) (db : DB) : Except StoreErr (Unit × DB) :=
  let k := itoa br.brokerID
  let v := json.encode br
  .ok ((), { db with
    brokerRecords := db.brokerRecords.put k (putValue' (db.records k) k (byteLength v) v) })

def setBrokerRecord (fault : Option Fault) (br : BrokerRecordLocal) (db : DB) :
    Except StoreErr Unit × DB :=
  update fault (setBrokerRecordTx json br) db

def readRecords (options : BrOptions) : List GoString → List BrokerRecordLocal × Bool
  | [] => ([], true)
  | v :: vs =>
    match json.decode v with
    | none => ([], false)
    | some br =>
      let rest := readRecords options vs
      (if options.allows br then br :: rest.1 else rest.1, rest.2)

def getBrokerRecord (options : BrOptions) (db : DB) : List BrokerRecordLocal × Bool :=
  readRecords json options ((db.records (itoa options.brokerID)).entries.map Prod.snd)

inductive RecordOp where
  | set (fault : Option Fault) (br : BrokerRecordLocal)
  | get (options : BrOptions)
  | setBroker (env : Env) (fault : Option Fault) (broker : Broker)
  | delete (fault : Option Fault) (brokerID : ℤ)

structure RecordRun where
  db : DB
  stored : ℤ → List BrokerRecordLocal

namespace RecordRun

def next (s : RecordRun) : RecordOp → Option RecordRun
  | .set fault br =>
    match setBrokerRecord json fault br s.db with
    | (.ok _, db) =>
      some ⟨db, Function.update s.stored br.brokerID (s.stored br.brokerID ++ [br])⟩
    | (.error _, db) => some ⟨db, s.stored⟩
  | .get _ => some s
  | .setBroker env fault broker => some { s with db := (setBroker env fault broker s.db).2 }
  | .delete fault id =>
    some ⟨deleteBroker fault (itoa id) s.db, Function.update s.stored id []⟩

def Exact (s : RecordRun) : Prop :=
  ∀ options, getBrokerRecord json options s.db =
    ((s.stored options.brokerID).filter options.allows, true)

def Fits (br : BrokerRecordLocal) : Prop :=
  byteLength (itoa br.brokerID) ≤ 32768 ∧ byteLength (json.encode br) ≤ 2 ^ 31 - 2

def Orderly (s : RecordRun) : RecordOp → Prop
  | .set fault br => fault = none → s.stored br.brokerID = [] ∧ Fits json br
  | .get _ => True
  | .setBroker _ _ _ => True
  | .delete fault id => s.stored id ≠ [] →
    fault = none ∧ (s.db.brokers.all.get (itoa id)).isSome

def Kept (s : RecordRun) : Prop :=
  ∀ id, (s.stored id).length ≤ 1 ∧
    (s.db.records (itoa id)).entries = (s.stored id).map fun br => (itoa id, json.encode br)

variable {json} {s : RecordRun} {db : DB} {br : BrokerRecordLocal} {fault : Option Fault} {id : ℤ}

theorem readRecords_encode (options : BrOptions) (brs : List BrokerRecordLocal) :
    readRecords json options (brs.map json.encode) = (brs.filter options.allows, true) := by
  induction brs with
  | nil => rfl
  | cons br brs ih =>
    rw [List.map_cons, readRecords, json.decode_encode]
    by_cases hallows : options.allows br
    · simp [ih, hallows]
    · simp [ih, hallows]

theorem getBrokerRecord_of_entries {brs : List BrokerRecordLocal} {options : BrOptions}
    (h : (db.records (itoa options.brokerID)).entries =
      brs.map fun br => (itoa options.brokerID, json.encode br)) :
    getBrokerRecord json options db = (brs.filter options.allows, true) := by
  rw [getBrokerRecord, h, List.map_map]
  exact readRecords_encode options brs

theorem Kept.exact (h : s.Kept json) : s.Exact json := fun options =>
  getBrokerRecord_of_entries (h options.brokerID).2

theorem not_exact_of_entries (id : ℤ) (brs : List BrokerRecordLocal)
    (h : (s.db.records (itoa id)).entries = brs.map fun br => (itoa id, json.encode br))
    (hne : brs ≠ s.stored id) : ¬ s.Exact json := by
  intro hexact
  have hall (brs : List BrokerRecordLocal) : brs.filter (BrOptions.allows ⟨0, id⟩) = brs :=
    List.filter_eq_self.mpr fun _ _ => by simp [BrOptions.allows]
  have heq := hexact ⟨0, id⟩
  rw [getBrokerRecord_of_entries h, Prod.mk.injEq, hall, hall] at heq
  exact hne heq.1

theorem Kept.put (h : s.Kept json) (br : BrokerRecordLocal) :
    ((s.db.records (itoa br.brokerID)).put (itoa br.brokerID) (json.encode br)).entries =
      [(itoa br.brokerID, json.encode br)] := by
  obtain ⟨hlength, hentries⟩ := h br.brokerID
  simp only [SortedMap.put, hentries]
  match s.stored br.brokerID, hlength with
  | [], _ => rfl
  | [br₀], _ => simp [SortedMap.insert]

theorem putValue'_eq (bucket : Bucket GoString) (br : BrokerRecordLocal)
    [Decidable (Fits json br)] :
    putValue' bucket (itoa br.brokerID) (byteLength (json.encode br)) (json.encode br) =
      if Fits json br then bucket.put (itoa br.brokerID) (json.encode br) else bucket := by
  have hkey : itoa br.brokerID ≠ [] := itoa_ne_nil br.brokerID
  by_cases hlength : 32768 < byteLength (itoa br.brokerID)
  · rw [putValue', putValue, if_neg hkey, if_pos hlength, if_neg fun h => absurd h.1 (by omega)]
  · by_cases hsize : 2 ^ 31 - 2 < byteLength (json.encode br)
    · rw [putValue', putValue, if_neg hkey, if_neg hlength, if_pos hsize,
        if_neg fun h => absurd h.2 (by omega)]
    · rw [putValue', putValue, if_neg hkey, if_neg hlength, if_neg hsize,
        if_pos ⟨by omega, by omega⟩]

def set (s : RecordRun) (json : Codec GoString BrokerRecordLocal) (br : BrokerRecordLocal) :
    RecordRun :=
  ⟨(setBrokerRecord json none br s.db).2,
    Function.update s.stored br.brokerID (s.stored br.brokerID ++ [br])⟩

theorem records_set_of_ne (h : id ≠ br.brokerID) :
    (s.set json br).db.records (itoa id) = s.db.records (itoa id) := by
  have hkey : itoa br.brokerID ≠ itoa id := fun heq => h (itoa_injective heq).symm
  rw [DB.records]
  change ((SortedMap.put _ _ _).get _).getD _ = _
  rw [SortedMap.get_put, if_neg hkey]
  rfl

theorem records_set_self [Decidable (Fits json br)] :
    (s.set json br).db.records (itoa br.brokerID) = if Fits json br then
        (s.db.records (itoa br.brokerID)).put (itoa br.brokerID) (json.encode br)
      else s.db.records (itoa br.brokerID) := by
  rw [← putValue'_eq, DB.records]
  change ((SortedMap.put _ _ _).get _).getD _ = _
  rw [SortedMap.get_put_self]
  rfl

theorem Kept.set_iff (h : s.Kept json) :
    ((s.set json br).Exact json ↔ s.stored br.brokerID = [] ∧ Fits json br) ∧
      (s.stored br.brokerID = [] ∧ Fits json br → (s.set json br).Kept json) := by
  classical
  have hstored : (s.set json br).stored br.brokerID = s.stored br.brokerID ++ [br] :=
    Function.update_self ..
  have hkept : s.stored br.brokerID = [] ∧ Fits json br → (s.set json br).Kept json := by
    rintro ⟨hnil, hfits⟩ id
    by_cases hid : id = br.brokerID
    · subst hid
      rw [hstored, hnil, records_set_self, if_pos hfits, h.put]
      exact ⟨le_rfl, rfl⟩
    · rw [records_set_of_ne hid]
      simpa [set, hid] using h id
  refine ⟨⟨fun hexact => ?_, fun hC => (hkept hC).exact⟩, hkept⟩
  by_contra hC
  by_cases hfits : Fits json br
  · refine not_exact_of_entries br.brokerID [br] ?_ ?_ hexact
    · rw [records_set_self, if_pos hfits, h.put]
      rfl
    · rw [hstored]
      exact fun heq => hC ⟨by simpa using heq, hfits⟩
  · refine not_exact_of_entries br.brokerID (s.stored br.brokerID) ?_ ?_ hexact
    · rw [records_set_self, if_neg hfits, (h br.brokerID).2]
    · rw [hstored]
      simp

def delete (s : RecordRun) (fault : Option Fault) (id : ℤ) : RecordRun :=
  ⟨deleteBroker fault (itoa id) s.db, Function.update s.stored id []⟩

theorem Kept.delete_iff (h : s.Kept json) :
    ((s.delete fault id).Exact json ↔ s.Orderly json (.delete fault id)) ∧
      (s.Orderly json (.delete fault id) → (s.delete fault id).Kept json) := by
  have hstored : (s.delete fault id).stored id = [] := Function.update_self ..
  by_cases hfound : fault = none ∧ (s.db.brokers.all.get (itoa id)).isSome
  · obtain ⟨rfl, hsome⟩ := hfound
    obtain ⟨broker, hbroker⟩ := Option.isSome_iff_exists.mp hsome
    have hkept : (s.delete none id).Kept json := by
      intro id'
      rw [delete, deleteBroker_of_stored hbroker, DB.records, deleteBrokerRecordTx]
      by_cases hid : id' = id
      · simp [hid, SortedMap.empty]
      · have hkey : itoa id ≠ itoa id' := fun heq => hid (itoa_injective heq).symm
        simpa [hid, SortedMap.get_erase_of_ne _ hkey, DB.records] using h id'
    exact ⟨iff_of_true hkept.exact fun _ => ⟨rfl, hsome⟩, fun _ => hkept⟩
  · have hdb : (s.delete fault id).db = s.db := deleteBroker_eq_self fun hfault =>
      Option.not_isSome_iff_eq_none.mp fun hsome => hfound ⟨hfault, hsome⟩
    by_cases hnil : s.stored id = []
    · have hsame : s.delete fault id = s := by
        rw [delete, ← hnil, Function.update_eq_self]
        exact congrArg (fun db => RecordRun.mk db s.stored) hdb
      rw [hsame]
      exact ⟨iff_of_true h.exact fun hne => absurd hnil hne, fun _ => h⟩
    · refine ⟨iff_of_false ?_ fun hC => hfound (hC hnil), fun hC => absurd (hC hnil) hfound⟩
      refine not_exact_of_entries id (s.stored id) ?_ fun heq => hnil (heq.trans hstored)
      rw [hdb]
      exact (h id).2

theorem Kept.setBroker (h : s.Kept json) (env : Env) (fault : Option Fault) (broker : Broker) :
    RecordRun.Kept json { s with db := (Daemon.setBroker env fault broker s.db).2 } := by
  have hrecords :
      (Daemon.setBroker env fault broker s.db).2.brokerRecords = s.db.brokerRecords := by
    rcases update_cases fault (setBrokerTx env broker) s.db with ⟨err, hu⟩ | ⟨a, db', -, hf, hu⟩
    · rw [Daemon.setBroker, hu]
    · rw [Daemon.setBroker, hu]
      rcases setBrokerTx_ok hf with rfl | rfl <;> rfl
  intro id
  rw [DB.records, hrecords]
  exact h id

theorem Kept.next_iff (h : s.Kept json) (op : RecordOp) :
    ((∀ s' ∈ s.next json op, s'.Exact json) ↔ s.Orderly json op) ∧
      (s.Orderly json op → ∀ s' ∈ s.next json op, s'.Kept json) := by
  cases op with
  | set fault br =>
    by_cases hfault : fault = none
    · subst hfault
      have hnext : s.next json (.set none br) = some (s.set json br) := rfl
      simpa [hnext, Orderly] using h.set_iff
    · have hnext : s.next json (.set fault br) = some s := by
        rcases update_cases fault (setBrokerRecordTx json br) s.db with ⟨err, hu⟩ | ⟨_, _, hnone, _⟩
        · simp only [next, setBrokerRecord, hu]
        · exact absurd hnone hfault
      simpa [hnext, Orderly, hfault] using ⟨h.exact, h⟩
  | get options => simpa [next, Orderly] using ⟨h.exact, h⟩
  | setBroker env fault broker =>
    have hkept := h.setBroker env fault broker
    simpa [next, Orderly] using ⟨hkept.exact, hkept⟩
  | delete fault id =>
    have hnext : s.next json (.delete fault id) = some (s.delete fault id) := rfl
    simpa [hnext] using h.delete_iff

def start (db : DB) : RecordRun := ⟨{ db with brokerRecords := .empty }, fun _ => []⟩

theorem kept_start (json : Codec GoString BrokerRecordLocal) (db : DB) : (start db).Kept json :=
  fun _ => ⟨Nat.zero_le _, rfl⟩

/-- `GetBrokerRecord` returns what was stored exactly if no broker gets a second record before its
deletion, and brokers with a record are found then. -/
theorem records_exact_iff (json : Codec GoString BrokerRecordLocal) (db : DB)
    (ops : List RecordOp) :
    Transitions.Meets (next json) (fun s op => ∀ s' ∈ s.next json op, s'.Exact json) (start db)
        ops ↔ Transitions.Meets (next json) (Orderly json) (start db) ops :=
  Transitions.meets_iff_of_invariant (I := Kept json)
    (fun _ op s' hs hC hs' => (hs.next_iff op).2 ((hs.next_iff op).1.1 hC) s' hs')
    (fun _ op hs => (hs.next_iff op).1) (kept_start json db) ops

def firstRecord : BrokerRecordLocal := ⟨0, 1, "a", "b", 5, 100, 0⟩

def secondRecord : BrokerRecordLocal := ⟨0, 1, "c", "d", 5, 200, 0⟩

/-- The second record of a broker takes the place of the first, however records are encoded. -/
theorem second_record_replaces : ¬ ∃ json : Codec GoString BrokerRecordLocal,
    Transitions.Meets (next json) (fun s op => ∀ s' ∈ s.next json op, s'.Exact json)
      (start .empty) [.set none firstRecord, .set none secondRecord] := by
  rintro ⟨json, h⟩
  have hfirst := (kept_start json .empty).next_iff (.set none firstRecord)
  have hkept := hfirst.2 (hfirst.1.1 h.1) _ rfl
  have hsecond := (hkept.next_iff (.set none secondRecord)).1.1 (h.2 _ rfl).1 rfl
  exact absurd hsecond.1 (by simp [firstRecord, secondRecord])

end RecordRun

end Kairos.Daemon
