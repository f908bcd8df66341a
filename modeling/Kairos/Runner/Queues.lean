import Mathlib.Data.List.MinMax
import Kairos.Workflow.Compile

/-!
# Brokers with a queue

For a broker with its `Queue` flag, `processBroker` of `server/runner/worker.go` stores the reply in
`broker_queues`, reads back the newest unused reply of each of the `ListenVars`, and starts the
template on these and on the input of the call.
-/

namespace Kairos.Worker

open List Option

variable {V : Type}

structure QueueReply (V : Type) where
  runOn : GoString
  taskName : GoString
  workflowID : ℤ
  content : Option V
  result : Option V

abbrev ReplyData (V : Type) := List (GoString × V)

def QueueReply.data (r : QueueReply V) : ReplyData V :=
  (r.content.map ("content".toList, ·)).toList ++ (r.result.map ("result".toList, ·)).toList

structure QueueRow where
  key : GoString
  value : GoString
  workflowID : ℤ
  used : Bool
  createdAt : ℤ

structure QueueHost (V : Type) where
  marshal : QueueReply V → GoString
  unmarshal : GoString → Option (QueueReply V)
  newest : List QueueRow → Option QueueRow
  newest_mem : ∀ {rows row}, newest rows = some row → row ∈ rows
  newest_le : ∀ {rows row}, newest rows = some row → ∀ r ∈ rows, r.createdAt ≤ row.createdAt
  newest_isSome : ∀ {rows}, rows ≠ [] → ∃ row, newest rows = some row

structure QueueCall (V : Type) where
  reply : QueueReply V
  input : Option (List (GoString × ReplyData V))
  now : ℤ
  taskNow : ℤ

structure QueueState (V : Type) where
  rows : List QueueRow
  dynamicVars : GoString → Option (QueueReply V)

/-- `ListenVars`, which stays empty: `checkVariableDefault` is not called. -/
def listenVars (_ : Template) : List GoString := []

def queueVars (H : Host) (listened : List GoString) : List GoString :=
  listened.map fun k => bareName (H.toLower (getRootDefaultVar H k))

section

variable (Q : QueueHost V) (H : Host) (wid : ℤ)

def QueueCall.stored (c : QueueCall V) : List QueueRow :=
  let row key now := ⟨key, Q.marshal c.reply, c.reply.workflowID, false, now⟩
  row (H.toLower c.reply.runOn) c.now ::
    if Strings.hasSuffix c.reply.runOn subClient && c.reply.taskName ≠ [] then
      [row (H.toLower (getTaskName H c.reply.taskName)) c.taskNow]
    else []

def unused (rows : List QueueRow) (key : GoString) : List QueueRow :=
  rows.filter fun r => r.key = key && r.workflowID = wid && !r.used

def getKVQueue (rows : List QueueRow) (key : GoString) : Option QueueRow :=
  Q.newest (unused wid rows key)

def getKVQueues (rows : List QueueRow) (keys : List GoString) :
    Option (List (GoString × QueueRow)) :=
  keys.mapM fun k => (getKVQueue Q wid rows k).map (k, ·)

/-- The loop that fills `DynamicVars`, up to a row that cannot be decoded. -/
def bindRows : (GoString → Option (QueueReply V)) → List (GoString × QueueRow) →
    (GoString → Option (QueueReply V)) × Bool
  | vars, [] => (vars, true)
  | vars, (k, row) :: rest =>
    match Q.unmarshal row.value with
    | none => (vars, false)
    | some r => bindRows (Function.update vars k (some r)) rest

def queueReplies (vars : GoString → Option (QueueReply V)) (c : QueueCall V) (k : GoString) :
    Option (ReplyData V) :=
  ((c.input.getD []).lookup k).or ((vars k).map QueueReply.data)

/-- `processBroker` with a queue, and what the template is started on. -/
def processQueue (listened : List GoString) (s : QueueState V) (c : QueueCall V) :
    QueueState V × Option (GoString → Option (ReplyData V)) :=
  let rows := s.rows ++ c.stored Q H
  match getKVQueues Q wid rows (queueVars H listened) with
  | none => (⟨rows, s.dynamicVars⟩, none)
  | some bqs =>
    let (vars, decoded) := bindRows Q s.dynamicVars bqs
    (⟨rows, vars⟩, if decoded then some (queueReplies vars c) else none)

def afterCalls (listened : List GoString) (rows : List QueueRow) (calls : List (QueueCall V)) :
    QueueState V :=
  calls.foldl (fun s c => (processQueue Q H wid listened s c).1) ⟨rows, fun _ => none⟩

structure IsLatest (rows : List QueueRow) (key : GoString) (row : QueueRow) : Prop where
  mem : row ∈ unused wid rows key
  le : ∀ r ∈ unused wid rows key, r.createdAt ≤ row.createdAt

def GivesLatest (rows : List QueueRow) (key : GoString) (data : Option (ReplyData V)) : Prop :=
  ∃ row r, IsLatest wid rows key row ∧ Q.unmarshal row.value = some r ∧ data = some r.data

/-- The template is started on the latest reply of each name that the broker listens to and that has
one. -/
def QueueCorrect (listened listens : List GoString) (s : QueueState V) (c : QueueCall V) : Prop :=
  ∃ replies, (processQueue Q H wid listened s c).2 = some replies ∧
    ∀ n ∈ listens, unused wid (s.rows ++ c.stored Q H) (H.toLower n) ≠ [] →
      GivesLatest Q wid (s.rows ++ c.stored Q H) (H.toLower n) (replies (H.toLower n))

end

variable {Q : QueueHost V} {H : Host} {wid : ℤ} {listened : List GoString} {s : QueueState V}
  {c : QueueCall V}

theorem processQueue_rows :
    (processQueue Q H wid listened s c).1.rows = s.rows ++ c.stored Q H := by
  unfold processQueue
  cases hbqs : getKVQueues Q wid (s.rows ++ c.stored Q H) (queueVars H listened) with
  | none | some bqs => simp only [hbqs]

/-! ## The calls of a broker -/

theorem afterCalls_rows (rows : List QueueRow) (calls : List (QueueCall V)) :
    (afterCalls Q H wid listened rows calls).rows = rows ++ calls.flatMap (·.stored Q H) := by
  induction calls using reverseRecOn with
  | nil => exact (append_nil rows).symm
  | append_singleton calls c ih =>
    unfold afterCalls at ih ⊢
    rw [foldl_concat, processQueue_rows, ih, flatMap_append, append_assoc,
      flatMap_singleton]

theorem processQueue_nil : (processQueue Q H wid [] s c) =
    (⟨s.rows ++ c.stored Q H, s.dynamicVars⟩, some (queueReplies s.dynamicVars c)) := rfl

theorem afterCalls_dynamicVars (rows : List QueueRow) (calls : List (QueueCall V)) :
    (afterCalls Q H wid [] rows calls).dynamicVars = fun _ => none := by
  induction calls using reverseRecOn with
  | nil => rfl
  | append_singleton calls c ih =>
    unfold afterCalls at ih ⊢
    rw [foldl_concat, processQueue_nil, ih]

/-- A call starts the template. Each name with a stored reply is bound to the latest one exactly
when the input of the call gives it. -/
theorem queue_correct_iff (Q : QueueHost V) (H : Host) (wid : ℤ) (t : Template)
    (listens : List GoString) (rows : List QueueRow) (calls : List (QueueCall V))
    (c : QueueCall V) : (∃ replies, (processQueue Q H wid (listenVars t)
        (afterCalls Q H wid (listenVars t) rows calls) c).2 = some replies) ∧
      (QueueCorrect Q H wid (listenVars t) listens
          (afterCalls Q H wid (listenVars t) rows calls) c ↔ ∀ n ∈ listens,
          unused wid (rows ++ (calls ++ [c]).flatMap (·.stored Q H)) (H.toLower n) ≠ [] →
          GivesLatest Q wid (rows ++ (calls ++ [c]).flatMap (·.stored Q H)) (H.toLower n)
            ((c.input.getD []).lookup (H.toLower n))) := by
  have hrows : (afterCalls Q H wid (listenVars t) rows calls).rows ++ c.stored Q H =
      rows ++ (calls ++ [c]).flatMap (·.stored Q H) := by
    rw [afterCalls_rows, flatMap_append, flatMap_singleton, append_assoc]
  have hvars : (afterCalls Q H wid (listenVars t) rows calls).dynamicVars = fun _ => none :=
    afterCalls_dynamicVars rows calls
  have hrun : (processQueue Q H wid (listenVars t)
      (afterCalls Q H wid (listenVars t) rows calls) c).2 =
        some fun k => (c.input.getD []).lookup k := by
    refine congrArg some (funext fun k => ?_)
    rw [queueReplies, hvars, map_none, or_none]
  refine ⟨⟨_, hrun⟩, ?_⟩
  unfold QueueCorrect
  rw [hrun, hrows]
  simp only [some.injEq, exists_eq_left']

def onlyReply (r : QueueReply V) : QueueHost V where
  marshal _ := []
  unmarshal _ := some r
  newest rows := @argmax _ ℤ Int.instLinearOrder.toPreorder Int.decLt
    QueueRow.createdAt rows
  newest_mem h := argmax_mem h
  newest_le h r hr := le_of_mem_argmax hr h
  newest_isSome h := isSome_iff_exists.1 (by
    rw [isSome_iff_ne_none]
    exact fun h' => h (argmax_eq_none.1 h'))

def logReply : QueueReply ℕ := ⟨"log_channel", [], 1, some 7, none⟩

/-- The reply of a channel that the broker listens to is stored and not bound. -/
theorem log_reply_unbound :
    (∃ t, build plainHost none ["log_channel"] (templateText ["set .a .log_channel"])
        (some []) true = .ok t) ∧
      ∀ t, ¬ QueueCorrect (onlyReply logReply) plainHost 1 (listenVars t) ["log_channel"]
        (afterCalls (onlyReply logReply) plainHost 1 (listenVars t) [] [])
        ⟨logReply, none, 0, 0⟩ := by
  have hbuild : (build plainHost none ["log_channel"] (templateText ["set .a .log_channel"])
    (some []) true).toOption.isSome := by decide +kernel
  obtain ⟨t, ht⟩ := isSome_iff_exists.1 hbuild
  refine ⟨⟨t, Res.toOption_eq_some.1 ht⟩, fun t h => ?_⟩
  obtain ⟨replies, hreplies, hbound⟩ := h
  have hstored : unused 1 (QueueCall.stored (onlyReply logReply) plainHost ⟨logReply, none, 0, 0⟩)
    (plainHost.toLower "log_channel") ≠ [] := by decide
  obtain ⟨row, r, -, -, hdata⟩ := hbound _ mem_cons_self hstored
  cases some.inj hreplies
  cases hdata

end Kairos.Worker
