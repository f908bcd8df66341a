import Kairos.Deliverer.Channels
import Kairos.Template.Syntax

/-!
# Messages that clients publish

A client publishes on a channel on which it may write (`Client.handlePublish`). The delivery server
passes the message on to a subject from the payload (`server/deliverer/server.go`), and the workers
that have subscribed to it receive it (`server/runner/worker.go`), unless they drop it.
-/

namespace Kairos.Deliverer

open List
open Strings (hasSuffix itoa natDigits split)

/-! ## The publisher -/

inductive UserType where
  | kairosUser
  | clientUser
  | channelUser

structure Login where
  userType : UserType
  userID : ℕ
  clientID : ℕ

def Login.clientUserID (login : Login) : GoString :=
  let id :=
    match login.userType with
    | .kairosUser => "kairosuser-" ++ natDigits login.userID
    | .clientUser => "kairosdeamon-" ++ natDigits login.clientID
    | .channelUser => "kairoschannel-" ++ natDigits login.clientID
  id ++ '@' :: natDigits login.userID

structure CmdReplyTask where
  cmd : ℤ := 0
  deliverID : ℤ := 0
  runOn : GoString := []
  workflowID : ℤ := 0
  runCount : ℤ := 0

/-- The length of the data, and what `json.Unmarshal` makes of it. -/
structure Payload where
  length : ℕ
  reply : CmdReplyTask
  err : Bool

def mayPublish (channels : Channels) (channel : GoString) (data : Payload) : Bool :=
  channel != [] && data.length != 0 &&
    match channels.lookup channel with
    | none => false
    | some info => info.role == writeRole || info.role == readWriteRole

/-- The subject that `OnPublish` sends the data to; none if it cannot be read. -/
def onPublish (login : Login) (data : Payload) : Res (Option GoString) := do
  let uid ← Res.ofOption (split '@' login.clientUserID)[1]?
  if data.err then pure none
  else if data.reply.workflowID ≠ 0 then pure (some ("w-" ++ itoa data.reply.workflowID))
  else pure (some uid)

def handlePublish (login : Login) (channels : Channels) (channel : GoString) (data : Payload) :
    Res (Option GoString) :=
  if mayPublish channels channel data then onPublish login data else .ok none

/-! ## The workers -/

structure Worker where
  id : ℤ
  userID : ℤ
  clients : List ℤ
  channels : List (GoString × ℤ)
  responsesIDs : ℤ → Bool

inductive Callback where
  | message
  | sync
  | trigger
  | status

inductive Arrival where
  | log
  | broker
  | response
  | sync
  | trigger
  | status

namespace Worker

def reciveMessage (w : Worker) (data : Payload) : Option Arrival :=
  if (data.err || data.reply.workflowID != w.id) && hasSuffix data.reply.runOn subChannel &&
      hasSuffix data.reply.runOn subClient then none
  else if data.reply.cmd = 8 then some .log
  else if data.reply.deliverID = 0 then
    if data.reply.runCount ≠ 0 ∧ w.responsesIDs data.reply.runCount = false then none
    else some .broker
  else some .response

def reciveMessageSync (w : Worker) (data : Payload) : Option Arrival :=
  if (data.err || data.reply.workflowID != w.id) && !hasSuffix data.reply.runOn subChannel then none
  else some .sync

def call (w : Worker) (data : Payload) : Callback → Option Arrival
  | .message => w.reciveMessage data
  | .sync => w.reciveMessageSync data
  | .trigger => some .trigger
  | .status => some .status

def subscriptions (w : Worker) : List (GoString × Callback) :=
  [("REQUEST_WORKER_SYNC-" ++ itoa w.userID, .sync), ("w-" ++ itoa w.id, .message),
    ("TRIGGER-" ++ itoa w.id, .trigger)] ++
  w.clients.map (fun c => ("kairosdeamon-" ++ itoa c ++ '@' :: itoa w.userID, .status)) ++
  w.channels.map (fun c => (c.1 ++ '-' :: itoa c.2 ++ '@' :: itoa w.userID, .status))

/-- A message reaches the worker. None of its subjects is a pattern. -/
def Receives (w : Worker) (subject : GoString) (data : Payload) : Prop :=
  ∃ sub ∈ w.subscriptions, sub.1 = subject ∧ (w.call data sub.2).isSome

end Worker

def Isolated (login : Login) (channels : Channels) (channel : GoString) (data : Payload)
    (workers : List Worker) : Prop :=
  ∃ o, handlePublish login channels channel data = .ok o ∧
    ∀ subject ∈ o, ∀ w ∈ workers, w.Receives subject data → w.userID = login.userID

/-- The workflow that a message names is of the publisher's user, if its worker does not drop the
message. -/
def OwnWorkflow (login : Login) (data : Payload) (workers : List Worker) : Prop :=
  data.reply.workflowID ≠ 0 → ∀ w ∈ workers, w.id = data.reply.workflowID →
    w.userID = login.userID ∨
      data.reply.cmd ≠ 8 ∧ data.reply.deliverID = 0 ∧ data.reply.runCount ≠ 0 ∧
        w.responsesIDs data.reply.runCount = false

/-! ## Which payloads stay with the user -/

variable {login : Login} {channels : Channels} {channel : GoString} {data : Payload} {w : Worker}

theorem split_clientUserID (login : Login) :
    (split '@' login.clientUserID)[1]? = some (natDigits login.userID) := by
  have hdigits (n : ℕ) : '@' ∉ natDigits n :=
    fun h => absurd (Strings.isDigit_of_mem_natDigits h) (by decide)
  obtain ⟨id, hid, hname⟩ :
      ∃ id, '@' ∉ id ∧ login.clientUserID = id ++ '@' :: natDigits login.userID := by
    refine ⟨_, ?_, rfl⟩
    cases login.userType <;> simp [hdigits]
  rw [hname, Strings.split_append hid, Strings.split_of_notMem (hdigits _)]
  rfl

theorem handlePublish_eq (login : Login) (channels : Channels) (channel : GoString)
    (data : Payload) : handlePublish login channels channel data =
      .ok (if mayPublish channels channel data ∧ data.err = false then
        some (if data.reply.workflowID ≠ 0 then "w-" ++ itoa data.reply.workflowID
          else natDigits login.userID) else none) := by
  unfold handlePublish onPublish
  rw [split_clientUserID]
  by_cases hmay : mayPublish channels channel data
  · by_cases herr : data.err
    · simp [hmay, herr, Res.ofOption]
    · by_cases hid : data.reply.workflowID = 0
      · simp [hmay, herr, hid, Res.ofOption]
      · simp [hmay, herr, hid, Res.ofOption]
  · simp [hmay]

namespace Worker

theorem mem_subscriptions {sub : GoString × Callback} (h : sub ∈ w.subscriptions) :
    sub = ("w-" ++ itoa w.id, .message) ∨ sub.1.head? = some 'R' ∨ sub.1.head? = some 'T' ∨
      '@' ∈ sub.1 := by
  simp only [subscriptions, mem_append, mem_cons, mem_map, not_mem_nil,
    or_false] at h
  rcases h with ((rfl | rfl | rfl) | ⟨c, -, rfl⟩) | ⟨c, -, rfl⟩
  · exact .inr (.inl rfl)
  · exact .inl rfl
  · exact .inr (.inr (.inl rfl))
  · exact .inr (.inr (.inr (by simp)))
  · exact .inr (.inr (.inr (by simp)))

theorem receives_iff {subject : GoString} (hat : '@' ∉ subject) (hR : subject.head? ≠ some 'R')
    (hT : subject.head? ≠ some 'T') : w.Receives subject data ↔
      "w-" ++ itoa w.id = subject ∧ (w.reciveMessage data).isSome := by
  constructor
  · rintro ⟨sub, hsub, rfl, hcall⟩
    rcases mem_subscriptions hsub with rfl | hhead | hhead | hmem
    · exact ⟨rfl, hcall⟩
    · exact absurd hhead hR
    · exact absurd hhead hT
    · exact absurd hmem hat
  · rintro ⟨heq, hcall⟩
    exact ⟨("w-" ++ itoa w.id, .message), by simp [subscriptions], heq, hcall⟩

theorem reciveMessage_own (h : w.id = data.reply.workflowID) (herr : data.err = false) :
    (w.reciveMessage data).isSome = false ↔
      data.reply.cmd ≠ 8 ∧ data.reply.deliverID = 0 ∧ data.reply.runCount ≠ 0 ∧
        w.responsesIDs data.reply.runCount = false := by
  unfold reciveMessage
  rw [if_neg (by simp [herr, h])]
  split_ifs with hlog hdeliver hcount
  · simp [hlog]
  · simp [hlog, hdeliver, hcount]
  · simpa [hlog, hdeliver] using hcount
  · simp [hdeliver]

theorem receives_workflow {n : ℤ} :
    w.Receives ("w-" ++ itoa n) data ↔ w.id = n ∧ (w.reciveMessage data).isSome := by
  have hat : '@' ∉ "w-" ++ itoa n := by
    intro hmem
    rcases mem_append.mp hmem with hw | hn
    · exact absurd hw (by decide)
    · rcases Strings.isDigit_of_mem_itoa hn with hd | hd
      · exact absurd hd (by decide)
      · exact absurd hd (by decide)
  rw [receives_iff hat (by simp) (by simp), append_cancel_left_eq,
    Strings.itoa_injective.eq_iff]

theorem not_receives_user (n : ℕ) : ¬ w.Receives (natDigits n) data := by
  have hdigit {c : Char} (h : c ∈ natDigits n) : c.isDigit := Strings.isDigit_of_mem_natDigits h
  have hat : '@' ∉ natDigits n := fun h => absurd (hdigit h) (by decide)
  have hR : (natDigits n).head? ≠ some 'R' :=
    fun h => absurd (hdigit (mem_of_mem_head? h)) (by decide)
  have hT : (natDigits n).head? ≠ some 'T' :=
    fun h => absurd (hdigit (mem_of_mem_head? h)) (by decide)
  rw [receives_iff hat hR hT]
  rintro ⟨heq, -⟩
  have hmem : 'w' ∈ natDigits n := heq ▸ mem_cons_self
  exact absurd (hdigit hmem) (by decide)

end Worker

/-- What a client publishes reaches only its user's workers exactly where it may not publish, the
data cannot be read, or the workflow named is the user's. -/
theorem isolated_iff (login : Login) (channels : Channels) (channel : GoString) (data : Payload)
    (workers : List Worker) : Isolated login channels channel data workers ↔
      (mayPublish channels channel data → data.err = false → OwnWorkflow login data workers) := by
  unfold Isolated
  rw [handlePublish_eq]
  by_cases hsent : mayPublish channels channel data ∧ data.err = false
  swap
  · -- nothing is sent
    rw [if_neg hsent]
    refine ⟨fun _ hmay herr => absurd ⟨hmay, herr⟩ hsent, fun _ => ⟨none, rfl, by simp⟩⟩
  rw [if_pos hsent]
  have hiff (P : Prop) : (mayPublish channels channel data → data.err = false → P) ↔ P :=
    ⟨fun h => h hsent.1 hsent.2, fun h _ _ => h⟩
  rw [hiff]
  unfold OwnWorkflow
  by_cases hid : data.reply.workflowID = 0
  · -- the message goes to the user
    rw [if_neg (by simpa using hid)]
    refine ⟨fun _ hne => absurd hid hne, fun _ => ⟨_, rfl, fun subject hsubject w _ hw => ?_⟩⟩
    rw [← Option.mem_some_iff.mp hsubject] at hw
    exact absurd hw (Worker.not_receives_user _)
  · rw [if_pos hid]
    constructor
    · rintro ⟨o, ho, hall⟩ - w hw hwid
      by_cases hrec : (w.reciveMessage data).isSome
      · left
        refine hall _ ?_ w hw (Worker.receives_workflow.mpr ⟨hwid, hrec⟩)
        exact (Res.ok.inj ho) ▸ rfl
      · exact .inr ((Worker.reciveMessage_own hwid hsent.2).mp (by simpa using hrec))
    · intro hown
      refine ⟨_, rfl, fun subject hsubject w hw hrec => ?_⟩
      rw [← Option.mem_some_iff.mp hsubject, Worker.receives_workflow] at hrec
      refine (hown hid w hw hrec.1).resolve_right fun hdrop => ?_
      have hnone := (Worker.reciveMessage_own hrec.1 hsent.2).mpr hdrop
      rw [hrec.2] at hnone
      cases hnone

def userChannels : Channels :=
  AList.singleton "kairosuser-1" ⟨flagSubscribed ||| flagServerSide, readWriteRole⟩

/-- The message reaches a workflow of the second user. -/
theorem not_isolated_of_other_user :
    ¬ Isolated ⟨.kairosUser, 1, 0⟩ userChannels "kairosuser-1"
      ⟨1, { workflowID := 5, deliverID := 3 }, false⟩ [⟨5, 2, [], [], fun _ => false⟩] := by
  rintro ⟨o, ho, hall⟩
  have hsubject : o = some "w-5" := by
    rw [← Res.ok.inj ho]
    rfl
  have hreceives : Worker.Receives ⟨5, 2, [], [], fun _ => false⟩ "w-5"
      ⟨1, { workflowID := 5, deliverID := 3 }, false⟩ :=
    ⟨("w-5", .message), .tail _ (.head _), rfl, rfl⟩
  exact absurd (hall _ hsubject _ mem_cons_self hreceives) (by decide)

end Kairos.Deliverer
