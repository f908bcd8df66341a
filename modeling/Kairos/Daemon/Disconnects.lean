import Kairos.Go.Strings

/-!
# Disconnects of the daemon's client

The server disconnects a client by a push or by a close frame, each with a code and a reason
(`pubsub/client.go` and `pubsub/transport_websoket.go`). A push is judged by its code, and a close
frame by its reason if that is the json of a `disconnect`.
-/

namespace Kairos.Daemon.Disconnects

inductive State where
  | disconnected
  | connecting
  | connected
  | closed
deriving DecidableEq

structure Disconnect where
  code : UInt32
  reason : GoString
  reconnect : Bool
deriving DecidableEq

inductive Move where
  | connecting (code : UInt32) (reason : GoString)
  | disconnected (code : UInt32) (reason : GoString)
deriving DecidableEq

def moveToConnecting (s : State) (code : UInt32) (reason : GoString) : Option Move :=
  if s = .disconnected ∨ s = .closed ∨ s = .connecting then none
  else some (.connecting code reason)

def moveToDisconnected (s : State) (code : UInt32) (reason : GoString) : Option Move :=
  if s = .disconnected ∨ s = .closed then none else some (.disconnected code reason)

def reconnects (code : UInt32) : Bool :=
  code < 3500 || code ≥ 5000 || (code ≥ 4000 && code < 4500)

def handlePush (s : State) (code : UInt32) (reason : GoString) : Option Move :=
  if s ≠ .connected then none
  else if reconnects code then moveToConnecting s code reason
  else moveToDisconnected s code reason

structure CloseError where
  code : ℕ
  text : GoString

/-- `unmarshal` is `json.Unmarshal` into a `disconnect`. -/
def extractDisconnectWebsocket (unmarshal : GoString → Option Disconnect) (err : CloseError) :
    Disconnect :=
  match unmarshal err.text with
  | some d => d
  | none =>
    let code := UInt32.ofNat err.code
    { code := if code < 3000 then if code = 1009 then 3 else 1 else code
      reason := err.text
      reconnect := reconnects code }

def handleDisconnect (s : State) (d : Option Disconnect) : Option Move :=
  let d := d.getD ⟨1, "transport closed", true⟩
  if d.reconnect then moveToConnecting s d.code d.reason else moveToDisconnected s d.code d.reason

def handleClose (unmarshal : GoString → Option Disconnect) (s : State) (err : CloseError) :
    Option Move :=
  handleDisconnect s (some (extractDisconnectWebsocket unmarshal err))

def Agreeing (unmarshal : GoString → Option Disconnect) (s : State) (code : UInt32)
    (reason : GoString) : Prop :=
  (s = .connected → unmarshal reason = none) ∧
    (s = .connecting → ((unmarshal reason).elim (reconnects code) Disconnect.reconnect) = true)

variable {unmarshal : GoString → Option Disconnect} {code : UInt32} {reason : GoString}

theorem extract_of_none (hcode : 3000 ≤ code) (h : unmarshal reason = none) :
    extractDisconnectWebsocket unmarshal ⟨code.toNat, reason⟩ =
      ⟨code, reason, reconnects code⟩ := by
  have hlow : ¬ code < 3000 := UInt32.not_lt.mpr hcode
  simp [extractDisconnectWebsocket, h, hlow]

theorem extract_of_some {d : Disconnect} (h : unmarshal reason = some d) :
    extractDisconnectWebsocket unmarshal ⟨code.toNat, reason⟩ = d := by
  simp [extractDisconnectWebsocket, h]

/-- A push and a close frame lead to the same exactly if the reason is not read as json. The codes
are those of a push; of a close frame the websocket library hands over a code up to `4999` only, and
no `CloseError` where it is above. -/
theorem push_eq_close_iff (unmarshal : GoString → Option Disconnect)
    (hpart : ∀ text d, unmarshal text = some d → d.reason ≠ text) (s : State) (code : UInt32)
    (hcode : 3000 ≤ code) (reason : GoString) :
    handlePush s code reason = handleClose unmarshal s ⟨code.toNat, reason⟩ ↔
      Agreeing unmarshal s code reason := by
  unfold handleClose handleDisconnect Agreeing
  rw [Option.getD_some]
  cases hread : unmarshal reason with
  | none =>
    rw [extract_of_none hcode hread]
    cases s <;> cases hflag : reconnects code <;>
      simp [handlePush, moveToConnecting, moveToDisconnected, hflag]
  | some d =>
    have hne := hpart reason d hread
    rw [extract_of_some hread]
    cases s <;> cases hflag : reconnects code <;> cases hd : d.reconnect <;>
      simp [handlePush, moveToConnecting, moveToDisconnected, hflag, hd, Ne.symm hne]

theorem plain_reason_agrees :
    handlePush .connected 3501 "bad request" =
      handleClose (fun text => if text = "null" then some ⟨0, [], false⟩ else none)
        .connected ⟨3501, "bad request"⟩ := by
  refine (push_eq_close_iff _ (fun text d h => ?_) .connected 3501 (by decide) _).2
    ⟨fun _ => by decide, fun h => by cases h⟩
  split_ifs at h with htext
  cases h
  rw [htext]
  decide

/-- A json reason: the client reconnects after the push, and not after the close frame. -/
theorem json_reason_differs :
    handlePush .connected 3000 "null" = some (.connecting 3000 "null") ∧
      handleClose (fun text => if text = "null" then some ⟨0, [], false⟩ else none)
        .connected ⟨3000, "null"⟩ = some (.disconnected 0 []) := by
  decide

end Kairos.Daemon.Disconnects
