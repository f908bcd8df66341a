import Kairos.Daemon.Store

/-!
# Subjects of channels

When a client connects, `OnConnect` in `server/deliverer/server.go` publishes a subject for each of
its channels, made of the key `name-id` and the id of the user. `Worker.reciveMessage` cuts it at
its separators, and `syncData` looks up what the channel has not received.
-/

namespace Kairos.Subjects

open Strings (itoa split)
open Daemon (parseInt)

def channelKey (name : GoString) (id : ℤ) : GoString := name ++ '-' :: itoa id

def clientUserID (clientID userID : ℤ) : GoString :=
  "kairoschannel-" ++ itoa clientID ++ '@' :: itoa userID

def onConnect (cid c : GoString) : Res GoString := do
  let uid ← Res.ofOption (split '@' cid)[1]?
  pure (c ++ '@' :: uid)

structure Sync where
  cType : GoString
  userID : ℤ
  clientID : ℤ
deriving DecidableEq

def reciveMessage (subject : GoString) : Res Sync := do
  let ids := split '@' subject
  let uid ← Res.ofOption ids[1]?
  let key ← Res.ofOption ids[0]?
  let cids := split '-' key
  let cid ← Res.ofOption cids[1]?
  let cType ← Res.ofOption cids[0]?
  pure ⟨cType, parseInt uid, parseInt cid⟩

def syncData (s : Sync) (status : GoString) : Option ℤ :=
  if status = "connect" ∧ s.cType ≠ "kairosdeamon" then some s.clientID else none

def connect (name : GoString) (id clientID userID : ℤ) : Res Sync :=
  onConnect (clientUserID clientID userID) (channelKey name id) >>= reciveMessage

theorem parseInt_itoa {n : ℤ} (h : -2 ^ 63 ≤ n ∧ n < 2 ^ 63) : parseInt (itoa n) = n := by
  have hclamp : max (-2 ^ 63) (min (2 ^ 63 - 1) n) = n := by omega
  unfold parseInt
  cases n with
  | ofNat n =>
    have hvalue := Strings.unsigned?_natDigits n
    rw [itoa]
    cases hd : Strings.natDigits n with
    | nil => exact absurd hd Nat.toDigits_ne_nil
    | cons c s =>
      have hc : c.isDigit := Strings.isDigit_of_mem_natDigits (hd ▸ List.mem_cons_self)
      rw [hd] at hvalue
      split
      · rename_i heq
        exact absurd ((List.cons.inj heq).1 ▸ hc) (by decide)
      · rename_i heq
        exact absurd ((List.cons.inj heq).1 ▸ hc) (by decide)
      · rw [hvalue]
        exact hclamp
  | negSucc n =>
    have hvalue := Strings.unsigned?_natDigits (n + 1)
    rw [itoa]
    split
    · rename_i heq
      exact absurd (List.cons.inj heq).1 (by decide)
    · rename_i heq
      rw [← (List.cons.inj heq).2, hvalue]
      exact hclamp
    · rename_i _ hsign
      exact absurd rfl (hsign _)

theorem at_notMem_itoa (n : ℤ) : '@' ∉ itoa n := by
  intro h
  rcases Strings.isDigit_of_mem_itoa h with hdigit | hsign
  · exact absurd hdigit (by decide)
  · exact absurd hsign (by decide)

variable {name : GoString} {id clientID userID : ℤ}

theorem onConnect_eq (c : GoString) (clientID userID : ℤ) :
    onConnect (clientUserID clientID userID) c = .ok (c ++ '@' :: itoa userID) := by
  obtain ⟨id, hid, hname⟩ :
      ∃ id, '@' ∉ id ∧ clientUserID clientID userID = id ++ '@' :: itoa userID :=
    ⟨_, by simp [at_notMem_itoa], rfl⟩
  rw [onConnect, hname, Strings.split_append hid,
    Strings.split_of_notMem (at_notMem_itoa userID)]
  rfl

theorem connect_eq (hat : '@' ∉ name) (huser : -2 ^ 63 ≤ userID ∧ userID < 2 ^ 63) :
    connect name id clientID userID =
      (Res.ofOption (split '-' (channelKey name id))[1]?).bind fun cid =>
        (Res.ofOption (split '-' (channelKey name id))[0]?).bind fun cType =>
          .ok ⟨cType, userID, parseInt cid⟩ := by
  have hkey : '@' ∉ channelKey name id := by
    simp [channelKey, hat, at_notMem_itoa]
  rw [connect, onConnect_eq, Res.ok_bind, reciveMessage, Strings.split_append hkey,
    Strings.split_of_notMem (at_notMem_itoa userID)]
  simp only [List.getElem?_cons_succ, List.getElem?_cons_zero, Res.ofOption, Res.ok_bind,
    parseInt_itoa huser]
  rfl

theorem connect_eq_iff (hat : '@' ∉ name) (hid : -2 ^ 63 ≤ id ∧ id < 2 ^ 63)
    (huser : -2 ^ 63 ≤ userID ∧ userID < 2 ^ 63) :
    connect name id clientID userID = .ok ⟨name, userID, id⟩ ↔ '-' ∉ name ∧ 0 ≤ id := by
  rw [connect_eq hat huser]
  by_cases hdash : '-' ∈ name
  · refine iff_of_false (fun heq => ?_) fun h => h.1 hdash
    obtain ⟨cid, -, hrest⟩ := Res.bind_eq_ok.mp heq
    obtain ⟨cType, hcType, hsync⟩ := Res.bind_eq_ok.mp hrest
    have hname : cType = name := congrArg Sync.cType (Res.ok.inj hsync)
    exact Strings.notMem_of_mem_split
      (List.mem_of_getElem? (Res.ofOption_eq_ok.mp hcType)) (hname ▸ hdash)
  · rw [channelKey, Strings.split_append hdash]
    cases id with
    | ofNat n =>
      have hdigits : '-' ∉ itoa (.ofNat n) :=
        fun h => absurd (Strings.isDigit_of_mem_natDigits h) (by decide)
      rw [Strings.split_of_notMem hdigits]
      exact iff_of_true (congrArg (fun n => Res.ok (Sync.mk name userID n)) (parseInt_itoa hid))
        ⟨hdash, Int.natCast_nonneg n⟩
    | negSucc n =>
      have hsplit : split '-' (itoa (.negSucc n)) = [] :: split '-' (Strings.natDigits (n + 1)) :=
        Strings.split_append List.not_mem_nil _
      have hzero : parseInt [] = 0 := by decide
      rw [hsplit]
      refine iff_of_false (fun heq => ?_) fun h => absurd h.2 (by omega)
      have hn : (0 : ℤ) = Int.negSucc n :=
        hzero ▸ congrArg Sync.clientID (Res.ok.inj heq)
      omega

/-- A subject comes back as the name, id and user exactly if the name has no dash and is not that of
the daemons, and the id is not negative. -/
theorem connect_syncs_iff (name : GoString) (hat : '@' ∉ name) (id clientID userID : ℤ)
    (hid : -2 ^ 63 ≤ id ∧ id < 2 ^ 63) (huser : -2 ^ 63 ≤ userID ∧ userID < 2 ^ 63) :
    (∃ s, connect name id clientID userID = .ok s ∧ s = ⟨name, userID, id⟩ ∧
      syncData s "connect" = some id) ↔
      '-' ∉ name ∧ 0 ≤ id ∧ name ≠ "kairosdeamon" := by
  rw [← and_assoc, ← connect_eq_iff hat hid huser]
  constructor
  · rintro ⟨s, hs, rfl, hlookup⟩
    refine ⟨hs, fun hname => ?_⟩
    rw [syncData, if_neg (by simp [hname])] at hlookup
    cases hlookup
  · rintro ⟨hs, hname⟩
    exact ⟨_, hs, rfl, if_pos ⟨rfl, hname⟩⟩

theorem news_syncs : ∃ s, connect "news" 5 2 7 = .ok s ∧ s = ⟨"news", 7, 5⟩ ∧
    syncData s "connect" = some 5 :=
  (connect_syncs_iff "news" (by decide) 5 2 7 (by decide) (by decide)).2 (by decide)

/-- The second piece of `my-news-5` is no number: channel 0 is looked up. -/
theorem dashed_name_lost :
    connect "my-news" 5 2 7 = .ok ⟨"my", 7, 0⟩ ∧
      syncData ⟨"my", 7, 0⟩ "connect" = some 0 :=
  ⟨rfl, by decide⟩

end Kairos.Subjects
