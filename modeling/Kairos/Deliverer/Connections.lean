import Kairos.Deliverer.Grants
import Kairos.Deliverer.Publish
import Mathlib.Data.List.Dedup

/-!
# The connections of the hub

`connShard` of `server/deliverer/hub.go` keeps the connected clients under their ids, and the ids of
each user's clients. `REMOVE_CHANNEL` finds the clients to unsubscribe by their user, though each is
connected under a composite and never under the id of a user alone.
-/

namespace Kairos.Deliverer

open Option
open Strings (itoa)

structure ConnShard (C : Type*) where
  conns : AList fun _ : Uid => C
  users : AList fun _ : GoString => List Uid

namespace ConnShard

variable {C : Type*} (id : C → Uid) (user : C → GoString)

def empty : ConnShard C := ⟨∅, ∅⟩

def index (h : ConnShard C) : Subs := fun u => h.users.lookup u

def add (h : ConnShard C) (c : C) : ConnShard C where
  conns := h.conns.insert (id c) c
  users := h.users.insert (user c) ((h.index.of (user c)).insert (id c))

def remove (h : ConnShard C) (c : C) : ConnShard C where
  conns := h.conns.erase (id c)
  users :=
    match h.users.lookup (user c) with
    | none => h.users
    | some ids =>
      if id c ∈ ids then
        if ids.erase (id c) = [] then h.users.erase (user c)
        else h.users.insert (user c) (ids.erase (id c))
      else h.users

def connections (h : ConnShard C) : List Uid → AList fun _ : Uid => C
  | [] => ∅
  | uid :: ids =>
    match h.conns.lookup uid with
    | none => h.connections ids
    | some c => (h.connections ids).insert uid c

def userConnections (h : ConnShard C) (userID : GoString) : AList fun _ : Uid => C :=
  match h.users.lookup userID with
  | none => ∅
  | some ids => h.connections ids

def numClients (h : ConnShard C) : ℕ := (h.users.entries.map fun e => e.2.length).sum

def numUsers (h : ConnShard C) : ℕ := h.users.keys.length

inductive Act (C : Type*) where
  | add (c : C)
  | remove (c : C)

def next (h : ConnShard C) : Act C → ConnShard C
  | .add c => h.add id user c
  | .remove c => h.remove id user c

def run (acts : List (Act C)) : ConnShard C := acts.foldl (next id user) empty

variable {id user} {h : ConnShard C} {c : C} {u : GoString} {uid : Uid}

theorem index_add : (h.add id user c).index = (h.index.addSub (user c) (id c)).2 := by
  funext u
  by_cases hu : u = user c
  · rw [hu, Subs.addSub_self]
    exact AList.lookup_insert _
  · rw [Subs.addSub_of_ne hu]
    exact AList.lookup_insert_ne hu

theorem index_remove : (h.remove id user c).index = (h.index.removeSub (user c) (id c)).2 := by
  have herase (u : GoString) :
      (h.users.erase (user c)).lookup u = Function.update h.index (user c) none u := by
    by_cases hu : u = user c
    · rw [hu, Function.update_self, AList.lookup_erase]
    · rw [Function.update_of_ne hu, AList.lookup_erase_ne hu]
      rfl
  have hinsert (ids : List Uid) (u : GoString) :
      (h.users.insert (user c) ids).lookup u = Function.update h.index (user c) (some ids) u := by
    by_cases hu : u = user c
    · rw [hu, Function.update_self, AList.lookup_insert]
    · rw [Function.update_of_ne hu, AList.lookup_insert_ne hu]
      rfl
  funext u
  unfold Subs.removeSub
  cases hids : h.users.lookup (user c) with
  | none => simp [index, remove, hids]
  | some ids =>
    by_cases hmem : id c ∈ ids
    · by_cases hnil : ids.erase (id c) = []
      · simpa [index, remove, hids, hmem, hnil] using herase u
      · simpa [index, remove, hids, hmem, hnil] using hinsert (ids.erase (id c)) u
    · simp [index, remove, hids, hmem]

structure Indexed (id : C → Uid) (user : C → GoString) (h : ConnShard C) : Prop where
  sets : h.index.Sets
  proper : h.index.Proper
  named : ∀ uid c, h.conns.lookup uid = some c → id c = uid
  listed : ∀ u uid, uid ∈ h.index.of u ↔ ∃ c, h.conns.lookup uid = some c ∧ user c = u

theorem Indexed.add (hinj : Function.Injective id) (hh : Indexed id user h) (c : C) :
    Indexed id user (h.add id user c) where
  sets := index_add ▸ hh.sets.addSub _ _
  proper := index_add ▸ hh.proper.addSub _ _
  named uid c' hc' := by
    by_cases huid : uid = id c
    · rw [huid, ConnShard.add, AList.lookup_insert, some.injEq] at hc'
      rw [huid, ← hc']
    · rw [ConnShard.add, AList.lookup_insert_ne huid] at hc'
      exact hh.named uid c' hc'
  listed u uid := by
    rw [index_add, Subs.mem_addSub, hh.listed, ConnShard.add]
    by_cases huid : uid = id c
    · subst huid
      -- a client that was there under this id is the same one
      have hsame (c' : C) (hc' : h.conns.lookup (id c) = some c') : c' = c :=
        hinj (hh.named _ c' hc')
      rw [AList.lookup_insert]
      constructor
      · rintro (⟨hu, -⟩ | ⟨c', hc', hu⟩)
        · exact ⟨c, rfl, hu.symm⟩
        · exact ⟨c, rfl, hsame c' hc' ▸ hu⟩
      · rintro ⟨c', hc', hu⟩
        obtain rfl := some.inj hc'
        exact .inl ⟨hu.symm, rfl⟩
    · rw [AList.lookup_insert_ne huid]
      simp [huid]

theorem Indexed.remove (hinj : Function.Injective id) (hh : Indexed id user h) (c : C) :
    Indexed id user (h.remove id user c) where
  sets := index_remove ▸ hh.sets.removeSub _ _
  proper := index_remove ▸ hh.proper.removeSub _ _
  named uid c' hc' := by
    by_cases huid : uid = id c
    · rw [huid, ConnShard.remove, AList.lookup_erase] at hc'
      cases hc'
    · rw [ConnShard.remove, AList.lookup_erase_ne huid] at hc'
      exact hh.named uid c' hc'
  listed u uid := by
    rw [index_remove, hh.sets.mem_removeSub, hh.listed, ConnShard.remove]
    by_cases huid : uid = id c
    · subst huid
      rw [AList.lookup_erase]
      refine iff_of_false ?_ (by simp)
      rintro ⟨⟨c', hc', hu⟩, hne⟩
      exact hne ⟨hinj (hh.named _ c' hc') ▸ hu.symm, rfl⟩
    · rw [AList.lookup_erase_ne huid]
      simp [huid]

theorem Indexed.run (hinj : Function.Injective id) (user : C → GoString) (acts : List (Act C)) :
    Indexed id user (run id user acts) := by
  have hempty : Indexed id user (empty : ConnShard C) :=
    ⟨fun _ => .nil, fun _ => by simp [index, empty], by simp [empty],
      by simp [empty, Subs.of, index]⟩
  refine List.foldlRecOn acts (next id user) hempty fun h hh a _ => ?_
  cases a with
  | add c => exact hh.add hinj c
  | remove c => exact hh.remove hinj c

theorem lookup_connections (h : ConnShard C) (ids : List Uid) :
    (h.connections ids).lookup uid = some c ↔ uid ∈ ids ∧ h.conns.lookup uid = some c := by
  induction ids with
  | nil => simp [connections]
  | cons i ids ih =>
    by_cases hi : uid = i
    · subst hi
      cases hc : h.conns.lookup uid with
      | none => simp [connections, hc, ih]
      | some c' => simp [connections, hc, AList.lookup_insert]
    · cases hc : h.conns.lookup i with
      | none => simp [connections, hc, ih, hi]
      | some c' => simp [connections, hc, ih, hi, AList.lookup_insert_ne hi]

theorem lookup_userConnections : (h.userConnections u).lookup uid = some c ↔
      uid ∈ h.index.of u ∧ h.conns.lookup uid = some c := by
  cases hids : h.users.lookup u with
  | none => simp [userConnections, Subs.of, index, hids]
  | some ids => simp [userConnections, Subs.of, index, hids, lookup_connections]

theorem mem_of (huid : uid ∈ h.index.of u) : ∃ ids, h.users.lookup u = some ids ∧ uid ∈ ids := by
  cases hids : h.users.lookup u with
  | none => simp [Subs.of, index, hids] at huid
  | some ids => exact ⟨ids, rfl, by simpa [Subs.of, index, hids] using huid⟩

theorem exists_of_listed (hh : Indexed id user h) :
    (∃ u ids, ⟨u, ids⟩ ∈ h.users.entries ∧ uid ∈ ids) ↔ uid ∈ h.conns.keys := by
  constructor
  · rintro ⟨u, ids, hentry, huid⟩
    have hids : h.users.lookup u = some ids := AList.mem_lookup_iff.mpr hentry
    obtain ⟨c, hc, -⟩ := (hh.listed u uid).1 (by simpa [Subs.of, index, hids] using huid)
    exact AList.lookup_isSome.mp (hc ▸ rfl)
  · intro huid
    obtain ⟨c, hc⟩ := isSome_iff_exists.mp (AList.lookup_isSome.mpr huid)
    have hof := (hh.listed (user c) uid).2 ⟨c, hc, rfl⟩
    obtain ⟨ids, hids, hmem⟩ := mem_of hof
    exact ⟨user c, ids, AList.mem_lookup_iff.mp hids, hmem⟩

theorem numClients_eq (hh : Indexed id user h) : h.numClients = h.conns.keys.length := by
  have hof {u : GoString} {ids : List Uid} (he : ⟨u, ids⟩ ∈ h.users.entries) :
      h.index.of u = ids := by
    rw [Subs.of, index, AList.mem_lookup_iff.mpr he, getD_some]
  have hnodup : (h.users.entries.flatMap fun e => e.2).Nodup := by
    refine List.nodup_flatMap.mpr ⟨fun e he => hof he ▸ hh.sets e.1, ?_⟩
    refine (List.nodupKeys_iff_pairwise.mp h.users.nodupKeys).imp_of_mem
      fun {e e'} he he' hne uid huid huid' => hne ?_
    -- an id of two users would be that of one client
    obtain ⟨c, hc, hu⟩ := (hh.listed e.1 uid).1 ((hof he).symm ▸ huid)
    obtain ⟨c', hc', hu'⟩ := (hh.listed e'.1 uid).1 ((hof he').symm ▸ huid')
    rw [← hu, ← hu', some.inj (hc.symm.trans hc')]
  have hperm : (h.users.entries.flatMap fun e => e.2).Perm h.conns.keys := by
    refine (List.perm_ext_iff_of_nodup hnodup h.conns.keys_nodup).mpr fun uid => ?_
    rw [← exists_of_listed hh, List.mem_flatMap]
    constructor
    · rintro ⟨e, he, huid⟩
      exact ⟨e.1, e.2, he, huid⟩
    · rintro ⟨u, ids, he, huid⟩
      exact ⟨_, he, huid⟩
  rw [← hperm.length_eq, List.length_flatMap, numClients]

theorem numUsers_eq (hh : Indexed id user h) :
    h.numUsers = (h.conns.entries.map fun e => user e.2).dedup.length := by
  refine List.Perm.length_eq ((List.perm_ext_iff_of_nodup h.users.keys_nodup
    (List.nodup_dedup _)).mpr fun u => ?_)
  rw [List.mem_dedup, List.mem_map]
  constructor
  · intro hu
    obtain ⟨ids, hids⟩ := isSome_iff_exists.mp (AList.lookup_isSome.mpr hu)
    cases ids with
    | nil => exact absurd hids (hh.proper u)
    | cons uid ids =>
      obtain ⟨c, hc, rfl⟩ := (hh.listed u uid).1 (by simp [Subs.of, index, hids])
      exact ⟨_, AList.mem_lookup_iff.mp hc, rfl⟩
  · rintro ⟨e, he, rfl⟩
    obtain ⟨ids, hids, -⟩ :=
      mem_of ((hh.listed (user e.2) e.1).2 ⟨e.2, AList.mem_lookup_iff.mpr he, rfl⟩)
    exact AList.lookup_isSome.mp (hids ▸ rfl)

/-- Whatever was added and removed, the index gives the ids of each user's clients, and the numbers
are right. -/
theorem users_index (hinj : Function.Injective id) (user : C → GoString) {acts : List (Act C)}
    (hrun : run id user acts = h) :
    (∀ u uid, uid ∈ h.index.of u ↔ ∃ c, h.conns.lookup uid = some c ∧ user c = u) ∧
      (∀ u, h.users.lookup u ≠ some []) ∧ (∀ u uid c, (h.userConnections u).lookup uid = some c ↔
        h.conns.lookup uid = some c ∧ user c = u) ∧ h.numClients = h.conns.keys.length ∧
      h.numUsers = (h.conns.entries.map fun e => user e.2).dedup.length := by
  subst hrun
  have hh := Indexed.run hinj user acts
  refine ⟨hh.listed, hh.proper, fun u uid c => ?_, numClients_eq hh, numUsers_eq hh⟩
  rw [lookup_userConnections, hh.listed]
  constructor
  · rintro ⟨⟨c', hc', hu⟩, hc⟩
    exact ⟨hc, some.inj (hc'.symm.trans hc) ▸ hu⟩
  · exact fun ⟨hc, hu⟩ => ⟨⟨c, hc, hu⟩, hc⟩

def pairActs : List (Act ℕ) := [.add 2, .add 3, .add 5, .add 2, .remove 5]

theorem pairActs_counted : (run (fun n => n) (fun n => itoa (n / 2)) pairActs).numClients = 2 ∧
      (run (fun n => n) (fun n => itoa (n / 2)) pairActs).numUsers = 1 := by
  obtain ⟨-, -, -, hclients, husers⟩ := users_index Function.injective_id
    (fun n => itoa (n / 2)) (rfl : run (fun n => n) (fun n => itoa (n / 2)) pairActs = _)
  exact ⟨hclients.trans rfl, husers.trans (by decide)⟩

theorem exists_user_of_index (acts : List (Act C)) (hu : (run id user acts).index u ≠ none) :
    ∃ c, u = user c := by
  have hempty : (empty : ConnShard C).index u = none := rfl
  revert hu
  refine List.foldlRecOn acts (next id user)
    (motive := fun h => h.index u ≠ none → ∃ c, u = user c) (absurd hempty) fun h hh a _ hu => ?_
  cases a with
  | add c =>
    by_cases hc : u = user c
    · exact ⟨c, hc⟩
    · exact hh (by rwa [next, index_add, Subs.addSub_of_ne hc] at hu)
  | remove c => exact hh (Subs.ne_none_of_removeSub (by rwa [next, index_remove] at hu))

end ConnShard

/-! ## The removal of a channel -/

structure Channel where
  id : ℤ
  userID : ℤ
  name : GoString

def Channel.key (ch : Channel) : GoString := ch.name ++ '-' :: itoa ch.id

def Channel.Has (ch : Channel) (key : GoString) : Prop :=
  key = ch.key ∨ ∃ sub, key = ch.key ++ ':' :: sub

namespace Clients

def table (s : Clients) (c : Uid) (key : GoString) : Option ChannelContext :=
  (s.client c).bind fun cl => cl.channels.lookup key

def Subscribed (s : Clients) (c : Uid) (key : GoString) : Prop :=
  (∃ ctx ∈ s.table c key, ctx.subscribed) ∨ c ∈ s.subs.of key

def unsubscribe (s : Clients) (c : Uid) (key : GoString) : Clients :=
  match s.client c with
  | none => s
  | some cl =>
    if cl.closed then s else s.put c cl.grants ((s.session cl).unsubscribe c key)

variable {C : Type*}

/-- The handler of `REMOVE_CHANNEL`: `Node.Unsubscribe` of the user and the channel, on every
node. -/
def removeChannel (s : Clients) (hub : ConnShard C) (ch : Channel) : Clients :=
  (hub.userConnections (itoa ch.userID)).keys.foldl (fun s c => s.unsubscribe c ch.name) s

structure Removed (ch : Channel) (before after : Clients) : Prop where
  gone : ∀ c key, ch.Has key → ¬ after.Subscribed c key
  kept : ∀ c key, ¬ ch.Has key → after.table c key = before.table c key ∧
    (c ∈ after.subs.of key ↔ c ∈ before.subs.of key)

variable (id : C → Uid) (login : C → Login) (acts : List (ConnShard.Act C))

def hub : ConnShard C := ConnShard.run id (fun c => (login c).clientUserID) acts

theorem removeChannel_eq (s : Clients) (ch : Channel) :
    s.removeChannel (hub id login acts) ch = s := by
  have hnone : (hub id login acts).users.lookup (itoa ch.userID) = none := by
    by_contra hsome
    obtain ⟨c, hc⟩ := ConnShard.exists_user_of_index acts hsome
    have hat : '@' ∈ itoa ch.userID := by simp [hc, Login.clientUserID]
    rcases Strings.isDigit_of_mem_itoa hat with hdigit | hsign
    · exact absurd hdigit (by decide)
    · exact absurd hsign (by decide)
  rw [removeChannel, ConnShard.userConnections, hnone]
  rfl

/-- A channel is removed exactly if nobody is subscribed to it. -/
theorem removeChannel_iff (s : Clients) (ch : Channel) :
    Removed ch s (s.removeChannel (hub id login acts) ch) ↔
      ∀ c key, ch.Has key → ¬ s.Subscribed c key := by
  rw [removeChannel_eq]
  exact ⟨Removed.gone, fun h => ⟨h, fun _ _ _ => ⟨rfl, Iff.rfl⟩⟩⟩

def newsChannel : Channel := ⟨5, 7, "news"⟩

def newsClients : Clients where
  client c :=
    if c = 1 then some ⟨[], AList.singleton "news-5" ⟨flagSubscribed, readRole⟩, false⟩
    else none
  subs key := if key = "news-5" then some [1] else none

theorem newsChannel_stays : ¬ Removed newsChannel newsClients (newsClients.removeChannel
      (hub (fun _ : Unit => 1) (fun _ => ⟨.channelUser, 7, 2⟩) [.add ()]) newsChannel) := by
  rw [removeChannel_eq]
  intro h
  exact h.gone 1 "news-5" (.inl (by decide)) (.inr (by decide))

end Clients

end Kairos.Deliverer
