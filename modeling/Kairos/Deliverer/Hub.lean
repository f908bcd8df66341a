import Kairos.Go.Strings
import Mathlib.Data.List.Nodup

/-!
# The hub's subscribers

The subscribers of each channel, as `subShard` of `server/deliverer/hub.go` keeps them. The shard of
a channel is a function of its name, so all shards are one map. `removeSub` tells whether the
channel has no entry after it, but also where the client was not there.
-/

namespace Kairos.Deliverer

abbrev Uid := ℕ

abbrev Subs := GoString → Option (List Uid)

namespace Subs

def of (subs : Subs) (ch : GoString) : List Uid := (subs ch).getD []

def addSub (subs : Subs) (ch : GoString) (c : Uid) : Bool × Subs :=
  ((subs ch).isNone, Function.update subs ch (some ((subs.of ch).insert c)))

def removeSub (subs : Subs) (ch : GoString) (c : Uid) : Bool × Subs :=
  match subs ch with
  | none => (true, subs)
  | some cs =>
    if c ∈ cs then
      if cs.erase c = [] then (true, Function.update subs ch none)
      else (false, Function.update subs ch (some (cs.erase c)))
    else (true, subs)

def numSubscribers (subs : Subs) (ch : GoString) : ℕ := (subs.of ch).length

def Proper (subs : Subs) : Prop := ∀ ch, subs ch ≠ some []

variable {subs : Subs} {ch ch' : GoString} {c c' : Uid}

theorem addSub_self (subs : Subs) (ch : GoString) (c : Uid) :
    (subs.addSub ch c).2 ch = some ((subs.of ch).insert c) := Function.update_self ..

theorem addSub_of_ne (h : ch' ≠ ch) : (subs.addSub ch c).2 ch' = subs ch' :=
  Function.update_of_ne h ..

theorem removeSub_of_ne (h : ch' ≠ ch) : (subs.removeSub ch c).2 ch' = subs ch' := by
  unfold removeSub
  cases subs ch with
  | none => rfl
  | some cs =>
    dsimp only
    split_ifs
    · exact Function.update_of_ne h ..
    · exact Function.update_of_ne h ..
    · rfl

theorem Proper.addSub (h : subs.Proper) (ch : GoString) (c : Uid) :
    (subs.addSub ch c).2.Proper := by
  intro ch'
  by_cases hch : ch' = ch
  · subst hch
    rw [addSub_self]
    intro hnil
    have hmem : c ∈ (subs.of ch').insert c := List.mem_insert_self
    rw [Option.some.inj hnil] at hmem
    cases hmem
  · rw [addSub_of_ne hch]
    exact h ch'

theorem Proper.removeSub (h : subs.Proper) (ch : GoString) (c : Uid) :
    (subs.removeSub ch c).2.Proper := by
  intro ch'
  by_cases hch : ch' = ch
  · subst hch
    have hsubs := h ch'
    unfold Subs.removeSub
    cases hcs : subs ch' with
    | none => simp [hcs]
    | some cs =>
      dsimp only
      split_ifs with hmem hnil
      · simp
      · simpa using hnil
      · exact h ch'
  · rw [removeSub_of_ne hch]
    exact h ch'

theorem removeSub_only (h : subs ch = some [c]) : (subs.removeSub ch c).2 ch = none := by
  simp [removeSub, h]

theorem ne_none_of_removeSub (h : (subs.removeSub ch c).2 ch' ≠ none) : subs ch' ≠ none := by
  by_cases hch : ch' = ch
  · subst hch
    intro hnone
    exact h (by simp [removeSub, hnone])
  · rwa [removeSub_of_ne hch] at h

theorem addSub_first (h : subs ch = none) : (subs.addSub ch c).2 ch = some [c] := by
  rw [addSub_self, of, h]
  rfl

theorem Proper.eq_none (h : subs.Proper) (hch : subs.numSubscribers ch = 0) : subs ch = none := by
  cases hcs : subs ch with
  | none => rfl
  | some cs =>
    have hnil : cs = [] := by simpa [numSubscribers, of, hcs] using hch
    exact absurd (hnil ▸ hcs) (h ch)

def Sets (subs : Subs) : Prop := ∀ ch, (subs.of ch).Nodup

theorem mem_addSub : c' ∈ (subs.addSub ch c).2.of ch' ↔ ch' = ch ∧ c' = c ∨ c' ∈ subs.of ch' := by
  by_cases hch : ch' = ch
  · subst hch
    rw [of, addSub_self, Option.getD_some, List.mem_insert_iff]
    simp
  · rw [of, addSub_of_ne hch]
    simp [of, hch]

theorem Sets.addSub (h : subs.Sets) (ch : GoString) (c : Uid) : (subs.addSub ch c).2.Sets := by
  intro ch'
  by_cases hch : ch' = ch
  · subst hch
    rw [of, addSub_self, Option.getD_some]
    exact List.Nodup.insert (h ch')
  · rw [of, addSub_of_ne hch]
    exact h ch'

theorem of_removeSub_self (subs : Subs) (ch : GoString) (c : Uid) :
    (subs.removeSub ch c).2.of ch = (subs.of ch).erase c := by
  cases hcs : subs ch with
  | none => simp [removeSub, of, hcs]
  | some cs =>
    by_cases hmem : c ∈ cs
    · by_cases hnil : cs.erase c = []
      · simp [removeSub, of, hcs, hmem, hnil]
      · simp [removeSub, of, hcs, hmem, hnil]
    · simp [removeSub, of, hcs, hmem, List.erase_of_not_mem]

theorem Sets.removeSub (h : subs.Sets) (ch : GoString) (c : Uid) :
    (subs.removeSub ch c).2.Sets := by
  intro ch'
  by_cases hch : ch' = ch
  · subst hch
    rw [of_removeSub_self]
    exact List.Nodup.erase c (h ch')
  · rw [of, removeSub_of_ne hch]
    exact h ch'

theorem Sets.mem_removeSub (h : subs.Sets) :
    c' ∈ (subs.removeSub ch c).2.of ch' ↔ c' ∈ subs.of ch' ∧ ¬ (ch' = ch ∧ c' = c) := by
  by_cases hch : ch' = ch
  · subst hch
    rw [of_removeSub_self, List.Nodup.mem_erase_iff (h ch')]
    simp [and_comm]
  · rw [of, removeSub_of_ne hch]
    simp [of, hch]

/-- `Node.addSubscription`: whether it returns nil, and the entries. `ok` is the success of
`broker.Subscribe`. -/
def addSubscription (subs : Subs) (ch : GoString) (c : Uid) (ok : Bool) : Bool × Subs :=
  let r := subs.addSub ch c
  if r.1 && !ok then (false, (r.2.removeSub ch c).2) else (true, r.2)

theorem Sets.addSubscription (h : subs.Sets) (ch : GoString) (c : Uid) (ok : Bool) :
    (subs.addSubscription ch c ok).2.Sets := by
  unfold Subs.addSubscription
  dsimp only
  split_ifs
  · exact (h.addSub ch c).removeSub ch c
  · exact h.addSub ch c

theorem Sets.mem_addSubscription (h : subs.Sets) (ch ch' : GoString) (c c' : Uid) (ok : Bool) :
    c' ∈ (subs.addSubscription ch c ok).2.of ch' ↔
      (subs.addSubscription ch c ok).1 ∧ ch' = ch ∧ c' = c ∨ c' ∈ subs.of ch' := by
  unfold Subs.addSubscription
  dsimp only
  split_ifs with hfail
  · rw [(h.addSub ch c).mem_removeSub, mem_addSub]
    constructor
    · rintro ⟨hnew | hold, hne⟩
      · exact absurd hnew hne
      · exact .inr hold
    · rintro (hnew | hold)
      · exact absurd hnew.1 (by decide)
      -- the channel had no entry, so that the client was not there before
      · refine ⟨.inr hold, fun heq => ?_⟩
        have hnone : subs ch = none :=
          Option.isNone_iff_eq_none.mp (Bool.and_eq_true_iff.mp hfail).1
        rw [heq.1, of, hnone] at hold
        cases hold
  · simp [mem_addSub]

end Subs

end Kairos.Deliverer
