import Mathlib.Data.List.Find
import Mathlib.Data.List.Induction
import Kairos.Runner.BrokerDeliver
import Kairos.Template.Literals

/-!
# The names of tasks, channels and clients

A task, a channel or a client has in templates an ending to its name: `_task`, `_channel` and
`_client`, and longer ones for what it produced. `GetRawName` cuts the ending off, and finds the
right one. `GetRootDefaultVar` tries those of tasks first, and cuts those of clients off with
`strings.TrimRight`, which goes on into the name.
-/

namespace Kairos

open List
open Strings (hasSuffix trimSuffix trimRight)

inductive NameFamily where
  | task
  | channel
  | client
  deriving DecidableEq

namespace NameFamily

def sub : NameFamily → GoString
  | .task => subTask
  | .channel => subChannel
  | .client => subClient

def subs : NameFamily → List GoString
  | .task => subTasks
  | .channel => subChannels
  | .client => subClients

def qualify (H : Host) : NameFamily → GoString → GoString
  | .task => getTaskName H
  | .channel => getChannelName H
  | .client => getClientName H

theorem qualify_eq (H : Host) (f : NameFamily) (x : GoString) :
    f.qualify H x = H.toLower (x ++ f.sub) := by
  cases f <;> rfl

theorem sub_mem (f : NameFamily) : f.sub ∈ rawSuffixes := by
  cases f <;> simp [sub, rawSuffixes]

theorem subs_subset (f : NameFamily) : ∀ e ∈ f.subs, e ∈ rawSuffixes := by
  intro e he
  cases f <;> simp [subs] at he <;> simp [rawSuffixes, he]

end NameFamily

structure BareName (H : Host) (x : GoString) : Prop where
  lower : H.toLower x = x
  bare : ∀ f : NameFamily, ¬ f.sub <:+: x

def Host.KeepsLower (H : Host) : Prop :=
  ∀ c ∈ "_abcdefghijklmnopqrstuvwxyz".toList, H.lower c = c

/-! ## Endings -/

theorem Strings.hasSuffix_iff {s p : GoString} : hasSuffix s p ↔ p <:+ s :=
  isSuffixOf_iff_suffix

theorem Strings.trimSuffix_append (x e : GoString) : trimSuffix (x ++ e) e = x := by
  have hsuffix : hasSuffix (x ++ e) e :=
    Strings.hasSuffix_iff.2 (suffix_append x e)
  rw [trimSuffix, if_pos hsuffix, length_append, Nat.add_sub_cancel]
  exact take_left

theorem Strings.trimRight_append {x e cutset : GoString} (he : ∀ c ∈ e, cutset.contains c) :
    trimRight (x ++ e) cutset = trimRight x cutset := by
  induction e using reverseRecOn with
  | nil => rw [append_nil]
  | append_singleton e c ih =>
    obtain ⟨he, hc⟩ := forall_mem_append.1 he
    rw [← append_assoc, Strings.trimRight_concat (hc c mem_cons_self), ih he]

theorem rawSuffixes_nested : ∀ e ∈ rawSuffixes, ∀ s ∈ rawSuffixes, e <:+ s →
    s = e ∨ s = subClient ++ e := by
  decide +kernel

variable {H : Host} {x e : GoString} {f : NameFamily}

theorem BareName.hasSuffix_append (hx : BareName H x) (he : e ∈ rawSuffixes) {s : GoString}
    (hs : s ∈ rawSuffixes) : hasSuffix (x ++ e) s = hasSuffix e s := by
  rw [Bool.eq_iff_iff, Strings.hasSuffix_iff, Strings.hasSuffix_iff]
  constructor
  · intro hsuffix
    rcases suffix_or_suffix_of_suffix hsuffix (suffix_append x e) with hse | hes
    · exact hse
    · rcases rawSuffixes_nested e he s hs hes with rfl | rfl
      · exact suffix_rfl
      · -- the name would end with `_client`
        have hclient : subClient <:+ x := by
          obtain ⟨t, ht⟩ := hsuffix
          rw [← append_assoc] at ht
          exact ⟨t, append_cancel_right ht⟩
        exact absurd hclient.isInfix (hx.bare .client)
  · exact fun hse => hse.trans (suffix_append x e)

theorem BareName.find?_append (hx : BareName H x) (he : e ∈ rawSuffixes) {l : List GoString}
    (hl : ∀ s ∈ l, s ∈ rawSuffixes) : l.find? (hasSuffix (x ++ e)) = l.find? (hasSuffix e) :=
  find?_congr fun s hs => hx.hasSuffix_append he (hl s hs)

theorem Host.KeepsLower.toLower_append (hH : H.KeepsLower) (hx : BareName H x)
    (he : e ∈ rawSuffixes) : H.toLower (x ++ e) = x ++ e := by
  have hletters :
      rawSuffixes.all (·.all ("_abcdefghijklmnopqrstuvwxyz".toList.contains ·)) := by
    decide +kernel
  have hlower : H.toLower e = e := by
    refine (map_congr_left fun c hc => ?_).trans (map_id e)
    have hall := all_eq_true.mp hletters e he
    exact hH c (contains_iff_mem.mp (all_eq_true.mp hall c hc))
  have happend : H.toLower (x ++ e) = H.toLower x ++ H.toLower e := map_append
  rw [happend, hx.lower, hlower]

section

variable (hx : BareName H x)
include hx

theorem BareName.getRawName_append (hH : H.KeepsLower) (he : e ∈ rawSuffixes) :
    getRawName H (x ++ e) = x := by
  have hself : ∀ e ∈ rawSuffixes, rawSuffixes.find? (hasSuffix e) = some e := by
    decide +kernel
  have hfind : rawSuffixes.find? (hasSuffix (x ++ e)) = some e := by
    rw [hx.find?_append he fun s hs => hs, hself e he]
  unfold getRawName
  rw [hH.toLower_append hx he, hfind]
  exact Strings.trimSuffix_append x e

theorem BareName.qualify (hH : H.KeepsLower) (f : NameFamily) : f.qualify H x = x ++ f.sub := by
  rw [NameFamily.qualify_eq, hH.toLower_append hx f.sub_mem]

/-! ## Roots -/

variable (he : e ∈ rawSuffixes)
include he

theorem BareName.isRoot_append : isRoot (x ++ e) = isRoot e := by
  have hsub (f : NameFamily) : hasSuffix (x ++ e) f.sub = hasSuffix e f.sub :=
    hx.hasSuffix_append he f.sub_mem
  exact congr_arg₂ _ (congr_arg₂ _ (hsub .task) (hsub .channel)) (hsub .client)

theorem BareName.find?_subs : subTasks.find? (hasSuffix (x ++ e)) = subTasks.find? (hasSuffix e) ∧
    subChannels.find? (hasSuffix (x ++ e)) = subChannels.find? (hasSuffix e) ∧
    subClients.find? (hasSuffix (x ++ e)) = subClients.find? (hasSuffix e) :=
  ⟨hx.find?_append he (NameFamily.subs_subset .task),
    hx.find?_append he (NameFamily.subs_subset .channel),
    hx.find?_append he (NameFamily.subs_subset .client)⟩

theorem BareName.getRootDefaultVar_task
    (hroot : isRoot e = false) {y e' : GoString} (hy : e = y ++ e')
    (htask : subTasks.find? (hasSuffix e) = some e') :
    getRootDefaultVar H (x ++ e) = getTaskName H (x ++ y) := by
  have htrim : trimSuffix (x ++ e) e' = x ++ y := by
    rw [hy, ← append_assoc, Strings.trimSuffix_append]
  simp only [getRootDefaultVar, hx.isRoot_append he, hroot, (hx.find?_subs he).1, htask, htrim,
    Bool.false_eq_true, if_false]

theorem BareName.getRootDefaultVar_channel
    (hroot : isRoot e = false) (htask : subTasks.find? (hasSuffix e) = none)
    (hchannel : subChannels.find? (hasSuffix e) = some e) :
    getRootDefaultVar H (x ++ e) = getChannelName H x := by
  simp only [getRootDefaultVar, hx.isRoot_append he, hroot, (hx.find?_subs he).1, htask,
    (hx.find?_subs he).2.1, hchannel, Strings.trimSuffix_append, Bool.false_eq_true, if_false]

theorem BareName.getRootDefaultVar_client
    (hroot : isRoot e = false) (htask : subTasks.find? (hasSuffix e) = none)
    (hchannel : subChannels.find? (hasSuffix e) = none)
    (hclient : subClients.find? (hasSuffix e) = some e) :
    getRootDefaultVar H (x ++ e) = getClientName H (trimRight x e) := by
  have htrim : trimRight (x ++ e) e = trimRight x e :=
    Strings.trimRight_append fun c hc => contains_iff_mem.2 hc
  simp only [getRootDefaultVar, hx.isRoot_append he, hroot, (hx.find?_subs he).1, htask,
    (hx.find?_subs he).2.1, hchannel, (hx.find?_subs he).2.2, hclient, htrim, Bool.false_eq_true,
    if_false]

end

def EndsOutside (e x : GoString) : Prop := ∀ c ∈ x.getLast?, c ∉ e

theorem getClientName_trimRight_iff :
    getClientName H (trimRight x e) = getClientName H x ↔ EndsOutside e x := by
  have hself : trimRight x e = x ↔ EndsOutside e x := by
    rw [Strings.trimRight_eq_self]
    simp [EndsOutside]
  rw [← hself]
  refine ⟨fun h => ?_, congrArg _⟩
  have hlen := congrArg List.length h
  simp only [getClientName, Host.toLower, length_map, length_append] at hlen
  exact (Strings.trimRight_sublist x e).eq_of_length (by omega)

theorem getTaskName_append_client_ne : getTaskName H (x ++ subClient) ≠ getClientName H x := by
  intro h
  have hlen := congrArg List.length h
  simp only [getTaskName, getClientName, Host.toLower, length_map, length_append] at hlen
  have htask : subTask.length = 5 := by decide
  omega

def clientOnly : List GoString := ["_client_msg", "_client_task_name"]

/-- Any ending of a task or a channel, and one of a client that is not also one of a task and has
none of the letters at the end of the name. -/
def Resolvable (f : NameFamily) (e x : GoString) : Prop :=
  f = .client → e ∈ clientOnly ∧ EndsOutside e x

theorem BareName.getRootDefaultVar_iff (hx : BareName H x) (he : e ∈ f.subs) :
    getRootDefaultVar H (x ++ e) = f.qualify H x ↔ Resolvable f e x := by
  have hraw := f.subs_subset e he
  have hroot : isRoot e = false := by
    revert e
    cases f <;> decide +kernel
  cases f with
  | task =>
    have hfind : ∀ e ∈ subTasks, subTasks.find? (hasSuffix e) = some e := by decide +kernel
    have hresolved := hx.getRootDefaultVar_task hraw hroot (nil_append e).symm (hfind e he)
    rw [append_nil] at hresolved
    exact iff_of_true hresolved (by simp [Resolvable])
  | channel =>
    have hfind : ∀ e ∈ subChannels, subTasks.find? (hasSuffix e) = none ∧
        subChannels.find? (hasSuffix e) = some e := by decide +kernel
    obtain ⟨htask, hchannel⟩ := hfind e he
    exact iff_of_true (hx.getRootDefaultVar_channel hraw hroot htask hchannel)
      (by simp [Resolvable])
  | client =>
    have hfind : ∀ e ∈ subClients,
        (e ∈ clientOnly ∧ subTasks.find? (hasSuffix e) = none ∧
          subChannels.find? (hasSuffix e) = none ∧
          subClients.find? (hasSuffix e) = some e) ∨
        (e ∉ clientOnly ∧ ∃ e' ∈ subTasks, e = subClient ++ e' ∧
          subTasks.find? (hasSuffix e) = some e') := by decide +kernel
    have hclient : Resolvable .client e x ↔ e ∈ clientOnly ∧ EndsOutside e x := by
      simp [Resolvable]
    rw [hclient]
    rcases hfind e he with ⟨hmem, htask, hchannel, hclient⟩ | ⟨hnot, e', -, hy, htask⟩
    · rw [hx.getRootDefaultVar_client hraw hroot htask hchannel hclient]
      exact getClientName_trimRight_iff.trans (and_iff_right hmem).symm
    · rw [hx.getRootDefaultVar_task hraw hroot hy htask]
      exact iff_of_false getTaskName_append_client_ne fun h => hnot h.1

/-- A bare name with an ending is resolved to the qualified name of its object, and both lead back,
exactly where the ending is that of a task or a channel, or of a client, without an ending of a task
in it or a letter of the end of the name. -/
theorem names_resolve_iff {H : Host} (hH : H.KeepsLower) {x : GoString} (hx : BareName H x)
    (f : NameFamily) {e : GoString} (he : e ∈ f.subs) :
    (getRootDefaultVar H (x ++ e) = f.qualify H x ∧ getRawName H (f.qualify H x) = x ∧
      getRawName H (x ++ e) = x) ↔ Resolvable f e x := by
  have hname : getRawName H (f.qualify H x) = x := by
    rw [hx.qualify hH f, hx.getRawName_append hH f.sub_mem]
  rw [hx.getRootDefaultVar_iff he]
  exact and_iff_left ⟨hname, hx.getRawName_append hH (f.subs_subset e he)⟩

theorem keepsLower_plainHost : plainHost.KeepsLower := by
  have hall :
      "_abcdefghijklmnopqrstuvwxyz".toList.all (fun c => plainHost.lower c == c) := by
    decide +kernel
  exact fun c hc => eq_of_beq (all_eq_true.mp hall c hc)

/-- The name ends with a letter that is not in `_client_msg`. -/
theorem web_client_resolves :
    getRootDefaultVar plainHost "web_client_msg".toList = "web_client".toList ∧
      getRawName plainHost "web_client_msg".toList = "web".toList := by
  have hx : BareName plainHost "web".toList := by
    refine ⟨by decide, fun f => ?_⟩
    cases f <;> decide +kernel
  have he : "_client_msg".toList ∈ NameFamily.client.subs := by decide
  have hends : Resolvable .client "_client_msg".toList "web".toList := by
    refine fun _ => ⟨by decide, fun c hc => ?_⟩
    cases hc
    decide
  obtain ⟨hroot, -, hraw⟩ := (names_resolve_iff keepsLower_plainHost hx .client he).2 hends
  exact ⟨hroot, hraw⟩

/-- `test` is made of letters of `_client_msg`: nothing is left of it. -/
theorem test_client_lost : BareName plainHost "test".toList ∧
    "_client_msg".toList ∈ NameFamily.client.subs ∧
    getRootDefaultVar plainHost ("test".toList ++ "_client_msg".toList) = "_client".toList ∧
    NameFamily.client.qualify plainHost "test".toList = "test_client".toList := by
  refine ⟨⟨by decide, fun f => ?_⟩, by decide, by decide +kernel, by decide +kernel⟩
  cases f <;> decide +kernel

end Kairos
