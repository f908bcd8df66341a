import Kairos.Go.Strings
import Mathlib.Data.List.AList

/-!
# The channel table of a client

`Client.channels` of `server/deliverer/client.go`: what a client is subscribed to, with its role,
and what is pending. A channel has the key `name-id`. For `name:sub`, `subscribeCmd` looks for the
parent among the keys, in the order in which Go's map gives them (`Channels.target`).
-/

namespace Kairos.Deliverer

open List
open Strings (split)

abbrev Role := ℤ

def readRole : Role := 1
def writeRole : Role := 2
def readWriteRole : Role := 3

def flagSubscribed : UInt8 := 1
def flagEmitPresence : UInt8 := 2
def flagEmitJoinLeave : UInt8 := 4
def flagPushJoinLeave : UInt8 := 8
def flagServerSide : UInt8 := 16
def flagClientSideRefresh : UInt8 := 32

def channelHasFlag (flags flag : UInt8) : Bool := (flags &&& flag) != 0

theorem channelHasFlag_or (flags : UInt8) :
    channelHasFlag (flagSubscribed ||| flags) flagSubscribed := by
  have habsorb : (flagSubscribed ||| flags) &&& flagSubscribed = flagSubscribed := by
    apply UInt8.toBitVec_inj.mp
    ext i hi
    simp only [UInt8.toBitVec_and, UInt8.toBitVec_or, BitVec.getElem_and, BitVec.getElem_or]
    cases flagSubscribed.toBitVec[i] <;> simp
  rw [channelHasFlag, habsorb]
  rfl

structure ChannelContext where
  flags : UInt8 := 0
  role : Role := 0
deriving DecidableEq

def ChannelContext.subscribed (ctx : ChannelContext) : Bool :=
  channelHasFlag ctx.flags flagSubscribed

abbrev Channels := AList fun _ : GoString => ChannelContext

namespace Channels

def get (channels : Channels) (k : GoString) : ChannelContext := (channels.lookup k).getD {}

/-- The loop of `subscribeCmd` over the keys: the channel that a request is taken for, and the
role. -/
def parent (channels : Channels) (item : List GoString) :
    List GoString → Res (Option (GoString × Role))
  | [] => .ok none
  | k :: ks =>
    let pre := split '-' k
    if pre[0]? == item[0]? then do
      let name ← Res.ofOption item[0]?
      let id ← Res.ofOption pre[1]?
      let sub ← Res.ofOption item[1]?
      pure (some (name ++ '-' :: id ++ ':' :: sub, (channels.get k).role))
    else channels.parent item ks

/-- What `subscribeCmd` subscribes to and as what, for keys in the order `order` and the handler's
`role`; none where it denies. -/
def target (channels : Channels) (order : List GoString) (channel : GoString) (role : Role) :
    Res (Option (GoString × Role)) :=
  if channel.contains ':' then channels.parent (split ':' channel) order
  else .ok (some (channel, role))

end Channels

/-! ## The loop -/

section

variable {channels : Channels} {item more ks : List GoString} {name id sub k : GoString}
    {role : Role}

theorem parent_cons_of_ne (h : (split '-' k)[0]? ≠ item[0]?) :
    channels.parent item (k :: ks) = channels.parent item ks := by
  rw [Channels.parent, if_neg (by simpa using h)]

theorem parent_cons_of_eq (h : (split '-' k)[0]? = some name) :
    channels.parent (name :: sub :: more) (k :: ks) = (Res.ofOption (split '-' k)[1]? >>= fun id =>
        .ok (some (name ++ '-' :: id ++ ':' :: sub, (channels.get k).role))) := by
  rw [Channels.parent, if_pos (by simp [h])]
  rfl

theorem parent_of_forall_ne (h : ∀ k ∈ ks, (split '-' k)[0]? ≠ some name) :
    channels.parent (name :: more) ks = .ok none := by
  induction ks with
  | nil => rfl
  | cons k ks ih =>
    rw [parent_cons_of_ne (h k mem_cons_self)]
    exact ih fun k' hk' => h k' (mem_cons_of_mem _ hk')

theorem first_ne_of_colon {channel : GoString} (h : ':' ∈ channel) :
    (split '-' channel)[0]? ≠ (split ':' channel)[0]? := by
  obtain ⟨name, rest, rfl, hname⟩ := eq_append_cons_of_mem h
  rw [Strings.split_append hname]
  intro heq
  have hdash : '-' ∉ name := Strings.notMem_of_mem_split (mem_of_getElem? heq)
  have hall : ∀ c ∈ name, (c != '-') := by
    intro c hc
    exact bne_iff_ne.mpr fun hcd => hdash (hcd ▸ hc)
  rw [Strings.split_head, takeWhile_append_of_pos hall] at heq
  simp at heq

theorem parent_of_agree (hall : ∀ k ∈ ks, (split '-' k)[0]? = some name →
      (split '-' k)[1]? = some id ∧ (channels.get k).role = role)
    (hex : ∃ k ∈ ks, (split '-' k)[0]? = some name) : channels.parent (name :: sub :: more) ks =
      .ok (some (name ++ '-' :: id ++ ':' :: sub, role)) := by
  induction ks with
  | nil => simp at hex
  | cons k ks ih =>
    by_cases hk : (split '-' k)[0]? = some name
    · obtain ⟨hid, hrole⟩ := hall k mem_cons_self hk
      rw [parent_cons_of_eq hk, hid, ← hrole]
      rfl
    · -- the key that is there is a later one
      obtain ⟨k', hmem, hk'⟩ := hex
      have hlater : k' ∈ ks := (mem_cons.mp hmem).resolve_left fun heq => hk (heq ▸ hk')
      rw [parent_cons_of_ne hk]
      exact ih (fun k hk => hall k (mem_cons_of_mem _ hk)) ⟨k', hlater, hk'⟩

theorem parent_eq_some {ch : GoString} (h : channels.parent item ks = .ok (some (ch, role))) :
    ∃ k ∈ ks, ∃ name id sub, item[0]? = some name ∧ (split '-' k)[0]? = some name ∧
      (split '-' k)[1]? = some id ∧ ch = name ++ '-' :: id ++ ':' :: sub ∧
      role = (channels.get k).role := by
  induction ks with
  | nil => cases h
  | cons k ks ih =>
    by_cases hk : (split '-' k)[0]? = item[0]?
    · rw [Channels.parent, if_pos (by simp [hk])] at h
      simp only [Res.bind_eq_ok, Res.ofOption_eq_ok, Res.pure_eq] at h
      obtain ⟨name, hname, id, hid, sub, -, hch⟩ := h
      have hpair := Prod.ext_iff.mp (Option.some.inj (Res.ok.inj hch))
      exact ⟨k, mem_cons_self, name, id, sub, hname, hk.trans hname, hid, hpair.1.symm,
        hpair.2.symm⟩
    · rw [parent_cons_of_ne hk] at h
      obtain ⟨k', hk', hfound⟩ := ih h
      exact ⟨k', mem_cons_of_mem _ hk', hfound⟩

end

/-! ## Which requests are answered as asked -/

namespace Channels

def IsParent (channels : Channels) (name id : GoString) (ctx : ChannelContext) : Prop :=
  '-' ∉ id ∧ ':' ∉ id ∧ channels.lookup (name ++ '-' :: id) = some ctx ∧ ctx.subscribed

/-- `name:rest` is denied, or is the sub-channel of a channel of exactly that name, with its
role. -/
def Asked (channels : Channels) (name rest : GoString) (o : Option (GoString × Role)) : Prop :=
  o = none ∨ ∃ id ctx, channels.IsParent name id ctx ∧
    o = some (name ++ '-' :: id ++ ':' :: rest, ctx.role)

/-- `name:rest` is answered as asked, the same for every order of the keys and without any of the
other entries. -/
def Settles (channels : Channels) (name rest : GoString) : Prop :=
  ∃ o, channels.Asked name rest o ∧
    ∀ part : Channels, (∀ k ctx, part.lookup k = some ctx → channels.lookup k = some ctx) →
      (∀ id ctx, channels.IsParent name id ctx → part.IsParent name id ctx) →
      ∀ order, order.Perm part.keys → ∀ role, part.target order (name ++ ':' :: rest) role = .ok o

/-- No key has the name before its first dash, or all that do agree with one channel of that name,
and there is no further colon. -/
def OneParent (channels : Channels) (name rest : GoString) : Prop :=
  (∀ k ∈ channels, (split '-' k)[0]? ≠ some name) ∨
    ':' ∉ rest ∧ ∃ id ctx, channels.IsParent name id ctx ∧
      ∀ k ctx', channels.lookup k = some ctx' → (split '-' k)[0]? = some name →
        (split '-' k)[1]? = some id ∧ ctx'.role = ctx.role

variable {channels : Channels} {name rest id k : GoString} {ctx : ChannelContext}

theorem get_of_lookup (h : channels.lookup k = some ctx) : channels.get k = ctx := by
  rw [get, h, Option.getD_some]

theorem exists_of_mem (h : k ∈ channels) : ∃ ctx, channels.lookup k = some ctx :=
  Option.isSome_iff_exists.mp (AList.lookup_isSome.mpr h)

theorem mem_of_lookup (h : channels.lookup k = some ctx) : k ∈ channels :=
  AList.lookup_isSome.mp (h ▸ rfl)

theorem target_of_colon (hname : ':' ∉ name) (order : List GoString) (role : Role) :
    channels.target order (name ++ ':' :: rest) role =
      channels.parent (name :: split ':' rest) order := by
  rw [target, if_pos (by simp), Strings.split_append hname]

theorem IsParent.split (h : channels.IsParent name id ctx) (hname : '-' ∉ name) :
    Strings.split '-' (name ++ '-' :: id) = [name, id] := by
  rw [Strings.split_append hname, Strings.split_of_notMem h.1]

theorem notMem_of_first (h : (Strings.split '-' k)[0]? = some name) : '-' ∉ name :=
  Strings.notMem_of_mem_split (mem_of_getElem? h)

theorem settles_of_forall_ne (hname : ':' ∉ name)
    (h : ∀ k ∈ channels, (Strings.split '-' k)[0]? ≠ some name) : channels.Settles name rest := by
  refine ⟨none, .inl rfl, fun part hpart _ order horder role => ?_⟩
  rw [target_of_colon hname]
  apply parent_of_forall_ne
  intro k hk
  obtain ⟨ctx, hctx⟩ := exists_of_mem (AList.mem_keys.mpr (horder.mem_iff.mp hk))
  exact h k (mem_of_lookup (hpart k ctx hctx))

theorem OneParent.settles (hname : ':' ∉ name) (h : channels.OneParent name rest) :
    channels.Settles name rest := by
  rcases h with hnone | ⟨hrest, id, ctx, hparent, hall⟩
  · exact settles_of_forall_ne hname hnone
  by_cases hdash : '-' ∈ name
  · -- the name is that of no key's first piece, even if a channel is called so
    exact settles_of_forall_ne hname fun k _ hk => notMem_of_first hk hdash
  refine ⟨_, .inr ⟨id, ctx, hparent, rfl⟩, fun part hpart hkeep order horder role => ?_⟩
  rw [target_of_colon hname, Strings.split_of_notMem hrest]
  apply parent_of_agree
  · intro k hk hfirst
    obtain ⟨ctx', hctx'⟩ := exists_of_mem (AList.mem_keys.mpr (horder.mem_iff.mp hk))
    rw [get_of_lookup hctx']
    exact hall k ctx' (hpart k ctx' hctx') hfirst
  · have hkept := mem_of_lookup (hkeep id ctx hparent).2.2.1
    refine ⟨_, horder.mem_iff.mpr (AList.mem_keys.mp hkept), ?_⟩
    rw [hparent.split hdash]
    rfl

theorem Settles.eq_of_first {o : Option (GoString × Role)} {sub : GoString} {more : List GoString}
    (hname : ':' ∉ name) (hrest : Strings.split ':' rest = sub :: more)
    (h : ∀ order, order.Perm channels.keys → channels.target order (name ++ ':' :: rest) 0 = .ok o)
    (hk : channels.lookup k = some ctx) (hfirst : (Strings.split '-' k)[0]? = some name) :
    ∃ id, (Strings.split '-' k)[1]? = some id ∧
      o = some (name ++ '-' :: id ++ ':' :: sub, ctx.role) := by
  have hmem : k ∈ channels.keys := AList.mem_keys.mp (mem_of_lookup hk)
  have hans := h _ (perm_cons_erase hmem).symm
  rw [target_of_colon hname, hrest, parent_cons_of_eq hfirst, Res.bind_eq_ok] at hans
  obtain ⟨id, hid, ho⟩ := hans
  rw [get_of_lookup hk] at ho
  exact ⟨id, Res.ofOption_eq_ok.mp hid, (Res.ok.inj ho).symm⟩

theorem Settles.oneParent (hname : ':' ∉ name) (h : channels.Settles name rest) :
    channels.OneParent name rest := by
  obtain ⟨o, hasked, hans⟩ := h
  obtain ⟨sub, more, hrest⟩ := exists_cons_of_ne_nil (Strings.split_ne_nil ':' rest)
  have heq (k : GoString) (ctx : ChannelContext) (hk : channels.lookup k = some ctx)
      (hfirst : (Strings.split '-' k)[0]? = some name) :=
    Settles.eq_of_first hname hrest
      (fun order horder => hans channels (fun _ _ h => h) (fun _ _ h => h) order horder 0) hk hfirst
  by_cases hnone : ∀ k ∈ channels, (Strings.split '-' k)[0]? ≠ some name
  · exact .inl hnone
  push Not at hnone
  obtain ⟨k, hmem, hfirst⟩ := hnone
  obtain ⟨ctx, hk⟩ := exists_of_mem hmem
  obtain ⟨id, -, ho⟩ := heq k ctx hk hfirst
  -- the request is not denied, so that there is a channel of the name, and its key is one of those
  rcases hasked with rfl | ⟨pid, pctx, hparent, ho'⟩
  · cases ho
  have hsplit := hparent.split (notMem_of_first hfirst)
  obtain ⟨pid', hpid', ho''⟩ := heq _ pctx hparent.2.2.1 (by rw [hsplit]; rfl)
  obtain rfl : pid = pid' := by simpa [hsplit] using hpid'
  -- so what follows the colon is one piece
  have hsub : rest = sub := by simpa [ho'] using ho''
  have hcolon : ':' ∉ rest := by
    rw [hsub]
    exact Strings.notMem_of_mem_split (hrest ▸ mem_cons_self)
  refine .inr ⟨hcolon, pid, pctx, hparent, fun k ctx hk hfirst => ?_⟩
  obtain ⟨id, hid, ho⟩ := heq k ctx hk hfirst
  have hchannel : pid = id ∧ pctx.role = ctx.role := by simpa [ho', hsub] using ho
  exact ⟨hchannel.1 ▸ hid, hchannel.2.symm⟩

/-- A request for a sub-channel is answered as asked exactly where no key has its name before the
first dash, or all agree with one channel of that name and no further colon follows. -/
theorem settles_iff (channels : Channels) (name rest : GoString) (hname : ':' ∉ name) :
    channels.Settles name rest ↔ channels.OneParent name rest :=
  ⟨Settles.oneParent hname, OneParent.settles hname⟩

def granted : Channels :=
  AList.singleton "foo-3" ⟨flagSubscribed ||| flagServerSide, readRole⟩

theorem granted_settles : granted.Settles "foo" "x" := by
  refine (settles_iff granted _ _ (by decide)).mpr (.inr ⟨by decide, "3", _, ⟨by decide,
    by decide, rfl, by decide⟩, fun k ctx hk _ => ?_⟩)
  obtain rfl : k = "foo-3" := mem_singleton.mp (AList.mem_keys.mp (mem_of_lookup hk))
  exact ⟨by decide, congrArg ChannelContext.role (Option.some.inj hk).symm⟩

def grantedAndPlain : Channels := granted.insert "foo" ⟨flagSubscribed, 0⟩

/-- `foo:x` panics where the map gives the plain name first. Of `foo:x:y` the last piece is lost. -/
theorem granted_not_settles :
    grantedAndPlain.target ["foo", "foo-3"] "foo:x" 0 = .panic ∧
      ¬ grantedAndPlain.Settles "foo" "x" ∧
      granted.target ["foo-3"] "foo:x:y" 0 = .ok (some ("foo-3:x", readRole)) ∧
      ¬ granted.Settles "foo" "x:y" := by
  have hpanic : grantedAndPlain.target ["foo", "foo-3"] "foo:x" 0 = .panic :=
    rfl
  have hlost : granted.target ["foo-3"] "foo:x:y" 0 =
      .ok (some ("foo-3:x", readRole)) :=
    rfl
  refine ⟨hpanic, ?_, hlost, ?_⟩
  · rintro ⟨o, -, h⟩
    have hans := h grantedAndPlain (fun _ _ h => h) (fun _ _ h => h)
      ["foo", "foo-3"] (by decide +kernel) 0
    rw [show "foo" ++ ':' :: "x" = "foo:x" by decide, hpanic] at hans
    cases hans
  · rintro ⟨o, hasked, h⟩
    have hans := h granted (fun _ _ h => h) (fun _ _ h => h) ["foo-3"] (by decide +kernel) 0
    rw [show "foo" ++ ':' :: "x:y" = "foo:x:y" by decide, hlost] at hans
    -- the channel that is subscribed to has a colon less than any that was asked for
    obtain rfl := (Res.ok.inj hans).symm
    rcases hasked with hnone | ⟨id, ctx, -, ho⟩
    · cases hnone
    · have hcount := congrArg (List.count ':') (Prod.ext_iff.mp (Option.some.inj ho)).1
      have hleft : List.count ':' "foo-3:x" = 1 := by decide
      have hright : List.count ':' ("foo" ++ '-' :: id ++ ':' :: "x:y") =
          List.count ':' id + 2 := by
        simp
      dsimp only at hcount
      omega

end Channels

end Kairos.Deliverer
