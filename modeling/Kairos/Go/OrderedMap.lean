import Mathlib.Data.List.Nodup
import Kairos.Go.Values
import Kairos.Library.Codec

/-!
# Ordered maps

`OrderedMap` of `pkg/orderedmap` keeps its keys in the order in which they were set. It is encoded
and decoded through a Go map, so that the order is lost.
-/

namespace Kairos

open List

namespace Res

def forEach {α β : Type} (f : α → Res β) : List α → Res (List β)
  | [] => .ok []
  | a :: as => do
    let b ← f a
    let bs ← forEach f as
    .ok (b :: bs)

variable {α β : Type}

theorem forEach_eq_ok {f : α → Res β} {as : List α} {bs : List β} :
    forEach f as = .ok bs ↔ List.Forall₂ (fun a b => f a = .ok b) as bs := by
  induction as generalizing bs with
  | nil => simp [forEach, eq_comm]
  | cons a as ih =>
    simp only [forEach, bind_eq_ok, ok.injEq, forall₂_cons_left_iff, ih]
    constructor
    · rintro ⟨b, hb, bs', hbs, rfl⟩
      exact ⟨b, bs', hb, hbs, rfl⟩
    · rintro ⟨b, bs', hb, hbs, rfl⟩
      exact ⟨b, hb, bs', hbs, rfl⟩

theorem forEach_isOk {f : α → Res β} {as : List α} (h : ∀ a ∈ as, ∃ b, f a = .ok b) :
    ∃ bs, forEach f as = .ok bs := by
  induction as with
  | nil => exact ⟨[], rfl⟩
  | cons a as ih =>
    obtain ⟨⟨b, hb⟩, has⟩ := forall_mem_cons.1 h
    obtain ⟨bs, hbs⟩ := ih has
    exact ⟨b :: bs, bind_eq_ok.2 ⟨b, hb, bind_eq_ok.2 ⟨bs, hbs, rfl⟩⟩⟩

end Res

/-! ## The maps -/

structure OrderedMap (α : Type) where
  entries : List (GoString × α)
  nodup : (entries.map Prod.fst).Nodup

namespace OrderedMap

variable {α β : Type}

def empty : OrderedMap α := ⟨[], .nil⟩

def singleton (k : GoString) (v : α) : OrderedMap α := ⟨[(k, v)], nodup_singleton k⟩

def keys (m : OrderedMap α) : List GoString := m.entries.map Prod.fst

def get (m : OrderedMap α) (k : GoString) : Option α :=
  (m.entries.find? fun e => e.1 = k).map Prod.snd

def hasKey (k : GoString) (es : List (GoString × α)) : Bool := es.any fun e => e.1 = k

variable {k : GoString} {es : List (GoString × α)}

theorem hasKey_iff : hasKey k es ↔ k ∈ es.map Prod.fst := by
  simp [hasKey]

def setEntries (k : GoString) (v : α) (es : List (GoString × α)) : List (GoString × α) :=
  if hasKey k es then es.map fun e => if e.1 = k then (k, v) else e else es ++ [(k, v)]

theorem setEntries_keys (k : GoString) (v : α) (es : List (GoString × α)) :
    (setEntries k v es).map Prod.fst =
      if hasKey k es then es.map Prod.fst else es.map Prod.fst ++ [k] := by
  unfold setEntries
  split_ifs with hk
  · rw [map_map]
    refine map_congr_left fun e _ => ?_
    by_cases he : e.1 = k
    · simp [he]
    · simp [he]
  · rw [map_append]
    rfl

def set (m : OrderedMap α) (k : GoString) (v : α) : OrderedMap α where
  entries := setEntries k v m.entries
  nodup := by
    rw [setEntries_keys]
    split_ifs with hk
    · exact m.nodup
    · exact nodup_append.2 ⟨m.nodup, nodup_singleton k, fun a ha b hb h =>
        hk (hasKey_iff.2 (mem_singleton.1 hb ▸ h ▸ ha))⟩

def setAll (m : OrderedMap α) (es : List (GoString × α)) : OrderedMap α :=
  es.foldl (fun m e => m.set e.1 e.2) m

def map (f : α → β) (m : OrderedMap α) : OrderedMap β where
  entries := m.entries.map fun e => (e.1, f e.2)
  nodup := by
    rw [map_map]
    exact m.nodup

theorem zip_fst_sublist (as : List α) (bs : List β) : ((as.zip bs).map Prod.fst).Sublist as := by
  induction as generalizing bs with
  | nil => exact List.Sublist.refl []
  | cons a as ih =>
    cases bs with
    | nil => exact nil_sublist _
    | cons b bs => exact (ih bs).cons_cons a

def zip (m : OrderedMap α) (bs : List β) : OrderedMap (α × β) where
  entries := (m.entries.zip bs).map fun e => (e.1.1, e.1.2, e.2)
  nodup := by
    have hsub := (zip_fst_sublist m.entries bs).map Prod.fst
    rw [map_map] at hsub ⊢
    exact m.nodup.sublist hsub

variable {m : OrderedMap α} {v v' : α}

theorem mem_unique (h : (k, v) ∈ m.entries) (h' : (k, v') ∈ m.entries) : v = v' :=
  congrArg Prod.snd (inj_on_of_nodup_map m.nodup h h' rfl)

theorem get_eq_some_iff : m.get k = some v ↔ (k, v) ∈ m.entries := by
  unfold get
  rw [Option.map_eq_some_iff]
  constructor
  · rintro ⟨⟨k', v'⟩, hfind, rfl⟩
    obtain rfl : k' = k := by simpa using find?_some hfind
    exact mem_of_find?_eq_some hfind
  · intro hmem
    have hsome : (m.entries.find? fun e => e.1 = k).isSome :=
      find?_isSome.2 ⟨(k, v), hmem, decide_eq_true rfl⟩
    obtain ⟨⟨k', v'⟩, hfind⟩ := Option.isSome_iff_exists.1 hsome
    obtain rfl : k' = k := by simpa using find?_some hfind
    exact ⟨_, hfind, mem_unique (mem_of_find?_eq_some hfind) hmem⟩

theorem mem_keys : k ∈ m.keys ↔ ∃ v, (k, v) ∈ m.entries := by
  simp [keys]

variable {f : α → β}

theorem mem_map {v : β} : (k, v) ∈ (m.map f).entries ↔ ∃ a, (k, a) ∈ m.entries ∧ f a = v := by
  simp [map]

theorem mem_set {k' : GoString} :
    (k', v') ∈ (m.set k v).entries ↔ k' = k ∧ v' = v ∨ k' ≠ k ∧ (k', v') ∈ m.entries := by
  unfold set setEntries
  dsimp only
  split_ifs with hk
  · rw [List.mem_map]
    constructor
    · rintro ⟨e, he, heq⟩
      split_ifs at heq with hek
      · cases heq
        exact .inl ⟨rfl, rfl⟩
      · subst heq
        exact .inr ⟨hek, he⟩
    · rintro (⟨rfl, rfl⟩ | ⟨hne, hmem⟩)
      · obtain ⟨e, he, rfl⟩ := List.mem_map.1 (hasKey_iff.1 hk)
        exact ⟨e, he, if_pos rfl⟩
      · exact ⟨(k', v'), hmem, if_neg hne⟩
  · rw [mem_append, mem_singleton, Prod.mk.injEq]
    constructor
    · rintro (hmem | heq)
      · refine .inr ⟨?_, hmem⟩
        rintro rfl
        exact hk (hasKey_iff.2 (mem_map_of_mem hmem))
      · exact .inl heq
    · rintro (heq | ⟨-, hmem⟩)
      · exact .inr heq
      · exact .inl hmem

theorem mem_setAll (hes : (es.map Prod.fst).Nodup) : (k, v) ∈ (m.setAll es).entries ↔
      (k, v) ∈ es ∨ k ∉ es.map Prod.fst ∧ (k, v) ∈ m.entries := by
  induction es generalizing m with
  | nil => simp [setAll]
  | cons e es ih =>
    obtain ⟨hnot, hes⟩ := nodup_cons.1 hes
    have hstep : m.setAll (e :: es) = (m.set e.1 e.2).setAll es := rfl
    rw [hstep, ih hes, mem_set, mem_cons, map_cons, mem_cons, not_or,
      ← Prod.mk.injEq, Prod.mk.eta]
    constructor
    · rintro (hmem | ⟨hk, heq | ⟨hne, hmem⟩⟩)
      · exact .inl (.inr hmem)
      · exact .inl (.inl heq)
      · exact .inr ⟨⟨hne, hk⟩, hmem⟩
    · rintro ((rfl | hmem) | ⟨⟨hne, hk⟩, hmem⟩)
      · exact .inr ⟨hnot, .inl rfl⟩
      · exact .inl hmem
      · exact .inr ⟨hk, .inr ⟨hne, hmem⟩⟩

/-! ## Encoding and decoding -/

structure MapOrder where
  order : List (GoString × Json) → List (GoString × Json)
  perm : ∀ fields, (order fields).Perm fields

/-- `MarshalJSON`. The text has the keys in increasing order, which nothing that reads it can
tell. -/
def marshalJSON (enc : α → Res Json) (m : OrderedMap α) : Res Json := do
  let fields ← Res.forEach (fun e => enc e.2 >>= fun j => .ok (e.1, j)) m.entries
  .ok (.obj fields)

variable {enc : α → Res Json}

theorem marshalJSON_isOk
    (h : ∀ k a, (k, a) ∈ m.entries → ∃ j, enc a = .ok j) : ∃ j, m.marshalJSON enc = .ok j := by
  obtain ⟨fields, hfields⟩ : ∃ fields, Res.forEach (fun e => enc e.2 >>= fun j => .ok (e.1, j))
      m.entries = .ok fields := by
    refine Res.forEach_isOk fun e he => ?_
    obtain ⟨j, hj⟩ := h e.1 e.2 he
    exact ⟨(e.1, j), Res.bind_eq_ok.2 ⟨j, hj, rfl⟩⟩
  exact ⟨.obj fields, Res.bind_eq_ok.2 ⟨fields, hfields, rfl⟩⟩

def readField (dec : Json → Option α) (x : GoString × Json) : Option (GoString × α) :=
  (dec x.2).map (Prod.mk x.1)

def unmarshalJSON (O : MapOrder) (dec : Json → Option α) (into : OrderedMap α) :
    Json → Option (OrderedMap α)
  | .obj fields => ((O.order fields).mapM (readField dec)).map into.setAll
  | .null => some into
  | _ => none

variable {dec : Json → Option β}

theorem filterMap_fields {fields : List (GoString × Json)}
    (hfields : List.Forall₂ (fun e x => (enc e.2 >>= fun j => .ok (e.1, j)) = .ok x) es fields)
    (hdec : ∀ k a j, (k, a) ∈ es → enc a = .ok j → dec j = some (f a)) :
    (∀ x ∈ fields, (readField dec x).isSome) ∧
      fields.filterMap (readField dec) = es.map fun e => (e.1, f e.2) := by
  induction hfields with
  | nil => exact ⟨nofun, rfl⟩
  | @cons e x es fields hx hfields ih =>
    obtain ⟨hsome, hmap⟩ := ih fun k a j hmem => hdec k a j (mem_cons_of_mem _ hmem)
    obtain ⟨j, hj, h⟩ := Res.bind_eq_ok.1 hx
    cases h
    have hread : readField dec (e.1, j) = some (e.1, f e.2) := by
      rw [readField, hdec e.1 e.2 j mem_cons_self hj]
      rfl
    refine ⟨forall_mem_cons.2 ⟨by rw [hread]; rfl, hsome⟩, ?_⟩
    rw [filterMap_cons_some hread, hmap, map_cons]

theorem unmarshalJSON_marshalJSON {j : Json} (O : MapOrder) (into : OrderedMap β)
    (hj : m.marshalJSON enc = .ok j)
    (hdec : ∀ k a j, (k, a) ∈ m.entries → enc a = .ok j → dec j = some (f a)) :
    ∃ m', unmarshalJSON O dec into j = some m' ∧ ∀ k v, (k, v) ∈ m'.entries ↔
      (k, v) ∈ (m.map f).entries ∨ k ∉ m.keys ∧ (k, v) ∈ into.entries := by
  obtain ⟨fields, hfields, h⟩ := Res.bind_eq_ok.1 hj
  cases h
  obtain ⟨hsome, hmap⟩ := filterMap_fields (Res.forEach_eq_ok.1 hfields) hdec
  -- The loop sets the decoded values, in its order.
  have hperm : ((O.order fields).filterMap (readField dec)).Perm (m.map f).entries := by
    have h := (O.perm fields).filterMap (readField dec)
    rwa [hmap] at h
  have hkeys : (((O.order fields).filterMap (readField dec)).map Prod.fst).Perm m.keys := by
    have h := hperm.map Prod.fst
    rwa [show (m.map f).entries.map Prod.fst = m.keys from map_map] at h
  refine ⟨into.setAll ((O.order fields).filterMap (readField dec)), ?_, fun k v => ?_⟩
  · rw [unmarshalJSON, mapM_eq_filterMap fun x hx => hsome x ((O.perm fields).mem_iff.1 hx)]
    rfl
  · rw [mem_setAll (hkeys.nodup_iff.2 m.nodup), hperm.mem_iff, hkeys.mem_iff]

end OrderedMap

end Kairos
