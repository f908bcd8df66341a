import Mathlib.Data.List.Sort
import Kairos.Go.OrderedMap

/-!
# Ordered maps as they are stored

`OrderedMap` of `pkg/orderedmap` is a slice of keys beside a Go map. `Valid` says that no key is
listed twice and that the keys are those of the map. `MarshalJSON` writes the keys in increasing
order, and `UnmarshalJSON` sets them in whatever order a loop over a Go map takes.
-/

namespace Kairos

open List Option
open OrderedMap (hasKey setEntries MapOrder readField)

structure KeyedMap (α : Type) where
  s : List GoString
  m : GoString → Option α

namespace KeyedMap

variable {α : Type}

def new : KeyedMap α := ⟨[], fun _ => none⟩

def set (om : KeyedMap α) (key : GoString) (value : α) : KeyedMap α where
  s := if (om.m key).isSome then om.s else om.s ++ [key]
  m := Function.update om.m key (some value)

def sortKeys (keys : List GoString) : List GoString :=
  keys.insertionSort fun a b => (lex b a fun c d => Nat.blt c.toNat d.toNat) = false

theorem sortKeys_perm (keys : List GoString) : (sortKeys keys).Perm keys :=
  perm_insertionSort _ keys

def sort (om : KeyedMap α) : KeyedMap α := { om with s := sortKeys om.s }

section

variable [Inhabited α]

def get (om : KeyedMap α) (key : GoString) : α := (om.m key).getD default

def range {σ ε : Type} (fn : GoString → α → σ → σ × Option ε) (om : KeyedMap α) (st : σ) :
    σ × Option ε :=
  go om.s st
where
  go : List GoString → σ → σ × Option ε
    | [], st => (st, none)
    | key :: keys, st =>
      match fn key (om.get key) st with
      | (st, some err) => (st, some err)
      | (st, none) => go keys st

def merge (om other : KeyedMap α) : KeyedMap α :=
  (other.range (fun key value om => (set om key value, (none : Option Unit))) om).1

end

inductive YamlNode (N : Type) where
  | mapping (content : List (N × N))
  | other

/-- `UnmarshalYAML`, and whether there is no error. The pairs before one that cannot be decoded are
set. -/
def unmarshalYAML {N : Type} (decKey : N → Option GoString) (decValue : N → Option α)
    (om : KeyedMap α) : YamlNode N → KeyedMap α × Bool
  | .other => (om, false)
  | .mapping content => go om content
where
  go (om : KeyedMap α) : List (N × N) → KeyedMap α × Bool
    | [] => (om, true)
    | (keyNode, valueNode) :: content =>
      match decKey keyNode, decValue valueNode with
      | some k, some v => go (om.set k v) content
      | _, _ => (om, false)

inductive Built [Inhabited α] : KeyedMap α → Prop where
  | new : Built new
  | set {om : KeyedMap α} (h : Built om) (key : GoString) (value : α) : Built (om.set key value)
  | merge {om other : KeyedMap α} (h : Built om) (h' : Built other) : Built (om.merge other)
  | sort {om : KeyedMap α} (h : Built om) : Built om.sort
  | unmarshalYAML {om : KeyedMap α} (h : Built om) {N : Type} (decKey : N → Option GoString)
      (decValue : N → Option α) (node : YamlNode N) :
      Built (om.unmarshalYAML decKey decValue node).1

structure Valid (om : KeyedMap α) : Prop where
  nodup : om.s.Nodup
  mem_iff : ∀ k, k ∈ om.s ↔ (om.m k).isSome

theorem valid_new : (new : KeyedMap α).Valid := ⟨.nil, fun _ => by simp [new]⟩

theorem Valid.set {om : KeyedMap α} (h : om.Valid) (key : GoString) (value : α) :
    (om.set key value).Valid := by
  have hmem (k : GoString) :
      k ∈ (om.set key value).s ↔ k = key ∨ k ∈ om.s := by
    by_cases hkey : (om.m key).isSome
    · have hin := (h.mem_iff key).2 hkey
      simp only [KeyedMap.set, hkey, if_true]
      exact ⟨.inr, fun hk => hk.elim (fun heq => heq ▸ hin) id⟩
    · simp [KeyedMap.set, hkey, or_comm]
  refine ⟨?_, fun k => ?_⟩
  · by_cases hkey : (om.m key).isSome
    · simpa only [KeyedMap.set, hkey, if_true] using h.nodup
    · have hnot : key ∉ om.s := fun hin => hkey ((h.mem_iff key).1 hin)
      simp only [KeyedMap.set, hkey, if_false, Bool.false_eq_true]
      exact nodup_append.2 ⟨h.nodup, nodup_singleton key, fun a ha b hb heq =>
        hnot (mem_singleton.1 hb ▸ heq ▸ ha)⟩
  · rw [hmem, h.mem_iff]
    by_cases hk : k = key
    · simp [KeyedMap.set, hk]
    · simp [KeyedMap.set, hk]

theorem Valid.sort {om : KeyedMap α} (h : om.Valid) : om.sort.Valid := by
  have hperm : om.sort.s.Perm om.s := sortKeys_perm om.s
  exact ⟨hperm.nodup_iff.2 h.nodup, fun k => hperm.mem_iff.trans (h.mem_iff k)⟩

theorem Valid.unmarshalYAML {om : KeyedMap α} (h : om.Valid) {N : Type}
    (decKey : N → Option GoString) (decValue : N → Option α) (node : YamlNode N) :
    (om.unmarshalYAML decKey decValue node).1.Valid := by
  cases node with
  | other => exact h
  | mapping content =>
    change (unmarshalYAML.go decKey decValue om content).1.Valid
    induction content generalizing om with
    | nil => exact h
    | cons pair content ih =>
      obtain ⟨keyNode, valueNode⟩ := pair
      unfold unmarshalYAML.go
      cases decKey keyNode with
      | none => exact h
      | some k =>
        cases decValue valueNode with
        | none => exact h
        | some v => exact ih (h.set k v)

section

variable [Inhabited α] {om : KeyedMap α}

theorem range_eq_foldl {σ ε : Type} (f : GoString → α → σ → σ) (om : KeyedMap α) (st : σ) :
    om.range (fun k v st => (f k v st, (none : Option ε))) st =
      (om.s.foldl (fun st k => f k (om.get k) st) st, none) := by
  change range.go _ om om.s st = _
  generalize om.s = keys
  induction keys generalizing st with
  | nil => rfl
  | cons key keys ih => exact ih _

def entries (om : KeyedMap α) : List (GoString × α) := om.s.map fun k => (k, om.get k)

theorem entries_keys (om : KeyedMap α) : om.entries.map Prod.fst = om.s := by
  rw [entries, List.map_map]
  exact List.map_id _

theorem merge_eq (om other : KeyedMap α) :
    om.merge other = other.entries.foldl (fun om e => om.set e.1 e.2) om := by
  rw [entries, foldl_map]
  exact congrArg Prod.fst (range_eq_foldl (fun k v om => set om k v) other om)

omit [Inhabited α] in
theorem Valid.foldl_set (h : om.Valid) (es : List (GoString × α)) :
    (es.foldl (fun om e => om.set e.1 e.2) om).Valid :=
  foldlRecOn es _ h fun _ h e _ => h.set e.1 e.2

theorem Built.valid (h : Built om) : om.Valid := by
  induction h with
  | new => exact valid_new
  | set _ key value ih => exact ih.set key value
  | merge _ _ ih _ =>
    rw [merge_eq]
    exact ih.foldl_set _
  | sort _ ih => exact ih.sort
  | unmarshalYAML _ decKey decValue node ih => exact ih.unmarshalYAML decKey decValue node

theorem Valid.m_eq (h : om.Valid) {k : GoString} (hk : k ∈ om.s) : om.m k = some (om.get k) := by
  obtain ⟨v, hv⟩ := isSome_iff_exists.1 ((h.mem_iff k).1 hk)
  simp [get, hv]

/-! ## Entries -/

theorem Valid.mem_entries (h : om.Valid) {k : GoString} {v : α} :
    (k, v) ∈ om.entries ↔ om.m k = some v := by
  rw [entries, List.mem_map]
  constructor
  · rintro ⟨k', hk', heq⟩
    cases heq
    exact h.m_eq hk'
  · intro hk
    have hmem : k ∈ om.s := (h.mem_iff k).2 (by rw [hk]; rfl)
    refine ⟨k, hmem, ?_⟩
    simp [get, hk]

def Valid.toOrderedMap (h : om.Valid) : OrderedMap α where
  entries := om.entries
  nodup := by
    rw [entries_keys]
    exact h.nodup

theorem get_set (om : KeyedMap α) (key k : GoString) (value : α) :
    (om.set key value).get k = if k = key then value else om.get k := by
  by_cases hk : k = key
  · simp [get, set, hk]
  · simp [get, set, hk]

theorem Valid.toOrderedMap_set (h : om.Valid) (key : GoString) (value : α) :
    (h.set key value).toOrderedMap = h.toOrderedMap.set key value := by
  have hkey : hasKey key om.entries = (om.m key).isSome := by
    rw [Bool.eq_iff_iff, OrderedMap.hasKey_iff, entries_keys, h.mem_iff]
  have hvalue : (om.set key value).entries = setEntries key value om.entries := by
    unfold setEntries
    rw [hkey]
    by_cases hin : (om.m key).isSome
    · have hs : (om.set key value).s = om.s := if_pos hin
      rw [if_pos hin, entries, entries, hs, List.map_map]
      refine map_congr_left fun k _ => ?_
      by_cases hk : k = key
      · simp [get_set, hk]
      · simp [get_set, hk]
    · have hs : (om.set key value).s = om.s ++ [key] := if_neg hin
      rw [if_neg hin, entries, entries, hs, map_append, map_singleton, get_set,
        if_pos rfl]
      refine congrArg (· ++ _) (map_congr_left fun k hk => ?_)
      have hne : k ≠ key := by
        rintro rfl
        exact hin ((h.mem_iff k).1 hk)
      rw [get_set, if_neg hne]
  simp only [Valid.toOrderedMap, OrderedMap.set, hvalue]

/-! ## Encoding and decoding -/

def encodeFields (enc : α → Res Json) (om : KeyedMap α) : Res (List (GoString × Json)) :=
  Res.forEach (fun k => enc (om.get k) >>= fun j => .ok (k, j)) (sortKeys om.s)

def marshalJSON (enc : α → Res Json) (om : KeyedMap α) : Res Json := do
  let fields ← encodeFields enc (new.merge om)
  .ok (.obj fields)

omit [Inhabited α] in
def unmarshalJSON (O : MapOrder) (dec : Json → Option α) (om : KeyedMap α) :
    Json → Option (KeyedMap α)
  | .obj fields =>
    ((O.order fields).mapM (readField dec)).map
      (List.foldl (fun om e => om.set e.1 e.2) om)
  | .null => some om
  | _ => none

omit [Inhabited α] in
theorem foldl_set_new {es : List (GoString × α)} (hes : (es.map Prod.fst).Nodup) {om : KeyedMap α}
    (hnew : ∀ e ∈ es, om.m e.1 = none) :
    (es.foldl (fun om e => om.set e.1 e.2) om).s = om.s ++ es.map Prod.fst ∧
      (∀ e ∈ es, (es.foldl (fun om e => om.set e.1 e.2) om).m e.1 = some e.2) ∧
      ∀ k ∉ es.map Prod.fst, (es.foldl (fun om e => om.set e.1 e.2) om).m k = om.m k := by
  induction es generalizing om with
  | nil => simp
  | cons e es ih =>
    obtain ⟨hnot, hes⟩ := nodup_cons.1 hes
    obtain ⟨hkey, hnew⟩ := forall_mem_cons.1 hnew
    have hother {k : GoString} (hk : k ≠ e.1) : (om.set e.1 e.2).m k = om.m k :=
      Function.update_of_ne hk _ _
    have hnew' : ∀ e' ∈ es, (om.set e.1 e.2).m e'.1 = none := by
      intro e' he'
      have hne : e'.1 ≠ e.1 := fun heq => hnot (heq ▸ mem_map_of_mem he')
      rw [hother hne, hnew e' he']
    obtain ⟨hs, hm, hm'⟩ := ih hes hnew'
    rw [foldl_cons]
    refine ⟨?_, forall_mem_cons.2 ⟨?_, hm⟩, fun k hk => ?_⟩
    · rw [hs]
      simp [KeyedMap.set, hkey]
    · rw [hm' e.1 hnot]
      exact Function.update_self _ _ _
    · obtain ⟨hne, hk⟩ := ne_and_not_mem_of_not_mem_cons hk
      rw [hm' k hk, hother hne]

omit [Inhabited α] in
theorem eq_of_fields {om om' : KeyedMap α} (hs : om.s = om'.s) (hm : ∀ k, om.m k = om'.m k) :
    om = om' := by
  obtain ⟨s, m⟩ := om
  obtain ⟨s', m'⟩ := om'
  obtain rfl : s = s' := hs
  obtain rfl : m = m' := funext hm
  rfl

theorem Valid.foldl_set_new_eq (h : om.Valid) {es : List (GoString × α)}
    (hperm : es.Perm om.entries) :
    es.foldl (fun om e => om.set e.1 e.2) new = ⟨es.map Prod.fst, om.m⟩ := by
  have hkeys : (es.map Prod.fst).Perm om.s := om.entries_keys ▸ hperm.map Prod.fst
  have hnew : ∀ e ∈ es, (new : KeyedMap α).m e.1 = none := fun _ _ => rfl
  obtain ⟨hs, hm, hm'⟩ := KeyedMap.foldl_set_new (hkeys.nodup_iff.2 h.nodup) hnew
  refine eq_of_fields hs fun k => ?_
  by_cases hk : k ∈ om.s
  · have hmem : (k, om.get k) ∈ es := hperm.mem_iff.2 (h.mem_entries.2 (h.m_eq hk))
    exact (hm _ hmem).trans (h.m_eq hk).symm
  · have hnone : om.m k = none := by
      rw [← not_isSome_iff_eq_none]
      exact fun hsome => hk ((h.mem_iff k).2 hsome)
    exact (hm' k fun hin => hk (hkeys.mem_iff.1 hin)).trans hnone.symm

theorem Valid.merge_new (h : om.Valid) : new.merge om = om := by
  rw [merge_eq, h.foldl_set_new_eq (List.Perm.refl _), entries_keys]

theorem Valid.marshalJSON_eq_ok (h : om.Valid) {enc : α → Res Json} {j : Json} :
    om.marshalJSON enc = .ok j ↔ ∃ fields, encodeFields enc om = .ok fields ∧ j = .obj fields := by
  rw [marshalJSON, h.merge_new, Res.bind_eq_ok]
  simp only [Res.ok.injEq, eq_comm]

theorem encodeFields_spec {enc : α → Res Json} {fields : List (GoString × Json)}
    (hfields : encodeFields enc om = .ok fields) :
    fields.map Prod.fst = sortKeys om.s ∧ ∀ x ∈ fields, enc (om.get x.1) = .ok x.2 := by
  have hall := Res.forEach_eq_ok.1 hfields
  clear hfields
  generalize sortKeys om.s = keys at hall ⊢
  induction hall with
  | nil => simp
  | cons hx _ ih =>
    obtain ⟨j, hj, heq⟩ := Res.bind_eq_ok.1 hx
    cases heq
    exact ⟨congrArg (_ :: ·) ih.1, forall_mem_cons.2 ⟨hj, ih.2⟩⟩

def Faithful (enc : α → Res Json) (dec : Json → Option α) (om : KeyedMap α) : Prop :=
  ∀ k ∈ om.s, ∃ j, enc (om.get k) = .ok j ∧ dec j = some (om.get k)

theorem Valid.unmarshalJSON_eq (h : om.Valid) {enc : α → Res Json} {dec : Json → Option α}
    (hfaithful : om.Faithful enc dec) {fields : List (GoString × Json)}
    (hfields : encodeFields enc om = .ok fields) (O : MapOrder) :
    unmarshalJSON O dec new (.obj fields) = some ⟨(O.order fields).map Prod.fst, om.m⟩ := by
  obtain ⟨hkeys, henc⟩ := encodeFields_spec hfields
  have hsort := sortKeys_perm om.s
  have hread : ∀ x ∈ fields, readField dec x = some (x.1, om.get x.1) := by
    intro x hx
    have hk : x.1 ∈ om.s := hsort.mem_iff.1 (hkeys ▸ mem_map_of_mem hx)
    obtain ⟨j, hj, hdec⟩ := hfaithful x.1 hk
    cases (henc x hx).symm.trans hj
    rw [readField, hdec]
    rfl
  have horder : ∀ x ∈ O.order fields, readField dec x = some (x.1, om.get x.1) :=
    fun x hx => hread x ((O.perm fields).mem_iff.1 hx)
  have hmap : (O.order fields).filterMap (readField dec) =
      (O.order fields).map fun x => (x.1, om.get x.1) := by
    rw [← filterMap_eq_map]
    exact filterMap_congr horder
  have hperm : ((O.order fields).map fun x => (x.1, om.get x.1)).Perm om.entries := by
    have h₁ := (O.perm fields).map fun x => (x.1, om.get x.1)
    have h₂ : (fields.map fun x => (x.1, om.get x.1)) =
        (sortKeys om.s).map fun k => (k, om.get k) := by
      rw [← hkeys, List.map_map]
      rfl
    exact h₁.trans (h₂ ▸ hsort.map _)
  rw [unmarshalJSON, mapM_eq_filterMap fun x hx => by rw [horder x hx]; rfl, hmap]
  simp only [Option.map_some, h.foldl_set_new_eq hperm, List.map_map, Function.comp_def]

/-- The keys are listed once each and are those of the map, `Range` takes them in order, and what is
encoded is decoded as it was, whatever the order of loops over Go maps. -/
structure Lawful (enc : α → Res Json) (dec : Json → Option α) (om : KeyedMap α) : Prop where
  nodup : om.s.Nodup
  keys : ∀ k, k ∈ om.s ↔ (om.m k).isSome
  range : ∃ es, om.range (fun k v log => (log ++ [(k, v)], (none : Option Unit))) [] =
    (es, none) ∧ es.map Prod.fst = om.s ∧ ∀ k v, (k, v) ∈ es ↔ om.m k = some v
  roundTrip : ∀ O, ∃ j, om.marshalJSON enc = .ok j ∧ unmarshalJSON O dec new j = some om

theorem Valid.range_eq (h : om.Valid) :
    ∃ es, om.range (fun k v log => (log ++ [(k, v)], (none : Option Unit))) [] = (es, none) ∧
      es.map Prod.fst = om.s ∧ ∀ k v, (k, v) ∈ es ↔ om.m k = some v := by
  refine ⟨om.entries, ?_, om.entries_keys, fun k v => h.mem_entries⟩
  rw [range_eq_foldl (fun k v log => log ++ [(k, v)])]
  have hfold (keys : List GoString) (log : List (GoString × α)) :
      keys.foldl (fun log k => log ++ [(k, om.get k)]) log =
        log ++ keys.map fun k => (k, om.get k) := by
    induction keys generalizing log with
    | nil => simp
    | cons key keys ih => simp [ih]
  rw [hfold]
  rfl

omit [Inhabited α] in
theorem mapM_readField {dec : Json → Option α} {fields : List (GoString × Json)}
    {es : List (GoString × α)} (h : fields.mapM (readField dec) = some es) :
    es.map Prod.fst = fields.map Prod.fst ∧
      ∀ x ∈ fields, ∃ v, dec x.2 = some v ∧ (x.1, v) ∈ es := by
  induction fields generalizing es with
  | nil =>
    cases h
    simp
  | cons x fields ih =>
    rw [mapM_cons] at h
    obtain ⟨e, he, h⟩ := bind_eq_some_iff.1 h
    obtain ⟨es', hes', h⟩ := bind_eq_some_iff.1 h
    cases h
    obtain ⟨v, hv, rfl⟩ := map_eq_some_iff.1 he
    obtain ⟨hkeys, hvalues⟩ := ih hes'
    refine ⟨congrArg (x.1 :: ·) hkeys, forall_mem_cons.2 ⟨?_, fun y hy => ?_⟩⟩
    · exact ⟨v, hv, mem_cons_self⟩
    · obtain ⟨w, hw, hmem⟩ := hvalues y hy
      exact ⟨w, hw, mem_cons_of_mem _ hmem⟩

theorem Valid.faithful_of_roundTrip (h : om.Valid) {enc : α → Res Json} {dec : Json → Option α}
    {fields : List (GoString × Json)} (hfields : encodeFields enc om = .ok fields)
    (hread : unmarshalJSON ⟨id, fun _ => .refl _⟩ dec new (.obj fields) = some om) :
    om.Faithful enc dec := by
  obtain ⟨hkeys, henc⟩ := encodeFields_spec hfields
  have hsort := sortKeys_perm om.s
  obtain ⟨es, hes, hfold⟩ := map_eq_some_iff.1 hread
  obtain ⟨hkeys', hvalues⟩ := mapM_readField (show fields.mapM _ = _ from hes)
  have hnodup : (es.map Prod.fst).Nodup := by
    rw [hkeys', hkeys]
    exact hsort.nodup_iff.2 h.nodup
  have hnew : ∀ e ∈ es, (new : KeyedMap α).m e.1 = none := fun _ _ => rfl
  obtain ⟨-, hm, -⟩ := KeyedMap.foldl_set_new hnodup hnew
  rw [hfold] at hm
  intro k hk
  obtain ⟨x, hx, rfl⟩ := List.mem_map.1 (hkeys ▸ hsort.mem_iff.2 hk)
  obtain ⟨v, hv, hmem⟩ := hvalues x hx
  refine ⟨x.2, henc x hx, ?_⟩
  rw [hv, get, hm _ hmem]
  rfl

omit [Inhabited α] in
theorem length_le_one_of_reverse_eq {l : List GoString} (hl : l.Nodup) (hrev : l.reverse = l) :
    l.length ≤ 1 := by
  by_contra hlen
  have hlen : 1 < l.length := not_le.1 hlen
  have hends : l[0]? = l[l.length - 1]? := by
    conv_lhs => rw [← hrev]
    rw [getElem?_reverse (by omega)]
    rfl
  have hidx := (getElem?_inj (by omega) hl).1 hends
  omega

/-- A map that is built is lawful exactly where its values are decoded as encoded and it has at most
one key. -/
theorem lawful_iff {enc : α → Res Json} {dec : Json → Option α} (hbuilt : Built om) :
    om.Lawful enc dec ↔ om.Faithful enc dec ∧ om.s.length ≤ 1 := by
  have h := hbuilt.valid
  have hsort := sortKeys_perm om.s
  constructor
  · intro hlawful
    obtain ⟨j, hj, hread⟩ := hlawful.roundTrip ⟨id, fun _ => .refl _⟩
    obtain ⟨fields, hfields, rfl⟩ := h.marshalJSON_eq_ok.1 hj
    have hfaithful := h.faithful_of_roundTrip hfields hread
    -- the loop may read the keys in increasing order and in the opposite one
    have horder (O : MapOrder) : (O.order fields).map Prod.fst = om.s := by
      obtain ⟨j', hj', hread'⟩ := hlawful.roundTrip O
      cases hj.symm.trans hj'
      rw [h.unmarshalJSON_eq hfaithful hfields O] at hread'
      exact congrArg KeyedMap.s (some.inj hread')
    have hup := horder ⟨id, fun _ => .refl _⟩
    have hdown := horder ⟨List.reverse, fun _ => reverse_perm _⟩
    rw [map_reverse] at hdown
    refine ⟨hfaithful, length_le_one_of_reverse_eq h.nodup ?_⟩
    rw [← hup]
    exact hdown.trans hup.symm
  · rintro ⟨hfaithful, hlen⟩
    refine ⟨h.nodup, h.mem_iff, h.range_eq, fun O => ?_⟩
    obtain ⟨fields, hfields⟩ : ∃ fields, encodeFields enc om = .ok fields := by
      refine Res.forEach_isOk fun k hk => ?_
      obtain ⟨j, hj, -⟩ := hfaithful k (hsort.mem_iff.1 hk)
      exact ⟨(k, j), Res.bind_eq_ok.2 ⟨j, hj, rfl⟩⟩
    refine ⟨.obj fields, h.marshalJSON_eq_ok.2 ⟨fields, hfields, rfl⟩, ?_⟩
    rw [h.unmarshalJSON_eq hfaithful hfields O]
    have hperm : ((O.order fields).map Prod.fst).Perm om.s := by
      have hkeys := (encodeFields_spec hfields).1
      exact ((O.perm fields).map Prod.fst).trans (hkeys ▸ hsort)
    have heq : (O.order fields).map Prod.fst = om.s := by
      rcases Nat.le_one_iff_eq_zero_or_eq_one.1 hlen with hzero | hone
      · rw [length_eq_zero_iff.1 hzero] at hperm ⊢
        exact perm_nil.1 hperm
      · obtain ⟨k, hk⟩ := length_eq_one_iff.1 hone
        rw [hk] at hperm ⊢
        exact perm_singleton.1 hperm
    rw [heq]

end

def strCodec : (GoString → Res Json) × (Json → Option GoString) :=
  (fun s => .ok (.str s), fun j => match j with | .str s => some s | _ => none)

/-- A map with one key. -/
theorem one_key_lawful :
    (new.set "a" "1" : KeyedMap GoString).Lawful strCodec.1 strCodec.2 :=
  (lawful_iff (.set .new _ _)).2 ⟨fun _ _ => ⟨_, rfl, rfl⟩, by decide⟩

/-- `b` was set before `a`. The map is read with `a` first. -/
theorem two_keys_reordered :
    let om := (new.set "b" "1" : KeyedMap GoString).set "a" "2"
    Built om ∧ ∃ j om', om.marshalJSON strCodec.1 = .ok j ∧
      unmarshalJSON ⟨id, fun _ => .refl _⟩ strCodec.2 new j = some om' ∧
      om.s = ["b", "a"] ∧ om'.s = ["a", "b"] :=
  ⟨.set (.set .new _ _) _ _, _, _, rfl, rfl, by decide, by decide⟩

end KeyedMap

end Kairos
