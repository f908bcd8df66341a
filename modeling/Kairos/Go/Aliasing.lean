import Kairos.Go.Json

/-!
# Sharing on the heap

Slices and maps are references, so that a write through one value can change another.
`Heap.Unchanged h h' v` says that `v` holds the same on both heaps, all the way down. A write to a
slot changes the slices that are long enough to have it, unless it writes what is there.
-/

namespace Kairos

def Val.addr : Val → Option Addr
  | .slice base _ => base
  | .map _ base => base
  | .mapPtr _ base => base
  | _ => none

namespace Heap

def contents (h : Heap) : Val → List Val × List Kv
  | .slice base len => (h.elems base len, [])
  | .map _ base => ([], h.mapEntries base)
  | .mapPtr _ base => ([], h.mapEntries base)
  | _ => ([], [])

def Holds (h : Heap) : Val → Val → Prop := Relation.ReflTransGen fun v w => w ∈ h.children v

def Has (h : Heap) (v : Val) : Prop := ∀ a ∈ v.addr, a < h.length

def Unchanged (h h' : Heap) (v : Val) : Prop :=
  ∀ w, h.Holds v w → h.Has w → h'.contents w = h.contents w

section

variable {h h' : Heap} {v r w : Val} {a b : Addr} {i : ℕ}

theorem slots_of_grows (hh : h <+: h') (ha : a < h.length) : h'.slots a = h.slots a := by
  obtain ⟨added, rfl⟩ := hh
  rw [slots, List.getElem?_append_left ha, slots]

theorem entries_of_grows (hh : h <+: h') (ha : a < h.length) : h'.entries a = h.entries a := by
  obtain ⟨added, rfl⟩ := hh
  rw [entries, List.getElem?_append_left ha, entries]

theorem mapEntries_of_grows (hh : h <+: h') (base : Option Addr)
    (ha : ∀ a ∈ base, a < h.length) : h'.mapEntries base = h.mapEntries base := by
  cases base with
  | none => rfl
  | some a => exact entries_of_grows hh (ha a rfl)

theorem contents_of_grows (hh : h <+: h') (hw : h.Has w) : h'.contents w = h.contents w := by
  cases w with
  | slice base len =>
    cases base with
    | none => rfl
    | some a => simp only [contents, elems, slots_of_grows hh (hw a rfl)]
  | map type base | mapPtr type base =>
    have hentries := mapEntries_of_grows hh base hw
    simp only [contents, hentries]
  | _ => rfl

theorem children_of_grows (hh : h <+: h') (hw : h.Has w) : h'.children w = h.children w := by
  cases w with
  | slice base len =>
    cases base with
    | none => rfl
    | some a => simp only [children, elems, slots_of_grows hh (hw a rfl)]
  | map type base | mapPtr type base =>
    have hentries := mapEntries_of_grows hh base hw
    simp only [children, hentries]
  | _ => rfl

/-- New values on the heap do not change how deep the others go. -/
theorem nestsIn_of_grows (hh : h <+: h') (hv : ∀ w, h.Holds v w → h.Has w) (depth : ℕ) :
    h'.nestsIn depth v = h.nestsIn depth v := by
  induction depth generalizing v with
  | zero => rfl
  | succ depth ih =>
    have hall : (h'.children v).all (h'.nestsIn depth) = (h.children v).all (h.nestsIn depth) := by
      rw [children_of_grows hh (hv v .refl), Bool.eq_iff_iff, List.all_eq_true, List.all_eq_true]
      exact forall₂_congr fun w hw => by rw [ih fun u hu => hv u (.head hw hu)]
    cases v with
    | mapPtr => rfl
    | _ => exact hall

theorem nests_of_grows (hh : h <+: h') (hv : ∀ w, h.Holds v w → h.Has w) (depth : ℕ) :
    h'.nests depth v = h.nests depth v := by
  unfold nests
  rw [children_of_grows hh (hv v .refl), Bool.eq_iff_iff, List.all_eq_true, List.all_eq_true]
  exact forall₂_congr fun w hw => by rw [nestsIn_of_grows hh fun u hu => hv u (.head hw hu)]

theorem unchanged_of_grows (hh : h <+: h') : h.Unchanged h' v :=
  fun _ _ hw => contents_of_grows hh hw

/-! ## Writes to an array -/

theorem getElem?_of_slot (hi : i < (h.slots a).length) : h[a]? = some (.arr (h.slots a)) := by
  unfold slots at hi ⊢
  split
  · assumption
  · rename_i hno
    split at hi
    · rename_i vs hvs
      exact absurd hvs (hno vs)
    · cases hi

theorem slots_setSlot_self (hi : i < (h.slots a).length) :
    (h.setSlot a i v).slots a = (h.slots a).set i v := by
  have ha := (List.getElem?_eq_some_iff.mp (getElem?_of_slot hi)).1
  simp only [setSlot, slots, List.getElem?_set_self ha]

theorem slots_setSlot_of_ne (hb : b ≠ a) : (h.setSlot a i v).slots b = h.slots b := by
  simp only [setSlot, slots, List.getElem?_set_ne hb.symm]

theorem mapEntries_setSlot (hi : i < (h.slots a).length) (base : Option Addr) :
    (h.setSlot a i v).mapEntries base = h.mapEntries base := by
  cases base with
  | none => rfl
  | some b =>
    have hcell := getElem?_of_slot hi
    have ha := (List.getElem?_eq_some_iff.mp hcell).1
    by_cases hb : b = a
    · subst hb
      simp only [mapEntries, entries, setSlot, List.getElem?_set_self ha, hcell]
    · simp only [mapEntries, entries, setSlot, List.getElem?_set_ne (Ne.symm hb)]

theorem take_set_eq_iff {vs : List Val} (hi : i < vs.length) (len : ℕ) :
    (vs.set i v).take len = vs.take len ↔ (i < len → vs[i]? = some v) := by
  rw [List.take_set]
  by_cases hlen : i < len
  · have hget : (vs.take len)[i]? = vs[i]? := List.getElem?_take_of_lt hlen
    have hi' : i < (vs.take len).length := by simp [hi, hlen]
    constructor
    · intro heq _
      rw [← hget, ← heq, List.getElem?_set_self hi']
    · intro hv
      obtain ⟨h₁, h₂⟩ := List.getElem?_eq_some_iff.mp (hget.trans (hv hlen))
      rw [← h₂, List.set_getElem_self]
  · have hout : (vs.take len).length ≤ i := by simp; omega
    simp [List.set_eq_of_length_le hout, hlen]

theorem contents_setSlot_iff (hi : i < (h.slots a).length) :
    (h.setSlot a i v).contents w = h.contents w ↔
      ∀ len, w = .slice (some a) len → i < len → (h.slots a)[i]? = some v := by
  cases w with
  | slice base len =>
    cases base with
    | none => simp [contents, elems]
    | some b =>
      by_cases hb : b = a
      · subst hb
        simp only [contents, elems, slots_setSlot_self hi, Prod.mk.injEq, and_true,
          take_set_eq_iff hi, Val.slice.injEq, true_and, forall_eq']
      · simp [contents, elems, slots_setSlot_of_ne hb, hb]
  | map type base | mapPtr type base => simp [contents, mapEntries_setSlot hi]
  | _ => simp [contents]

theorem unchanged_setSlot_iff (hh : h <+: h') (ha : a < h.length) (hi : i < (h'.slots a).length) :
    h.Unchanged (h'.setSlot a i v) r ↔
      ∀ len, h.Holds r (.slice (some a) len) → i < len → (h.slots a)[i]? = some v := by
  constructor
  · intro hsame len hholds hlen
    have hhas : h.Has (.slice (some a) len) := fun b hb => Option.some.inj hb ▸ ha
    have hslice := hsame _ hholds hhas
    rw [← contents_of_grows hh hhas] at hslice
    rw [← slots_of_grows hh ha]
    exact (contents_setSlot_iff hi).mp hslice len rfl hlen
  · intro hslot w hholds hhas
    rw [← contents_of_grows hh hhas]
    refine (contents_setSlot_iff hi).mpr fun len hw hlen => ?_
    rw [slots_of_grows hh ha]
    exact hslot len (hw ▸ hholds) hlen

end

end Heap

end Kairos
