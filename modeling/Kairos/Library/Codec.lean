import Mathlib.Data.List.Basic

/-!
# Codecs

A codec writes values as trees and reads them back. It carries the proof that what it writes is read
as it was.
-/

namespace Kairos

theorem mapM_eq_filterMap {α β : Type} {d : α → Option β} {xs : List α}
    (h : ∀ x ∈ xs, (d x).isSome) : xs.mapM d = some (xs.filterMap d) := by
  induction xs with
  | nil => rfl
  | cons x xs ih =>
    obtain ⟨hx, hxs⟩ := List.forall_mem_cons.1 h
    obtain ⟨y, hy⟩ := Option.isSome_iff_exists.1 hx
    rw [List.mapM_cons, hy, ih hxs, List.filterMap_cons_some hy]
    rfl

structure Codec (J α : Type) where
  encode : α → J
  decode : J → Option α
  decode_encode : ∀ a, decode (encode a) = some a

namespace Codec

variable {J α β : Type}

def list (trees : Codec J (List J)) (c : Codec J α) : Codec J (List α) where
  encode as := trees.encode (as.map c.encode)
  decode j := (trees.decode j).bind fun js => js.mapM c.decode
  decode_encode as := by
    have hsome : ∀ j ∈ as.map c.encode, (c.decode j).isSome := by
      refine List.forall_mem_map.2 fun a _ => ?_
      rw [c.decode_encode]
      rfl
    have hread : c.decode ∘ c.encode = some := funext c.decode_encode
    rw [trees.decode_encode, Option.bind_some, mapM_eq_filterMap hsome, List.filterMap_map, hread,
      List.filterMap_some]

end Codec

end Kairos
