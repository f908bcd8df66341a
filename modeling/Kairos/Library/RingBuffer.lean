import Mathlib.Data.List.Rotate
import Mathlib.Data.Nat.ModEq

/-!
# Circular buffers

A list of slots read in a circle: `window slots head n` are the `n` slots from `head` on, going on
with the first slot after the last one.
-/

namespace Kairos.RingBuffer

open List

variable {α : Type*} {slots : List α} {head n : ℕ}

def window (slots : List α) (head n : ℕ) : List α := (slots.rotate head).take n

theorem window_zero_head (slots : List α) (n : ℕ) : window slots 0 n = slots.take n := by
  rw [window, rotate_zero]

theorem window_zero (slots : List α) (head : ℕ) : window slots head 0 = [] := take_zero

theorem length_window (hn : n ≤ slots.length) : (window slots head n).length = n := by
  rw [window, length_take, length_rotate, min_eq_left hn]

theorem window_succ (hhead : head < slots.length) (hn : n < slots.length) :
    window slots head (n + 1) = slots[head] :: window slots ((head + 1) % slots.length) n := by
  have hdrop : slots.rotate head = slots[head] :: (slots.drop (head + 1) ++ slots.take head) := by
    rw [rotate_eq_drop_append_take hhead.le, drop_eq_getElem_cons hhead, cons_append]
  have hnext : slots.rotate ((head + 1) % slots.length) =
      slots.drop (head + 1) ++ slots.take head ++ [slots[head]] := by
    rw [rotate_mod, ← rotate_rotate, hdrop, rotate_cons_succ, rotate_zero]
  have hlen : n ≤ (slots.drop (head + 1) ++ slots.take head).length := by
    simp only [length_append, length_drop, length_take]
    omega
  rw [window, window, hdrop, hnext, take_succ_cons, take_append_of_le_length hlen]

theorem rotate_set (hn : n < slots.length) (x : α) :
    (slots.set ((head + n) % slots.length) x).rotate head = (slots.rotate head).set n x := by
  refine ext_getElem (by simp) fun k hk _ => ?_
  have hk' : k < slots.length := by simpa using hk
  simp only [getElem_rotate, getElem_set, length_set]
  congr 1
  -- positions less than one turn apart are the same exactly when their offsets are
  rw [eq_iff_iff, Nat.add_comm head n]
  constructor
  · intro h
    have := Nat.ModEq.add_right_cancel' head
        (show (n + head) ≡ (k + head) [MOD slots.length] from h)
    rwa [Nat.ModEq, Nat.mod_eq_of_lt hn, Nat.mod_eq_of_lt hk'] at this
  · rintro rfl
    rfl

theorem window_set (hn : n < slots.length) (x : α) :
    window (slots.set ((head + n) % slots.length) x) head (n + 1) = window slots head n ++ [x] := by
  have hlen : n < (slots.rotate head).length := by rwa [length_rotate]
  rw [window, window, rotate_set hn, take_add_one, take_set_of_le le_rfl,
    getElem?_set_self hlen]
  rfl

theorem window_straight (h : head + n ≤ slots.length) :
    window slots head n = (slots.drop head).take n := by
  have hlen : n ≤ (slots.drop head).length := by
    rw [length_drop]
    omega
  rw [window, rotate_eq_drop_append_take (by omega), take_append_of_le_length hlen]

theorem window_wrapped (hhead : head ≤ slots.length) (h : slots.length ≤ head + n)
    (hn : n ≤ slots.length) :
    window slots head n = slots.drop head ++ slots.take (head + n - slots.length) := by
  have hlen : (slots.drop head).length ≤ n := by
    rw [length_drop]
    omega
  rw [window, rotate_eq_drop_append_take hhead, take_append,
    take_of_length_le hlen, take_take, length_drop]
  congr 2
  omega

end Kairos.RingBuffer
