import Mathlib.Data.List.Forall2

/-!
# Loops that return early

A loop over a list does something for each item, and at some items it returns, so that the items
after them get nothing. `loop` gives the result for every item.
-/

namespace Kairos.EarlyReturn

open List

variable {α β : Type*}

/-- The result for each item: that of `step`, which also says whether the loop goes on, or `idle`
where the loop does not come. -/
def loop (step : α → β × Bool) (idle : α → β) : List α → List β
  | [] => []
  | a :: as => (step a).1 :: if (step a).2 then loop step idle as else as.map idle

variable {step : α → β × Bool} {idle : α → β} {l : List α}

/-- An item gets its result if the loop goes on at every item before it. -/
theorem forall₂_loop_iff {P : α → β → Prop} :
    List.Forall₂ P l (loop step idle l) ↔ ∀ before a after, l = before ++ a :: after →
      P a (if before.all fun b => (step b).2 then (step a).1 else idle a) := by
  induction l with
  | nil => simp [loop]
  | cons c as ih =>
    rw [loop, forall₂_cons]
    constructor
    · rintro ⟨hhead, htail⟩ before a after heq
      cases before with
      | nil =>
        cases heq
        exact hhead
      | cons b before =>
        obtain ⟨rfl, has⟩ := List.cons.inj heq
        cases hgo : (step c).2 with
        | true =>
          rw [if_pos hgo, ih] at htail
          simpa [hgo] using htail before a after has
        | false =>
          rw [if_neg (by simp [hgo]), forall₂_map_right_iff, forall₂_same] at htail
          simpa [hgo] using htail a (by simp [has])
    · intro h
      refine ⟨h [] c as rfl, ?_⟩
      cases hgo : (step c).2 with
      | true =>
        rw [if_pos rfl, ih]
        intro before a after has
        simpa [hgo] using h (c :: before) a after (by rw [has, cons_append])
      | false =>
        rw [if_neg (by simp), forall₂_map_right_iff, forall₂_same]
        intro a ha
        obtain ⟨before, after, has⟩ := append_of_mem ha
        simpa [hgo] using h (c :: before) a after (by rw [has, cons_append])

/-- The loop gives every item its due exactly when it does where it comes, and nothing is due behind
an item at which it returns. -/
theorem loop_eq_map_iff {due : α → β} (hidle : ∀ a, due a = idle a → (step a).1 = idle a) :
    loop step idle l = l.map due ↔ (∀ a ∈ l, (step a).1 = due a) ∧
        l.Pairwise fun a b => (step a).2 = false → due b = idle b := by
  induction l with
  | nil => simp [loop]
  | cons a as ih =>
    rw [loop, map_cons, List.cons.injEq, forall_mem_cons, pairwise_cons]
    cases hgo : (step a).2 with
    | true =>
      rw [if_pos rfl, ih]
      simp [and_assoc]
    | false =>
      rw [if_neg (by simp), map_inj_left]
      constructor
      · rintro ⟨hhead, htail⟩
        have hnone : ∀ b ∈ as, due b = idle b := fun b hb => (htail b hb).symm
        refine ⟨⟨hhead, fun b hb => ?_⟩, fun b hb _ => hnone b hb, ?_⟩
        · rw [hnone b hb, hidle b (hnone b hb)]
        · exact pairwise_of_forall_mem_list fun _ _ b hb _ => hnone b hb
      · rintro ⟨⟨hhead, -⟩, hnone, -⟩
        exact ⟨hhead, fun b hb => (hnone b hb rfl).symm⟩

end Kairos.EarlyReturn
