import Mathlib.Data.List.Forall2

/-!
# Readers

A reader takes a value off the front of a list of tokens. `Reads` says that it reads a value from
some tokens whatever follows them, as long as that can follow a value.
-/

namespace Kairos.Readers

open List

abbrev Reader (T α : Type*) := List T → Option (α × List T)

variable {T α : Type*}

def Reads (Follows : List T → Prop) (r : Reader T α) (a : α) (ts : List T) : Prop :=
  ∀ rest, Follows rest → r (ts ++ rest) = some (a, rest)

theorem length_le_intercalate (sep : T) (tss : List (List T)) :
    tss.length ≤ ([sep].intercalate tss).length + 1 := by
  induction tss with
  | nil => exact Nat.zero_le _
  | cons ts tss ih =>
    cases tss with
    | nil => simp
    | cons us tss =>
      rw [intercalate_cons_cons]
      simp only [length_append, length_cons, length_nil] at ih ⊢
      omega

variable [DecidableEq T] (skip : List T → List T)

def expect (c : T) (s : List T) : Option (List T) :=
  match skip s with
  | [] => none
  | d :: rest => if d = c then some rest else none

def more (sep close : T) (item : Reader T α) : ℕ → Reader T (List α)
  | 0, _ => none
  | n + 1, s =>
    (item s).bind fun r =>
      match skip r.2 with
      | [] => none
      | c :: rest =>
        if c = close then some ([r.1], rest)
        else if c = sep then (more sep close item n rest).map (Prod.map (r.1 :: ·) id)
        else none

/-- The closing token, or items with separators up to it, no more than there are tokens. -/
def sequence (sep close : T) (item : Reader T α) : Reader T (List α) := fun s =>
  match skip s with
  | [] => none
  | c :: rest =>
    if c = close then some ([], rest)
    else more skip sep close item (rest.length + 1) (c :: rest)

variable {skip} {sep close : T} {item : Reader T α} {Follows : List T → Prop}

theorem expect_cons {c : T} {rest : List T} (h : skip (c :: rest) = c :: rest) :
    expect skip c (c :: rest) = some rest := by
  simp [expect, h]

structure Marks (skip : List T → List T) (Follows : List T → Prop) (c : T) : Prop where
  kept : ∀ rest, skip (c :: rest) = c :: rest
  follows : ∀ rest, Follows (c :: rest)

variable {as : List α} {tss : List (List T)}

theorem more_eq (hsep : Marks skip Follows sep) (hclose : Marks skip Follows close)
    (hne : sep ≠ close)
    (h : List.Forall₂ (Reads Follows item) as tss) (has : as ≠ []) {n : ℕ} (hn : as.length ≤ n)
    (rest : List T) :
    more skip sep close item n ([sep].intercalate tss ++ close :: rest) = some (as, rest) := by
  induction h generalizing n with
  | nil => exact absurd rfl has
  | @cons a ts as tss ha h ih =>
    obtain ⟨n, rfl⟩ : ∃ k, n = k + 1 := ⟨n - 1, by simp at hn; omega⟩
    cases h with
    | nil =>
      have hitem := ha (close :: rest) (hclose.follows rest)
      simp [more, hitem, hclose.kept]
    | @cons b us as tss hb h =>
      have hitem := ha (sep :: ([sep].intercalate (us :: tss) ++ close :: rest)) (hsep.follows _)
      have hrest := ih (cons_ne_nil _ _) (Nat.le_of_succ_le_succ hn)
      rw [intercalate_cons_cons]
      simp only [append_assoc, cons_append, nil_append, more, hitem,
        Option.bind_some, hsep.kept, if_neg hne, if_true, hrest, Option.map_some, Prod.map_apply,
        id_eq]

theorem reads_sequence (hsep : Marks skip Follows sep) (hclose : Marks skip Follows close)
    (hne : sep ≠ close) (h : List.Forall₂ (Reads Follows item) as tss)
    (hfirst : ∀ ts ∈ tss, ∃ c us, ts = c :: us ∧ c ≠ close ∧ ∀ rest, skip (c :: rest) = c :: rest)
    (rest : List T) :
    sequence skip sep close item ([sep].intercalate tss ++ close :: rest) = some (as, rest) := by
  cases h with
  | nil => simp [sequence, intercalate, hclose.kept]
  | @cons a ts as tss ha h =>
    obtain ⟨c, us, rfl, hc, hkept⟩ := hfirst ts mem_cons_self
    have hlength := length_le_intercalate sep ((c :: us) :: tss)
    have hcount :
        (a :: as).length ≤ ([sep].intercalate ((c :: us) :: tss) ++ close :: rest).length := by
      rw [(List.Forall₂.cons ha h).length_eq, length_append, length_cons (a := close)]
      omega
    have hmore := more_eq hsep hclose hne (.cons ha h) (cons_ne_nil _ _) hcount rest
    -- the text begins as its first item does
    obtain ⟨vs, hvs⟩ : ∃ vs, [sep].intercalate ((c :: us) :: tss) ++ close :: rest = c :: vs := by
      cases tss <;> simp [intercalate_cons_cons, intercalate_singleton]
    rw [hvs] at hmore ⊢
    simp only [sequence, hkept, if_neg hc]
    exact hmore

end Kairos.Readers
