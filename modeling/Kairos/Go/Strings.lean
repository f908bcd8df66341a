import Mathlib.Algebra.BigOperators.Group.List.Basic
import Mathlib.Algebra.Order.Ring.Int

/-!
# Go strings

The functions of Go's `strings`, `unicode`, `strconv`, `fmt` and `regexp` that the template compiler
and interpreter call. `Template.Parse` reads its input rune by rune and builds every later string
from those, so a string is a sequence of characters. The table `unicode.ToLower` is a parameter
(`Host.lower`).
-/

namespace Kairos

open List

abbrev GoString := List Char

instance : Coe String GoString := ⟨String.toList⟩

/-- A call returns a value, returns an error, or panics. -/
inductive Res (α : Type) where
  | ok (a : α)
  | err (msg : GoString)
  | panic

namespace Res

def bind {α β : Type} (x : Res α) (f : α → Res β) : Res β :=
  match x with
  | .ok a => f a
  | .err msg => .err msg
  | .panic => .panic

instance : Monad Res where
  pure := .ok
  bind := bind

/-- A value that has to be there: an index out of range panics. -/
def ofOption {α : Type} : Option α → Res α
  | some a => .ok a
  | none => .panic

def toOption {α : Type} : Res α → Option α
  | .ok a => some a
  | _ => none

def error? {α : Type} : Res α → Option GoString
  | .err msg => some msg
  | _ => none

def isPanic {α : Type} : Res α → Bool
  | .panic => true
  | _ => false

variable {α : Type}

@[simp] theorem toOption_eq_some {x : Res α} {a : α} : x.toOption = some a ↔ x = .ok a := by
  cases x <;> simp [toOption]

theorem ofOption_eq_ok {o : Option α} {a : α} : ofOption o = .ok a ↔ o = some a := by
  cases o <;> simp [ofOption]

@[simp] theorem isPanic_iff {x : Res α} : x.isPanic ↔ x = .panic := by
  cases x <;> simp [isPanic]

@[simp] theorem pure_eq (a : α) : (pure a : Res α) = .ok a := rfl

variable {β : Type}

@[simp] theorem ok_bind (a : α) (f : α → Res β) : (Res.ok a >>= f) = f a := rfl

@[simp] theorem err_bind (msg : GoString) (f : α → Res β) :
    ((Res.err msg : Res α) >>= f) = .err msg := rfl

@[simp] theorem panic_bind (f : α → Res β) : ((Res.panic : Res α) >>= f) = .panic := rfl

theorem bind_eq_ok {x : Res α} {f : α → Res β} {b : β} :
    (x >>= f) = .ok b ↔ ∃ a, x = .ok a ∧ f a = .ok b := by
  cases x <;> simp

theorem bind_eq_panic {x : Res α} {f : α → Res β} :
    (x >>= f) = .panic ↔ x = .panic ∨ ∃ a, x = .ok a ∧ f a = .panic := by
  cases x <;> simp

end Res

namespace Strings

def hasPrefix (s p : GoString) : Bool := p.isPrefixOf s

def hasSuffix (s p : GoString) : Bool := p.isSuffixOf s

def trimPrefix (s p : GoString) : GoString := if hasPrefix s p then s.drop p.length else s

def trimSuffix (s p : GoString) : GoString :=
  if hasSuffix s p then s.take (s.length - p.length) else s

def trimRight (s cutset : GoString) : GoString :=
  (s.reverse.dropWhile cutset.contains).reverse

def trim (s cutset : GoString) : GoString := trimRight (s.dropWhile cutset.contains) cutset

def isSpace (c : Char) : Bool :=
  let n := c.toNat
  (9 ≤ n && n ≤ 13) || n == 0x20 || n == 0x85 || n == 0xA0 || n == 0x1680 ||
    (0x2000 ≤ n && n ≤ 0x200A) || n == 0x2028 || n == 0x2029 || n == 0x202F || n == 0x205F ||
    n == 0x3000

def trimSpace (s : GoString) : GoString :=
  ((s.dropWhile isSpace).reverse.dropWhile isSpace).reverse

def split (sep : Char) : GoString → List GoString
  | [] => [[]]
  | c :: s =>
    if c = sep then [] :: split sep s
    else
      match split sep s with
      | [] => [[c]]
      | p :: ps => (c :: p) :: ps

def join (sep : GoString) : List GoString → GoString
  | [] => []
  | [s] => s
  | s :: ss => s ++ sep ++ join sep ss

def natDigits (n : ℕ) : GoString := Nat.toDigits 10 n

def itoa : ℤ → GoString
  | .ofNat n => natDigits n
  | .negSucc n => '-' :: natDigits (n + 1)

def digit? (c : Char) : Option ℕ :=
  if '0' ≤ c ∧ c ≤ '9' then some (c.toNat - '0'.toNat) else none

def digitsValue? (acc : ℕ) : GoString → Option ℕ
  | [] => some acc
  | c :: s => (digit? c).bind fun d => digitsValue? (10 * acc + d) s

def unsigned? (s : GoString) : Option ℕ := if s = [] then none else digitsValue? 0 s

def atoi (s : GoString) : Option ℤ :=
  let v : Option ℤ :=
    match s with
    | '+' :: t => (unsigned? t).map Int.ofNat
    | '-' :: t => (unsigned? t).map fun n => -(n : ℤ)
    | t => (unsigned? t).map Int.ofNat
  v.bind fun n => if -2 ^ 63 ≤ n ∧ n < 2 ^ 63 then some n else none

/-! The digits of a number are read back as the number, and a separator that is not in a string does
not cut it. -/

theorem digitsValue?_eq (s : GoString) (hs : ∀ c ∈ s, c.isDigit) (acc : ℕ) :
    digitsValue? acc s = some (Nat.ofDigitChars 10 s acc) := by
  induction s generalizing acc with
  | nil => rfl
  | cons c s ih =>
    have hc := hs c mem_cons_self
    have hdigit : digit? c = some (c.toNat - '0'.toNat) := by
      simp only [Char.isDigit, Bool.and_eq_true, decide_eq_true_eq] at hc
      exact if_pos ⟨hc.1, hc.2⟩
    rw [digitsValue?, hdigit, Option.bind_some, ih fun c hc => hs c (mem_cons_of_mem _ hc),
      Nat.ofDigitChars_cons]

variable {n : ℕ} {c : Char}

theorem isDigit_of_mem_natDigits (h : c ∈ natDigits n) : c.isDigit :=
  Nat.isDigit_of_mem_toDigits (by decide) (by decide) h

theorem unsigned?_natDigits (n : ℕ) : unsigned? (natDigits n) = some n := by
  have hne : natDigits n ≠ [] := Nat.toDigits_ne_nil
  rw [unsigned?, if_neg hne, digitsValue?_eq _ fun c hc => isDigit_of_mem_natDigits hc]
  exact congrArg some (Nat.ofDigitChars_toDigits (by decide) (by decide))

theorem natDigits_injective : Function.Injective natDigits := by
  intro m n h
  have hm := unsigned?_natDigits m
  rw [h, unsigned?_natDigits] at hm
  exact (Option.some.inj hm).symm

variable {s : GoString}

theorem ofDigitChars_lt (hs : ∀ c ∈ s, c.isDigit) : Nat.ofDigitChars 10 s 0 < 10 ^ s.length := by
  induction s with
  | nil => exact Nat.one_pos
  | cons c s ih =>
    have hc := hs c mem_cons_self
    simp only [Char.isDigit, Bool.and_eq_true, decide_eq_true_eq] at hc
    have hdigit : c.toNat - '0'.toNat < 10 := by
      have hle : c.toNat ≤ '9'.toNat := hc.2
      simp only [Char.reduceToNat] at hle ⊢
      omega
    have htail := ih fun c hc => hs c (mem_cons_of_mem _ hc)
    rw [Nat.ofDigitChars_cons, Nat.ofDigitChars_eq_ofDigitChars_zero, length_cons,
      Nat.pow_succ, Nat.mul_zero, Nat.zero_add]
    calc 10 ^ s.length * (c.toNat - '0'.toNat) + Nat.ofDigitChars 10 s 0
        < 10 ^ s.length * (c.toNat - '0'.toNat) + 10 ^ s.length := Nat.add_lt_add_left htail _
      _ = 10 ^ s.length * (c.toNat - '0'.toNat + 1) := by rw [Nat.mul_add, Nat.mul_one]
      _ ≤ 10 ^ s.length * 10 := Nat.mul_le_mul_left _ hdigit

variable {t : GoString}

theorem lt_of_ofDigitChars_lt (hs : ∀ c ∈ s, c.isDigit)
    (ht : ∀ c ∈ t, c.isDigit) (hlength : s.length = t.length)
    (h : Nat.ofDigitChars 10 s 0 < Nat.ofDigitChars 10 t 0) : s < t := by
  induction s generalizing t with
  | nil =>
    obtain rfl := length_eq_zero_iff.mp hlength.symm
    exact absurd h (Nat.lt_irrefl _)
  | cons c s ih =>
    cases t with
    | nil => cases hlength
    | cons d t =>
      have hlength' : s.length = t.length := Nat.succ.inj hlength
      rw [Nat.ofDigitChars_cons, Nat.ofDigitChars_cons, Nat.ofDigitChars_eq_ofDigitChars_zero,
        @Nat.ofDigitChars_eq_ofDigitChars_zero t, hlength', Nat.mul_zero, Nat.zero_add,
        Nat.zero_add] at h
      have htail := ofDigitChars_lt fun c hc => ht c (mem_cons_of_mem _ hc)
      rw [cons_lt_cons_iff]
      rcases Nat.lt_trichotomy c.toNat d.toNat with hlt | heq | hgt
      · exact .inl (UInt32.lt_iff_toNat_lt.mpr hlt)
      · have hcd : c = d := Char.ext (UInt32.toNat_inj.mp heq)
        subst hcd
        exact .inr ⟨rfl, ih (fun c hc => hs c (mem_cons_of_mem _ hc))
          (fun c hc => ht c (mem_cons_of_mem _ hc)) hlength' (Nat.lt_of_add_lt_add_left h)⟩
      · -- a larger first digit outweighs what follows
        have hd := ht d mem_cons_self
        simp only [Char.isDigit, Bool.and_eq_true, decide_eq_true_eq] at hd
        have hzero : '0'.toNat ≤ d.toNat := hd.1
        have hle : 10 ^ t.length * (d.toNat - '0'.toNat) + 10 ^ t.length ≤
            10 ^ t.length * (c.toNat - '0'.toNat) := by
          rw [← Nat.mul_succ]
          refine Nat.mul_le_mul_left _ ?_
          omega
        omega

theorem natDigits_lt {m : ℕ} (h : m < n)
    (hlength : (natDigits m).length = (natDigits n).length) : natDigits m < natDigits n := by
  refine lt_of_ofDigitChars_lt (fun c hc => isDigit_of_mem_natDigits hc)
    (fun c hc => isDigit_of_mem_natDigits hc) hlength ?_
  rw [natDigits, natDigits, Nat.ofDigitChars_toDigits (by decide) (by decide),
    Nat.ofDigitChars_toDigits (by decide) (by decide)]
  exact h

theorem isDigit_of_mem_itoa {n : ℤ} (h : c ∈ itoa n) : c.isDigit ∨ c = '-' := by
  cases n with
  | ofNat n => exact .inl (isDigit_of_mem_natDigits h)
  | negSucc n =>
    rcases mem_cons.mp h with rfl | hmem
    · exact .inr rfl
    · exact .inl (isDigit_of_mem_natDigits hmem)

theorem itoa_injective : Function.Injective itoa := by
  intro m n h
  -- a minus sign is no digit, so that numbers of different sign differ in it
  have hsign (a b : ℕ) : natDigits a ≠ '-' :: natDigits b := by
    intro heq
    have hmem : '-' ∈ natDigits a := heq ▸ mem_cons_self
    exact absurd (isDigit_of_mem_natDigits hmem) (by decide)
  cases m with
  | ofNat m =>
    cases n with
    | ofNat n => exact congrArg _ (natDigits_injective h)
    | negSucc n => exact absurd h (hsign m (n + 1))
  | negSucc m =>
    cases n with
    | ofNat n => exact absurd h.symm (hsign n (m + 1))
    | negSucc n =>
      have heq := natDigits_injective (List.cons.inj h).2
      rw [Nat.add_right_cancel heq]

theorem itoa_ne_nil (n : ℤ) : itoa n ≠ [] := by
  cases n with
  | ofNat n => exact Nat.toDigits_ne_nil
  | negSucc n => exact cons_ne_nil _ _

theorem atoi_natDigits (n : ℕ) (h : n < 2 ^ 63) : atoi (natDigits n) = some (n : ℤ) := by
  have hne : natDigits n ≠ [] := Nat.toDigits_ne_nil
  have hvalue := unsigned?_natDigits n
  unfold atoi
  cases hd : natDigits n with
  | nil => exact absurd hd hne
  | cons c s =>
    -- the first character is a digit, so it is no sign
    have hc : c.isDigit := isDigit_of_mem_natDigits (hd ▸ mem_cons_self)
    rw [hd] at hvalue
    have hplus : c ≠ '+' := by rintro rfl; exact absurd hc (by decide)
    have hminus : c ≠ '-' := by rintro rfl; exact absurd hc (by decide)
    have hrange : -2 ^ 63 ≤ (n : ℤ) ∧ (n : ℤ) < 2 ^ 63 := ⟨by omega, by exact_mod_cast h⟩
    split
    · rename_i heq
      exact absurd (List.cons.inj heq).1 hplus
    · rename_i heq
      exact absurd (List.cons.inj heq).1 hminus
    · rw [hvalue, Option.map_some, Option.bind_some]
      exact if_pos hrange

theorem split_ne_nil (sep : Char) (t : GoString) : split sep t ≠ [] := by
  cases t with
  | nil => exact cons_ne_nil _ _
  | cons c t =>
    unfold split
    split_ifs
    · exact cons_ne_nil _ _
    · split <;> exact cons_ne_nil _ _

variable {sep : Char}

theorem split_append (h : sep ∉ s) (t : GoString) :
    split sep (s ++ sep :: t) = s :: split sep t := by
  induction s with
  | nil => simp [split]
  | cons c s ih =>
    have hc : c ≠ sep := fun heq => h (heq ▸ mem_cons_self)
    have hs := ih fun hm => h (mem_cons_of_mem _ hm)
    rw [cons_append, split, if_neg hc, hs]

theorem eq_of_append_sep {u v : GoString} (hs : sep ∉ s) (ht : sep ∉ t)
    (h : s ++ sep :: u = t ++ sep :: v) : s = t ∧ u = v := by
  have hsplit := congrArg (split sep) h
  rw [split_append hs, split_append ht] at hsplit
  obtain ⟨rfl, -⟩ := List.cons.inj hsplit
  exact ⟨rfl, (List.cons.inj (append_cancel_left h)).2⟩

theorem split_of_notMem (h : sep ∉ s) : split sep s = [s] := by
  induction s with
  | nil => rfl
  | cons c s ih =>
    have hc : c ≠ sep := fun heq => h (heq ▸ mem_cons_self)
    have hs := ih fun hm => h (mem_cons_of_mem _ hm)
    rw [split, if_neg hc, hs]

theorem split_head (sep : Char) (s : GoString) :
    (split sep s)[0]? = some (s.takeWhile fun c => c != sep) := by
  induction s with
  | nil => rfl
  | cons c s ih =>
    by_cases hc : c = sep
    · simp [split, hc]
    · obtain ⟨p, ps, hs⟩ := exists_cons_of_ne_nil (split_ne_nil sep s)
      rw [hs] at ih
      rw [split, if_neg hc, hs, takeWhile_cons_of_pos (by simpa using hc)]
      simpa using ih

theorem join_split (sep : Char) (s : GoString) : join [sep] (split sep s) = s := by
  induction s with
  | nil => rfl
  | cons c s ih =>
    obtain ⟨p, ps, hs⟩ := exists_cons_of_ne_nil (split_ne_nil sep s)
    rw [hs] at ih
    by_cases hc : c = sep
    · rw [split, if_pos hc, hs, join.eq_def]
      simp [ih, hc]
    · rw [split, if_neg hc, hs]
      -- the character goes before the first piece, which is the last one or is not
      cases ps with
      | nil | cons q qs => simpa [join] using ih

variable {p : GoString}

theorem hasPrefix_of_append_cons (hc : c ∉ p) (h : hasPrefix (s ++ c :: t) p) : hasPrefix s p := by
  unfold hasPrefix at h ⊢
  rw [ isPrefixOf_iff_prefix] at h ⊢
  by_cases hlen : p.length ≤ s.length
  · exact prefix_of_prefix_length_le h (prefix_append _ _) hlen
  · have hcut : s ++ [c] <+: s ++ c :: t := ⟨t, by simp⟩
    have hle : (s ++ [c]).length ≤ p.length := by
      rw [length_append, length_singleton]
      omega
    have hmem := (prefix_of_prefix_length_le hcut h hle).subset
      (mem_append_right s (mem_singleton_self c))
    exact absurd hmem hc

theorem notMem_of_mem_split (h : p ∈ split sep s) : sep ∉ p := by
  induction s generalizing p with
  | nil =>
    rw [split, mem_singleton] at h
    exact h ▸ not_mem_nil
  | cons c s ih =>
    by_cases hc : c = sep
    · rw [split, if_pos hc] at h
      rcases mem_cons.mp h with rfl | hp
      · exact not_mem_nil
      · exact ih hp
    · obtain ⟨q, qs, hs⟩ := exists_cons_of_ne_nil (split_ne_nil sep s)
      rw [split, if_neg hc, hs] at h
      rw [hs] at ih
      -- the first piece is one that `s` has, with a character before it that is no separator
      rcases mem_cons.mp h with rfl | hp
      · rw [mem_cons, not_or]
        exact ⟨Ne.symm hc, ih mem_cons_self⟩
      · exact ih (mem_cons_of_mem _ hp)

def isBlank (c : Char) : Bool :=
  c == '\t' || c == '\n' || c == '\x0c' || c == '\r' || c == ' '

/-- The first alternative of `findAllItems` after its bracket: up to the first closing one, and the
rest. -/
def untilClose : GoString → Option (GoString × GoString)
  | [] => none
  | c :: s =>
    if c = ')' then some ([c], s)
    else (untilClose s).map fun r => (c :: r.1, r.2)

/-- `FindAllString` of `\([^)]*\)|\S+`, from the left: a bracket that is closed later makes an item
up to its closing one, and otherwise the longest run without blanks does. No match is empty, so the
length of `s` is fuel enough. -/
def findItems : ℕ → GoString → List GoString
  | 0, _ => []
  | _ + 1, [] => []
  | fuel + 1, c :: s =>
    if isBlank c then findItems fuel s
    else
      match (if c = '(' then untilClose s else none) with
      | some (t, rest) => (c :: t) :: findItems fuel rest
      | none =>
        (c :: s.takeWhile fun d => !isBlank d) ::
          findItems fuel (s.dropWhile fun d => !isBlank d)

def findAllItems (s : GoString) : List GoString := findItems s.length s

example : findAllItems "get .A (\"a b\")x | (c" =
    ["get", ".A", "(\"a b\")", "x", "|", "(c"] := by
  decide

end Strings

end Kairos
