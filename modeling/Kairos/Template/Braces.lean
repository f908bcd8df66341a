import Mathlib.Data.List.TakeWhile
import Kairos.Template.Texts

/-!
# The braces of a template

A template is meant to be a sequence of expressions in double braces with white space between them
(`Spaced`). `Parse` counts the braces, and keeps the characters since the last opening brace. What
it lets pass is said here in terms of the text (`Admissible`): outside the double braces one
character may stand behind white space, and a single brace may open or close.
-/

namespace Kairos

open List Option

/-- Expressions in double braces with white space between them, and their texts. -/
inductive Spaced : GoString → List GoString → Prop where
  | nil : Spaced [] []
  | space {c : Char} {s : GoString} {ts : List GoString} (hc : Strings.isSpace c)
      (h : Spaced s ts) : Spaced (c :: s) ts
  | exp {t s : GoString} {ts : List GoString} (ht : ∀ c ∈ t, c ≠ '\x7b' ∧ c ≠ '\x7d')
      (h : Spaced s ts) : Spaced ('\x7b' :: '\x7b' :: (t ++ '\x7d' :: '\x7d' :: s)) (t :: ts)

def depth (p : GoString) : ℤ := p.count '\x7b' - p.count '\x7d'

/-- Outside the braces the character is white space or opens one, between two braces it is the
second, and it does not close empty braces. -/
structure InPlace (p : GoString) (c : Char) : Prop where
  outside : depth p = 0 → Strings.isSpace c ∨ c = '\x7b'
  paired : depth p = 1 → p.getLast? = some c
  nonempty : depth p = 2 → c = '\x7d' → p.getLast? ≠ some '\x7b'

/-- The text behind the last opening brace, without the closing ones. -/
def inside (p : GoString) : GoString :=
  (p.reverse.takeWhile (· ≠ '\x7b')).reverse.filter (· ≠ '\x7d')

/-- The text behind the last brace. -/
def behind (p : GoString) : GoString :=
  (p.reverse.takeWhile fun c => c ≠ '\x7b' ∧ c ≠ '\x7d').reverse

def pending (p : GoString) : GoString := if depth p = 0 then behind p else inside p

/-- No third brace is opened, and none closed that is not open. Another character stands within
double braces, or only white space stands before it: since the last brace, or, if one brace is still
open, since the last opening one. -/
structure Admitted (p : GoString) (c : Char) : Prop where
  opens : c = '\x7b' → depth p ≤ 1
  closes : c = '\x7d' → 1 ≤ depth p
  other : c ≠ '\x7b' → c ≠ '\x7d' → depth p = 2 ∨ ∀ x ∈ pending p, Strings.isSpace x

/-- The texts that the scanner does not reject. -/
def Admissible (s : GoString) : Prop := (∀ p c q, s = p ++ c :: q → Admitted p c) ∧ depth s = 0

/-- The expressions of a text behind `p`: where the last brace is closed, what is inside, if
anything is. -/
def expressionsFrom : GoString → GoString → List GoString
  | _, [] => []
  | p, c :: s =>
    (if c = '\x7d' ∧ depth p = 1 ∧ inside p ≠ [] then [inside p] else []) ++
      expressionsFrom (p ++ [c]) s

def expressions (s : GoString) : List GoString := expressionsFrom [] s

def TidyFrom (p s : GoString) : Prop := ∀ q c r, s = q ++ c :: r → InPlace (p ++ q) c

def Tidy (s : GoString) : Prop := ∀ p c q, s = p ++ c :: q → InPlace p c

/-! ## Places -/

variable {p s : GoString} {c : Char}

theorem places_cons {Φ : GoString → Char → Prop} :
    (∀ q d r, c :: s = q ++ d :: r → Φ (p ++ q) d) ↔
      Φ p c ∧ ∀ q d r, s = q ++ d :: r → Φ (p ++ [c] ++ q) d := by
  constructor
  · intro h
    refine ⟨?_, fun q d r hs => ?_⟩
    · have hc := h [] c s rfl
      rwa [append_nil] at hc
    · rw [append_assoc]
      exact h (c :: q) d r (congrArg (c :: ·) hs)
  · rintro ⟨hc, hs⟩ q d r h
    cases q with
    | nil =>
      cases h
      rwa [append_nil]
    | cons c' q =>
      cases h
      rw [append_cons]
      exact hs q d r rfl

theorem tidyFrom_cons : TidyFrom p (c :: s) ↔ InPlace p c ∧ TidyFrom (p ++ [c]) s := places_cons

@[simp] theorem depth_nil : depth [] = 0 := rfl

@[simp] theorem depth_open (p : GoString) : depth (p ++ ['\x7b']) = depth p + 1 := by
  simp [depth]
  omega

@[simp] theorem depth_close (p : GoString) : depth (p ++ ['\x7d']) = depth p - 1 := by
  simp [depth]
  omega

variable {t : GoString}

theorem depth_text (p : GoString) (ht : ∀ c ∈ t, c ≠ '\x7b' ∧ c ≠ '\x7d') :
    depth (p ++ t) = depth p := by
  have hopen : t.count '\x7b' = 0 := count_eq_zero.2 fun h => (ht _ h).1 rfl
  have hclose : t.count '\x7d' = 0 := count_eq_zero.2 fun h => (ht _ h).2 rfl
  simp only [depth, count_append, hopen, hclose, Nat.add_zero]

theorem space_not_brace (hc : Strings.isSpace c) : c ≠ '\x7b' ∧ c ≠ '\x7d' := by
  constructor
  · rintro rfl
    exact absurd hc (by decide)
  · rintro rfl
    exact absurd hc (by decide)

theorem tidyFrom_text (ht : ∀ c ∈ t, c ≠ '\x7b' ∧ c ≠ '\x7d')
    (hp : depth p = 2) : TidyFrom p (t ++ s) ↔ TidyFrom (p ++ t) s := by
  induction t generalizing p with
  | nil => rw [nil_append, append_nil]
  | cons c t ih =>
    obtain ⟨⟨ho, hc⟩, ht⟩ := forall_mem_cons.1 ht
    have hplace : InPlace p c :=
      ⟨fun h => by omega, fun h => by omega, fun _ h => absurd h hc⟩
    have hdepth : depth (p ++ [c]) = 2 := by
      rw [depth_text p (forall_mem_singleton.2 ⟨ho, hc⟩), hp]
    rw [cons_append, tidyFrom_cons, ih ht hdepth, ← append_cons]
    exact and_iff_right hplace

theorem tidyFrom_pair (hp : p.getLast? = some c)
    (hd : depth p = 1) : TidyFrom p (c :: s) ↔ TidyFrom (p ++ [c]) s := by
  rw [tidyFrom_cons]
  exact and_iff_right ⟨fun h => by omega, fun _ => hp, fun h => by omega⟩

variable {ts : List GoString}

theorem Spaced.tidyFrom (h : Spaced s ts)
    (hts : ∀ t ∈ ts, t ≠ []) (hp : depth p = 0) : TidyFrom p s := by
  induction h generalizing p with
  | nil =>
    intro q c r h
    exact absurd h.symm (append_ne_nil_of_right_ne_nil _ (cons_ne_nil _ _))
  | @space c s ts hc _ ih =>
    have hdepth : depth (p ++ [c]) = 0 := by
      rw [depth_text p (forall_mem_singleton.2 (space_not_brace hc)), hp]
    rw [tidyFrom_cons]
    exact ⟨⟨fun _ => .inl hc, fun h => by omega, fun h => by omega⟩, ih hts hdepth⟩
  | @exp t s ts ht _ ih =>
    obtain ⟨hne, hts⟩ := forall_mem_cons.1 hts
    have hopen : InPlace p '\x7b' :=
      ⟨fun _ => .inr rfl, fun h => by omega, fun h => by omega⟩
    -- The last character of the expression is no brace.
    have hlast : (p ++ ['\x7b'] ++ ['\x7b'] ++ t).getLast? ≠ some '\x7b' := by
      intro h
      rw [getLast?_append, getLast?_eq_some_getLast hne] at h
      exact (ht _ (getLast_mem hne)).1 (some.inj h)
    have hdepth : depth (p ++ ['\x7b'] ++ ['\x7b'] ++ t) = 2 := by
      rw [depth_text _ ht, depth_open, depth_open, hp]
      rfl
    rw [tidyFrom_cons, tidyFrom_pair getLast?_concat (by rw [depth_open, hp]; rfl),
      tidyFrom_text ht (by rw [depth_open, depth_open, hp]; rfl), tidyFrom_cons,
      tidyFrom_pair getLast?_concat (by rw [depth_close, hdepth]; rfl)]
    refine ⟨hopen, ⟨fun h => by omega, fun h => by omega, fun _ _ => hlast⟩, ih hts ?_⟩
    rw [depth_close, depth_close, hdepth]
    rfl

/-! ## The scan -/

variable {sc sc' : Scan}

theorem scanLoop_cons :
    scanLoop (c :: s) sc = some (sc', ts) ↔ ∃ mid e ts', scanChar sc c = some (mid, e) ∧
      scanLoop s mid = some (sc', ts') ∧ ts = e.toList ++ ts' := by
  rw [scanLoop, bind_eq_some_iff]
  simp only [map_eq_some_iff, Prod.mk.injEq, Prod.exists]
  constructor
  · rintro ⟨mid, e, hmid, last, ts', hs, rfl, rfl⟩
    exact ⟨mid, e, ts', hmid, hs, rfl⟩
  · rintro ⟨mid, e, ts', hmid, hs, rfl⟩
    exact ⟨mid, e, hmid, sc', ts', hs, rfl, rfl⟩

theorem scanChar_open (h₀ : 0 ≤ sc.opened - sc.closed) (h₁ : sc.opened - sc.closed ≤ 1) :
    scanChar sc '\x7b' = some (⟨sc.opened + 1, sc.closed, []⟩, none) := by
  have htwo : ¬ 2 < sc.opened + 1 - sc.closed := by omega
  have hneg : ¬ sc.opened + 1 - sc.closed < 0 := by omega
  rw [scanChar, if_pos rfl]
  simp only [htwo, hneg, if_false]

theorem scanChar_close (h : 2 ≤ sc.opened - sc.closed) :
    scanChar sc '\x7d' = some (⟨sc.opened, sc.closed + 1, sc.expStr⟩, none) := by
  have hneg : ¬ sc.opened - (sc.closed + 1) < 0 := by omega
  have hexp : ¬ (sc.opened = sc.closed + 1 ∧ sc.expStr ≠ []) := by omega
  rw [scanChar, if_neg (by decide), if_pos rfl]
  simp only [hneg, hexp, if_false]

theorem scanChar_complete (h : sc.opened - sc.closed = 1) (he : sc.expStr ≠ []) :
    scanChar sc '\x7d' = some (⟨sc.opened, sc.closed + 1, []⟩, some sc.expStr) := by
  have hneg : ¬ sc.opened - (sc.closed + 1) < 0 := by omega
  have hexp : sc.opened = sc.closed + 1 ∧ sc.expStr ≠ [] := ⟨by omega, he⟩
  rw [scanChar, if_neg (by decide), if_pos rfl]
  simp only [hneg, if_false, if_pos hexp]

theorem scanChar_other (ho : c ≠ '\x7b') (hc : c ≠ '\x7d')
    (h : sc.opened - sc.closed = 2 ∨ Strings.trimSpace sc.expStr = []) :
    scanChar sc c = some ({ sc with expStr := sc.expStr ++ [c] }, none) := by
  rw [scanChar, if_neg ho, if_neg hc, if_neg fun h' => h.elim h'.1 h'.2]

theorem scan_text (sc : Scan) (hd : sc.opened - sc.closed = 2) (h : scanLoop s sc = some (sc', ts))
    (hend : sc'.opened - sc'.closed ≤ 0) :
    ∃ t r, s = t ++ '\x7d' :: r ∧ (∀ c ∈ t, c ≠ '\x7b' ∧ c ≠ '\x7d') ∧
      scanLoop r ⟨sc.opened, sc.closed + 1, sc.expStr ++ t⟩ = some (sc', ts) := by
  induction s generalizing sc with
  | nil =>
    cases h
    omega
  | cons c s ih =>
    obtain ⟨mid, e, ts', hmid, hs, rfl⟩ := scanLoop_cons.1 h
    by_cases ho : c = '\x7b'
    · have hmany : 2 < sc.opened + 1 - sc.closed := by omega
      rw [scanChar, if_pos ho] at hmid
      simp only [hmany, if_true] at hmid
      cases hmid
    · by_cases hc : c = '\x7d'
      · subst hc
        rw [scanChar_close hd.ge] at hmid
        cases hmid
        exact ⟨[], s, rfl, nofun, by rwa [append_nil]⟩
      · rw [scanChar_other ho hc (.inl hd)] at hmid
        cases hmid
        obtain ⟨t, r, rfl, ht, hr⟩ := ih ⟨sc.opened, sc.closed, sc.expStr ++ [c]⟩ hd hs
        rw [← append_cons] at hr
        exact ⟨c :: t, r, rfl, forall_mem_cons.2 ⟨⟨ho, hc⟩, ht⟩, hr⟩

theorem trimSpace_blank {e : GoString} (he : ∀ c ∈ e, Strings.isSpace c) :
    Strings.trimSpace e = [] := by
  have hdrop : e.dropWhile Strings.isSpace = [] := dropWhile_eq_nil_iff.2 he
  rw [Strings.trimSpace, hdrop]
  rfl

theorem getLast?_eq_of_concat {b : Char} (h : (p ++ [b]).getLast? = some c) : c = b :=
  (some.inj (getLast?_concat.symm.trans h)).symm

theorem scan_exp (sc : Scan)
    (hd : sc.opened - sc.closed = 1) (hp : depth p = 0) (htidy : TidyFrom (p ++ ['\x7b']) s)
    (h : scanLoop s sc = some (sc', ts)) (hend : sc'.opened - sc'.closed ≤ 0) :
    ∃ t r ts', s = '\x7b' :: (t ++ '\x7d' :: '\x7d' :: r) ∧
      (∀ c ∈ t, c ≠ '\x7b' ∧ c ≠ '\x7d') ∧ ts = t :: ts' ∧ (∃ q, depth q = 0 ∧ TidyFrom q r) ∧
      scanLoop r ⟨sc.opened + 1, sc.closed + 1 + 1, []⟩ = some (sc', ts') := by
  have hp₁ : depth (p ++ ['\x7b']) = 1 := by rw [depth_open, hp]; rfl
  have hp₂ : depth (p ++ ['\x7b'] ++ ['\x7b']) = 2 := by rw [depth_open, hp₁]; rfl
  cases s with
  | nil =>
    cases h
    omega
  | cons c s =>
    obtain ⟨hplace, htidy⟩ := tidyFrom_cons.1 htidy
    obtain rfl := getLast?_eq_of_concat (hplace.paired hp₁)
    obtain ⟨mid, e, ts', hmid, hs, rfl⟩ := scanLoop_cons.1 h
    rw [scanChar_open (by omega) (by omega)] at hmid
    cases hmid
    have hd₂ : sc.opened + 1 - sc.closed = 2 := by omega
    obtain ⟨t, r, rfl, ht, hr⟩ := scan_text ⟨sc.opened + 1, sc.closed, []⟩ hd₂ hs hend
    obtain ⟨hplace, htidy⟩ := tidyFrom_cons.1 ((tidyFrom_text ht hp₂).1 htidy)
    have hp₃ : depth (p ++ ['\x7b'] ++ ['\x7b'] ++ t) = 2 := by rw [depth_text _ ht, hp₂]
    -- a closing brace never stands right behind an opening one
    have hne : t ≠ [] := by
      rintro rfl
      refine hplace.nonempty hp₃ rfl ?_
      rw [append_nil]
      exact getLast?_concat
    have hp₄ : depth (p ++ ['\x7b'] ++ ['\x7b'] ++ t ++ ['\x7d']) = 1 := by
      rw [depth_close, hp₃]; rfl
    cases r with
    | nil =>
      cases hr
      have hend : sc.opened + 1 - (sc.closed + 1) ≤ 0 := hend
      omega
    | cons c r =>
      obtain ⟨hplace, htidy⟩ := tidyFrom_cons.1 htidy
      obtain rfl := getLast?_eq_of_concat (hplace.paired hp₄)
      obtain ⟨mid, e, ts', hmid, hr, hts⟩ := scanLoop_cons.1 hr
      have hd₁ : sc.opened + 1 - (sc.closed + 1) = 1 := by omega
      rw [scanChar_complete hd₁ hne] at hmid
      cases hmid
      refine ⟨t, r, ts', rfl, ht, hts, ⟨_, ?_, htidy⟩, hr⟩
      rw [depth_close, hp₄]
      rfl

theorem spaced_of_scan (sc : Scan) {n : ℕ}
    (hn : s.length ≤ n) (hd : sc.opened - sc.closed = 0) (hp : depth p = 0)
    (he : ∀ c ∈ sc.expStr, Strings.isSpace c) (htidy : TidyFrom p s)
    (h : scanLoop s sc = some (sc', ts)) (hend : sc'.opened - sc'.closed ≤ 0) : Spaced s ts := by
  induction n generalizing s p sc ts with
  | zero =>
    obtain rfl := length_eq_zero_iff.1 (Nat.le_zero.1 hn)
    cases h
    exact .nil
  | succ n ih =>
    cases s with
    | nil =>
      cases h
      exact .nil
    | cons c s =>
      obtain ⟨mid, e, ts', hmid, hs, rfl⟩ := scanLoop_cons.1 h
      obtain ⟨hplace, htidy⟩ := tidyFrom_cons.1 htidy
      obtain hspace | rfl := hplace.outside hp
      · obtain ⟨ho, hc⟩ := space_not_brace hspace
        rw [scanChar_other ho hc (.inr (trimSpace_blank he))] at hmid
        cases hmid
        refine .space hspace (ih ⟨sc.opened, sc.closed, sc.expStr ++ [c]⟩
          (Nat.le_of_succ_le_succ hn) hd ?_ ?_ htidy hs)
        · rw [depth_text p (forall_mem_singleton.2 ⟨ho, hc⟩), hp]
        · exact forall_mem_append.2 ⟨he, forall_mem_singleton.2 hspace⟩
      · rw [scanChar_open hd.ge (by omega)] at hmid
        cases hmid
        have hd₁ : sc.opened + 1 - sc.closed = 1 := by omega
        obtain ⟨t, r, ts', rfl, ht, hts, ⟨q, hq, hr⟩, hscan⟩ :=
          scan_exp ⟨sc.opened + 1, sc.closed, []⟩ hd₁ hp htidy hs hend
        subst hts
        refine .exp ht (ih ⟨sc.opened + 1 + 1, sc.closed + 1 + 1, []⟩ ?_ ?_ hq
          (fun _ h => absurd h not_mem_nil) hr hscan)
        · simp only [length_cons, length_append] at hn
          omega
        · have hd₀ : sc.opened + 1 + 1 - (sc.closed + 1 + 1) = 0 := by omega
          exact hd₀

/-! ## What the scanner accepts -/

theorem trimSpace_eq_nil_iff {e : GoString} :
    Strings.trimSpace e = [] ↔ ∀ c ∈ e, Strings.isSpace c := by
  refine ⟨fun h => ?_, trimSpace_blank⟩
  rw [Strings.trimSpace, reverse_eq_nil_iff, dropWhile_eq_nil_iff] at h
  have hrest : ∀ c ∈ e.dropWhile Strings.isSpace, Strings.isSpace c :=
    fun c hc => h c (mem_reverse.2 hc)
  rw [← takeWhile_append_dropWhile (p := Strings.isSpace) (l := e)]
  exact forall_mem_append.2 ⟨fun c hc => mem_takeWhile_imp hc, hrest⟩

/-- The counters and the buffer behind a text. -/
def scanAt (p : GoString) : Scan := ⟨p.count '\x7b' + 1, p.count '\x7d' + 1, pending p⟩

theorem scanAt_depth (p : GoString) : (scanAt p).opened - (scanAt p).closed = depth p := by
  simp only [scanAt, depth]
  omega

theorem scanAt_open (p : GoString) :
    scanAt (p ++ ['\x7b']) = ⟨(scanAt p).opened + 1, (scanAt p).closed, []⟩ := by
  simp [scanAt, pending, inside, behind, count_append]

theorem scanAt_close (p : GoString) : scanAt (p ++ ['\x7d']) =
    ⟨(scanAt p).opened, (scanAt p).closed + 1, if depth p = 1 then [] else inside p⟩ := by
  have hone : depth p - 1 = 0 ↔ depth p = 1 := by omega
  simp [scanAt, pending, inside, behind, hone, count_append]

theorem scanAt_other (ho : c ≠ '\x7b') (hc : c ≠ '\x7d') :
    scanAt (p ++ [c]) = { scanAt p with expStr := pending p ++ [c] } := by
  have hdepth : depth (p ++ [c]) = depth p := depth_text p (forall_mem_singleton.2 ⟨ho, hc⟩)
  have hpending : pending (p ++ [c]) = pending p ++ [c] := by
    unfold pending
    rw [hdepth]
    split_ifs <;> simp [inside, behind, ho, hc]
  simp [scanAt, hpending, count_append, ho, hc]

/-- The expression that the character ends. -/
def ended (p : GoString) (c : Char) : Option GoString :=
  if c = '\x7d' ∧ depth p = 1 ∧ inside p ≠ [] then some (inside p) else none

theorem scanChar_eq_of_admitted (hp : 0 ≤ depth p) (h : Admitted p c) :
    scanChar (scanAt p) c = some (scanAt (p ++ [c]), ended p c) := by
  have hd := scanAt_depth p
  by_cases ho : c = '\x7b'
  · have hone := h.opens ho
    subst ho
    rw [scanAt_open, scanChar_open (by omega) (by omega)]
    rfl
  by_cases hc : c = '\x7d'
  · have hone := h.closes hc
    subst hc
    have hne : depth p ≠ 0 := by omega
    have hbuffer : (scanAt p).expStr = inside p := if_neg hne
    rw [scanAt_close]
    by_cases h1 : depth p = 1
    · by_cases hin : inside p = []
      · -- empty braces end nothing, and the buffer is empty already
        have hneg : ¬ (scanAt p).opened - ((scanAt p).closed + 1) < 0 := by omega
        rw [scanChar, if_neg ho, if_pos rfl]
        simp [ended, hneg, hbuffer, h1, hin]
      · rw [scanChar_complete (hd.trans h1) (hbuffer ▸ hin), hbuffer]
        simp [ended, h1, hin]
    · rw [scanChar_close (by omega), hbuffer]
      simp [ended, h1]
  · have hblank := h.other ho hc
    rw [← trimSpace_eq_nil_iff, ← hd] at hblank
    rw [scanAt_other ho hc, scanChar_other ho hc hblank]
    simp only [ended, hc, false_and, if_false]
    rfl

theorem admitted_of_scanChar {x : Scan × Option GoString} (h : scanChar (scanAt p) c = some x) :
    Admitted p c := by
  have hd := scanAt_depth p
  rw [scanChar] at h
  refine ⟨?_, ?_, fun ho hc => ?_⟩
  · rintro rfl
    by_contra hmany
    have htwo : 2 < (scanAt p).opened + 1 - (scanAt p).closed := by omega
    simp [htwo] at h
  · rintro rfl
    by_contra hfew
    have hneg : (scanAt p).opened - ((scanAt p).closed + 1) < 0 := by omega
    simp [hneg] at h
  · rw [if_neg ho, if_neg hc, hd] at h
    by_contra hbad
    rw [not_or, ← trimSpace_eq_nil_iff] at hbad
    have hnone := h.symm.trans (if_pos hbad)
    cases hnone

theorem Admitted.depth_nonneg (h : Admitted p c) (hp : 0 ≤ depth p) : 0 ≤ depth (p ++ [c]) := by
  by_cases ho : c = '\x7b'
  · subst ho
    rw [depth_open]
    omega
  by_cases hc : c = '\x7d'
  · have hone := h.closes hc
    subst hc
    rw [depth_close]
    omega
  · rwa [depth_text p (forall_mem_singleton.2 ⟨ho, hc⟩)]

/-- Behind a text that it admits, the scanner has the text's own depth and expressions. -/
theorem scanLoop_scanAt (hp : 0 ≤ depth p) : scanLoop s (scanAt p) = some (sc', ts) ↔
    (∀ q c r, s = q ++ c :: r → Admitted (p ++ q) c) ∧ sc' = scanAt (p ++ s) ∧
      0 ≤ depth (p ++ s) ∧ ts = expressionsFrom p s := by
  induction s generalizing p ts with
  | nil => simp [scanLoop, expressionsFrom, hp, eq_comm]
  | cons c s ih =>
    rw [scanLoop_cons, places_cons (Φ := Admitted), expressionsFrom, append_cons p c s]
    constructor
    · rintro ⟨mid, e, ts', hmid, hs, rfl⟩
      have hc := admitted_of_scanChar hmid
      rw [scanChar_eq_of_admitted hp hc, some.injEq, Prod.mk.injEq] at hmid
      obtain ⟨rfl, rfl⟩ := hmid
      obtain ⟨hrest, hsc, hdepth, rfl⟩ := (ih (hc.depth_nonneg hp)).1 hs
      exact ⟨⟨hc, hrest⟩, hsc, hdepth, by rw [ended]; split_ifs <;> rfl⟩
    · rintro ⟨⟨hc, hrest⟩, hsc, hdepth, rfl⟩
      refine ⟨_, _, _, scanChar_eq_of_admitted hp hc,
        (ih (hc.depth_nonneg hp)).2 ⟨hrest, hsc, hdepth, rfl⟩, ?_⟩
      rw [ended]
      split_ifs <;> rfl

theorem texts_eq_some_iff : texts s = some ts ↔ Admissible s ∧ ts = expressions s := by
  have hend := scanAt_depth s
  have hloop (sc' : Scan) (ts' : List GoString) : scanLoop s ⟨1, 1, []⟩ = some (sc', ts') ↔ _ :=
    scanLoop_scanAt (p := []) depth_nil.ge
  rw [texts, bind_eq_some_iff]
  constructor
  · rintro ⟨⟨sc, ts'⟩, hscan, h⟩
    obtain ⟨hadmitted, rfl, hdepth, rfl⟩ := (hloop sc ts').1 hscan
    rw [nil_append] at h hdepth
    split_ifs at h with hopen
    cases h
    rw [hend, not_lt] at hopen
    exact ⟨⟨hadmitted, le_antisymm hopen hdepth⟩, rfl⟩
  · rintro ⟨⟨hadmitted, hdepth⟩, rfl⟩
    refine ⟨_, (hloop _ _).2 ⟨hadmitted, rfl, hdepth.ge, rfl⟩, ?_⟩
    rw [nil_append, hend, if_neg (by omega)]
    rfl

/-! ## What `Parse` accepts -/

theorem compileTexts_nonempty {H : Host} {env : CompileEnv} {rs rs' : Rows}
    (h : compileTexts H env ts rs = .ok rs') : ∀ t ∈ ts, t ≠ [] := by
  induction ts generalizing rs with
  | nil => exact nofun
  | cons t ts ih =>
    obtain ⟨mid, hmid, h⟩ := Res.bind_eq_ok.1 h
    refine forall_mem_cons.2 ⟨?_, ih h⟩
    rintro rfl
    cases hmid

end Kairos
