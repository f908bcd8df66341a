import Mathlib.Algebra.Order.Field.Rat
import Mathlib.Data.List.TakeWhile
import Mathlib.Data.Set.Finite.Lemmas
import Kairos.Template.Expressions
import Kairos.Template.Shapes
import Kairos.Template.Texts

/-!
# Literals

A parameter in round brackets is a constant. `compileExp` puts it in lower case, `getConstVar` takes
out all brackets, and `setValue` trims brackets and quotes from what begins with a quote; anything
else is read by `strconv.ParseFloat`, whose error is dropped. A number is read as the `float64` that
is nearest to it, and one that is too large as an infinity.
-/

namespace Kairos

open List

namespace Strings

variable {cutset : GoString}

theorem trimRight_sublist (s cutset : GoString) : (trimRight s cutset).Sublist s := by
  have h := (dropWhile_sublist (l := s.reverse) cutset.contains).reverse
  rwa [reverse_reverse] at h

theorem trim_sublist (s cutset : GoString) : (trim s cutset).Sublist s :=
  (trimRight_sublist _ _).trans (dropWhile_sublist _)

variable {s : GoString} {c : Char}

theorem trimRight_concat (hc : cutset.contains c) :
    trimRight (s ++ [c]) cutset = trimRight s cutset := by
  rw [trimRight, reverse_concat, dropWhile_cons_of_pos hc]
  rfl

theorem trim_surrounded (hc : cutset.contains c) :
    trim (c :: (s ++ [c])) cutset = trim s cutset := by
  unfold trim
  rw [dropWhile_cons_of_pos hc]
  by_cases hs : ∀ d ∈ s, cutset.contains d
  · have hleft : s.dropWhile cutset.contains = [] := dropWhile_eq_nil_iff.2 hs
    have hboth : (s ++ [c]).dropWhile cutset.contains = [] :=
      dropWhile_eq_nil_iff.2
        (forall_mem_append.2 ⟨hs, forall_mem_singleton.2 hc⟩)
    rw [hleft, hboth]
  · have hleft : (s.dropWhile cutset.contains).isEmpty = false := by
      rw [isEmpty_eq_false_iff]
      exact fun h => hs (dropWhile_eq_nil_iff.1 h)
    rw [dropWhile_append, if_neg (by simp [hleft]), trimRight_concat hc]

theorem dropWhile_eq_self {p : Char → Bool} : s.dropWhile p = s ↔ ∀ c ∈ s.head?, p c = false := by
  cases s with
  | nil => exact iff_of_true rfl nofun
  | cons c s =>
    by_cases hc : p c
    · rw [dropWhile_cons_of_pos hc]
      refine iff_of_false (fun h => ?_) fun h => Bool.false_ne_true ((h c rfl).symm.trans hc)
      have hlen := (dropWhile_sublist (l := s) p).length_le
      rw [h, length_cons] at hlen
      omega
    · rw [dropWhile_cons_of_neg hc]
      exact iff_of_true rfl fun d hd => Option.mem_some.1 hd ▸ Bool.eq_false_iff.2 hc

theorem trimRight_eq_self :
    trimRight s cutset = s ↔ ∀ c ∈ s.getLast?, cutset.contains c = false := by
  rw [trimRight, reverse_eq_iff, dropWhile_eq_self, head?_reverse]

theorem trim_eq_self : trim s cutset = s ↔
    (∀ c ∈ s.head?, cutset.contains c = false) ∧ ∀ c ∈ s.getLast?, cutset.contains c = false := by
  rw [← dropWhile_eq_self, ← trimRight_eq_self]
  constructor
  · intro h
    -- What is left after trimming one end is no shorter than after trimming both.
    have hright := (trimRight_sublist (s.dropWhile cutset.contains) cutset).length_le
    have hlen : s.length ≤ (s.dropWhile cutset.contains).length :=
      (congrArg List.length h).symm.le.trans hright
    have hleft := (dropWhile_sublist cutset.contains).eq_of_length_le hlen
    refine ⟨hleft, ?_⟩
    rwa [trim, hleft] at h
  · rintro ⟨hleft, hright⟩
    rw [trim, hleft, hright]

end Strings

/-! ## Numbers -/

namespace Float64

/-- The number that a finite `float64` stands for. -/
def value (x : Float64) : ℚ :=
  let exponent := (x.extractLsb' 52 11).toNat
  let fraction := (x.extractLsb' 0 52).toNat
  let significand := if exponent = 0 then fraction else 2 ^ 52 + fraction
  (if x.msb then -1 else 1) * significand * 2 ^ ((max exponent 1 : ℤ) - 1075)

def Nearest (x : Float64) (q : ℚ) : Prop :=
  x.isSpecial = false ∧ ∀ y : Float64, y.isSpecial = false → |x.value - q| ≤ |y.value - q|

/-- What is rounded to a finite `float64`: less than half a step beyond the largest one. -/
def InRange (q : ℚ) : Prop := |q| < 2 ^ 1024 - 2 ^ 970

instance (q : ℚ) : Decidable (InRange q) := inferInstanceAs (Decidable (_ < _))

theorem exists_nearest (q : ℚ) : ∃ x : Float64, x.Nearest q := by
  have hfinite : Finite Float64 := Finite.of_injective BitVec.toFin fun _ _ => BitVec.eq_of_toFin_eq
  obtain ⟨x, hx, hmin⟩ := Set.exists_min_image {x : Float64 | x.isSpecial = false}
    (fun x => |x.value - q|) (Set.toFinite _) ⟨zero, by decide⟩
  exact ⟨x, hx, hmin⟩

end Float64


def IsSign (s : GoString) : Prop := s = [] ∨ s = ['+'] ∨ s = ['-']

def Digits (s : GoString) : Prop := ∀ c ∈ s, c.isDigit

inductive IsDecimal : GoString → Prop where
  | mk {sign int frac exp : GoString} (hsign : IsSign sign) (hint : Digits int)
      (hfrac : frac = [] ∨ ∃ ds, frac = '.' :: ds ∧ Digits ds)
      (hdigit : int ≠ [] ∨ 2 ≤ frac.length)
      (hexp : exp = [] ∨ ∃ e s ds, exp = e :: (s ++ ds) ∧ (e = 'e' ∨ e = 'E') ∧ IsSign s ∧
        ds ≠ [] ∧ Digits ds) :
      IsDecimal (sign ++ int ++ frac ++ exp)

def digitsValue (ds : GoString) : ℕ := ds.foldl (fun n c => 10 * n + (c.toNat - '0'.toNat)) 0

def exponentValue : GoString → ℤ
  | '-' :: ds => -digitsValue ds
  | '+' :: ds => digitsValue ds
  | ds => digitsValue ds

/-- The number that a decimal literal stands for. -/
def decimalValue (d : GoString) : ℚ :=
  let mantissa := d.takeWhile fun c => c ≠ 'e' ∧ c ≠ 'E'
  let exponent := (d.dropWhile fun c => c ≠ 'e' ∧ c ≠ 'E').tail
  let fraction := (mantissa.dropWhile (· ≠ '.')).tail
  (if d.head? = some '-' then -1 else 1) * digitsValue (mantissa.filter Char.isDigit) *
    10 ^ (exponentValue exponent - fraction.length)

def IsNumeral (c : Char) : Prop := c.isDigit ∨ c ∈ ['+', '-', '.', 'e', 'E']

theorem IsNumeral.not_mark {c : Char} (hc : IsNumeral c) : c ∉ ['(', ')', '"'] := by
  intro h
  simp only [List.mem_cons, List.not_mem_nil, or_false] at h
  obtain rfl | rfl | rfl := h <;> exact absurd hc (by unfold IsNumeral; decide)

variable {s : GoString}

theorem IsSign.numeral (h : IsSign s) : ∀ c ∈ s, IsNumeral c := by
  obtain rfl | rfl | rfl := h
  · exact nofun
  · exact List.forall_mem_singleton.2 (.inr (by decide))
  · exact List.forall_mem_singleton.2 (.inr (by decide))

variable {d : GoString}

theorem IsDecimal.numeral (h : IsDecimal d) : ∀ c ∈ d, IsNumeral c := by
  obtain ⟨hsign, hint, hfrac, -, hexp⟩ := h
  have hdigits {s : GoString} (hs : Digits s) : ∀ c ∈ s, IsNumeral c := fun c hc => .inl (hs c hc)
  simp only [List.forall_mem_append]
  refine ⟨⟨⟨hsign.numeral, hdigits hint⟩, ?_⟩, ?_⟩
  · obtain rfl | ⟨ds, rfl, hds⟩ := hfrac
    · exact nofun
    · exact List.forall_mem_cons.2 ⟨.inr (by decide), hdigits hds⟩
  · obtain rfl | ⟨e, s, ds, rfl, he, hs, -, hds⟩ := hexp
    · exact nofun
    · refine List.forall_mem_cons.2
        ⟨?_, List.forall_mem_append.2 ⟨hs.numeral, hdigits hds⟩⟩
      obtain rfl | rfl := he
      · exact .inr (by decide)
      · exact .inr (by decide)

/-- `unicode.ToLower` leaves dots, brackets and quotes, and takes the characters of numbers to such.
`strconv.ParseFloat` is blind to case, and rounds a decimal number to a nearest `float64`, or to an
infinity. -/
structure Host.ReadsNumbers (H : Host) : Prop where
  lower_mark : ∀ c ∈ ['.', '(', ')', '"'], H.lower c = c
  lower_numeral : ∀ c, IsNumeral c → IsNumeral (H.lower c)
  parseFloat_lower : ∀ d, IsDecimal d → H.parseFloat (H.toLower d) = H.parseFloat d
  parseFloat_nearest : ∀ d, IsDecimal d → Float64.InRange (decimalValue d) →
    (H.parseFloat d).Nearest (decimalValue d)
  parseFloat_special : ∀ d, IsDecimal d → ¬ Float64.InRange (decimalValue d) →
    (H.parseFloat d).isSpecial

/-! ## The words of an expression -/

def lowItem (H : Host) (e : GoString) : GoString :=
  if isVariable e || Strings.hasPrefix e "(" then H.toLower e else e

theorem chainFrom_map {f : GoString → GoString} {items : List GoString} (buf : List GoString)
    (hf : ∀ e ∈ items, f e = "|" ↔ e = "|") :
    chainFrom (buf.map f) (items.map f) = (chainFrom buf items).map (List.map f) := by
  induction items generalizing buf with
  | nil =>
    rw [map_nil, chainFrom, chainFrom]
    by_cases hbuf : buf = []
    · rw [if_pos hbuf, if_pos (map_eq_nil_iff.2 hbuf), map_nil]
    · rw [if_neg hbuf, if_neg (hbuf ∘ map_eq_nil_iff.1), map_singleton]
  | cons e items ih =>
    obtain ⟨he, hf⟩ := forall_mem_cons.1 hf
    rw [map_cons, chainFrom, chainFrom]
    by_cases hpipe : e = "|"
    · rw [if_pos hpipe, if_pos (he.2 hpipe), map_cons, ← ih [] hf, map_nil]
    · rw [if_neg hpipe, if_neg (hpipe ∘ he.1), ← ih _ hf, map_append, map_singleton]

variable {H : Host}

theorem lowItem_pipe (hH : H.ReadsNumbers) (e : GoString) :
    lowItem H e = "|" ↔ e = "|" := by
  unfold lowItem
  split_ifs with he
  · cases e with
    | nil => exact absurd he (by decide)
    | cons c s =>
      have he : (('.' == c && true) || ('(' == c && true)) := he
      have hc : '.' = c ∨ '(' = c := by
        simpa only [Bool.and_true, Bool.or_eq_true, beq_iff_eq] using he
      have hlow : H.lower c = c := hH.lower_mark c (by obtain rfl | rfl := hc <;> decide)
      have hne : c ≠ '|' := by obtain rfl | rfl := hc <;> decide
      refine iff_of_false (fun h => hne ?_) fun h => hne (List.cons.inj h).1
      exact hlow.symm.trans (List.cons.inj h).1
  · exact Iff.rfl

/-- A word that is not the first of its stage, and the parameter that it has become. -/
def Became (exp : GoString) (row : Row) (tok p : GoString) : Prop :=
  ∃ c e, (c, e) ∈ (chainFrom [] (Strings.findAllItems (Strings.trim exp " "))).zip row ∧
    (tok, p) ∈ c.tail.zip e.params

variable {tok p : GoString}

theorem Became.eq_lowItem (hH : H.ReadsNumbers) {env : CompileEnv} {exp : GoString} {vt : VarTemp}
    {notFound : List GoString} {row : CompiledRow} (h : compileExp H env exp vt notFound = .ok row)
    (hb : Became exp row.exps tok p) : p = lowItem H tok := by
  obtain ⟨c, e, hstage, hword⟩ := hb
  obtain hnil | hall := compileExp_words h
  · rw [hnil, zip_nil_right] at hstage
    exact absurd hstage not_mem_nil
  · have hitems : expItems H (Strings.trim exp " ") =
        (Strings.findAllItems (Strings.trim exp " ")).map (lowItem H) := rfl
    rw [hitems, ← map_nil (f := lowItem H), chainFrom_map [] fun e _ => lowItem_pipe hH e,
      forall₂_map_left_iff] at hall
    have hwords := forall₂_zip hall hstage
    cases c with
    | nil => cases hwords
    | cons w ps =>
      generalize hmap : (w :: ps).map (lowItem H) = words at hwords
      cases hwords with
      | call w' ps' =>
        cases hmap
        have hlow : List.Forall₂ (fun tok p => p = lowItem H tok) ps (ps.map (lowItem H)) :=
          forall₂_map_right_iff.2 (forall₂_same.2 fun _ _ => rfl)
        exact forall₂_zip hlow hword
      | single w' =>
        obtain ⟨-, hps⟩ := List.cons.inj hmap
        rw [tail_cons, map_eq_nil_iff.1 hps, zip_nil_left] at hword
        exact absurd hword not_mem_nil

/-! ## The value of a constant -/

def constValue (H : Host) (p : GoString) : Val :=
  if Strings.hasPrefix (getConstVar p) "\"" then
    .str (Strings.trim (getConstVar p) "()\"")
  else .float (H.parseFloat (getConstVar p))

theorem paramValue_constant (hp : isConstant p) (env : ExecEnv) :
    paramValue H env p = pure (constValue H p) := by
  have hping : p ≠ "_ping" := by
    rintro rfl
    exact absurd hp (by decide)
  rw [paramValue, if_neg hping, if_pos hp]
  rfl

def bracketed (d : GoString) : GoString := '(' :: (d ++ [')'])

def quoted (s : GoString) : GoString := bracketed ('"' :: (s ++ ['"']))

theorem isConstant_bracketed (d : GoString) : isConstant (bracketed d) := by
  have hprefix : Strings.hasPrefix (bracketed d) "(" := rfl
  have hsuffix : Strings.hasSuffix (bracketed d) ")" :=
    isSuffixOf_iff_suffix.2 ⟨'(' :: d, rfl⟩
  rw [isConstant, hprefix, hsuffix]
  rfl

theorem lowItem_bracketed (hH : H.ReadsNumbers) (d : GoString) :
    lowItem H (bracketed d) = bracketed (H.toLower d) := by
  have hprefix : Strings.hasPrefix (bracketed d) "(" := rfl
  rw [lowItem, hprefix, Bool.or_true, if_pos rfl]
  simp only [bracketed, Host.toLower, map_cons, map_append, map_nil,
    hH.lower_mark '(' (by decide), hH.lower_mark ')' (by decide)]

theorem getConstVar_bracketed (d : GoString) : getConstVar (bracketed d) = getConstVar d := by
  simp [getConstVar, bracketed]

theorem constValue_quoted (hH : H.ReadsNumbers) (s : GoString) :
    constValue H (lowItem H (quoted s)) =
      .str (Strings.trim (getConstVar (H.toLower s)) "()\"") := by
  have hlow : H.toLower ('"' :: (s ++ ['"'])) = '"' :: (H.toLower s ++ ['"']) := by
    simp only [Host.toLower, map_cons, map_append, map_nil,
      hH.lower_mark '"' (by decide)]
  have hconst : getConstVar (lowItem H (quoted s)) =
      '"' :: (getConstVar (H.toLower s) ++ ['"']) := by
    rw [quoted, lowItem_bracketed hH, getConstVar_bracketed, hlow]
    simp [getConstVar]
  have hprefix : Strings.hasPrefix ('"' :: (getConstVar (H.toLower s) ++ ['"'])) "\"" =
    true := rfl
  rw [constValue, hconst, if_pos hprefix, Strings.trim_surrounded (by decide)]

theorem constValue_decimal (hH : H.ReadsNumbers) (hd : IsDecimal d) :
    constValue H (lowItem H (bracketed d)) = .float (H.parseFloat d) := by
  have hnumeral : ∀ c ∈ H.toLower d, IsNumeral c := by
    intro c hc
    obtain ⟨c', hc', rfl⟩ := mem_map.1 hc
    exact hH.lower_numeral c' (hd.numeral c' hc')
  have hconst : getConstVar (lowItem H (bracketed d)) = H.toLower d := by
    rw [lowItem_bracketed hH, getConstVar_bracketed, getConstVar, filter_eq_self]
    intro c hc
    have hmark := (hnumeral c hc).not_mark
    simp only [mem_cons, not_or] at hmark
    simp [hmark.1, hmark.2.1]
  have hprefix : Strings.hasPrefix (H.toLower d) "\"" = false := by
    refine Bool.eq_false_iff.2 fun h => ?_
    obtain ⟨rest, hrest⟩ := isPrefixOf_iff_prefix.1 h
    exact (hnumeral '"' (hrest ▸ List.mem_cons_self)).not_mark (by decide)
  rw [constValue, hconst, hprefix, hH.parseFloat_lower d hd]
  rfl

/-- A string that `setValue` gives back: no upper case, no bracket, no quote at its ends. -/
structure PlainString (H : Host) (s : GoString) : Prop where
  lower : H.toLower s = s
  bracket : '(' ∉ s
  first : s.head? ≠ some '"'
  last : s.getLast? ≠ some '"'

theorem trim_eq_iff_plain (hs : ')' ∉ s) :
    Strings.trim (getConstVar (H.toLower s)) "()\"" = s ↔ PlainString H s := by
  have hcut {c : Char} : "()\"".toList.contains c ↔ c = '(' ∨ c = ')' ∨ c = '"' := by
    simp
  constructor
  · intro h
    -- Nothing has been taken away, since the length is the same.
    have hlen : (H.toLower s).length = s.length := List.length_map ..
    have hconst : (getConstVar (H.toLower s)).Sublist (H.toLower s) := List.filter_sublist
    have htrim := Strings.trim_sublist (getConstVar (H.toLower s)) "()\""
    have hlow : getConstVar (H.toLower s) = H.toLower s := by
      refine hconst.eq_of_length_le ?_
      rw [hlen]
      exact (congrArg List.length h).symm.le.trans htrim.length_le
    have hself : Strings.trim (H.toLower s) "()\"" = H.toLower s := by
      rw [hlow] at h htrim
      exact htrim.eq_of_length_le (by rw [hlen, h])
    rw [hlow] at h
    have hsame : H.toLower s = s := hself.symm.trans h
    rw [hsame] at hlow hself
    obtain ⟨hfirst, hlast⟩ := Strings.trim_eq_self.1 hself
    refine ⟨hsame, fun hb => ?_, fun hf => ?_, fun hl => ?_⟩
    · have hkeep := filter_eq_self.1 hlow '(' hb
      exact absurd hkeep (by decide)
    · exact absurd (hfirst '"' hf) (by decide)
    · exact absurd (hlast '"' hl) (by decide)
  · rintro ⟨hlower, hbracket, hfirst, hlast⟩
    have hconst : getConstVar s = s := by
      refine filter_eq_self.2 fun c hc => ?_
      have ho : c ≠ '(' := fun h => hbracket (h ▸ hc)
      have hcl : c ≠ ')' := fun h => hs (h ▸ hc)
      simp [ho, hcl]
    have hend {c : Char} (hc : c ∈ s) (hquote : c ≠ '"') : "()\"".toList.contains c = false := by
      refine Bool.eq_false_iff.2 fun h => ?_
      obtain rfl | rfl | rfl := hcut.1 h
      · exact hbracket hc
      · exact hs hc
      · exact hquote rfl
    rw [hlower, hconst, Strings.trim_eq_self]
    refine ⟨fun c hc => hend (mem_of_mem_head? hc) ?_,
      fun c hc => hend (mem_of_mem_getLast? hc) ?_⟩
    · rintro rfl
      exact hfirst hc
    · rintro rfl
      exact hlast hc

/-! ## The constants of a template -/

/-- A constant is a string in quotes or a decimal number, and its parameter has that value, a number
up to the precision of a `float64`. -/
structure Faithful (H : Host) (tok p : GoString) : Prop where
  string : ∀ s, ')' ∉ s → tok = quoted s → ∀ env, paramValue H env p = pure (.str s)
  number : ∀ d, IsDecimal d → tok = bracketed d →
    ∃ x : Float64, x.Nearest (decimalValue d) ∧ ∀ env, paramValue H env p = pure (.float x)
  literal : (∃ s, ')' ∉ s ∧ tok = quoted s) ∨ ∃ d, IsDecimal d ∧ tok = bracketed d

def PlainLiteral (H : Host) (tok : GoString) : Prop :=
  (∃ s, ')' ∉ s ∧ tok = quoted s ∧ PlainString H s) ∨
    ∃ d, IsDecimal d ∧ tok = bracketed d ∧ Float64.InRange (decimalValue d)

theorem bracketed_inj {d' : GoString} (h : bracketed d = bracketed d') : d = d' :=
  append_cancel_right (List.cons.inj h).2

theorem quoted_inj {s' : GoString} (h : quoted s = quoted s') : s = s' :=
  append_cancel_right (List.cons.inj (bracketed_inj h)).2

theorem paramValue_quoted (hH : H.ReadsNumbers) (s : GoString) (env : ExecEnv) :
    paramValue H env (lowItem H (quoted s)) =
      pure (.str (Strings.trim (getConstVar (H.toLower s)) "()\"")) := by
  rw [← constValue_quoted hH, paramValue_constant]
  rw [quoted, lowItem_bracketed hH]
  exact isConstant_bracketed _

theorem paramValue_decimal (hH : H.ReadsNumbers) (hd : IsDecimal d) (env : ExecEnv) :
    paramValue H env (lowItem H (bracketed d)) = pure (.float (H.parseFloat d)) := by
  rw [← constValue_decimal hH hd, paramValue_constant]
  rw [lowItem_bracketed hH]
  exact isConstant_bracketed _

theorem paramValue_eq_iff {x : Float64} (hH : H.ReadsNumbers) (hd : IsDecimal d) :
    (∀ env, paramValue H env (lowItem H (bracketed d)) = pure (.float x)) ↔ H.parseFloat d = x := by
  constructor
  · intro h
    have hboth := (paramValue_decimal hH hd ⟨none, [], none⟩).symm.trans (h ⟨none, [], none⟩)
    exact Val.float.inj (Effects.Eff.ok.inj (congrFun hboth ⟨[], 0, []⟩)).1
  · rintro rfl env
    exact paramValue_decimal hH hd env

theorem exists_nearest_iff (hH : H.ReadsNumbers) (hd : IsDecimal d) :
    (∃ x : Float64, x.Nearest (decimalValue d) ∧
      ∀ env, paramValue H env (lowItem H (bracketed d)) = pure (.float x)) ↔
      Float64.InRange (decimalValue d) := by
  simp only [paramValue_eq_iff hH hd, exists_eq_right']
  refine ⟨fun h => ?_, hH.parseFloat_nearest d hd⟩
  by_contra hrange
  exact absurd (hH.parseFloat_special d hd hrange) (by simp [h.1])

theorem bracketed_ne_quoted (hd : IsDecimal d) : bracketed d ≠ quoted s := by
  intro h
  have hquote := hd.numeral '"' (bracketed_inj h ▸ List.mem_cons_self)
  exact absurd (by decide) hquote.not_mark

theorem faithful_iff (hH : H.ReadsNumbers) :
    Faithful H tok (lowItem H tok) ↔ PlainLiteral H tok := by
  constructor
  · rintro ⟨hstring, hnumber, ⟨s, hs, rfl⟩ | ⟨d, hd, rfl⟩⟩
    · have hboth := (paramValue_quoted hH s ⟨none, [], none⟩).symm.trans
        (hstring s hs rfl ⟨none, [], none⟩)
      have hval := (Effects.Eff.ok.inj (congrFun hboth ⟨[], 0, []⟩)).1
      exact .inl ⟨s, hs, rfl, (trim_eq_iff_plain hs).1 (Val.str.inj hval)⟩
    · exact .inr ⟨d, hd, rfl, (exists_nearest_iff hH hd).1 (hnumber d hd rfl)⟩
  · rintro (⟨s, hs, rfl, hplain⟩ | ⟨d, hd, rfl, hrange⟩)
    · refine ⟨fun s' _ h env => ?_, fun d hd h => ?_, .inl ⟨s, hs, rfl⟩⟩
      · obtain rfl := quoted_inj h
        rw [paramValue_quoted hH, (trim_eq_iff_plain hs).2 hplain]
      · exact absurd h.symm (bracketed_ne_quoted hd)
    · refine ⟨fun s hs h => absurd h (bracketed_ne_quoted hd), fun d' _ h => ?_,
        .inr ⟨d, hd, rfl⟩⟩
      obtain rfl := bracketed_inj h
      exact (exists_nearest_iff hH hd).2 hrange

def Occurs (text : GoString) (t : Template) (tok p : GoString) : Prop :=
  ∃ es, texts text = some es ∧ ∃ exp row, (exp, row) ∈ es.zip t.exps ∧ Became exp row tok p

theorem Occurs.eq_lowItem (hH : H.ReadsNumbers) {funcs : Option JsRuntime}
    {input : List GoString} {text : GoString} {vars : Option Vars} {restrict : Bool} {t : Template}
    (ht : build H funcs input text vars restrict = .ok t)
    (h : Occurs text t tok p) : p = lowItem H tok := by
  obtain ⟨es, hes, exp, row, hmem, hb⟩ := h
  obtain ⟨es', rs, stack, ir, hes', hcompiled, -, -, rfl⟩ := build_eq_ok_texts.1 ht
  cases hes.symm.trans hes'
  obtain ⟨rows, hall, happend, -⟩ := compileTexts_rows hcompiled
  obtain rfl : rs.rows = rows := happend
  -- The row stands beside the expression that it is compiled from.
  obtain ⟨r, hr, rfl⟩ : ∃ r, (exp, r) ∈ es.zip rs.rows ∧ r.1 = row := by
    rw [List.zip_map_right, List.mem_map] at hmem
    obtain ⟨⟨exp', r⟩, hr, h⟩ := hmem
    cases h
    exact ⟨r, hr, rfl⟩
  obtain ⟨vt, notFound, row, hrow, rfl⟩ := List.forall₂_zip hall hr
  exact hb.eq_lowItem hH hrow

/-- A host without upper case, which reads every number as `ParseFloat` does. -/
noncomputable def caselessHost : Host :=
  { plainHost with
    lower := id
    parseFloat := fun d =>
      if Float64.InRange (decimalValue d) then (Float64.exists_nearest (decimalValue d)).choose
      else 0x7ff0000000000000#64 }

theorem caselessHost_readsNumbers : caselessHost.ReadsNumbers where
  lower_mark _ _ := rfl
  lower_numeral _ hc := hc
  parseFloat_lower d _ := congrArg caselessHost.parseFloat (List.map_id d)
  parseFloat_nearest d _ hrange := by
    rw [show caselessHost.parseFloat d = _ from if_pos hrange]
    exact (Float64.exists_nearest (decimalValue d)).choose_spec
  parseFloat_special d _ hrange := by
    rw [show caselessHost.parseFloat d = _ from if_neg hrange]
    decide

end Kairos
