import Mathlib.Algebra.Order.BigOperators.Group.List
import Mathlib.Algebra.Order.Ring.Nat
import Mathlib.Data.List.TakeWhile
import Kairos.Library.Readers
import Kairos.Go.Values

/-!
# JSON texts

What `json.Marshal` writes for a JSON value, and what `json.Unmarshal` reads before it decodes:
texts with any white space, escapes and numbers, and no deeper than the scanner of `encoding/json`
goes.
-/

namespace Kairos

open List
open Strings (natDigits itoa)
open Readers

/-! ## Writing -/

def jsonEscape (c : Char) : GoString :=
  if c = '"' ∨ c = '\\' then ['\\', c]
  else if c = '\n' then "\\n"
  else if c = '\r' then "\\r"
  else if c = '\t' then "\\t"
  else if c.toNat < 0x20 ∨ c = '<' ∨ c = '>' ∨ c = '&' then
    "\\u00" ++ [Nat.digitChar (c.toNat / 16), Nat.digitChar (c.toNat % 16)]
  else if c.toNat = 0x2028 ∨ c.toNat = 0x2029 then "\\u202" ++ [Nat.digitChar (c.toNat % 16)]
  else [c]

def jsonQuote (s : GoString) : GoString := '"' :: s.flatMap jsonEscape ++ ['"']

theorem jsonEscape_ne_nil (c : Char) : jsonEscape c ≠ [] := by
  unfold jsonEscape
  split_ifs <;> simp

theorem length_lt_jsonQuote (s : GoString) : s.length < (jsonQuote s).length := by
  have hle : s.length ≤ (s.flatMap jsonEscape).length := by
    rw [List.length_flatMap]
    calc s.length = (s.map fun _ => 1).sum := by simp
      _ ≤ (s.map fun c => (jsonEscape c).length).sum :=
        List.sum_le_sum fun c _ => List.length_pos_iff.2 (jsonEscape_ne_nil c)
  simp only [jsonQuote, List.length_cons, List.length_append, List.length_nil]
  omega

section

variable (showFloat : Float64 → GoString)

mutual

def jsonCompact : Json → GoString
  | .null => "null"
  | .bool b => (toString b).toList
  | .int n => Strings.itoa n
  | .float x => showFloat x
  | .str s => jsonQuote s
  | .arr items => '[' :: Strings.join "," (jsonItems items) ++ [']']
  | .obj fields => '\x7b' :: Strings.join "," (jsonFields fields) ++ ['\x7d']

def jsonItems : List Json → List GoString
  | [] => []
  | j :: js => jsonCompact j :: jsonItems js

def jsonFields : List (GoString × Json) → List GoString
  | [] => []
  | (k, j) :: fs => (jsonQuote k ++ ':' :: jsonCompact j) :: jsonFields fs

end

end

namespace JsonText

/-! ## Strings -/

def unescape? (c : Char) : Option Char :=
  if c = '"' ∨ c = '\\' ∨ c = '/' then some c
  else if c = 'b' then some (Char.ofNat 8)
  else if c = 'f' then some (Char.ofNat 12)
  else if c = 'n' then some '\n'
  else if c = 'r' then some '\r'
  else if c = 't' then some '\t'
  else none

def hexDigit? (c : Char) : Option ℕ :=
  if '0' ≤ c ∧ c ≤ '9' then some (c.toNat - '0'.toNat)
  else if 'a' ≤ c ∧ c ≤ 'f' then some (c.toNat - 'a'.toNat + 10)
  else if 'A' ≤ c ∧ c ≤ 'F' then some (c.toNat - 'A'.toNat + 10)
  else none

def hex4? (a b c d : Char) : Option ℕ := do
  let a ← hexDigit? a
  let b ← hexDigit? b
  let c ← hexDigit? c
  let d ← hexDigit? d
  some (((a * 16 + b) * 16 + c) * 16 + d)

/-- The characters up to the closing quote, with the numbers of those given by one. -/
def readUnits : Reader Char (List (Char ⊕ ℕ))
  | [] => none
  | '"' :: s => some ([], s)
  | '\\' :: 'u' :: a :: b :: c :: d :: s =>
    (hex4? a b c d).bind fun n => (readUnits s).map (Prod.map (.inr n :: ·) id)
  | '\\' :: e :: s => (unescape? e).bind fun c => (readUnits s).map (Prod.map (.inl c :: ·) id)
  | c :: s =>
    if c.toNat < 0x20 ∨ c = '\\' then none else (readUnits s).map (Prod.map (.inl c :: ·) id)

def ofUnit (n : ℕ) : Char :=
  if 0xd800 ≤ n ∧ n < 0xe000 then Char.ofNat 0xfffd else Char.ofNat n

def joinUnits : List (Char ⊕ ℕ) → GoString
  | [] => []
  | .inl c :: us => c :: joinUnits us
  | .inr n :: .inr m :: us =>
    if (0xd800 ≤ n ∧ n < 0xdc00) ∧ 0xdc00 ≤ m ∧ m < 0xe000 then
      Char.ofNat (0x10000 + (n - 0xd800) * 0x400 + (m - 0xdc00)) :: joinUnits us
    else ofUnit n :: joinUnits (.inr m :: us)
  | .inr n :: us => ofUnit n :: joinUnits us

def readString : Reader Char GoString := fun s => (readUnits s).map (Prod.map joinUnits id)

def unitOf (c : Char) : Char ⊕ ℕ :=
  if c.toNat < 0x20 ∧ c ≠ '\n' ∧ c ≠ '\r' ∧ c ≠ '\t' ∨ c = '<' ∨ c = '>' ∨ c = '&' ∨
      c.toNat = 0x2028 ∨ c.toNat = 0x2029 then .inr c.toNat
  else .inl c

theorem hexDigit?_digitChar : ∀ d < 16, hexDigit? (Nat.digitChar d) = some d := by decide

variable {n : ℕ}

theorem hex4?_byte (h : n < 256) :
    hex4? '0' '0' (Nat.digitChar (n / 16)) (Nat.digitChar (n % 16)) = some n := by
  have hhigh := hexDigit?_digitChar (n / 16) (by omega)
  have hlow := hexDigit?_digitChar (n % 16) (by omega)
  have hzero : hexDigit? '0' = some 0 := rfl
  simp only [hex4?, hzero, hhigh, hlow, Option.bind_eq_bind, Option.bind_some, Option.some.injEq]
  omega

theorem readUnits_jsonEscape (c : Char) (s : GoString) :
    readUnits (jsonEscape c ++ s) = (readUnits s).map (Prod.map (unitOf c :: ·) id) := by
  unfold jsonEscape
  split_ifs with hquote hn hr ht hlow hsep
  · rcases hquote with rfl | rfl <;> simp [readUnits, unescape?, unitOf]
  · subst hn
    simp [readUnits, unescape?, unitOf]
  · subst hr
    simp [readUnits, unescape?, unitOf]
  · subst ht
    simp [readUnits, unescape?, unitOf]
  · have hbyte : c.toNat < 256 := by
      rcases hlow with h | rfl | rfl | rfl
      · omega
      all_goals decide
    have hunit : unitOf c = .inr c.toNat := by
      refine if_pos ?_
      rcases hlow with h | h | h | h
      · exact .inl ⟨h, hn, hr, ht⟩
      all_goals simp [h]
    rw [hunit]
    change readUnits ('\\' :: 'u' :: '0' :: '0' :: _ :: _ :: s) = _
    rw [readUnits, hex4?_byte hbyte, Option.bind_some]
  · have hunit : unitOf c = .inr c.toNat := by
      refine if_pos ?_
      rcases hsep with h | h <;> simp [h]
    have hhex : hex4? '2' '0' '2' (Nat.digitChar (c.toNat % 16)) = some c.toNat := by
      rcases hsep with h | h <;> rw [h] <;> rfl
    rw [hunit]
    change readUnits ('\\' :: 'u' :: '2' :: '0' :: '2' :: _ :: s) = _
    rw [readUnits, hhex, Option.bind_some]
  · have hunit : unitOf c = .inl c := by
      refine if_neg ?_
      tauto
    rw [hunit]
    have hplain : ¬ (c.toNat < 0x20 ∨ c = '\\') := by tauto
    have hq : c ≠ '"' := by tauto
    have hb : c ≠ '\\' := by tauto
    change readUnits (c :: s) = _
    rw [readUnits, if_neg hplain]
    · exact hq
    · simp [hb]
    · simp [hb]

theorem joinUnits_inr (h : n < 0xd800 ∨ 0xe000 ≤ n) (us : List (Char ⊕ ℕ)) :
    joinUnits (.inr n :: us) = Char.ofNat n :: joinUnits us := by
  have hunit : ofUnit n = Char.ofNat n := if_neg (by omega)
  cases us with
  | nil => simp [joinUnits, hunit]
  | cons u us =>
    cases u with
    | inl c => simp [joinUnits, hunit]
    | inr m =>
      have hpair : ¬ (0xd800 ≤ n ∧ n < 0xdc00) := by omega
      simp [joinUnits, hunit, hpair]

theorem joinUnits_unitOf (c : Char) (us : List (Char ⊕ ℕ)) :
    joinUnits (unitOf c :: us) = c :: joinUnits us := by
  unfold unitOf
  split_ifs with h
  · have hlt : c.toNat < 0xd800 := by
      rcases h with h | rfl | rfl | rfl | h | h
      · omega
      · decide
      · decide
      · decide
      all_goals omega
    rw [joinUnits_inr (.inl hlt), Char.ofNat_toNat]
  · rfl

/-- A string that is written in pieces, each of which the reader takes for one unit. -/
theorem readString_pieces {α : Type} {piece : α → GoString} {unit : α → Char ⊕ ℕ} {char : α → Char}
    (hread : ∀ a s, readUnits (piece a ++ s) = (readUnits s).map (Prod.map (unit a :: ·) id))
    (hjoin : ∀ a us, joinUnits (unit a :: us) = char a :: joinUnits us) (t : List α)
    (rest : GoString) : readString (t.flatMap piece ++ '"' :: rest) = some (t.map char, rest) := by
  have hunits : readUnits (t.flatMap piece ++ '"' :: rest) = some (t.map unit, rest) := by
    induction t with
    | nil => simp [readUnits]
    | cons a t ih =>
      rw [flatMap_cons, append_assoc, hread, ih]
      rfl
  have hchars : joinUnits (t.map unit) = t.map char := by
    clear hunits
    induction t with
    | nil => rfl
    | cons a t ih => rw [map_cons, hjoin, ih, map_cons]
  rw [readString, hunits, Option.map_some, Prod.map_apply, hchars, id_eq]

theorem readString_flatMap (t : GoString) (rest : GoString) :
    readString (t.flatMap jsonEscape ++ '"' :: rest) = some (t, rest) := by
  simpa using readString_pieces readUnits_jsonEscape joinUnits_unitOf t rest

/-! ## Numbers -/

def isNumberChar (c : Char) : Bool := c.isDigit || "+-.eE".toList.contains c

def isExponent : GoString → Bool
  | [] => true
  | e :: s =>
    let digits := if s.head? = some '+' ∨ s.head? = some '-' then s.tail else s
    (e = 'e' || e = 'E') && digits ≠ [] && digits.all Char.isDigit

def isFraction (s : GoString) : Bool :=
  if s.head? = some '.' then
    s.tail.takeWhile Char.isDigit ≠ [] && isExponent (s.tail.dropWhile Char.isDigit)
  else isExponent s

/-- The number of a literal, without a zero in front of another digit. -/
def numberOf (parseFloat : GoString → Float64) (lit : GoString) : Option Json :=
  let body := if lit.head? = some '-' then lit.tail else lit
  let rest := body.dropWhile Char.isDigit
  (Strings.unsigned? (body.takeWhile Char.isDigit)).bind fun n =>
    if natDigits n ≠ body.takeWhile Char.isDigit then none
    else if rest = [] then some (.int (if lit.head? = some '-' then -n else n))
    else if isFraction rest then some (.float (parseFloat lit))
    else none

def readNumber (parseFloat : GoString → Float64) : Reader Char Json := fun s =>
  (numberOf parseFloat (s.takeWhile isNumberChar)).map fun j => (j, s.dropWhile isNumberChar)

def Follows (rest : GoString) : Prop := ∀ c ∈ rest.head?, isNumberChar c = false

theorem takeWhile_append_of_follows {t rest : GoString} (ht : ∀ c ∈ t, isNumberChar c)
    (hrest : Follows rest) : (t ++ rest).takeWhile isNumberChar = t ∧
      (t ++ rest).dropWhile isNumberChar = rest := by
  rw [takeWhile_append_of_pos ht, dropWhile_append_of_pos ht]
  cases rest with
  | nil => simp
  | cons c rest => simp [hrest c rfl]

theorem numberOf_digits {parseFloat : GoString → Float64} (lit : GoString)
    (hbody : (if lit.head? = some '-' then lit.tail else lit) = natDigits n) :
    numberOf parseFloat lit = some (.int (if lit.head? = some '-' then -n else n)) := by
  have hdigit : ∀ c ∈ natDigits n, c.isDigit := fun c => Strings.isDigit_of_mem_natDigits
  have htake : (natDigits n).takeWhile Char.isDigit = natDigits n :=
    takeWhile_eq_self_iff.2 hdigit
  have hdrop : (natDigits n).dropWhile Char.isDigit = [] :=
    dropWhile_eq_nil_iff.2 hdigit
  simp only [numberOf, hbody, htake, hdrop, Strings.unsigned?_natDigits, Option.bind_some,
    ne_eq, not_true_eq_false, if_false, if_true]

theorem numberOf_itoa (parseFloat : GoString → Float64) (n : ℤ) :
    numberOf parseFloat (itoa n) = some (.int n) := by
  cases n with
  | ofNat n =>
    have hhead : (natDigits n).head? ≠ some '-' := fun h =>
      absurd (Strings.isDigit_of_mem_natDigits (mem_of_mem_head? h)) (by decide)
    change numberOf parseFloat (natDigits n) = _
    rw [numberOf_digits _ (if_neg hhead), if_neg hhead]
    rfl
  | negSucc n => exact numberOf_digits ('-' :: natDigits (n + 1)) rfl

theorem isNumberChar_of_mem_itoa {n : ℤ} {c : Char} (h : c ∈ itoa n) : isNumberChar c := by
  rcases Strings.isDigit_of_mem_itoa h with h | rfl
  · simp [isNumberChar, h]
  · rfl

theorem reads_itoa (parseFloat : GoString → Float64) (n : ℤ) :
    Reads Follows (readNumber parseFloat) (.int n) (itoa n) := by
  intro rest hrest
  obtain ⟨htake, hdrop⟩ :=
    takeWhile_append_of_follows (fun c hc => isNumberChar_of_mem_itoa hc) hrest
  rw [readNumber, htake, hdrop, numberOf_itoa]
  rfl

/-! ## Values -/

def isJsonSpace (c : Char) : Bool := c = ' ' || c = '\t' || c = '\n' || c = '\r'

def skipSpace (s : GoString) : GoString := s.dropWhile isJsonSpace

def readWord (word : GoString) (j : Json) : Reader Char Json := fun s =>
  if word.isPrefixOf s then some (j, s.drop word.length) else none

def readScalar (parseFloat : GoString → Float64) : Reader Char Json
  | [] => none
  | c :: s =>
    if c = '"' then (readString s).map (Prod.map .str id)
    else if c = 'n' then readWord "ull" .null s
    else if c = 't' then readWord "rue" (.bool true) s
    else if c = 'f' then readWord "alse" (.bool false) s
    else readNumber parseFloat (c :: s)

def readField (value : Reader Char Json) : Reader Char (GoString × Json) := fun s =>
  (expect skipSpace '"' s).bind fun s =>
  (readString s).bind fun key =>
  (expect skipSpace ':' key.2).bind fun s =>
  (value s).map (Prod.map (Prod.mk key.1) id)

def readValue (parseFloat : GoString → Float64) : ℕ → Reader Char Json
  | 0 => fun s => readScalar parseFloat (skipSpace s)
  | depth + 1 => fun s =>
    match skipSpace s with
    | [] => none
    | c :: s =>
      if c = '[' then
        (sequence skipSpace ',' ']' (readValue parseFloat depth) s).map (Prod.map .arr id)
      else if c = '\x7b' then
        (sequence skipSpace ',' '\x7d' (readField (readValue parseFloat depth)) s).map
          (Prod.map .obj id)
      else readScalar parseFloat (c :: s)

def readJson (parseFloat : GoString → Float64) (s : GoString) : Option Json :=
  (readValue parseFloat 10000 s).bind fun r => if skipSpace r.2 = [] then some r.1 else none

def fits : ℕ → Json → Bool
  | _, .float _ => false
  | 0, .arr _ => false
  | 0, .obj _ => false
  | depth + 1, .arr items => items.all (fits depth)
  | depth + 1, .obj fields => fields.all fun f => fits depth f.2
  | _, _ => true

section

variable {showFloat : Float64 → GoString} {parseFloat : GoString → Float64} {c : Char}

theorem skipSpace_cons (h : isJsonSpace c = false) (s : GoString) : skipSpace (c :: s) = c :: s :=
  dropWhile_cons_of_neg (by simp [h])

theorem join_eq_intercalate (sep : GoString) (ss : List GoString) :
    Strings.join sep ss = sep.intercalate ss := by
  induction ss with
  | nil => rfl
  | cons s ss ih =>
    cases ss with
    | nil => simp [Strings.join]
    | cons t ss => rw [intercalate_cons_cons, ← ih]; simp [Strings.join]

theorem jsonItems_eq (items : List Json) :
    jsonItems showFloat items = items.map (jsonCompact showFloat) := by
  induction items with
  | nil => rw [jsonItems, map_nil]
  | cons j js ih => rw [jsonItems, ih, map_cons]

theorem jsonFields_eq (fields : List (GoString × Json)) : jsonFields showFloat fields =
      fields.map fun f => jsonQuote f.1 ++ ':' :: jsonCompact showFloat f.2 := by
  induction fields with
  | nil => rw [jsonFields, map_nil]
  | cons f fs ih => rw [jsonFields, ih, map_cons]

theorem marks_char (hspace : isJsonSpace c = false) (hnumber : isNumberChar c = false) :
    Marks skipSpace Follows c :=
  ⟨skipSpace_cons hspace, fun rest d hd => by obtain rfl := Option.some.inj hd; exact hnumber⟩

theorem readValue_arr (depth : ℕ) (s : GoString) : readValue parseFloat (depth + 1) ('[' :: s) =
      (sequence skipSpace ',' ']' (readValue parseFloat depth) s).map (Prod.map .arr id) := rfl

theorem readValue_obj (depth : ℕ) (s : GoString) : readValue parseFloat (depth + 1) ('\x7b' :: s) =
      (sequence skipSpace ',' '\x7d' (readField (readValue parseFloat depth)) s).map
        (Prod.map .obj id) := rfl

theorem readValue_eq_readScalar (hspace : isJsonSpace c = false) (harr : c ≠ '[')
    (hobj : c ≠ '\x7b') (depth : ℕ) (s : GoString) :
    readValue parseFloat depth (c :: s) = readScalar parseFloat (c :: s) := by
  cases depth with
  | zero => simp only [readValue, skipSpace_cons hspace]
  | succ depth => simp only [readValue, skipSpace_cons hspace, if_neg harr, if_neg hobj]

theorem ne_of_isNumberChar {d : Char} (hc : isNumberChar c)
    (hd : isNumberChar d = false) : c ≠ d := by
  rintro rfl
  rw [hc] at hd
  cases hd

theorem exists_cons_itoa (n : ℤ) :
    ∃ c s, itoa n = c :: s ∧ isNumberChar c ∧ isJsonSpace c = false := by
  have hne : itoa n ≠ [] := by
    cases n with
    | ofNat n => exact Nat.toDigits_ne_nil
    | negSucc n => exact cons_ne_nil _ _
  obtain ⟨c, s, hcs⟩ := exists_cons_of_ne_nil hne
  have hc : isNumberChar c := isNumberChar_of_mem_itoa (hcs ▸ mem_cons_self)
  refine ⟨c, s, hcs, hc, ?_⟩
  by_contra hspace
  simp only [isJsonSpace, Bool.not_eq_false, Bool.or_eq_true, decide_eq_true_eq] at hspace
  rcases hspace with ((rfl | rfl) | rfl) | rfl <;> cases hc

theorem reads_int (depth : ℕ) (n : ℤ) :
    Reads Follows (readValue parseFloat depth) (.int n) (itoa n) := by
  intro rest hrest
  have hread := reads_itoa parseFloat n rest hrest
  obtain ⟨c, s, hcs, hc, hspace⟩ := exists_cons_itoa n
  have hne {d : Char} (hd : isNumberChar d = false) : c ≠ d := ne_of_isNumberChar hc hd
  rw [hcs, cons_append] at hread ⊢
  rw [readValue_eq_readScalar hspace (hne rfl) (hne rfl), readScalar, if_neg (hne rfl),
    if_neg (hne rfl), if_neg (hne rfl), if_neg (hne rfl), hread]

theorem reads_str (depth : ℕ) (t : GoString) :
    Reads Follows (readValue parseFloat depth) (.str t) (jsonQuote t) := by
  intro rest _
  have hstring := readString_flatMap t rest
  rw [jsonQuote, append_assoc, cons_append, singleton_append,
    readValue_eq_readScalar rfl (by decide) (by decide), readScalar, if_pos rfl, hstring]
  rfl

theorem reads_null (depth : ℕ) :
    Reads Follows (readValue parseFloat depth) .null "null" := by
  intro rest _
  exact readValue_eq_readScalar rfl (by decide) (by decide) depth _

theorem reads_bool (depth : ℕ) (b : Bool) :
    Reads Follows (readValue parseFloat depth) (.bool b) (toString b).toList := by
  intro rest _
  cases b with
  | false | true => exact readValue_eq_readScalar rfl (by decide) (by decide) depth _

variable {j : Json}

theorem reads_field {value : Reader Char Json} {t : GoString}
    (h : Reads Follows value j t) (key : GoString) :
    Reads Follows (readField value) (key, j) (jsonQuote key ++ ':' :: t) := by
  intro rest hrest
  have hvalue := h rest hrest
  have hkey := readString_flatMap key (':' :: (t ++ rest))
  have hquote (s : GoString) : expect skipSpace '"' ('"' :: s) = some s :=
    expect_cons (skipSpace_cons rfl s)
  have hcolon (s : GoString) : expect skipSpace ':' (':' :: s) = some s :=
    expect_cons (skipSpace_cons rfl s)
  simp only [jsonQuote, cons_append, append_assoc, nil_append, readField, hquote,
    hkey, hcolon, hvalue, Option.bind_some, Option.map_some, Prod.map_apply, id_eq]

variable {depth : ℕ}

theorem exists_cons_jsonCompact (h : fits depth j) :
    ∃ c s, jsonCompact showFloat j = c :: s ∧ isJsonSpace c = false ∧ c ≠ ']' ∧ c ≠ '\x7d' := by
  cases j with
  | null => exact ⟨'n', "ull", by rw [jsonCompact]; rfl, by decide⟩
  | bool b =>
    cases b with
    | false => exact ⟨'f', "alse", by rw [jsonCompact]; rfl, by decide⟩
    | true => exact ⟨'t', "rue", by rw [jsonCompact]; rfl, by decide⟩
  | int n =>
    obtain ⟨c, s, hcs, hc, hspace⟩ := exists_cons_itoa n
    exact ⟨c, s, by rw [jsonCompact, hcs], hspace, ne_of_isNumberChar hc rfl,
      ne_of_isNumberChar hc rfl⟩
  | float x => cases depth <;> cases h
  | str t => exact ⟨'"', _, by rw [jsonCompact]; rfl, by decide⟩
  | arr items => exact ⟨'[', _, by rw [jsonCompact]; rfl, by decide⟩
  | obj fields => exact ⟨'\x7b', _, by rw [jsonCompact]; rfl, by decide⟩

theorem sequence_join {α : Type} {item : Reader Char α} {write : α → GoString} {close : Char}
    (hclose : Marks skipSpace Follows close) (hne : ',' ≠ close) {as : List α}
    (hitem : ∀ a ∈ as, Reads Follows item a (write a))
    (hfirst : ∀ a ∈ as, ∃ c s, write a = c :: s ∧ isJsonSpace c = false ∧ c ≠ close)
    (rest : GoString) :
    sequence skipSpace ',' close item (Strings.join "," (as.map write) ++ close :: rest) =
      some (as, rest) := by
  have hread : List.Forall₂ (Reads Follows item) as (as.map write) := by
    rw [List.forall₂_map_right_iff, List.forall₂_same]
    exact hitem
  rw [join_eq_intercalate]
  refine reads_sequence (marks_char rfl rfl) hclose hne hread (fun t ht => ?_) rest
  obtain ⟨a, ha, rfl⟩ := List.mem_map.1 ht
  obtain ⟨c, s, hcs, hspace, hc⟩ := hfirst a ha
  exact ⟨c, s, hcs, hc, skipSpace_cons hspace⟩

theorem reads_jsonCompact (h : fits depth j) :
    Reads Follows (readValue parseFloat depth) j (jsonCompact showFloat j) := by
  induction depth generalizing j with
  | zero =>
    cases j with
    | null => rw [jsonCompact]; exact reads_null 0
    | bool b => rw [jsonCompact]; exact reads_bool 0 b
    | int n => rw [jsonCompact]; exact reads_int 0 n
    | str t => rw [jsonCompact]; exact reads_str 0 t
    | float x | arr items | obj fields => cases h
  | succ depth ih =>
    cases j with
    | null => rw [jsonCompact]; exact reads_null _
    | bool b => rw [jsonCompact]; exact reads_bool _ b
    | int n => rw [jsonCompact]; exact reads_int _ n
    | str t => rw [jsonCompact]; exact reads_str _ t
    | float x => cases h
    | arr items =>
      intro rest _
      have hfits : ∀ j ∈ items, fits depth j := List.all_eq_true.1 h
      have hitems := sequence_join (marks_char (c := ']') rfl rfl) (by decide)
        (fun j hj => ih (hfits j hj))
        (fun j hj => by
          obtain ⟨c, s, hcs, hspace, hc, -⟩ := exists_cons_jsonCompact (hfits j hj)
          exact ⟨c, s, hcs, hspace, hc⟩) rest
      rw [jsonCompact, jsonItems_eq, List.append_assoc, List.cons_append, List.singleton_append,
        readValue_arr, hitems]
      rfl
    | obj fields =>
      intro rest _
      have hfits : ∀ f ∈ fields, fits depth f.2 := List.all_eq_true.1 h
      have hfields := sequence_join (marks_char (c := '\x7d') rfl rfl) (by decide)
        (fun f hf => reads_field (ih (hfits f hf)) f.1)
        (fun f _ => ⟨'"', _, rfl, by decide⟩) rest
      rw [jsonCompact, jsonFields_eq, append_assoc, cons_append, singleton_append,
        readValue_obj, hfields]
      rfl

theorem readJson_jsonCompact (h : fits 10000 j) :
    readJson parseFloat (jsonCompact showFloat j) = some j := by
  have hread : readValue parseFloat 10000 (jsonCompact showFloat j ++ []) = some (j, []) :=
    reads_jsonCompact h [] (by simp [Follows])
  rw [append_nil] at hread
  rw [readJson, hread]
  rfl

end

end JsonText

end Kairos
