import Kairos.Go.JsonText

/-!
# The strings of the JSON writer

`writer.String` of `pkg/protocol/deliverprotocol/encode_writer.go`. It goes through the bytes with
two indexes, and copies the stretch between them when it comes to something that it escapes. So it
writes a piece for each rune (`loop_eq`).
-/

namespace Kairos.Protocol

open List JsonText

structure Writer where
  buffer : List UInt8
  noEscapeHTML : Bool

namespace Writer

def bytes (t : GoString) : List UInt8 := t.flatMap String.utf8EncodeChar

/-- `utf8.DecodeRuneInString`, with none for a `RuneError` of size one. -/
def decodeRune (s : List UInt8) : Option Char := s.toByteArray.utf8DecodeChar? 0

def safeSet (c : Char) : Bool := 0x20 ≤ c.toNat && c ≠ '"' && c ≠ '\\'

def htmlSafeSet (c : Char) : Bool := safeSet c && c ≠ '&' && c ≠ '<' && c ≠ '>'

def safe (escapeHTML : Bool) (c : Char) : Bool := htmlSafeSet c || (!escapeHTML && safeSet c)

/-- What is written for an ASCII character that is not safe. -/
def escape (c : Char) : GoString :=
  '\\' ::
    if c = '\\' ∨ c = '"' then [c]
    else if c = '\n' then ['n']
    else if c = '\r' then ['r']
    else if c = '\t' then ['t']
    else ['u', '0', '0', Nat.digitChar (c.toNat / 16), Nat.digitChar (c.toNat % 16)]

def replaced : GoString := ['\\', 'u', 'f', 'f', 'f', 'd']

def separator (c : Char) : GoString := ['\\', 'u', '2', '0', '2', Nat.digitChar (c.toNat % 16)]

/-- The buffer with `s[start:i]` behind it. -/
def copied (s : List UInt8) (start i : ℕ) (buf : List UInt8) : List UInt8 :=
  if start < i then buf ++ (s.take i).drop start else buf

def loop (escapeHTML : Bool) (s : List UInt8) (start i : ℕ) (buf : List UInt8) : List UInt8 :=
  if h : i < s.length then
    if s[i] < 0x80 then
      if safe escapeHTML (Char.ofUInt8 s[i]) then loop escapeHTML s start (i + 1) buf
      else
        loop escapeHTML s (i + 1) (i + 1)
          (copied s start i buf ++ bytes (escape (Char.ofUInt8 s[i])))
    else
      match decodeRune (s.drop i) with
      | none => loop escapeHTML s (i + 1) (i + 1) (copied s start i buf ++ bytes replaced)
      | some c =>
        have := c.utf8Size_pos
        if c.toNat = 0x2028 ∨ c.toNat = 0x2029 then
          loop escapeHTML s (i + c.utf8Size) (i + c.utf8Size)
            (copied s start i buf ++ bytes (separator c))
        else loop escapeHTML s start (i + c.utf8Size) buf
  else if start < s.length then buf ++ s.drop start
  else buf
termination_by s.length - i

/-- `String`. -/
def string (w : Writer) (s : List UInt8) : Writer :=
  { w with buffer := loop (!w.noEscapeHTML) s 0 0 (w.buffer ++ bytes ['"']) ++ bytes ['"'] }

/-! ## Runes -/

/-- The runes of a string, with none for each byte that begins no rune. -/
def runes (s : List UInt8) : List (Option Char) :=
  if _h : 0 < s.length then
    match decodeRune s with
    | some c =>
      have := c.utf8Size_pos
      some c :: runes (s.drop c.utf8Size)
    | none => none :: runes (s.drop 1)
  else []
termination_by s.length
decreasing_by all_goals simp; omega

/-- What is written for a rune. -/
def piece (escapeHTML : Bool) : Option Char → GoString
  | none => replaced
  | some c =>
    if c.toNat < 0x80 then if safe escapeHTML c then [c] else escape c
    else if c.toNat = 0x2028 ∨ c.toNat = 0x2029 then separator c
    else [c]

/-- How the reader takes a piece. -/
def unit (escapeHTML : Bool) : Option Char → Char ⊕ ℕ
  | none => .inr 0xfffd
  | some c => if escapeHTML = false ∧ (c = '<' ∨ c = '>' ∨ c = '&') then .inl c else unitOf c

variable {html : Bool} {s bs : List UInt8} {c : Char} {i start : ℕ}

theorem decodeRune_append (c : Char) (bs : List UInt8) :
    decodeRune (String.utf8EncodeChar c ++ bs) = some c := by
  rw [decodeRune, toByteArray_append, ← utf8Encode_singleton]
  exact utf8DecodeChar?_utf8Encode_singleton_append

theorem take_of_decodeRune (h : decodeRune s = some c) :
    s.take c.utf8Size = String.utf8EncodeChar c := by
  have hsplit := congrArg (fun b => b.data.toList) (ByteArray.eq_of_utf8DecodeChar?_eq_some h)
  simp only [ByteArray.data_append, Array.toList_append, toList_data_toByteArray] at hsplit
  rw [hsplit, take_append_of_le_length (String.length_utf8EncodeChar c).ge,
    take_of_length_le (String.length_utf8EncodeChar c).le]

theorem utf8EncodeChar_ofUInt8 {b : UInt8} (h : b < 0x80) :
    String.utf8EncodeChar (Char.ofUInt8 b) = [b] := by
  have hlt : b.toNat ≤ 0x7f := Nat.le_of_lt_succ h
  have hval : (Char.ofUInt8 b).val.toNat = b.toNat := rfl
  simp [String.utf8EncodeChar, hval, hlt]

theorem eq_ofUInt8_of_mem {b : UInt8} (hb : b ∈ String.utf8EncodeChar c) (h : b < 0x80) :
    c = Char.ofUInt8 b := by
  have hlt : b.toNat < 0x80 := h
  unfold String.utf8EncodeChar at hb
  simp only at hb
  split_ifs at hb with hascii
  · apply Char.ext
    apply UInt32.toNat.inj
    rw [mem_singleton.1 hb]
    have hval : (Char.ofUInt8 (UInt8.ofNat c.val.toNat)).val.toNat = c.val.toNat % 256 := rfl
    omega
  all_goals
    simp only [mem_cons, not_mem_nil, or_false] at hb
    rcases hb with rfl | rfl | rfl | rfl <;> simp at hlt <;> omega

theorem utf8Size_le_of_decodeRune (h : decodeRune s = some c) : c.utf8Size ≤ s.length := by
  have hlength := congrArg length (take_of_decodeRune h)
  rw [length_take, String.length_utf8EncodeChar] at hlength
  omega

theorem runes_of_decodeRune (h : decodeRune s = some c) :
    runes s = some c :: runes (s.drop c.utf8Size) := by
  rw [runes, dif_pos (c.utf8Size_pos.trans_le (utf8Size_le_of_decodeRune h)), h]

theorem decodeRune_ascii (h : i < s.length) (hb : s[i] < 0x80) :
    decodeRune (s.drop i) = some (Char.ofUInt8 s[i]) ∧ (Char.ofUInt8 s[i]).utf8Size = 1 := by
  have hencode := utf8EncodeChar_ofUInt8 hb
  constructor
  · rw [drop_eq_getElem_cons h, ← singleton_append, ← hencode, decodeRune_append]
  · rw [← String.length_utf8EncodeChar, hencode, length_singleton]

theorem le_of_decodeRune (h : i < s.length) (hb : ¬s[i] < 0x80)
    (hdecode : decodeRune (s.drop i) = some c) : 0x80 ≤ c.toNat := by
  by_contra hlt
  have hascii : c.val.toNat ≤ 0x7f := by
    have htoNat : c.toNat = c.val.toNat := rfl
    omega
  have htake := take_of_decodeRune hdecode
  rw [drop_eq_getElem_cons h, take_cons c.utf8Size_pos, String.utf8EncodeChar,
    if_pos hascii] at htake
  apply hb
  rw [(cons.inj htake).1, UInt8.lt_iff_toNat_lt, UInt8.toNat_ofNat']
  exact (Nat.mod_le ..).trans_lt (Nat.lt_succ_of_le hascii)

variable (html s) in
/-- What is still to be written, with the two indexes of the loop. -/
def rest (start i : ℕ) : List UInt8 :=
  (s.take i).drop start ++ bytes ((runes (s.drop i)).flatMap (piece html))

theorem rest_copied (hstart : start ≤ i) (hi : i ≤ s.length)
    (hdecode : decodeRune (s.drop i) = some c) (hpiece : piece html (some c) = [c]) :
    rest html s start (i + c.utf8Size) = rest html s start i := by
  have hslice : (s.take (i + c.utf8Size)).drop start =
      (s.take i).drop start ++ String.utf8EncodeChar c := by
    rw [take_add, drop_append_of_le_length (by rwa [length_take_of_le hi]),
      take_of_decodeRune hdecode]
  rw [rest, rest, hslice, runes_of_decodeRune hdecode, drop_drop, append_assoc, flatMap_cons,
    hpiece]
  simp [bytes]

theorem rest_escaped (hstart : start ≤ i) {r : Option Char} {k : ℕ}
    (hrunes : runes (s.drop i) = r :: runes (s.drop (i + k))) (buf : List UInt8) :
    copied s start i buf ++ bytes (piece html r) ++ rest html s (i + k) (i + k) =
      buf ++ rest html s start i := by
  have hcopied : copied s start i buf = buf ++ (s.take i).drop start := by
    unfold copied
    split_ifs with hlt
    · rfl
    · rw [drop_eq_nil_of_le ((length_take_le ..).trans (by omega)), append_nil]
  have hnil : (s.take (i + k)).drop (i + k) = [] := drop_eq_nil_of_le (length_take_le ..)
  rw [rest, rest, hcopied, hnil, hrunes]
  simp [bytes]

theorem loop_eq (hstart : start ≤ i) (hi : i ≤ s.length) (buf : List UInt8) :
    loop html s start i buf = buf ++ rest html s start i := by
  fun_induction loop html s start i buf with
  | case1 start i buf h hb hsafe ih =>
    obtain ⟨hdecode, hsize⟩ := decodeRune_ascii h hb
    have hcopied := rest_copied hstart hi hdecode ((if_pos hb).trans (if_pos hsafe))
    rw [hsize] at hcopied
    rw [ih (by omega) h, hcopied]
  | case2 start i buf h hb hsafe ih =>
    obtain ⟨hdecode, hsize⟩ := decodeRune_ascii h hb
    have hrunes := runes_of_decodeRune hdecode
    rw [hsize, drop_drop] at hrunes
    rw [ih le_rfl h, ← rest_escaped hstart hrunes, piece, if_pos (by exact hb), if_neg hsafe]
  | case3 start i buf h hb hnone ih =>
    have hrunes : runes (s.drop i) = none :: runes (s.drop (i + 1)) := by
      rw [runes, dif_pos (by rw [length_drop]; omega), hnone, drop_drop]
    rw [ih le_rfl h, ← rest_escaped hstart hrunes]
    rfl
  | case4 start i buf h hb c hsome hpos hsep ih =>
    have hsize := utf8Size_le_of_decodeRune hsome
    have hrunes := runes_of_decodeRune hsome
    rw [drop_drop] at hrunes
    rw [length_drop] at hsize
    rw [ih le_rfl (by omega), ← rest_escaped hstart hrunes, piece, if_neg (by omega), if_pos hsep]
  | case5 start i buf h hb c hsome hpos hsep ih =>
    have hsize := utf8Size_le_of_decodeRune hsome
    rw [length_drop] at hsize
    have hwide := le_of_decodeRune h hb hsome
    rw [ih (by omega) (by omega),
      rest_copied hstart hi hsome ((if_neg (by omega)).trans (if_neg hsep))]
  | case6 start i buf h hlt =>
    rw [rest, take_of_length_le (by omega), drop_eq_nil_of_le (by omega : s.length ≤ i)]
    simp [runes, bytes]
  | case7 start i buf h hlt =>
    rw [rest, take_of_length_le (by omega), drop_eq_nil_of_le (by omega : s.length ≤ i),
      drop_eq_nil_of_le (by omega : s.length ≤ start)]
    simp [runes, bytes]

/-- A piece is what `json.Marshal` writes, apart from the characters of HTML. -/
theorem piece_some (c : Char) : piece html (some c) =
    if html = false ∧ (c = '<' ∨ c = '>' ∨ c = '&') then [c] else jsonEscape c := by
  have hcodes : (c = '"' → c.toNat = 34) ∧ (c = '\\' → c.toNat = 92) ∧ (c = '\n' → c.toNat = 10) ∧
      (c = '\r' → c.toNat = 13) ∧ (c = '\t' → c.toNat = 9) ∧ (c = '<' → c.toNat = 60) ∧
      (c = '>' → c.toNat = 62) ∧ (c = '&' → c.toNat = 38) := by
    refine ⟨?_, ?_, ?_, ?_, ?_, ?_, ?_, ?_⟩ <;> rintro rfl <;> rfl
  have hjson : jsonEscape c = if c = '"' ∨ c = '\\' then ['\\', c] else if c = '\n' then ['\\', 'n']
      else if c = '\r' then ['\\', 'r'] else if c = '\t' then ['\\', 't']
      else if c.toNat < 0x20 ∨ c = '<' ∨ c = '>' ∨ c = '&' then
        ['\\', 'u', '0', '0', Nat.digitChar (c.toNat / 16), Nat.digitChar (c.toNat % 16)]
      else if c.toNat = 0x2028 ∨ c.toNat = 0x2029 then separator c else [c] := rfl
  rw [hjson]
  unfold piece escape safe htmlSafeSet safeSet
  grind

theorem readUnits_piece (r : Option Char) (t : GoString) :
    readUnits (piece html r ++ t) = (readUnits t).map (Prod.map (unit html r :: ·) id) := by
  match r with
  | none => rfl
  | some c =>
    rw [piece_some, unit]
    split_ifs with hraw
    · rcases hraw.2 with rfl | rfl | rfl <;> rfl
    · exact readUnits_jsonEscape c t

theorem joinUnits_unit (r : Option Char) (us : List (Char ⊕ ℕ)) :
    joinUnits (unit html r :: us) = r.getD (Char.ofNat 0xfffd) :: joinUnits us := by
  match r with
  | none => exact joinUnits_inr (.inr (by decide)) us
  | some c =>
    rw [unit]
    split_ifs with hraw
    · rfl
    · exact joinUnits_unitOf c us

/-! ## The literal -/

/-- The characters that may stand in a literal as they are. -/
def Plain (escapeHTML : Bool) (c : Char) : Prop :=
  0x20 ≤ c.toNat ∧ c.toNat ≠ 0x2028 ∧ c.toNat ≠ 0x2029 ∧
    (escapeHTML = true → c ≠ '<' ∧ c ≠ '>' ∧ c ≠ '&')

instance : Decidable (Plain html c) := inferInstanceAs (Decidable (_ ∧ _))

theorem plain_digitChar : ∀ html, ∀ d < 16, Plain html (Nat.digitChar d) := by decide

/-- What the escapes are made of, beside the digits of their numbers. -/
def escapeChars : GoString := ['\\', 'u', '0', '2', '"', 'n', 'r', 't', 'f', 'd']

theorem plain_of_mem_escapeChars (h : c ∈ escapeChars) : Plain html c := by
  have hall : ∀ html, (escapeChars.all fun c => Plain html c) = true := by decide
  exact of_decide_eq_true (all_eq_true.1 (hall html) c h)

theorem plain_of_mem_piece {r : Option Char} (h : c ∈ piece html r) : Plain html c := by
  -- what is neither copied nor a mark of an escape is a digit
  have hplain (d : Char) (hc : c ∈ escapeChars ∨ c = Nat.digitChar (d.toNat / 16) ∧ d.toNat < 0x80 ∨
      c = Nat.digitChar (d.toNat % 16)) : Plain html c := by
    rcases hc with hc | ⟨rfl, hlt⟩ | rfl
    · exact plain_of_mem_escapeChars hc
    · exact plain_digitChar html _ (by omega)
    · exact plain_digitChar html _ (Nat.mod_lt _ (by decide))
  simp only [escapeChars, mem_cons] at hplain
  match r with
  | none => exact hplain c (by grind [piece, replaced])
  | some d =>
    rw [piece] at h
    split_ifs at h with hascii hsafe hsep
    · rw [mem_singleton.1 h, Plain]
      grind [safe, htmlSafeSet, safeSet]
    · exact hplain d (by grind [escape])
    · exact hplain d (by grind [separator])
    · cases mem_singleton.1 h
      refine ⟨by omega, fun heq => hsep (.inl heq), fun heq => hsep (.inr heq), fun _ => ?_⟩
      refine ⟨?_, ?_, ?_⟩ <;> rintro rfl <;> exact hascii (by decide)

/-- `String` appends a literal that is read as the runes of the string, with the replacement
character for each byte that begins none. -/
theorem string_literal (w : Writer) (s : List UInt8) : ∃ lit : GoString,
    w.string s = { w with buffer := w.buffer ++ bytes ('"' :: lit) } ∧
    readString lit = some ((runes s).map (·.getD (Char.ofNat 0xfffd)), []) ∧
    (∀ b ∈ bytes ('"' :: lit), 0x20 ≤ b) ∧
    (w.noEscapeHTML = false →
      ∀ b ∈ bytes ('"' :: lit), b ≠ '<'.toUInt8 ∧ b ≠ '>'.toUInt8 ∧ b ≠ '&'.toUInt8) ∧
    Char.ofNat 0x2028 ∉ lit ∧ Char.ofNat 0x2029 ∉ lit := by
  obtain ⟨html, hhtml⟩ : ∃ html, html = !w.noEscapeHTML := ⟨_, rfl⟩
  obtain ⟨lit, hlit⟩ : ∃ lit, lit = (runes s).flatMap (piece html) ++ ['"'] := ⟨_, rfl⟩
  have hplain : ∀ c ∈ '"' :: lit, Plain html c := by
    intro c hc
    simp only [hlit, mem_cons, mem_append, mem_flatMap, not_mem_nil, or_false] at hc
    rcases hc with hc | ⟨r, -, hc⟩ | hc
    · exact plain_of_mem_escapeChars (by simp [hc, escapeChars])
    · exact plain_of_mem_piece hc
    · exact plain_of_mem_escapeChars (by simp [hc, escapeChars])
  have hbyte : ∀ b ∈ bytes ('"' :: lit), b < 0x80 → Plain html (Char.ofUInt8 b) := by
    intro b hb hlt
    obtain ⟨c, hc, hbc⟩ := mem_flatMap.1 hb
    exact eq_ofUInt8_of_mem hbc hlt ▸ hplain c hc
  refine ⟨lit, ?_, ?_, fun b hb => ?_, fun hno b hb => ?_, ?_, ?_⟩
  · rw [string, ← hhtml, loop_eq le_rfl (Nat.zero_le _), rest, hlit]
    simp [bytes]
  · rw [hlit]
    exact readString_pieces readUnits_piece joinUnits_unit _ _
  · by_cases hlt : b < 0x80
    · exact (hbyte b hb hlt).1
    · exact UInt8.le_trans (by decide) (UInt8.not_lt.1 hlt)
  · have hascii (hlt : b < 0x80) := (hbyte b hb hlt).2.2.2 (by rw [hhtml, hno]; rfl)
    refine ⟨?_, ?_, ?_⟩ <;> rintro rfl
    · exact (hascii (by decide)).1 rfl
    · exact (hascii (by decide)).2.1 rfl
    · exact (hascii (by decide)).2.2 rfl
  · exact fun hmem => (hplain _ (mem_cons_of_mem _ hmem)).2.1 rfl
  · exact fun hmem => (hplain _ (mem_cons_of_mem _ hmem)).2.2.1 rfl

end Writer

end Kairos.Protocol
