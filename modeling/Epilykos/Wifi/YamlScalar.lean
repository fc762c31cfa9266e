import Epilykos.Wifi.Improv

/-!
The scalars of a network-config. Raspberry Pi Imager writes the name of a network in double
quotes: literally where it is UTF-8, otherwise with one escape for each byte. The reader tells
the two apart by what is left when the escapes are code points.
-/

namespace Epilykos.Wifi

open PlatformEnv (Bytes)

/-- The code points of a string; a lone surrogate is one. -/
abbrev Codes := List ℕ

def codes (text : List Char) : Codes := text.map Char.toNat

def isSpaceCode (n : ℕ) : Bool :=
  (9 ≤ n && n ≤ 13) || (28 ≤ n && n ≤ 32) || n == 0x85 || n == 0xa0 || n == 0x1680 ||
    (0x2000 ≤ n && n ≤ 0x200a) || n == 0x2028 || n == 0x2029 || n == 0x202f || n == 0x205f ||
    n == 0x3000

/-- `str.strip()` -/
def stripCodes (text : Codes) : Codes :=
  ((text.dropWhile isSpaceCode).reverse.dropWhile isSpaceCode).reverse

/-! ### Numbers -/

/-- The zeros of the decimal digits of Unicode. -/
def decimalZeros : List ℕ := [
  0x30, 0x660, 0x6f0, 0x7c0, 0x966, 0x9e6, 0xa66, 0xae6, 0xb66, 0xbe6, 0xc66, 0xce6, 0xd66, 0xde6,
  0xe50, 0xed0, 0xf20, 0x1040, 0x1090, 0x17e0, 0x1810, 0x1946, 0x19d0, 0x1a80, 0x1a90, 0x1b50,
  0x1bb0, 0x1c40, 0x1c50, 0xa620, 0xa8d0, 0xa900, 0xa9d0, 0xa9f0, 0xaa50, 0xabf0, 0xff10, 0x104a0,
  0x10d30, 0x10d40, 0x11066, 0x110f0, 0x11136, 0x111d0, 0x112f0, 0x11450, 0x114d0, 0x11650,
  0x116c0, 0x116d0, 0x116da, 0x11730, 0x118e0, 0x11950, 0x11bf0, 0x11c50, 0x11d50, 0x11da0,
  0x11f50, 0x16a60, 0x16ac0, 0x16b50, 0x16d70, 0x1ccf0, 0x1d7ce, 0x1d7d8, 0x1d7e2, 0x1d7ec,
  0x1d7f6, 0x1e140, 0x1e2f0, 0x1e4f0, 0x1e5f1, 0x1e950, 0x1fbf0]

def digit16 (c : ℕ) : Option ℕ :=
  if 97 ≤ c ∧ c ≤ 102 then some (c - 87)
  else if 65 ≤ c ∧ c ≤ 70 then some (c - 55)
  else (decimalZeros.find? fun z => z ≤ c && c < z + 10).map fun z => c - z

/-- The digits after the first; one underscore may stand between two. -/
def readDigits (value : ℕ) : Codes → Option ℕ
  | [] => some value
  | 95 :: c :: rest => do readDigits (value * 16 + (← digit16 c)) rest
  | c :: rest => do readDigits (value * 16 + (← digit16 c)) rest

/-- `int(text, 16)`: white space around it, a sign, `0x`. -/
def intBase16 (text : Codes) : Option ℤ := do
  let (negative, text) := match stripCodes text with
    | 43 :: rest => (false, rest)
    | 45 :: rest => (true, rest)
    | text => (false, text)
  let text := match text with
    | 48 :: x :: 95 :: rest => if x = 120 ∨ x = 88 then rest else text
    | 48 :: x :: rest => if x = 120 ∨ x = 88 then rest else text
    | text => text
  match text with
  | [] => none
  | c :: rest =>
    let value ← readDigits (← digit16 c) rest
    return if negative then -(value : ℤ) else value

/-! ### The scalar -/

/-- _YAML_ESCAPES. -/
def yamlEscapes : List (ℕ × ℕ) := [
  (48, 0), (97, 7), (98, 8), (116, 9), (9, 9), (110, 10), (118, 11), (102, 12), (114, 13),
  (101, 0x1b), (32, 32), (34, 34), (47, 47), (92, 92), (78, 0x85), (95, 0xa0)]

/-- How many digits follow `\x`, `\u` and `\U`. -/
def escapeWidth (e : ℕ) : Option ℕ :=
  if e = 120 then some 2 else if e = 117 then some 4 else if e = 85 then some 8 else none

/-- `chr(code)` -/
def chr (code : ℤ) : Except Exn ℕ :=
  if 0 ≤ code ∧ code < 0x110000 then .ok code.toNat else .error .value

/-- What stands in double quotes, and whether a `\x` was over 0x7f. The empty string behind a
last backslash is in 'xuU' and has no width. -/
def unquoteFrom (s : Codes) : Except Exn (Codes × Bool) :=
  match s with
  | [] => .ok ([], false)
  | c :: rest =>
    if c ≠ 92 then do
      let (text, high) ← unquoteFrom rest
      return (c :: text, high)
    else match rest with
      | [] => .error .key
      | e :: rest =>
        match yamlEscapes.lookup e with
        | some d => do
          let (text, high) ← unquoteFrom rest
          return (d :: text, high)
        | none =>
          match escapeWidth e with
          | none => .error (.wifi "unsupported escape in network-config")
          | some n =>
            match intBase16 (rest.take n) with
            | none => .error (.wifi "unreadable escape in network-config")
            | some code => do
              let d ← chr code
              let (text, high) ← unquoteFrom (rest.drop n)
              return (d :: text, (e = 120 ∧ 0x80 ≤ code) || high)
termination_by s.length
decreasing_by
  all_goals simp_all
  all_goals omega

/-- `str.encode('utf-8')` -/
def encodeUtf8 (text : Codes) : Except Exn Bytes :=
  if text.any fun n => 0xd800 ≤ n && n < 0xe000 then .error .unicode
  else .ok (text.flatMap fun n => String.utf8EncodeChar (Char.ofNat n))

/-- A pair of single quotes is one. -/
def singleQuotes : Codes → Codes
  | 39 :: 39 :: rest => 39 :: singleQuotes rest
  | c :: rest => c :: singleQuotes rest
  | [] => []

/-- What stands before a comment. -/
def beforeComment : Codes → Codes
  | 32 :: 35 :: _ => []
  | c :: rest => c :: beforeComment rest
  | [] => []

/-- The value stands between two of the quotes. -/
def isQuoted (quote : ℕ) (value : Codes) : Bool :=
  value.head? = some quote && value.getLast? = some quote && 2 ≤ value.length

/-- A scalar (double-quoted, single-quoted or plain) as bytes. -/
def yamlScalar (value : Codes) : Except Exn Bytes :=
  let value := stripCodes value
  if isQuoted 34 value then do
    let s := value.tail.dropLast
    let (text, high) ← unquoteFrom s
    let raw := text.map UInt8.ofNat
    if high ∧ (∀ c ∈ s, c < 0x80) ∧ (∀ c ∈ text, c < 0x100) ∧ decodeUtf8 raw = none then
      return raw
    encodeUtf8 text
  else if isQuoted 39 value then encodeUtf8 (singleQuotes value.tail.dropLast)
  else encodeUtf8 (stripCodes (beforeComment value))

/-! ### What Raspberry Pi Imager writes -/

def quoteChar (c : Char) : List Char := if c = '\\' ∨ c = '"' then ['\\', c] else [c]

def hexCode (upper : Bool) (n : ℕ) : ℕ :=
  if n < 10 then 48 + n else if upper then 55 + n else 87 + n

def hexEscape (upper : Bool) (b : UInt8) : Codes :=
  [92, 120, hexCode upper (b.toNat / 16), hexCode upper (b.toNat % 16)]

/-- The name of a network in double quotes: literally where it is UTF-8, otherwise byte by
byte. -/
def imagerScalar (upper : Bool) (ssid : Bytes) : Codes :=
  34 :: (match decodeUtf8 ssid with
    | some text => codes (text.flatMap quoteChar)
    | none => ssid.flatMap (hexEscape upper)) ++ [34]

theorem unquote_plain {c : ℕ} (h : c ≠ 92) {rest text : Codes} {high : Bool}
    (hrest : unquoteFrom rest = .ok (text, high)) :
    unquoteFrom (c :: rest) = .ok (c :: text, high) := by
  rw [unquoteFrom.eq_def]
  simp only [if_pos h, hrest]
  rfl

theorem unquote_escape {e d : ℕ} (h : yamlEscapes.lookup e = some d) {rest text : Codes}
    {high : Bool} (hrest : unquoteFrom rest = .ok (text, high)) :
    unquoteFrom (92 :: e :: rest) = .ok (d :: text, high) := by
  rw [unquoteFrom, if_neg (by decide)]
  simp only [h]
  rw [hrest]
  rfl

/-- Two digits in a `\x` are a byte. -/
theorem intBase16_byte (upper : Bool) : ∀ i < 16, ∀ j < 16,
    intBase16 [hexCode upper i, hexCode upper j] = some ((16 * i + j : ℕ) : ℤ) := by
  cases upper <;> decide +kernel

theorem unquote_hexEscape (upper : Bool) (b : UInt8) {rest text : Codes} {high : Bool}
    (hrest : unquoteFrom rest = .ok (text, high)) :
    unquoteFrom (hexEscape upper b ++ rest) = .ok (b.toNat :: text, decide (0x80 ≤ b.toNat) || high) := by
  have hlt := b.toNat_lt
  have hint := intBase16_byte upper (b.toNat / 16) (by omega) (b.toNat % 16) (by omega)
  rw [Nat.div_add_mod] at hint
  have hchr : chr (b.toNat : ℤ) = .ok b.toNat := by
    rw [chr, if_pos (by omega)]
    rfl
  have hx : yamlEscapes.lookup 120 = none := by decide
  rw [hexEscape, List.cons_append, List.cons_append, unquoteFrom, if_neg (by decide)]
  simp only [hx, escapeWidth, if_true, List.cons_append, List.nil_append, List.take_succ_cons,
    List.take_zero, List.drop_succ_cons, List.drop_zero, hint, hchr, hrest]
  have hhigh : (0x80 : ℤ) ≤ (b.toNat : ℤ) ↔ 0x80 ≤ b.toNat := by omega
  simp only [bind, Except.bind, pure, Except.pure, hhigh, true_and]

theorem unquote_hexEscapes (upper : Bool) (ssid : Bytes) :
    unquoteFrom (ssid.flatMap (hexEscape upper)) =
      .ok (ssid.map UInt8.toNat, ssid.any fun b => 0x80 ≤ b.toNat) := by
  induction ssid with
  | nil =>
    rw [List.flatMap_nil, unquoteFrom]
    rfl
  | cons b ssid ih =>
    rw [List.flatMap_cons, unquote_hexEscape upper b ih]
    rfl

theorem unquote_quoteChars (text : List Char) :
    unquoteFrom (codes (text.flatMap quoteChar)) = .ok (codes text, false) := by
  induction text with
  | nil =>
    rw [List.flatMap_nil, codes, List.map_nil, unquoteFrom]
  | cons c text ih =>
    rw [codes] at ih
    rw [List.flatMap_cons, codes, List.map_append, codes, List.map_cons]
    by_cases hc : c = '\\' ∨ c = '"'
    · rw [quoteChar, if_pos hc]
      rcases hc with rfl | rfl
      · exact unquote_escape (by decide) ih
      · exact unquote_escape (by decide) ih
    · rw [quoteChar, if_neg hc]
      rw [not_or] at hc
      have hcode : c.toNat ≠ 92 := fun heq => hc.1 (Char.toNat_inj.mp heq)
      exact unquote_plain hcode ih

/-! ### Bytes and text -/

theorem decodeUtf8_some {data : Bytes} {text : List Char} (h : decodeUtf8 data = some text) :
    text.flatMap String.utf8EncodeChar = data := by
  rw [decodeUtf8, Option.map_eq_some_iff] at h
  obtain ⟨s, hs, rfl⟩ := h
  rw [String.fromUTF8?] at hs
  split_ifs at hs with hvalid
  have hbytes : s.toByteArray = ⟨data.toArray⟩ := by
    rw [← Option.some.inj hs]
    rfl
  have hcodes := String.utf8Encode_toList (b := s)
  rw [hbytes, List.utf8Encode] at hcodes
  have hlists := congrArg (fun bytes => bytes.data.toList) hcodes
  simpa using hlists

theorem encodeUtf8_codes (text : List Char) :
    encodeUtf8 (codes text) = .ok (text.flatMap String.utf8EncodeChar) := by
  have hnone : (codes text).any (fun n => 0xd800 ≤ n && n < 0xe000) = false := by
    rw [List.any_eq_false]
    intro n hn
    obtain ⟨c, _, rfl⟩ := List.mem_map.mp hn
    have hvalid : c.toNat < 0xd800 ∨ 0xdfff < c.toNat ∧ c.toNat < 0x110000 := c.valid
    simp only [Bool.and_eq_true, decide_eq_true_eq, not_and, not_lt]
    omega
  rw [encodeUtf8, if_neg (by simp [hnone]), codes, List.flatMap_map]
  simp only [Char.ofNat_toNat]

theorem decodeUtf8_ascii {data : Bytes} (h : ∀ b ∈ data, b.toNat < 0x80) :
    decodeUtf8 data ≠ none := by
  have hbyte : ∀ n < 0x80, String.utf8EncodeChar (Char.ofNat n) = [UInt8.ofNat n] := by
    decide +kernel
  have hcodes : (data.map fun b => Char.ofNat b.toNat).flatMap String.utf8EncodeChar = data := by
    induction data with
    | nil => rfl
    | cons b data ih =>
      rw [List.map_cons, List.flatMap_cons, ih fun d hd => h d (.tail _ hd),
        hbyte _ (h b (.head _)), UInt8.ofNat_toNat]
      rfl
  have hvalid : ByteArray.IsValidUTF8 ⟨data.toArray⟩ := by
    refine ⟨data.map fun b => Char.ofNat b.toNat, ?_⟩
    rw [List.utf8Encode, hcodes]
    exact (ByteArray.ext List.data_toByteArray).symm
  rw [decodeUtf8, String.fromUTF8?, dif_pos hvalid]
  exact Option.some_ne_none _

/-- The bytes of a double-quoted scalar. -/
theorem yamlScalar_quoted {inner text : Codes} {high : Bool}
    (h : unquoteFrom inner = .ok (text, high)) :
    yamlScalar (34 :: inner ++ [34]) =
      if high ∧ (∀ c ∈ inner, c < 0x80) ∧ (∀ c ∈ text, c < 0x100) ∧
        decodeUtf8 (text.map UInt8.ofNat) = none then .ok (text.map UInt8.ofNat)
      else encodeUtf8 text := by
  have hquote : isSpaceCode 34 = false := by decide
  have hstrip : stripCodes (34 :: inner ++ [34]) = 34 :: inner ++ [34] := by
    rw [stripCodes, List.cons_append, List.dropWhile_cons_of_neg (by simp [hquote]),
      ← List.cons_append, List.reverse_append, List.reverse_singleton, List.singleton_append,
      List.dropWhile_cons_of_neg (by simp [hquote]), ← List.singleton_append,
      List.reverse_append, List.reverse_reverse, List.reverse_singleton]
  have hquoted : isQuoted 34 (34 :: inner ++ [34]) = true := by
    rw [isQuoted, List.getLast?_concat]
    simp
  have hinner : (34 :: inner ++ [34]).tail.dropLast = inner := by
    rw [List.cons_append, List.tail_cons, List.dropLast_concat]
  rw [yamlScalar]
  simp only [hstrip, hquoted, hinner, h, if_true]
  split_ifs <;> simp_all [bind, Except.bind, pure, Except.pure]

/-- Whatever bytes a network is named by, they are read back from what Imager writes. -/
theorem yamlScalar_imagerScalar (upper : Bool) (ssid : Bytes) :
    yamlScalar (imagerScalar upper ssid) = .ok ssid := by
  rw [imagerScalar]
  cases htext : decodeUtf8 ssid with
  | some text =>
    simp only
    rw [yamlScalar_quoted (unquote_quoteChars text), if_neg (fun h => absurd h.1 (by decide)),
      encodeUtf8_codes, decodeUtf8_some htext]
  | none =>
    have hback : (ssid.map UInt8.toNat).map UInt8.ofNat = ssid := by
      rw [List.map_map]
      exact (List.map_congr_left fun b _ => UInt8.ofNat_toNat).trans (List.map_id _)
    have hhigh : (ssid.any fun b => 0x80 ≤ b.toNat) = true := by
      by_contra hnone
      refine decodeUtf8_ascii (fun b hb => ?_) htext
      have hlow := List.any_eq_false.mp (Bool.eq_false_iff.mpr hnone) b hb
      simpa using hlow
    have hascii : ∀ c ∈ ssid.flatMap (hexEscape upper), c < 0x80 := by
      have hdigit : ∀ i < 16, hexCode upper i < 0x80 := by cases upper <;> decide
      intro c hc
      obtain ⟨b, _, hc⟩ := List.mem_flatMap.mp hc
      have hlt := b.toNat_lt
      simp only [hexEscape, List.mem_cons, List.not_mem_nil, or_false] at hc
      rcases hc with rfl | rfl | rfl | rfl
      · decide
      · decide
      · exact hdigit _ (by omega)
      · exact hdigit _ (by omega)
    have hbytes : ∀ c ∈ ssid.map UInt8.toNat, c < 0x100 := by
      intro c hc
      obtain ⟨b, _, rfl⟩ := List.mem_map.mp hc
      exact b.toNat_lt
    simp only
    rw [yamlScalar_quoted (unquote_hexEscapes upper ssid), hback,
      if_pos ⟨hhigh, hascii, hbytes, htext⟩]

end Epilykos.Wifi
