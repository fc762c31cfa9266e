import Mathlib.Algebra.Group.Nat.Defs
import Mathlib.Data.List.Basic

/-!
Decoding UTF-8 with replacement: a byte that begins no character, and every part of a character
that is not continued, become one U+FFFD. The decoder is a machine that takes one byte a step,
so an ASCII byte ends whatever is under way and is read as itself.
-/

namespace Utf8

/-- A character under way: how many bytes it wants, its bits so far, and where the next byte
has to lie. -/
structure Pending where
  left : ℕ
  bits : ℕ
  low : ℕ
  high : ℕ

def replacement : Char := Char.ofNat 0xfffd

/-- A byte where no character is under way: what it gives and what it begins. -/
def first (n : ℕ) : List Char × Option Pending :=
  if n < 0x80 then ([Char.ofNat n], none)
  else if 0xc2 ≤ n ∧ n ≤ 0xdf then ([], some ⟨1, n - 0xc0, 0x80, 0xbf⟩)
  else if n = 0xe0 then ([], some ⟨2, 0, 0xa0, 0xbf⟩)
  else if n = 0xed then ([], some ⟨2, 0xd, 0x80, 0x9f⟩)
  else if 0xe1 ≤ n ∧ n ≤ 0xef then ([], some ⟨2, n - 0xe0, 0x80, 0xbf⟩)
  else if n = 0xf0 then ([], some ⟨3, 0, 0x90, 0xbf⟩)
  else if 0xf1 ≤ n ∧ n ≤ 0xf3 then ([], some ⟨3, n - 0xf0, 0x80, 0xbf⟩)
  else if n = 0xf4 then ([], some ⟨3, 4, 0x80, 0x8f⟩)
  else ([replacement], none)

def step (state : Option Pending) (n : ℕ) : List Char × Option Pending :=
  match state with
  | none => first n
  | some p =>
    if p.low ≤ n ∧ n ≤ p.high then
      let bits := p.bits * 64 + (n - 0x80)
      if p.left = 1 then ([Char.ofNat bits], none) else ([], some ⟨p.left - 1, bits, 0x80, 0xbf⟩)
    else (replacement :: (first n).1, (first n).2)

/-- What is left of a character that is not continued. -/
def flush : Option Pending → List Char
  | none => []
  | some _ => [replacement]

def decodeFrom (state : Option Pending) : List UInt8 → List Char
  | [] => flush state
  | b :: rest => (step state b.toNat).1 ++ decodeFrom (step state b.toNat).2 rest

def decodeReplace (data : List UInt8) : List Char := decodeFrom none data

example : decodeReplace [0xe2, 0x82, 0xac, 0x41, 0xe2, 0x82, 0x42, 0xff] =
    [Char.ofNat 0x20ac, 'A', replacement, 'B', replacement] := by
  decide +kernel

/-! ### ASCII -/

/-- The last `left` bytes of the encoding of a code. -/
def tails : ℕ → ℕ → List UInt8
  | 0, _ => []
  | left + 1, v => UInt8.ofNat (0x80 + v / 64 ^ left % 64) :: tails left v

/-- What has been seen begins the encoding of every character that the machine can still
read. -/
structure Begun (seen : List UInt8) (p : Pending) : Prop where
  left : 0 < p.left
  low : 0x80 ≤ p.low
  high : p.high ≤ 0xbf
  encodes : ∀ v, v / 64 ^ p.left = p.bits → p.low ≤ 0x80 + v / 64 ^ (p.left - 1) % 64 →
    0x80 + v / 64 ^ (p.left - 1) % 64 ≤ p.high →
      v.isValidChar ∧ String.utf8EncodeChar (Char.ofNat v) = seen ++ tails p.left v

theorem val_ofNat {v : ℕ} (h : v.isValidChar) : (Char.ofNat v).val.toNat = v := by
  rw [Char.ofNat, dif_pos h]
  rfl

theorem encode_one {v : ℕ} (hv : v.isValidChar) (h : v < 0x80) :
    String.utf8EncodeChar (Char.ofNat v) = [UInt8.ofNat v] := by
  simp only [String.utf8EncodeChar, val_ofNat hv]
  rw [if_pos (by omega)]

theorem byte_eq {b : UInt8} {n : ℕ} (h : n = b.toNat) : UInt8.ofNat n = b := by
  rw [h, UInt8.ofNat_toNat]

theorem Begun.last {seen : List UInt8} {p : Pending} (hp : Begun seen p) {b : UInt8}
    (hlow : p.low ≤ b.toNat) (hhigh : b.toNat ≤ p.high) (hleft : p.left = 1) :
    String.utf8EncodeChar (Char.ofNat (p.bits * 64 + (b.toNat - 0x80))) = seen ++ [b] := by
  have h1 := hp.low
  have h2 := hp.high
  have hall := (hp.encodes (p.bits * 64 + (b.toNat - 0x80)))
  rw [hleft] at hall
  simp only [Nat.pow_one, Nat.sub_self, Nat.pow_zero, Nat.div_one] at hall
  rw [(hall (by omega) (by omega) (by omega)).2, tails, tails]
  simp only [Nat.pow_zero, Nat.div_one]
  rw [byte_eq (b := b) (by omega)]

theorem Begun.next {seen : List UInt8} {p : Pending} (hp : Begun seen p) {b : UInt8}
    (hlow : p.low ≤ b.toNat) (hhigh : b.toNat ≤ p.high) (hleft : p.left ≠ 1) :
    Begun (seen ++ [b]) ⟨p.left - 1, p.bits * 64 + (b.toNat - 0x80), 0x80, 0xbf⟩ := by
  obtain ⟨left, hsucc⟩ : ∃ left, p.left = left + 2 :=
    ⟨p.left - 2, by have := hp.left; omega⟩
  have h1 := hp.low
  have h2 := hp.high
  refine ⟨by simp only [hsucc]; omega, Nat.le_refl _, Nat.le_refl _, ?_⟩
  intro v hbits _ _
  simp only [hsucc, show left + 2 - 1 = left + 1 by omega] at hbits ⊢
  have hall := hp.encodes v
  simp only [hsucc, show left + 2 - 1 = left + 1 by omega] at hall
  rw [Nat.pow_succ 64 (left + 1), ← Nat.div_div_eq_div_mul, hbits] at hall
  obtain ⟨hvalid, hencode⟩ := hall (by omega) (by omega) (by omega)
  refine ⟨hvalid, ?_⟩
  rw [hencode, tails, hbits, byte_eq (b := b) (by omega), List.append_assoc, List.singleton_append]

/-- `bytes.decode('utf-8')`, and a file opened as text. -/
def decode (data : List UInt8) : Option (List Char) :=
  (String.fromUTF8? ⟨data.toArray⟩).map String.toList

theorem decode_encode (text : List Char) :
    decode (text.flatMap String.utf8EncodeChar) = some text := by
  have hbytes : (⟨(text.flatMap String.utf8EncodeChar).toArray⟩ : ByteArray) =
      (String.ofList text).toByteArray := by
    rw [String.toByteArray_ofList, List.utf8Encode]
    exact (ByteArray.ext List.data_toByteArray).symm
  rw [decode, hbytes, String.fromUTF8?, dif_pos (String.ofList text).isValidUTF8]
  exact congrArg some String.toList_ofList

theorem decode_ascii {data : List UInt8} (h : ∀ b ∈ data, b.toNat < 0x80) :
    decode data = some (data.map fun b => Char.ofNat b.toNat) := by
  have hcodes : (data.map fun b => Char.ofNat b.toNat).flatMap String.utf8EncodeChar = data := by
    induction data with
    | nil => rfl
    | cons b data ih =>
      rw [List.forall_mem_cons] at h
      have hvalid : b.toNat.isValidChar := by
        unfold Nat.isValidChar
        omega
      rw [List.map_cons, List.flatMap_cons, ih h.2, encode_one hvalid h.1, UInt8.ofNat_toNat]
      rfl
  rw [← decode_encode, hcodes]

end Utf8
