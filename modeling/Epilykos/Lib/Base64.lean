import Mathlib.Data.List.Basic
import Epilykos.Lib.Text

/-!
Base64 with padding, as bytes to text and back. Decoding is strict: the alphabet, whole
groups of four and padding at the end only; the bits that padding leaves over may be any.
-/

namespace Base64

def alphabet : List Char :=
  "ABCDEFGHIJKLMNOPQRSTUVWXYZabcdefghijklmnopqrstuvwxyz0123456789+/".toList

def char (n : ℕ) : Char := alphabet.getD n 'A'

def digit (c : Char) : Option ℕ := alphabet.idxOf? c

def encode : List UInt8 → List Char
  | [] => []
  | [x] => [char (x.toNat / 4), char (x.toNat % 4 * 16), '=', '=']
  | [x, y] =>
    [char (x.toNat / 4), char (x.toNat % 4 * 16 + y.toNat / 16), char (y.toNat % 16 * 4), '=']
  | x :: y :: z :: rest =>
    char (x.toNat / 4) :: char (x.toNat % 4 * 16 + y.toNat / 16) ::
      char (y.toNat % 16 * 4 + z.toNat / 64) :: char (z.toNat % 64) :: encode rest

def byte (n : ℕ) : UInt8 := UInt8.ofNat n

/-- The last group, its fourth character being padding. -/
def decodeLast (a b c : Char) : Option (List UInt8) := do
  let a ← digit a
  let b ← digit b
  if c = '=' then return [byte (a * 4 + b / 16)]
  else
    let c ← digit c
    return [byte (a * 4 + b / 16), byte (b % 16 * 16 + c / 4)]

def decode : List Char → Option (List UInt8)
  | [] => some []
  | a :: b :: c :: d :: rest =>
    if d = '=' then (if rest = [] then decodeLast a b c else none)
    else do
      let a ← digit a
      let b ← digit b
      let c ← digit c
      let d ← digit d
      let rest ← decode rest
      return byte (a * 4 + b / 16) :: byte (b % 16 * 16 + c / 4) :: byte (c % 4 * 64 + d) :: rest
  | _ => none

theorem digit_char {n : ℕ} (h : n < 64) : digit (char n) = some n := by
  have hall : ∀ m : Fin 64, digit (char m) = some m.val := by decide +kernel
  exact hall ⟨n, h⟩

theorem char_ne_pad {n : ℕ} (h : n < 64) : char n ≠ '=' := by
  have hall : ∀ m : Fin 64, char m ≠ '=' := by decide +kernel
  exact hall ⟨n, h⟩

theorem char_not_space {n : ℕ} (h : n < 64) : Text.isSpace (char n) = false := by
  have hall : ∀ m : Fin 64, Text.isSpace (char m) = false := by decide +kernel
  exact hall ⟨n, h⟩

theorem byte_eq {x : UInt8} {n : ℕ} (h : n = x.toNat) : byte n = x := by
  subst h
  exact UInt8.ofNat_toNat

theorem decode_encode (bytes : List UInt8) : decode (encode bytes) = some bytes := by
  induction bytes using encode.induct with
  | case1 => rfl
  | case2 x =>
    have hx := x.toNat_lt
    have ha := digit_char (show x.toNat / 4 < 64 by omega)
    have hb := digit_char (show x.toNat % 4 * 16 < 64 by omega)
    have hbyte : byte (x.toNat / 4 * 4 + x.toNat % 4 * 16 / 16) = x := byte_eq (by omega)
    simp only [encode, decode, decodeLast, ha, hb, if_true, Option.bind_eq_bind, Option.bind_some,
      hbyte]
    rfl
  | case3 x y =>
    have hx := x.toNat_lt
    have hy := y.toNat_lt
    have ha := digit_char (show x.toNat / 4 < 64 by omega)
    have hb := digit_char (show x.toNat % 4 * 16 + y.toNat / 16 < 64 by omega)
    have hc := digit_char (show y.toNat % 16 * 4 < 64 by omega)
    have hpad := char_ne_pad (show y.toNat % 16 * 4 < 64 by omega)
    have hbyte : byte (x.toNat / 4 * 4 + (x.toNat % 4 * 16 + y.toNat / 16) / 16) = x :=
      byte_eq (by omega)
    have hbyte₁ : byte ((x.toNat % 4 * 16 + y.toNat / 16) % 16 * 16 + y.toNat % 16 * 4 / 4) = y :=
      byte_eq (by omega)
    simp only [encode, decode, decodeLast, ha, hb, hc, hpad, if_true, if_false,
      Option.bind_eq_bind, Option.bind_some, hbyte, hbyte₁]
    rfl
  | case4 x y z rest ih =>
    have hx := x.toNat_lt
    have hy := y.toNat_lt
    have hz := z.toNat_lt
    have ha := digit_char (show x.toNat / 4 < 64 by omega)
    have hb := digit_char (show x.toNat % 4 * 16 + y.toNat / 16 < 64 by omega)
    have hc := digit_char (show y.toNat % 16 * 4 + z.toNat / 64 < 64 by omega)
    have hd := digit_char (show z.toNat % 64 < 64 by omega)
    have hpad := char_ne_pad (show z.toNat % 64 < 64 by omega)
    have hbyte : byte (x.toNat / 4 * 4 + (x.toNat % 4 * 16 + y.toNat / 16) / 16) = x :=
      byte_eq (by omega)
    have hbyte₁ : byte ((x.toNat % 4 * 16 + y.toNat / 16) % 16 * 16 +
        (y.toNat % 16 * 4 + z.toNat / 64) / 4) = y := byte_eq (by omega)
    have hbyte₂ : byte ((y.toNat % 16 * 4 + z.toNat / 64) % 4 * 64 + z.toNat % 64) = z :=
      byte_eq (by omega)
    simp only [encode, decode, ha, hb, hc, hd, hpad, if_false, ih, Option.bind_eq_bind,
      Option.bind_some, hbyte, hbyte₁, hbyte₂]
    rfl

theorem encode_no_space (bytes : List UInt8) : ∀ c ∈ encode bytes, Text.isSpace c = false := by
  have hpad : Text.isSpace '=' = false := by decide +kernel
  induction bytes using encode.induct with
  | case1 => simp [encode]
  | case2 x =>
    have hx := x.toNat_lt
    simp [encode, hpad, char_not_space (show x.toNat / 4 < 64 by omega),
      char_not_space (show x.toNat % 4 * 16 < 64 by omega)]
  | case3 x y =>
    have hx := x.toNat_lt
    have hy := y.toNat_lt
    simp [encode, hpad, char_not_space (show x.toNat / 4 < 64 by omega),
      char_not_space (show x.toNat % 4 * 16 + y.toNat / 16 < 64 by omega),
      char_not_space (show y.toNat % 16 * 4 < 64 by omega)]
  | case4 x y z rest ih =>
    have hx := x.toNat_lt
    have hy := y.toNat_lt
    have hz := z.toNat_lt
    simp only [encode, List.mem_cons, forall_eq_or_imp,
      char_not_space (show x.toNat / 4 < 64 by omega),
      char_not_space (show x.toNat % 4 * 16 + y.toNat / 16 < 64 by omega),
      char_not_space (show y.toNat % 16 * 4 + z.toNat / 64 < 64 by omega),
      char_not_space (show z.toNat % 64 < 64 by omega), true_and]
    exact ih

theorem encode_ne_nil {bytes : List UInt8} (h : bytes ≠ []) : encode bytes ≠ [] := by
  fun_cases encode bytes <;> simp_all

example : encode [77, 97, 110, 77, 97] = "TWFuTWE=".toList := by decide +kernel

end Base64
