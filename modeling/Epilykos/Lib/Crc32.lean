import Mathlib.Algebra.Group.Nat.Defs
import Mathlib.Data.List.Basic

/-!
The reflected 32-bit cyclic redundancy check a byte at a time, from a table of 256 words.
Shifting the remainder is linear in exclusive or, so eight shifts of it are the table's word
for its low byte and the rest moved down.
-/

namespace Crc32

variable (poly : UInt32)

/-- One bit of the remainder shifted out. -/
def shift (c : UInt32) : UInt32 := if c &&& 1 = 1 then poly ^^^ (c >>> 1) else c >>> 1

def shifts : ℕ → UInt32 → UInt32
  | 0, c => c
  | n + 1, c => shifts n (shift poly c)

def table : List UInt32 := (List.range 256).map fun n => shifts poly 8 (UInt32.ofNat n)

def update (c : UInt32) (byte : UInt8) : UInt32 :=
  (table poly).getD ((c ^^^ byte.toUInt32) &&& 0xff).toNat 0 ^^^ (c >>> 8)

def crc32 (data : List UInt8) : UInt32 := data.foldl (update poly) 0xffffffff ^^^ 0xffffffff

/-! ### Linearity -/

theorem and_one_iff (x : UInt32) : x &&& 1 = 1 ↔ x.toNat % 2 = 1 := by
  rw [← UInt32.toNat_inj, UInt32.toNat_and, UInt32.toNat_one, Nat.and_one_is_mod]

theorem xor_cancel (p x y : UInt32) : p ^^^ x ^^^ (p ^^^ y) = x ^^^ y := by
  rw [UInt32.xor_comm p x, UInt32.xor_assoc, ← UInt32.xor_assoc p p, UInt32.xor_self,
    UInt32.zero_xor]

theorem shift_xor (x y : UInt32) : shift poly (x ^^^ y) = shift poly x ^^^ shift poly y := by
  have hodd : (x ^^^ y) &&& 1 = 1 ↔ ¬ (x &&& 1 = 1 ↔ y &&& 1 = 1) := by
    rw [and_one_iff, and_one_iff, and_one_iff, UInt32.toNat_xor, Nat.xor_mod_two_eq_one]
  rw [shift, shift, shift, UInt32.shiftRight_xor]
  by_cases hx : x &&& 1 = 1
  · by_cases hy : y &&& 1 = 1
    · rw [if_neg (by simp [hodd, hx, hy]), if_pos hx, if_pos hy, xor_cancel]
    · rw [if_pos (by simp [hodd, hx, hy]), if_pos hx, if_neg hy, UInt32.xor_assoc]
  · by_cases hy : y &&& 1 = 1
    · rw [if_pos (by simp [hodd, hx, hy]), if_neg hx, if_pos hy]
      ac_rfl
    · rw [if_neg (by simp [hodd, hx, hy]), if_neg hx, if_neg hy]

theorem shifts_xor (n : ℕ) (x y : UInt32) :
    shifts poly n (x ^^^ y) = shifts poly n x ^^^ shifts poly n y := by
  induction n generalizing x y with
  | zero => rfl
  | succ n ih => rw [shifts, shifts, shifts, shift_xor, ih]

/-! ### A byte at a time -/

theorem toNat_shift_even {c : UInt32} (h : c.toNat % 2 = 0) :
    (shift poly c).toNat = c.toNat / 2 := by
  rw [shift, if_neg (by rw [and_one_iff]; omega), UInt32.toNat_shiftRight]
  rfl

/-- Clear low bits are only moved out. -/
theorem toNat_shifts_even (n : ℕ) {c : UInt32} (h : c.toNat % 2 ^ n = 0) :
    (shifts poly n c).toNat = c.toNat / 2 ^ n := by
  induction n generalizing c with
  | zero => simp [shifts]
  | succ n ih =>
    have heven : c.toNat % 2 = 0 := by
      rw [Nat.pow_succ] at h
      have := Nat.mod_mul_left_mod c.toNat (2 ^ n) 2
      omega
    have hhalf := toNat_shift_even poly heven
    rw [shifts, ih, hhalf, Nat.div_div_eq_div_mul, Nat.pow_succ, Nat.mul_comm]
    rw [hhalf]
    obtain ⟨k, hk⟩ := Nat.dvd_of_mod_eq_zero h
    rw [hk, Nat.pow_succ, Nat.mul_comm (2 ^ n) 2, Nat.mul_assoc, Nat.mul_div_cancel_left _ (by omega),
      Nat.mul_mod_right]

theorem toNat_low (x : UInt32) : (x &&& 0xff).toNat = x.toNat % 256 := by
  rw [UInt32.toNat_and]
  exact Nat.and_two_pow_sub_one_eq_mod x.toNat 8

/-- A word is its low byte and the rest. -/
theorem low_xor_high (x : UInt32) : (x &&& 0xff) ^^^ (x ^^^ (x &&& 0xff)) = x := by
  rw [UInt32.xor_comm x, ← UInt32.xor_assoc, UInt32.xor_self, UInt32.zero_xor]

theorem toNat_high (x : UInt32) : (x ^^^ (x &&& 0xff)).toNat % 2 ^ 8 = 0 := by
  rw [UInt32.toNat_xor, Nat.xor_mod_two_pow, toNat_low]
  change x.toNat % 256 ^^^ x.toNat % 256 % 256 = 0
  rw [Nat.mod_mod, Nat.xor_self]

theorem shiftRight_eight_eq_zero {x : UInt32} (h : x.toNat < 256) : x >>> 8 = 0 := by
  apply UInt32.toNat_inj.mp
  rw [UInt32.toNat_shiftRight]
  change x.toNat >>> 8 = 0
  rw [Nat.shiftRight_eq_div_pow]
  exact Nat.div_eq_of_lt h

theorem shifts_high (x : UInt32) : shifts poly 8 (x ^^^ (x &&& 0xff)) = x >>> 8 := by
  have hlow : (x &&& 0xff) >>> 8 = 0 := shiftRight_eight_eq_zero (by rw [toNat_low]; omega)
  have hshift : (x ^^^ (x &&& 0xff)) >>> 8 = x >>> 8 := by
    rw [UInt32.shiftRight_xor, hlow, UInt32.xor_zero]
  rw [← hshift]
  apply UInt32.toNat_inj.mp
  rw [toNat_shifts_even poly 8 (toNat_high x), UInt32.toNat_shiftRight]
  exact (Nat.shiftRight_eq_div_pow _ 8).symm

theorem table_getD {n : ℕ} (h : n < 256) :
    (table poly).getD n 0 = shifts poly 8 (UInt32.ofNat n) := by
  simp [table, h]

/-- One look into the table does the work of eight shifts. -/
theorem update_eq (c : UInt32) (byte : UInt8) :
    update poly c byte = shifts poly 8 (c ^^^ byte.toUInt32) := by
  have hbyte : byte.toUInt32 >>> 8 = 0 := shiftRight_eight_eq_zero byte.toNat_lt
  have hindex : ((c ^^^ byte.toUInt32) &&& 0xff).toNat < 256 := by
    rw [toNat_low]
    omega
  rw [update, table_getD poly hindex, UInt32.ofNat_toNat]
  conv_rhs => rw [← low_xor_high (c ^^^ byte.toUInt32)]
  rw [shifts_xor, shifts_high, UInt32.shiftRight_xor, hbyte, UInt32.xor_zero]

end Crc32
