import Mathlib.Data.List.Basic

/-!
Reading numbers and texts out of bytes at offsets that the bytes themselves give. A reader of a
number fails past the end; a slice and a search never do.
-/

namespace Binary

/-- `raw[start:stop]`. -/
def slice (raw : List UInt8) (start stop : ℕ) : List UInt8 := (raw.take stop).drop start

def bigEndian (bytes : List UInt8) : ℕ := bytes.foldl (fun n b => n * 256 + b.toNat) 0

def littleEndian (bytes : List UInt8) : ℕ := bytes.foldr (fun b n => n * 256 + b.toNat) 0

/-- `raw.find(b'\0', start, stop)`. -/
def findNul (raw : List UInt8) (start stop : ℕ) : Option ℕ :=
  ((slice raw start stop).findIdx? (· == 0)).map (start + ·)

/-- The bytes of a number or of a table of numbers; `struct.error` is `none`. -/
def unpackFrom (raw : List UInt8) (offset size : ℕ) : Option (List UInt8) :=
  if offset + size ≤ raw.length then some (slice raw offset (offset + size)) else none

/-- A text with its NUL, at an offset and before a bound. -/
def TextAt (raw : List UInt8) (start stop : ℕ) (text : List UInt8) : Prop :=
  0 ∉ text ∧ start + text.length + 1 ≤ stop ∧ start + text.length + 1 ≤ raw.length ∧
    slice raw start (start + text.length + 1) = text ++ [0]

theorem length_slice (raw : List UInt8) (start stop : ℕ) :
    (slice raw start stop).length = min stop raw.length - start := by
  rw [slice, List.length_drop, List.length_take]

theorem slice_slice (raw : List UInt8) (start stop size : ℕ) (h : start + size ≤ stop) :
    (slice raw start stop).take size = slice raw start (start + size) := by
  rw [slice, slice, List.take_drop, List.take_take, Nat.min_eq_left h]

/-- The first NUL of a range ends a text there. -/
theorem findNul_some {raw : List UInt8} {start stop i : ℕ} (h : findNul raw start stop = some i) :
    start ≤ i ∧ start + (slice raw start i).length = i ∧
      TextAt raw start stop (slice raw start i) := by
  obtain ⟨k, hk, rfl⟩ := Option.map_eq_some_iff.mp h
  obtain ⟨hk, hnul, hbefore⟩ := List.findIdx?_eq_some_iff_getElem.mp hk
  have hk' := hk
  rw [length_slice] at hk'
  have htext : slice raw start (start + k) = (slice raw start stop).take k :=
    (slice_slice raw start stop k (by omega)).symm
  have hlength : (slice raw start (start + k)).length = k := by
    rw [htext, List.length_take]
    omega
  refine ⟨Nat.le_add_right start k, by rw [hlength], ?_, by omega, by omega, ?_⟩
  · rw [htext]
    intro hmem
    obtain ⟨j, hj, hzero⟩ := List.mem_iff_getElem.mp hmem
    rw [List.length_take] at hj
    rw [List.getElem_take] at hzero
    exact hbefore j (by omega) (by simp [hzero])
  · rw [hlength, Nat.add_assoc, ← slice_slice raw start stop (k + 1) (by omega), htext,
      List.take_add_one, List.getElem?_eq_getElem hk, beq_iff_eq.mp hnul]
    rfl

theorem findNul_lt {raw : List UInt8} {start stop i : ℕ} (h : findNul raw start stop = some i) :
    i < stop := by
  obtain ⟨-, hlength, -, hstop, -⟩ := findNul_some h
  omega

theorem unpackFrom_eq {raw : List UInt8} {offset size : ℕ} (h : offset + size ≤ raw.length) :
    unpackFrom raw offset size = some (slice raw offset (offset + size)) :=
  if_pos h

end Binary
