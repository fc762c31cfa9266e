import Epilykos.PlatformEnv.Parse
import Mathlib.Data.List.Induction

/-!
The generation is stored as text. `to_decimal` writes the one spelling of a number that
`decimal` accepts, so equal numbers are equal entries.
-/

namespace Epilykos.PlatformEnv

/-- `reverse` has room for 20 digits; the loop conses instead of reversing. -/
def digitsFrom : ℕ → ℕ → Bytes → Bytes
  | 0, _, acc => acc
  | room + 1, n, acc =>
    let acc := (48 + n % 10).toUInt8 :: acc
    if n / 10 = 0 then acc else digitsFrom room (n / 10) acc

def toDecimal (n : ℕ) : Bytes := digitsFrom 20 n []

private theorem toUInt8_digit {d : ℕ} (h : d < 10) :
    ((48 + d).toUInt8.toUInt32 - 48).toNat = d := by
  revert d
  decide

/-- Reading one more digit. -/
theorem decimalFrom_digit {n d : ℕ} (rest : Bytes) (hd : d < 10) (h : n * 10 + d ≤ uint64Max) :
    decimalFrom n ((48 + d).toUInt8 :: rest) = decimalFrom (n * 10 + d) rest := by
  simp only [decimalFrom, toUInt8_digit hd]
  rw [if_neg]
  simp only [uint64Max] at h ⊢
  omega

private theorem digitsFrom_spec (room n : ℕ) (acc : Bytes) (hroom : n < 10 ^ (room + 1))
    (hn : n ≤ uint64Max) :
    ∃ c cs, digitsFrom (room + 1) n acc = c :: cs ++ acc ∧ (c = 48 → cs = []) ∧
      ∀ rest, decimalFrom 0 (c :: cs ++ rest) = decimalFrom n rest := by
  induction room generalizing n acc with
  | zero =>
    have hd : n < 10 := by simpa using hroom
    refine ⟨(48 + n).toUInt8, [], ?_, fun _ => rfl, fun rest => ?_⟩
    · simp [digitsFrom, Nat.mod_eq_of_lt hd]
    · have h := decimalFrom_digit (n := 0) rest hd (by omega)
      simpa using h
  | succ room ih =>
    unfold digitsFrom
    by_cases hq : n / 10 = 0
    · have hd : n < 10 := by omega
      refine ⟨(48 + n).toUInt8, [], ?_, fun _ => rfl, fun rest => ?_⟩
      · simp [hq, Nat.mod_eq_of_lt hd]
      · have h := decimalFrom_digit (n := 0) rest hd (by omega)
        simpa using h
    · have hlt : n / 10 < 10 ^ (room + 1) := by
        rw [pow_succ] at hroom
        omega
      obtain ⟨c, cs, hdigits, hhead, hread⟩ :=
        ih (n / 10) ((48 + n % 10).toUInt8 :: acc) hlt (by omega)
      refine ⟨c, cs ++ [(48 + n % 10).toUInt8], ?_, fun hc => ?_, fun rest => ?_⟩
      · simp only [if_neg hq, hdigits]
        simp
      · -- a leading zero would make the digits before the last one read as 0
        have hcs := hhead hc
        subst hc hcs
        have hzero := hread []
        have hq' : decimalFrom 0 [48] = some 0 := by decide
        simp only [List.append_nil] at hzero
        rw [hq'] at hzero
        exact absurd (Option.some.inj hzero).symm hq
      · have hlast := decimalFrom_digit (n := n / 10) rest
          (Nat.mod_lt n (by omega : 0 < 10)) (by omega)
        have hdiv : n / 10 * 10 + n % 10 = n := by omega
        rw [hdiv] at hlast
        rw [← hlast, ← hread]
        simp

/-- `decimal` reads back what `to_decimal` writes. -/
theorem decimal_toDecimal {n : ℕ} (h : n ≤ uint64Max) : decimal (some (toDecimal n)) = some n := by
  obtain ⟨c, cs, hdigits, hhead, hread⟩ :=
    digitsFrom_spec 19 n [] (by simp only [uint64Max] at h; omega) h
  have hspec : toDecimal n = c :: cs := by simpa [toDecimal] using hdigits
  have hzero := hread []
  simp only [List.append_nil] at hzero
  rw [hspec, decimal, if_neg (fun hc => hc.2 (hhead hc.1)), hzero]
  rfl

theorem le_of_decimalFrom {n m : ℕ} {text : Bytes} (h : decimalFrom n text = some m) : n ≤ m := by
  induction text generalizing n with
  | nil => cases h; exact Nat.le_refl _
  | cons c cs ih =>
    simp only [decimalFrom] at h
    split_ifs at h with hd
    have := ih h
    omega

theorem decimalFrom_append (n : ℕ) (xs ys : Bytes) :
    decimalFrom n (xs ++ ys) = (decimalFrom n xs).bind (decimalFrom · ys) := by
  induction xs generalizing n with
  | nil => rfl
  | cons c cs ih =>
    simp only [List.cons_append, decimalFrom]
    split_ifs with hd
    · rfl
    · exact ih _

private theorem isPrintable_digit :
    ∀ c : UInt8, (c.toUInt32 - 48).toNat ≤ 9 → isPrintable c = true := by
  have h : ∀ n < 256, ((UInt8.ofNat n).toUInt32 - 48).toNat ≤ 9 →
      isPrintable (UInt8.ofNat n) = true := by decide +kernel
  intro c
  simpa using h c.toNat c.toNat_lt

theorem printable_of_decimalFrom {n m : ℕ} {text : Bytes} (h : decimalFrom n text = some m) :
    ∀ c ∈ text, isPrintable c = true := by
  induction text generalizing n with
  | nil => simp
  | cons c cs ih =>
    simp only [decimalFrom] at h
    split_ifs at h with hd
    intro x hx
    rcases List.mem_cons.mp hx with rfl | hx
    · exact isPrintable_digit x (by omega)
    · exact ih h x hx

private theorem digit_of_value (c : UInt8) : c = (48 + (c.toUInt32 - 48).toNat).toUInt8 := by
  have hb := c.toNat_lt
  apply UInt8.toNat_inj.mp
  rw [UInt32.toNat_sub]
  simp only [UInt8.toNat_toUInt32, UInt32.toNat_ofNat, Nat.toUInt8_eq, UInt8.toNat_ofNat']
  omega

private theorem decimalFrom_single {n m : ℕ} {c : UInt8} (h : decimalFrom n [c] = some m) :
    ∃ d, d < 10 ∧ c = (48 + d).toUInt8 ∧ m = n * 10 + d := by
  simp only [decimalFrom] at h
  split_ifs at h with hd
  simp only [not_or, not_lt] at hd
  exact ⟨_, Nat.lt_succ_of_le hd.1, digit_of_value c, (Option.some.inj h).symm⟩

theorem decimalFrom_le {n m : ℕ} {text : Bytes} (h : decimalFrom n text = some m)
    (hn : n ≤ uint64Max) : m ≤ uint64Max := by
  induction text generalizing n with
  | nil => cases h; exact hn
  | cons c cs ih =>
    simp only [decimalFrom] at h
    split_ifs at h with hd
    refine ih h ?_
    simp only [uint64Max] at hd ⊢
    omega

theorem decimal_le {text : Option Bytes} {n : ℕ} (h : decimal text = some n) : n ≤ uint64Max := by
  rcases text with _ | _ | ⟨c, cs⟩
  · cases h
  · cases h
  · simp only [decimal] at h
    split_ifs at h
    exact decimalFrom_le h (by simp [uint64Max])

/-- No leading zero. -/
private def Canonical (text : Bytes) : Prop :=
  text ≠ [] ∧ (text.head? = some 48 → text.length = 1)

private theorem Canonical.init {xs : Bytes} {c : UInt8} (h : Canonical (xs ++ [c]))
    (hne : xs ≠ []) : Canonical xs ∧ xs.head? ≠ some 48 := by
  obtain ⟨x, xs, rfl⟩ := List.exists_cons_of_ne_nil hne
  have hhead : x ≠ 48 := by
    rintro rfl
    have := h.2 rfl
    simp at this
  exact ⟨⟨by simp, fun hx => absurd (Option.some.inj hx) hhead⟩, fun hx => hhead (Option.some.inj hx)⟩

private theorem pos_of_canonical {xs : Bytes} {n : ℕ} (hne : xs ≠ []) (hhead : xs.head? ≠ some 48)
    (h : decimalFrom 0 xs = some n) : n ≠ 0 := by
  obtain ⟨x, xs, rfl⟩ := List.exists_cons_of_ne_nil hne
  simp only [decimalFrom] at h
  split_ifs at h with hd
  have hle := le_of_decimalFrom h
  intro hn
  have hzero : (x.toUInt32 - 48).toNat = 0 := by omega
  have hx := digit_of_value x
  rw [hzero] at hx
  exact hhead (by rw [hx]; rfl)

private theorem decimalFrom_snoc {xs : Bytes} {c : UInt8} {n : ℕ}
    (h : decimalFrom 0 (xs ++ [c]) = some n) :
    ∃ q d, decimalFrom 0 xs = some q ∧ d < 10 ∧ c = (48 + d).toUInt8 ∧ n = q * 10 + d := by
  rw [decimalFrom_append] at h
  obtain ⟨q, hq, hlast⟩ := Option.bind_eq_some_iff.mp h
  obtain ⟨d, hd, hc, hn⟩ := decimalFrom_single hlast
  exact ⟨q, d, hq, hd, hc, hn⟩

private theorem canonical_inj {xs ys : Bytes} {n : ℕ} (hx : Canonical xs) (hy : Canonical ys)
    (hxn : decimalFrom 0 xs = some n) (hyn : decimalFrom 0 ys = some n) : xs = ys := by
  induction xs using List.reverseRecOn generalizing ys n with
  | nil => exact absurd rfl hx.1
  | append_singleton xs c ih =>
    rcases List.eq_nil_or_concat' ys with rfl | ⟨ys, c', rfl⟩
    · exact absurd rfl hy.1
    obtain ⟨q, d, hq, hd, hc, hn⟩ := decimalFrom_snoc hxn
    obtain ⟨q', d', hq', hd', hc', hn'⟩ := decimalFrom_snoc hyn
    obtain rfl : q = q' := by omega
    obtain rfl : d = d' := by omega
    have hinit : xs = ys := by
      by_cases hxs : xs = []
      · subst hxs
        by_contra hys
        obtain ⟨_, hhead⟩ := hy.init (Ne.symm hys)
        exact pos_of_canonical (Ne.symm hys) hhead hq' (Option.some.inj hq).symm
      · obtain ⟨hcx, hheadx⟩ := hx.init hxs
        by_cases hys : ys = []
        · subst hys
          exact absurd (Option.some.inj hq').symm (pos_of_canonical hxs hheadx hq)
        · exact ih hcx (hy.init hys).1 hq hq'
    rw [hinit, hc, hc']

private theorem canonical_of_decimal {text : Bytes} {n : ℕ} (h : decimal (some text) = some n) :
    Canonical text ∧ decimalFrom 0 text = some n := by
  cases text with
  | nil => cases h
  | cons c cs =>
    simp only [decimal] at h
    split_ifs at h with hzero
    refine ⟨⟨by simp, fun hc => ?_⟩, h⟩
    have hc' : c = 48 := Option.some.inj hc
    simp only [not_and, not_not] at hzero
    simp [hzero hc']

/-- A number has one spelling. -/
theorem decimal_inj {s t : Bytes} {n : ℕ} (hs : decimal (some s) = some n)
    (ht : decimal (some t) = some n) : s = t :=
  canonical_inj (canonical_of_decimal hs).1 (canonical_of_decimal ht).1
    (canonical_of_decimal hs).2 (canonical_of_decimal ht).2

theorem printable_of_decimal {text : Bytes} {n : ℕ} (h : decimal (some text) = some n) :
    ∀ c ∈ text, isPrintable c = true :=
  printable_of_decimalFrom (canonical_of_decimal h).2

theorem digitsFrom_length (room n : ℕ) (acc : Bytes) :
    (digitsFrom room n acc).length ≤ room + acc.length := by
  induction room generalizing n acc with
  | zero => simp [digitsFrom]
  | succ room ih =>
    unfold digitsFrom
    split_ifs
    · simp only [List.length_cons]
      omega
    · refine (ih (n / 10) ((48 + n % 10).toUInt8 :: acc)).trans ?_
      simp only [List.length_cons]
      omega

/-- 20 digits hold every number the parser accepts. -/
theorem length_of_decimal {text : Bytes} {n : ℕ} (h : decimal (some text) = some n) :
    text.length ≤ 20 := by
  rw [decimal_inj h (decimal_toDecimal (decimal_le h))]
  exact digitsFrom_length 20 n []

theorem toDecimal_printable {n : ℕ} (h : n ≤ uint64Max) : ∀ c ∈ toDecimal n, isPrintable c = true :=
  printable_of_decimal (decimal_toDecimal h)

theorem toDecimal_nul_notMem {n : ℕ} (h : n ≤ uint64Max) : 0 ∉ toDecimal n :=
  fun hmem => absurd (toDecimal_printable h 0 hmem) (by decide)

end Epilykos.PlatformEnv
