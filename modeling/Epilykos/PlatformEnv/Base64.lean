import Epilykos.OsUpdate.Trust
import Epilykos.PlatformEnv.Build

/-!
What `b64_size` counts. It takes the encodings with the standard alphabet, whole groups of
four characters and nothing in the unused bits, each of them with the number of the bytes it
was made from, and no other text.
-/

namespace Epilykos.PlatformEnv

open OsUpdate (b64Char b64Encode b64Decode)

/-! ### Characters -/

theorem b64Digit_char {n : ℕ} (h : n < 64) : b64Digit (b64Char n) = some n := by
  revert n
  decide

theorem b64Char_digit {c : UInt8} {n : ℕ} (h : b64Digit c = some n) : n < 64 ∧ b64Char n = c := by
  have hall : ∀ m < 256, ∀ k ∈ b64Digit (UInt8.ofNat m), k < 64 ∧ b64Char k = UInt8.ofNat m := by
    decide +kernel
  have hc := hall c.toNat c.toNat_lt n
  rw [UInt8.ofNat_toNat] at hc
  exact hc h

theorem isPrintable_b64 {n : ℕ} (h : n < 64) : isPrintable (b64Char n) = true := by
  revert n
  decide

theorem digit_ne_pad {c : UInt8} (h : (b64Digit c).isSome) : c ≠ 61 := by
  rintro rfl
  cases h

/-! ### Groups of four -/

/-- The last four characters of an encoding that is padded, by the number of bytes. -/
inductive Last : ℕ → Bytes → Prop
  | none : Last 0 []
  | one {p q : UInt8} {n : ℕ} : (b64Digit p).isSome → b64Digit q = some n → n &&& 15 = 0 →
      Last 1 [p, q, 61, 61]
  | two {p q r : UInt8} {n : ℕ} : (b64Digit p).isSome → (b64Digit q).isSome →
      b64Digit r = some n → n &&& 3 = 0 → Last 2 [p, q, r, 61]

theorem b64Encode_parts (raw : Bytes) : ∃ body last, b64Encode raw = body ++ last ∧
    (∀ c ∈ body, (b64Digit c).isSome) ∧ body.length = 4 * (raw.length / 3) ∧
    Last (raw.length % 3) last := by
  fun_induction b64Encode raw with
  | case1 => exact ⟨[], [], rfl, by simp, rfl, .none⟩
  | case2 x =>
    have hx := x.toNat_lt
    refine ⟨[], _, rfl, by simp, by simp, .one ?_ (b64Digit_char (by omega)) ?_⟩
    · rw [b64Digit_char (by omega)]
      rfl
    · have hmod : x.toNat % 4 < 4 := Nat.mod_lt _ (by omega)
      generalize x.toNat % 4 = m at hmod
      revert m
      decide
  | case3 x y =>
    have hx := x.toNat_lt
    have hy := y.toNat_lt
    refine ⟨[], _, rfl, by simp, by simp, .two ?_ ?_ (b64Digit_char (by omega)) ?_⟩
    · rw [b64Digit_char (by omega)]
      rfl
    · rw [b64Digit_char (by omega)]
      rfl
    · have hmod : y.toNat % 16 < 16 := Nat.mod_lt _ (by omega)
      generalize y.toNat % 16 = m at hmod
      revert m
      decide
  | case4 x y z rest ih =>
    have hx := x.toNat_lt
    have hy := y.toNat_lt
    have hz := z.toNat_lt
    obtain ⟨body, last, heq, hbody, hlength, hlast⟩ := ih
    refine ⟨_ :: _ :: _ :: _ :: body, last, by rw [heq]; rfl, ?_, ?_, ?_⟩
    · simp only [List.mem_cons, forall_eq_or_imp]
      refine ⟨?_, ?_, ?_, ?_, hbody⟩
      all_goals
        rw [b64Digit_char (by omega)]
        rfl
    · simp only [List.length_cons]
      omega
    · have hmod : (x :: y :: z :: rest).length % 3 = rest.length % 3 := by
        simp only [List.length_cons]
        omega
      rw [hmod]
      exact hlast

/-- The size by the last group and what comes before it. -/
theorem b64Size_groups {body : Bytes} (p q r s : UInt8) (h : body.length % 4 = 0) :
    b64Size (some (body ++ [p, q, r, s])) =
      let padding := (if s = 61 then 1 else 0) + if r = 61 then 1 else 0
      if (body ++ [p, q, r, s].take (4 - padding)).any fun c => (b64Digit c).isNone then 0
      else if padding = 2 ∧ (b64Digit q).getD 0 &&& 15 ≠ 0 then 0
      else if padding = 1 ∧ (b64Digit r).getD 0 &&& 3 ≠ 0 then 0
      else (body.length / 4 + 1) * 3 - padding := by
  have hlen : (body ++ [p, q, r, s]).length = body.length + 4 := by simp
  have hget : ∀ i, (body ++ [p, q, r, s]).getD (body.length + i) 0 = [p, q, r, s].getD i 0 := by
    intro i
    rw [List.getD_append_right _ _ _ _ (by omega), Nat.add_sub_cancel_left]
  have hpadding : b64Padding (body ++ [p, q, r, s]) =
      (if s = 61 then 1 else 0) + if r = 61 then 1 else 0 := by
    rw [b64Padding, hlen]
    exact congrArg₂ (fun x y => (if x = 61 then 1 else 0) + if y = 61 then 1 else 0)
      (hget 3) (hget 2)
  have hle : ((if s = 61 then 1 else 0) + if r = 61 then 1 else 0) ≤ 2 := by
    split_ifs <;> omega
  have htake : ∀ padding ≤ 2, (body ++ [p, q, r, s]).take (body.length + 4 - padding) =
      body ++ [p, q, r, s].take (4 - padding) := by
    intro padding hpad
    rw [Nat.add_sub_assoc (by omega), List.take_length_add_append]
  have hq : (body ++ [p, q, r, s]).getD (body.length + 4 - 3) 0 = q := hget 1
  have hr : (body ++ [p, q, r, s]).getD (body.length + 4 - 2) 0 = r := hget 2
  simp only [b64Size, hpadding, hlen, htake _ hle, hq, hr]
  rw [if_neg (by omega)]
  have hdiv : (body.length + 4) / 4 = body.length / 4 + 1 := by omega
  rw [hdiv]

/-- Digits in whole groups, the last one padded or not, are counted. -/
theorem b64Size_parts {body last : Bytes} {k m : ℕ} (hbody : ∀ c ∈ body, (b64Digit c).isSome)
    (hlength : body.length = 4 * k) (hlast : Last m last) (hpos : 0 < 3 * k + m) :
    b64Size (some (body ++ last)) = 3 * k + m := by
  have hany : ∀ text : Bytes, (∀ c ∈ text, (b64Digit c).isSome) →
      (text.any fun c => (b64Digit c).isNone) = false := by
    intro text htext
    rw [List.any_eq_false]
    intro c hc
    simpa [Option.isSome_iff_ne_none] using htext c hc
  cases hlast with
  | none =>
    obtain ⟨front, four, rfl, hfour⟩ : ∃ front four, body = front ++ four ∧ four.length = 4 := by
      refine ⟨body.take (body.length - 4), body.drop (body.length - 4), ?_, ?_⟩
      · rw [List.take_append_drop]
      · rw [List.length_drop]
        omega
    obtain ⟨p, q, r, s, rfl⟩ := List.length_eq_four.mp hfour
    rw [List.length_append, hfour] at hlength
    have hr := digit_ne_pad (hbody r (by simp))
    have hs := digit_ne_pad (hbody s (by simp))
    rw [List.append_nil, b64Size_groups p q r s (by omega)]
    simp only [if_neg hr, if_neg hs, Nat.add_zero, Nat.sub_zero, List.take_of_length_le hfour.le,
      hany _ hbody]
    rw [if_neg (by simp), if_neg (by simp), if_neg (by simp)]
    omega
  | @one p q n hp hq hn =>
    have hdigits : ∀ c ∈ body ++ [p, q], (b64Digit c).isSome := by
      intro c hc
      rcases List.mem_append.mp hc with hc | hc
      · exact hbody c hc
      · rcases List.mem_pair.mp hc with rfl | rfl
        · exact hp
        · rw [hq]
          rfl
    rw [b64Size_groups p q 61 61 (by omega)]
    simp only [if_true, Nat.reduceAdd, Nat.reduceSub, List.take_succ_cons, List.take_zero,
      hany _ hdigits, hq, Option.getD_some, hn]
    rw [if_neg (by simp), if_neg (by simp), if_neg (by simp)]
    omega
  | @two p q r n hp hq hr hn =>
    have hrsome : (b64Digit r).isSome := by
      rw [hr]
      rfl
    have hdigits : ∀ c ∈ body ++ [p, q, r], (b64Digit c).isSome := by
      intro c hc
      rcases List.mem_append.mp hc with hc | hc
      · exact hbody c hc
      · simp only [List.mem_cons, List.not_mem_nil, or_false] at hc
        rcases hc with rfl | rfl | rfl
        · exact hp
        · exact hq
        · exact hrsome
    rw [b64Size_groups p q r 61 (by omega)]
    simp only [if_true, if_neg (digit_ne_pad hrsome), Nat.reduceAdd, Nat.reduceSub,
      List.take_succ_cons, List.take_zero, hany _ hdigits, hr, Option.getD_some, hn]
    rw [if_neg (by simp), if_neg (by simp), if_neg (by simp)]
    omega

/-- Nothing else is counted: the padding is the last one or two characters, and a character
of padding before them is no digit. -/
theorem parts_of_b64Size {text : Bytes} (h : b64Size (some text) ≠ 0) :
    ∃ body last k m, text = body ++ last ∧ (∀ c ∈ body, (b64Digit c).isSome) ∧
      body.length = 4 * k ∧ Last m last ∧ 0 < 3 * k + m := by
  have hlen : text.length ≠ 0 ∧ text.length % 4 = 0 := by
    by_contra hbad
    refine h ?_
    simp only [b64Size]
    rw [if_pos (by omega)]
  obtain ⟨body, four, rfl, hfour⟩ : ∃ body four, text = body ++ four ∧ four.length = 4 := by
    refine ⟨text.take (text.length - 4), text.drop (text.length - 4), ?_, ?_⟩
    · rw [List.take_append_drop]
    · rw [List.length_drop]
      omega
  obtain ⟨p, q, r, s, rfl⟩ := List.length_eq_four.mp hfour
  have hmod : body.length % 4 = 0 := by
    rw [List.length_append, hfour] at hlen
    omega
  rw [b64Size_groups p q r s hmod] at h
  generalize hpad : ((if s = 61 then 1 else 0) + if r = 61 then 1 else 0) = padding at h
  simp only at h
  split_ifs at h with hany hspare hspare'
  · exact absurd rfl h
  · exact absurd rfl h
  · exact absurd rfl h
  · have hdigits : ∀ c ∈ body ++ [p, q, r, s].take (4 - padding), (b64Digit c).isSome := by
      intro c hc
      by_contra hnone
      exact hany (List.any_eq_true.mpr ⟨c, hc, by simpa using hnone⟩)
    have hbody : ∀ c ∈ body, (b64Digit c).isSome :=
      fun c hc => hdigits c (List.mem_append_left _ hc)
    have hlast : ∀ c ∈ [p, q, r, s].take (4 - padding), (b64Digit c).isSome :=
      fun c hc => hdigits c (List.mem_append_right _ hc)
    by_cases hs : s = 61
    · by_cases hr : r = 61
      · subst hs hr
        obtain rfl : 2 = padding := hpad
        obtain ⟨n, hn⟩ := Option.isSome_iff_exists.mp (hlast q (by simp))
        refine ⟨body, [p, q, 61, 61], body.length / 4, 1, rfl, hbody, by omega, ?_, by omega⟩
        refine .one (hlast p (by simp)) hn ?_
        by_contra hne
        exact hspare ⟨rfl, by rwa [hn]⟩
      · subst hs
        rw [if_pos rfl, if_neg hr] at hpad
        obtain rfl : 1 = padding := hpad
        obtain ⟨n, hn⟩ := Option.isSome_iff_exists.mp (hlast r (by simp))
        refine ⟨body, [p, q, r, 61], body.length / 4, 2, rfl, hbody, by omega, ?_, by omega⟩
        refine .two (hlast p (by simp)) (hlast q (by simp)) hn ?_
        by_contra hne
        exact hspare' ⟨rfl, by rwa [hn]⟩
    · by_cases hr : r = 61
      · -- padding before the last character only: it is among the digits
        subst hr
        rw [if_neg hs, if_pos rfl] at hpad
        obtain rfl : 1 = padding := by omega
        exact absurd rfl (digit_ne_pad (hlast 61 (by simp)))
      · rw [if_neg hs, if_neg hr] at hpad
        obtain rfl : 0 = padding := hpad
        refine ⟨body ++ [p, q, r, s], [], body.length / 4 + 1, 0, by simp, hdigits, ?_, .none,
          by omega⟩
        rw [List.length_append, hfour]
        omega

/-! ### Encodings -/

/-- Bytes made of the digits give the digits back. -/
theorem encode_group {x y z u : ℕ} (hx : x < 64) (hy : y < 64) (hz : z < 64) (hu : u < 64)
    (rest : Bytes) :
    b64Encode ((x * 4 + y / 16).toUInt8 :: (y % 16 * 16 + z / 4).toUInt8 ::
        (z % 4 * 64 + u).toUInt8 :: rest) =
      b64Char x :: b64Char y :: b64Char z :: b64Char u :: b64Encode rest := by
  have hbyte : ∀ n < 256, n.toUInt8.toNat = n := fun n hn => Nat.mod_eq_of_lt hn
  have h1 : (x * 4 + y / 16) / 4 = x := by omega
  have h2 : (x * 4 + y / 16) % 4 * 16 + (y % 16 * 16 + z / 4) / 16 = y := by omega
  have h3 : (y % 16 * 16 + z / 4) % 16 * 4 + (z % 4 * 64 + u) / 64 = z := by omega
  have h4 : (z % 4 * 64 + u) % 64 = u := by omega
  rw [b64Encode, hbyte _ (by omega), hbyte _ (by omega), hbyte _ (by omega), h1, h2, h3, h4]

theorem encode_last {m : ℕ} {last : Bytes} (h : Last m last) :
    ∃ raw, raw.length = m ∧ b64Encode raw = last := by
  have hbyte : ∀ n < 256, n.toUInt8.toNat = n := fun n hn => Nat.mod_eq_of_lt hn
  cases h with
  | none => exact ⟨[], rfl, rfl⟩
  | @one p q n hp hq hn =>
    obtain ⟨x, hx⟩ := Option.isSome_iff_exists.mp hp
    obtain ⟨hx64, rfl⟩ := b64Char_digit hx
    obtain ⟨hn64, rfl⟩ := b64Char_digit hq
    rw [Nat.and_two_pow_sub_one_eq_mod n 4] at hn
    have h1 : (x * 4 + n / 16) / 4 = x := by omega
    have h2 : (x * 4 + n / 16) % 4 * 16 = n := by omega
    refine ⟨[(x * 4 + n / 16).toUInt8], rfl, ?_⟩
    rw [b64Encode, hbyte _ (by omega), h1, h2]
  | @two p q r n hp hq hr hn =>
    obtain ⟨x, hx⟩ := Option.isSome_iff_exists.mp hp
    obtain ⟨y, hy⟩ := Option.isSome_iff_exists.mp hq
    obtain ⟨hx64, rfl⟩ := b64Char_digit hx
    obtain ⟨hy64, rfl⟩ := b64Char_digit hy
    obtain ⟨hn64, rfl⟩ := b64Char_digit hr
    rw [Nat.and_two_pow_sub_one_eq_mod n 2] at hn
    have h1 : (x * 4 + y / 16) / 4 = x := by omega
    have h2 : (x * 4 + y / 16) % 4 * 16 + (y % 16 * 16 + n / 4) / 16 = y := by omega
    have h3 : (y % 16 * 16 + n / 4) % 16 * 4 = n := by omega
    refine ⟨[(x * 4 + y / 16).toUInt8, (y % 16 * 16 + n / 4).toUInt8], rfl, ?_⟩
    rw [b64Encode, hbyte _ (by omega), hbyte _ (by omega), h1, h2, h3]

theorem encode_of_parts {body last : Bytes} {k m : ℕ} (hbody : ∀ c ∈ body, (b64Digit c).isSome)
    (hlength : body.length = 4 * k) (hlast : Last m last) :
    ∃ raw, raw.length = 3 * k + m ∧ b64Encode raw = body ++ last := by
  induction k generalizing body with
  | zero =>
    obtain rfl := List.length_eq_zero_iff.mp hlength
    obtain ⟨raw, hraw, hencode⟩ := encode_last hlast
    exact ⟨raw, by omega, hencode⟩
  | succ k ih =>
    obtain ⟨four, rest, rfl, hfour⟩ : ∃ four rest, body = four ++ rest ∧ four.length = 4 := by
      refine ⟨body.take 4, body.drop 4, ?_, ?_⟩
      · rw [List.take_append_drop]
      · rw [List.length_take]
        omega
    obtain ⟨a, b, c, d, rfl⟩ := List.length_eq_four.mp hfour
    obtain ⟨x, hx⟩ := Option.isSome_iff_exists.mp (hbody a (by simp))
    obtain ⟨y, hy⟩ := Option.isSome_iff_exists.mp (hbody b (by simp))
    obtain ⟨z, hz⟩ := Option.isSome_iff_exists.mp (hbody c (by simp))
    obtain ⟨u, hu⟩ := Option.isSome_iff_exists.mp (hbody d (by simp))
    obtain ⟨hx64, rfl⟩ := b64Char_digit hx
    obtain ⟨hy64, rfl⟩ := b64Char_digit hy
    obtain ⟨hz64, rfl⟩ := b64Char_digit hz
    obtain ⟨hu64, rfl⟩ := b64Char_digit hu
    rw [List.length_append, hfour] at hlength
    obtain ⟨raw, hraw, hencode⟩ :=
      ih (fun e he => hbody e (List.mem_append_right _ he)) (by omega)
    refine ⟨_ :: _ :: _ :: raw, ?_, (encode_group hx64 hy64 hz64 hu64 raw).trans ?_⟩
    · rw [List.length_cons, List.length_cons, List.length_cons]
      omega
    · rw [hencode]
      rfl

/-- The loader counts the bytes the builder encoded. -/
theorem b64Size_encode {raw : Bytes} (h : raw ≠ []) :
    b64Size (some (b64Encode raw)) = raw.length := by
  obtain ⟨body, last, heq, hbody, hlength, hlast⟩ := b64Encode_parts raw
  have hpos : 0 < raw.length := List.length_pos_iff.mpr h
  rw [heq, b64Size_parts hbody hlength hlast (by omega)]
  omega

/-- What is counted is the encoding of as many bytes. -/
theorem encode_of_b64Size {text : Bytes} (h : b64Size (some text) ≠ 0) :
    ∃ raw, raw.length = b64Size (some text) ∧ text = b64Encode raw := by
  obtain ⟨body, last, k, m, rfl, hbody, hlength, hlast, hpos⟩ := parts_of_b64Size h
  obtain ⟨raw, hraw, hencode⟩ := encode_of_parts hbody hlength hlast
  exact ⟨raw, by rw [hraw, b64Size_parts hbody hlength hlast hpos], hencode.symm⟩

theorem b64Size_exact (s : CString) :
    (∀ n, b64Size (some s.chars) = n ∧ 0 < n ↔
      ∃ raw : Bytes, raw ≠ [] ∧ raw.length = n ∧ s.chars = b64Encode raw) ∧
    ((∀ raw, raw ≠ [] → s.chars ≠ b64Encode raw) → b64Size (some s.chars) = 0) := by
  constructor
  · intro n
    constructor
    · rintro ⟨rfl, hpos⟩
      obtain ⟨raw, hraw, hencode⟩ := encode_of_b64Size hpos.ne'
      exact ⟨raw, List.length_pos_iff.mp (by omega), hraw, hencode⟩
    · rintro ⟨raw, hne, rfl, hencode⟩
      rw [hencode, b64Size_encode hne]
      exact ⟨rfl, List.length_pos_iff.mpr hne⟩
  · intro hnone
    by_contra hsize
    obtain ⟨raw, hraw, hencode⟩ := encode_of_b64Size hsize
    exact hnone raw (List.length_pos_iff.mp (by omega)) hencode

theorem b64Size_exact_sample :
    (∃ raw : Bytes, raw ≠ [] ∧ raw.length = 2 ∧ ascii "e30=" = b64Encode raw) ∧
      b64Size (some []) = 0 := by
  constructor
  · exact ((b64Size_exact ⟨ascii "e30=", by decide⟩).1 2).mp (by decide)
  · refine (b64Size_exact ⟨[], by decide⟩).2 fun raw hne hencode => ?_
    have hsize := b64Size_encode hne
    rw [← hencode] at hsize
    exact hne (List.length_eq_zero_iff.mp hsize.symm)

theorem b64Encode_printable (raw : Bytes) : ∀ c ∈ b64Encode raw, isPrintable c = true := by
  have hpad : isPrintable 61 = true := rfl
  fun_induction b64Encode raw with
  | case1 => simp
  | case2 x =>
    have hx := x.toNat_lt
    simp only [List.mem_cons, forall_eq_or_imp, hpad, true_and]
    exact ⟨isPrintable_b64 (by omega), isPrintable_b64 (by omega), by simp⟩
  | case3 x y =>
    have hx := x.toNat_lt
    have hy := y.toNat_lt
    simp only [List.mem_cons, forall_eq_or_imp, hpad, true_and]
    exact ⟨isPrintable_b64 (by omega), isPrintable_b64 (by omega), isPrintable_b64 (by omega),
      by simp⟩
  | case4 x y z rest ih =>
    have hx := x.toNat_lt
    have hy := y.toNat_lt
    have hz := z.toNat_lt
    simp only [List.mem_cons, forall_eq_or_imp]
    exact ⟨isPrintable_b64 (by omega), isPrintable_b64 (by omega), isPrintable_b64 (by omega),
      isPrintable_b64 (by omega), ih⟩

/-- What was encoded decodes to itself. -/
theorem b64Decode_encode (raw : Bytes) : b64Decode (b64Encode raw) = some raw := by
  have hbyte : ∀ (x : UInt8) (n : ℕ), n = x.toNat → n.toUInt8 = x := by
    rintro x _ rfl
    exact UInt8.ofNat_toNat
  have hpad : b64Digit 61 = none := rfl
  fun_induction b64Encode raw with
  | case1 => rfl
  | case2 x =>
    have hx := x.toNat_lt
    have h1 : (x.toNat / 4 * 4 + x.toNat % 4 * 16 / 16).toUInt8 = x := hbyte x _ (by omega)
    rw [b64Decode, b64Digit_char (by omega), b64Digit_char (by omega), hpad]
    simp only [h1, true_and]
    rw [if_pos (by omega)]
  | case3 x y =>
    have hx := x.toNat_lt
    have hy := y.toNat_lt
    have h1 : (x.toNat / 4 * 4 + (x.toNat % 4 * 16 + y.toNat / 16) / 16).toUInt8 = x :=
      hbyte x _ (by omega)
    have h2 : ((x.toNat % 4 * 16 + y.toNat / 16) % 16 * 16 + y.toNat % 16 * 4 / 4).toUInt8 = y :=
      hbyte y _ (by omega)
    rw [b64Decode, b64Digit_char (by omega), b64Digit_char (by omega), b64Digit_char (by omega), hpad]
    simp only [h1, h2, true_and]
    rw [if_pos (by omega)]
  | case4 x y z rest ih =>
    have hx := x.toNat_lt
    have hy := y.toNat_lt
    have hz := z.toNat_lt
    have h1 : (x.toNat / 4 * 4 + (x.toNat % 4 * 16 + y.toNat / 16) / 16).toUInt8 = x :=
      hbyte x _ (by omega)
    have h2 : ((x.toNat % 4 * 16 + y.toNat / 16) % 16 * 16 +
        (y.toNat % 16 * 4 + z.toNat / 64) / 4).toUInt8 = y := hbyte y _ (by omega)
    have h3 : ((y.toNat % 16 * 4 + z.toNat / 64) % 4 * 64 + z.toNat % 64).toUInt8 = z :=
      hbyte z _ (by omega)
    rw [b64Decode, b64Digit_char (by omega), b64Digit_char (by omega), b64Digit_char (by omega),
      b64Digit_char (by omega)]
    simp only [h1, h2, h3, ih, Option.map_some]
end Epilykos.PlatformEnv
