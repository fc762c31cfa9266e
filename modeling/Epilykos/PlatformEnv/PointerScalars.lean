import Epilykos.PlatformEnv.Decimal
import Epilykos.PlatformEnv.PointerLookup

/-!
Numbers and base64 sizes, read and written in memory. The 64-bit arithmetic of `decimal` is
checked at every operation, and so is every index of `to_decimal` and `b64_size`.
-/

namespace Epilykos.PlatformEnv.Pointer

open Checked

section Source

variable (steps : ℕ) (m : Memory)

/-- The loop of `decimal`, over the characters and the number so far. -/
def decimalDigits (text : Ptr) : Run (Option ℕ) :=
  loop steps (fun x => do
    let c ← m.load x.1 0
    if c = 0 then return .exit (some x.2)
    else
      let text ← m.advance x.1 1
      -- unsigned subtraction: characters below '0' wrap to large digits
      let digit := (c.toUInt32 - 48).toNat
      if 9 < digit then return .exit none
      else
        let room ← sub uint64Max digit
        if room / 10 < x.2 then return .exit none
        else
          let tens ← word (x.2 * 10)
          return .next (text, ← word (tens + digit))) (text, 0)

def decimal : Option Ptr → Run (Option ℕ)
  | none => return none
  | some text => do
    let first ← m.load text 0
    if first = 0 then return none
    else if first = 48 then
      let second ← m.load text 1
      if second ≠ 0 then return none else decimalDigits steps m text
    else decimalDigits steps m text

/-- The loop of `to_decimal` that divides: the digits so far, the last one first. -/
def reverseDigits (reverse : Vector UInt8 20) (value : ℕ) : Run (Vector UInt8 20 × ℕ) :=
  loop steps (fun x => do
    let reverse ← setItem x.1 x.2.1 (48 + x.2.2 % 10).toUInt8
    if x.2.2 / 10 = 0 then return .exit (reverse, x.2.1 + 1)
    else return .next (reverse, x.2.1 + 1, x.2.2 / 10)) (reverse, 0, value)

/-- `reverse` is the local array as it is found. -/
def toDecimal (reverse : Vector UInt8 20) (value : ℕ) (out : Ptr) : Run Memory := do
  let (reverse, n) ← reverseDigits steps reverse value
  let m ← forEach steps 0 n (fun i m => do
    let last ← sub n 1
    m.store out i (← item reverse (← sub last i))) m
  m.store out n 0

/-- The bits of the last digit that stand for no byte; the digits have been checked. -/
def spareBits (text : Ptr) (len padding : ℕ) : Run ℕ :=
  if padding = 2 then do
    let c ← m.load text (← sub len 3)
    return (b64Digit c).getD 0 &&& 15
  else if padding = 1 then do
    let c ← m.load text (← sub len 2)
    return (b64Digit c).getD 0 &&& 3
  else return 0

def b64Size : Option Ptr → Run ℕ
  | none => return 0
  | some text => do
    let len ← m.strlen text
    if len = 0 ∨ len % 4 ≠ 0 then return 0
    else
      let last ← m.load text (← sub len 1)
      let before ← m.load text (← sub len 2)
      let padding := (if last = 61 then 1 else 0) + if before = 61 then 1 else 0
      let digits ← sub len padding
      match ← search steps 0 digits (fun i _ => do
          let c ← m.load text i
          if (b64Digit c).isNone then return .exit () else return .next ()) () with
      | .exit _ => return 0
      | .next _ =>
        if (← spareBits m text len padding) ≠ 0 then return 0
        else return len / 4 * 3 - padding

end Source

/-! ### Numerals -/

/-- Digits without a sign, and no zero before others. -/
structure Numeral (s : Bytes) : Prop where
  ne_nil : s ≠ []
  digits : ∀ c ∈ s, 48 ≤ c ∧ c ≤ 57
  canonical : s.head? = some 48 → s = [48]

/-- The number that digits stand for after the number `n`. -/
def valueFrom (n : ℕ) (s : Bytes) : ℕ := s.foldl (fun n c => n * 10 + (c.toNat - 48)) n

theorem le_valueFrom (n : ℕ) (s : Bytes) : n ≤ valueFrom n s := by
  induction s generalizing n with
  | nil => exact Nat.le_refl _
  | cons c s ih =>
    have hstep : n ≤ n * 10 + (c.toNat - 48) := by omega
    exact hstep.trans (ih _)

theorem digit_toNat {c : UInt8} :
    ((c.toUInt32 - 48).toNat ≤ 9 ↔ 48 ≤ c ∧ c ≤ 57) ∧
      (48 ≤ c → (c.toUInt32 - 48).toNat = c.toNat - 48) := by
  have hb := c.toNat_lt
  rw [UInt32.toNat_sub, UInt8.le_iff_toNat_le, UInt8.le_iff_toNat_le]
  simp only [UInt8.toNat_toUInt32, UInt32.toNat_ofNat, UInt8.toNat_ofNat]
  omega

/-- The division before the multiplication lets every number below 2^64 pass and no other. -/
theorem decimalFrom_iff {n k : ℕ} {s : Bytes} (hk : k ≤ uint64Max) :
    decimalFrom k s = some n ↔
      (∀ c ∈ s, 48 ≤ c ∧ c ≤ 57) ∧ valueFrom k s = n ∧ n ≤ uint64Max := by
  induction s generalizing k with
  | nil =>
    simp only [decimalFrom, valueFrom, List.foldl_nil, Option.some.injEq, List.not_mem_nil,
      false_imp_iff, implies_true, true_and]
    constructor
    · rintro rfl
      exact ⟨rfl, hk⟩
    · exact fun h => h.1
  | cons c s ih =>
    obtain ⟨hdigit, hvalue⟩ := digit_toNat (c := c)
    rw [decimalFrom, List.forall_mem_cons]
    change _ ↔ _ ∧ valueFrom (k * 10 + (c.toNat - 48)) s = n ∧ _
    have hle := le_valueFrom (k * 10 + (c.toNat - 48)) s
    by_cases hc : 48 ≤ c ∧ c ≤ 57
    · have hnine := hdigit.mpr hc
      have heq := hvalue hc.1
      by_cases hroom : k * 10 + (c.toNat - 48) ≤ uint64Max
      · rw [if_neg, heq, ih hroom]
        · exact ⟨fun h => ⟨⟨hc, h.1⟩, h.2⟩, fun h => ⟨h.1.2, h.2⟩⟩
        · simp only [uint64Max] at hroom ⊢
          omega
      · rw [if_pos]
        · refine ⟨fun h => (by cases h), fun h => absurd h.2 ?_⟩
          rintro ⟨rfl, hn⟩
          omega
        · simp only [uint64Max] at hroom ⊢
          omega
    · rw [if_pos (Or.inl (Nat.lt_of_not_le fun h => hc (hdigit.mp h)))]
      exact ⟨fun h => (by cases h), fun h => absurd h.1.1 hc⟩

theorem decimal_iff {s : Bytes} {n : ℕ} :
    PlatformEnv.decimal (some s) = some n ↔ Numeral s ∧ valueFrom 0 s = n ∧ n < 2 ^ 64 := by
  have hmax : uint64Max + 1 = 2 ^ 64 := rfl
  cases s with
  | nil =>
    refine ⟨fun h => (by cases h), fun h => absurd rfl h.1.ne_nil⟩
  | cons c s =>
    rw [PlatformEnv.decimal]
    by_cases hzero : c = 48 ∧ s ≠ []
    · rw [if_pos hzero]
      refine ⟨fun h => (by cases h), fun h => absurd (h.1.canonical ?_) ?_⟩
      · rw [hzero.1]
        rfl
      · exact fun heq => hzero.2 (List.cons.inj heq).2
    · rw [if_neg hzero, decimalFrom_iff (Nat.zero_le _)]
      constructor
      · rintro ⟨hdigits, hvalue, hle⟩
        refine ⟨⟨List.cons_ne_nil c s, hdigits, fun hhead => ?_⟩, hvalue, by omega⟩
        have hc : c = 48 := Option.some.inj hhead
        have hs : s = [] := by
          by_contra hne
          exact hzero ⟨hc, hne⟩
        rw [hc, hs]
      · rintro ⟨hnumeral, hvalue, hlt⟩
        exact ⟨hnumeral.digits, hvalue, by omega⟩

/-! ### Reading a number -/

section Reads

variable {steps : ℕ} {m : Memory} {ok : Block Place → Prop} {E : EnvError → Prop}

theorem text_cons {p : Ptr} {c : UInt8} {s : Bytes} (h : m.Text p (c :: s)) :
    c ≠ 0 ∧ (m.load p 0 : Run UInt8) = .ok c ∧ (m.advance p 1 : Run Ptr) =
      .ok ⟨p.block, p.offset + 1⟩ ∧ m.Text ⟨p.block, p.offset + 1⟩ s := by
  have hat : m.At p ([c] ++ (s ++ [0])) := h.at_nul
  refine ⟨fun hc => h.noNul (by simp [hc]), h.at_nul.load_zero, ?_, hat.right, ?_⟩
  · exact h.at_nul.advance (by simp)
  · exact fun hmem => h.noNul (List.mem_cons_of_mem c hmem)

theorem text_nil {p : Ptr} (h : m.Text p []) : (m.load p 0 : Run UInt8) = .ok 0 :=
  h.at_nul.load_zero

theorem decimalDigits_ends {p : Ptr} {s : Bytes} (h : m.Text p s) (hsteps : s.length < steps) :
    Ends (decimalDigits steps m p) (· = decimalFrom 0 s) E := by
  refine Ends.loop (fun x => ∃ rest, m.Text x.1 rest ∧ x.2 ≤ uint64Max ∧
      decimalFrom 0 s = decimalFrom x.2 rest ∧ x.1.offset + rest.length = p.offset + s.length)
    (fun x => p.offset + s.length - x.1.offset) ⟨s, h, by simp, rfl, rfl⟩ ?_ ?_
  · simp only
    omega
  · rintro ⟨text, n⟩ ⟨rest, htext, hn, heq, hlen⟩
    simp only at htext hn heq hlen ⊢
    cases rest with
    | nil =>
      rw [text_nil htext]
      exact heq.symm
    | cons c rest =>
      obtain ⟨hc, hload, hadvance, hrest⟩ := text_cons htext
      rw [List.length_cons] at hlen
      rw [hload, ok_bind, if_neg hc, hadvance, ok_bind, heq, decimalFrom]
      generalize (c.toUInt32 - 48).toNat = digit
      by_cases hnine : 9 < digit
      · rw [if_pos hnine, if_pos (Or.inl hnine)]
        rfl
      · rw [if_neg hnine, sub_eq (by simp only [uint64Max]; omega), ok_bind]
        by_cases hroom : (uint64Max - digit) / 10 < n
        · rw [if_pos hroom, if_pos (Or.inr hroom)]
          rfl
        · have hfits : n * 10 + digit < 2 ^ 64 := by
            simp only [uint64Max] at hroom
            omega
          have hneither : ¬ (9 < digit ∨ (uint64Max - digit) / 10 < n) := by
            rw [not_or]
            exact ⟨hnine, hroom⟩
          rw [if_neg hroom, if_neg hneither, word_eq (show n * 10 < 2 ^ 64 by omega),
            ok_bind, word_eq hfits]
          refine ⟨⟨rest, hrest, ?_, rfl, ?_⟩, ?_⟩
          · simp only [uint64Max]
            omega
          · simp only
            omega
          · simp only
            omega

theorem decimal_ends {p : Option Ptr} {s : Option Bytes} (h : OptText m ok p s)
    (hsteps : ∀ t, s = some t → t.length < steps) :
    Ends (decimal steps m p) (· = PlatformEnv.decimal s) E := by
  cases h with
  | none => rfl
  | @some p s h _ =>
    have hdigits := decimalDigits_ends (E := E) h (hsteps s rfl)
    rw [decimal]
    cases s with
    | nil =>
      rw [text_nil h]
      rfl
    | cons c s =>
      obtain ⟨hc, hload, -, hrest⟩ := text_cons h
      rw [hload, ok_bind, if_neg hc, PlatformEnv.decimal]
      by_cases hzero : c = 48
      · have hsecond : ∃ d, (m.load p 1 : Run UInt8) = .ok d ∧ (d ≠ 0 ↔ s ≠ []) := by
          cases s with
          | nil => exact ⟨0, h.at_nul.load_get (i := 1) (by simp), by simp⟩
          | cons d s =>
            refine ⟨d, h.at_nul.load_get (i := 1) (by simp), ?_⟩
            simp [(text_cons hrest).1]
        obtain ⟨d, hd, hne⟩ := hsecond
        rw [if_pos hzero, hd, ok_bind]
        by_cases hs : s ≠ []
        · rw [if_pos (hne.mpr hs), if_pos ⟨hzero, hs⟩]
          rfl
        · rw [if_neg (fun hd => hs (hne.mp hd)), if_neg (fun hz => hs hz.2)]
          exact hdigits
      · rw [if_neg hzero, if_neg (fun hz => hzero hz.1)]
        exact hdigits

/-! ### Base64 sizes -/

theorem digits_ends {p : Ptr} {s : Bytes} {n : ℕ} (h : m.Text p s) (hn : n ≤ s.length)
    (hsteps : n < steps) :
    Ends (search steps 0 n (fun i (_ : Unit) => do
        let c ← m.load p i
        if (b64Digit c).isNone then return .exit () else return .next ()) ())
      (fun
        | .exit () => ((s.take n).any fun c => (b64Digit c).isNone) = true
        | .next () => ((s.take n).any fun c => (b64Digit c).isNone) = false) E := by
  have hlen : (s.take n).length = n := by
    rw [List.length_take]
    omega
  have hsearch : Ends (search steps 0 (s.take n).length (fun i (_ : Unit) => do
        let c ← m.load p i
        if (b64Digit c).isNone then return .exit () else return .next ()) ()) _ E :=
    Ends.searchList (p := fun c => (b64Digit c).isNone) (fun _ (_ : Unit) => True) (by omega) ?_
  · rw [hlen] at hsearch
    refine hsearch.mono ?_ fun _ he => he
    rintro (⟨⟨⟩⟩ | ⟨⟨⟩⟩) hr
    · exact List.any_eq_false.mpr (List.find?_eq_none.mp hr)
    · obtain ⟨c, hc, -⟩ := hr
      have hdigit : (b64Digit c).isNone = true := by simpa using List.find?_some hc
      exact List.any_eq_true.mpr ⟨c, List.mem_of_find?_eq_some hc, hdigit⟩
  · intro i hi
    rw [h.load_getD (by omega), ok_bind, List.getD_eq_getElem _ _ (by omega), List.getElem_take]
    by_cases hdigit : (b64Digit s[i]).isNone = true
    · rw [if_pos hdigit]
      exact ⟨hdigit, trivial⟩
    · rw [if_neg hdigit]
      exact Bool.eq_false_iff.mpr hdigit

theorem spareBits_eq {p : Ptr} {s : Bytes} {padding : ℕ} (h : m.Text p s) (hlen : 4 ≤ s.length) :
    spareBits m p s.length padding = .ok
      (if padding = 2 then (b64Digit (s.getD (s.length - 3) 0)).getD 0 &&& 15
      else if padding = 1 then (b64Digit (s.getD (s.length - 2) 0)).getD 0 &&& 3 else 0) := by
  rw [spareBits]
  split_ifs
  · rw [sub_eq (by omega), ok_bind, h.load_getD (by omega)]
    rfl
  · rw [sub_eq (by omega), ok_bind, h.load_getD (by omega)]
    rfl
  · rfl

theorem b64Size_ends {p : Option Ptr} {s : Option Bytes} (h : OptText m ok p s)
    (hsteps : ∀ t, s = some t → t.length < steps) :
    Ends (b64Size steps m p) (· = PlatformEnv.b64Size s) E := by
  cases h with
  | none => rfl
  | @some p s h _ =>
    have hsteps := hsteps s rfl
    rw [b64Size, h.strlen, ok_bind, PlatformEnv.b64Size]
    by_cases hlen : s.length = 0 ∨ s.length % 4 ≠ 0
    · simp only [if_pos hlen]
      rfl
    have hpadding : b64Padding s ≤ 2 := by
      rw [b64Padding]
      split_ifs <;> omega
    have hdigits : (sub s.length (b64Padding s) : Run ℕ) = .ok (s.length - b64Padding s) :=
      sub_eq (by omega)
    simp only [if_neg hlen]
    rw [sub_eq (by omega), ok_bind, h.load_getD (by omega), ok_bind, sub_eq (by omega), ok_bind,
      h.load_getD (by omega), ok_bind, ← b64Padding, hdigits, ok_bind]
    refine Ends.bind (digits_ends h (Nat.sub_le _ _) (by omega)) ?_
    intro r hr
    cases r with
    | exit _ =>
      simp only at hr
      rw [if_pos hr]
      rfl
    | next _ =>
      simp only at hr
      rw [if_neg (Bool.eq_false_iff.mp hr)]
      simp only [spareBits_eq h (show 4 ≤ s.length by omega), ok_bind]
      generalize (b64Digit (s.getD (s.length - 3) 0)).getD 0 &&& 15 = two
      generalize (b64Digit (s.getD (s.length - 2) 0)).getD 0 &&& 3 = one
      generalize b64Padding s = padding
      by_cases htwo : padding = 2
      · by_cases hspare : two = 0
        · simp [htwo, hspare]
        · simp [htwo, hspare]
      by_cases hone : padding = 1
      · by_cases hspare : one = 0
        · simp [hone, hspare]
        · simp [hone, hspare]
      · simp [htwo, hone]

end Reads

/-! ### Writing a number -/

section Writes

variable {steps : ℕ} {m : Memory} {E : EnvError → Prop}

/-- The digits written so far are those of the list, the other way round. -/
def Reversed (reverse : Vector UInt8 20) (n : ℕ) (digits : Bytes) : Prop :=
  digits.length = n ∧ reverse.toList.take n = digits.reverse

theorem Reversed.set {reverse : Vector UInt8 20} {n : ℕ} {digits : Bytes} (c : UInt8)
    (h : Reversed reverse n digits) (hn : n < 20) :
    Reversed (reverse.set n c) (n + 1) (c :: digits) := by
  obtain ⟨hlen, htake⟩ := h
  refine ⟨by simp [hlen], ?_⟩
  have hsize : n < (reverse.toList.set n c).length := by simpa using hn
  rw [Vector.toList_set, List.take_succ_eq_append_getElem hsize, List.getElem_set_self,
    List.take_set_of_le (Nat.le_refl n), htake, List.reverse_cons]

theorem Reversed.item {reverse : Vector UInt8 20} {n i : ℕ} {digits : Bytes}
    (h : Reversed reverse n digits) (hn : n ≤ 20) (hi : i < n) :
    ∃ hi' : i < digits.length, (item reverse (n - 1 - i) : Run UInt8) = .ok digits[i] := by
  obtain ⟨hlen, htake⟩ := h
  refine ⟨by omega, ?_⟩
  rw [item_eq (show n - 1 - i < 20 by omega)]
  have hget : (reverse.toList.take n)[n - 1 - i]? = digits.reverse[n - 1 - i]? := by rw [htake]
  rw [List.getElem?_take_of_lt (by omega), List.getElem?_reverse (by omega)] at hget
  have hindex : digits.length - 1 - (n - 1 - i) = i := by omega
  rw [hindex, List.getElem?_eq_getElem (show i < digits.length by omega), Vector.getElem?_toList,
    Vector.getElem?_eq_getElem (show n - 1 - i < 20 by omega)] at hget
  rw [Option.some.inj hget]

theorem reverseDigits_ends {reverse : Vector UInt8 20} {value : ℕ} (hvalue : value < 2 ^ 64)
    (hsteps : 20 < steps) :
    Ends (reverseDigits steps reverse value)
      (fun x => x.2 ≤ 20 ∧ Reversed x.1 x.2 (PlatformEnv.toDecimal value)) E := by
  refine Ends.loop (fun x => ∃ digits, Reversed x.1 x.2.1 digits ∧ x.2.1 < 20 ∧
      x.2.2 < 10 ^ (20 - x.2.1) ∧
      PlatformEnv.toDecimal value = digitsFrom (20 - x.2.1) x.2.2 digits)
    (fun x => 20 - x.2.1) ⟨[], ⟨rfl, rfl⟩, by simp, ?_, rfl⟩ hsteps ?_
  · simp only
    omega
  · rintro ⟨reverse, n, v⟩ ⟨digits, hdigits, hn, hv, heq⟩
    simp only at hdigits hn hv heq ⊢
    obtain ⟨room, hroom⟩ : ∃ room, 20 - n = room + 1 := ⟨19 - n, by omega⟩
    rw [setItem_eq hn, ok_bind]
    have hset := hdigits.set (48 + v % 10).toUInt8 hn
    rw [hroom, digitsFrom] at heq
    by_cases hlast : v / 10 = 0
    · rw [if_pos hlast]
      rw [if_pos hlast] at heq
      exact ⟨hn, by rwa [heq]⟩
    · rw [if_neg hlast]
      rw [if_neg hlast] at heq
      have hpos : room ≠ 0 := by
        rintro rfl
        rw [hroom] at hv
        omega
      have hroom' : 20 - (n + 1) = room := by omega
      refine ⟨⟨_, hset, by simp only; omega, ?_, ?_⟩, by simp only; omega⟩
      · simp only
        rw [hroom, pow_succ] at hv
        rw [hroom']
        omega
      · simp only
        rw [hroom', heq]

/-- The digits and their NUL fit the 21 bytes they are given. -/
theorem toDecimal_ends {reverse : Vector UInt8 20} {value offset : ℕ} {b : Place}
    (hvalue : value < 2 ^ 64) (hsteps : 20 < steps) (hroom : offset + 21 ≤ b.size) :
    Ends (toDecimal steps m reverse value ⟨.array b, offset⟩)
      (fun m' => m'.Text ⟨.array b, offset⟩ (PlatformEnv.toDecimal value) ∧ m.SameBut b m') E := by
  obtain ⟨before, old, after, hbytes, rfl, hold⟩ := m.bytes_split hroom
  rw [toDecimal]
  refine Ends.bind (reverseDigits_ends hvalue hsteps) ?_
  rintro ⟨reverse, n⟩ ⟨hn, hreversed⟩
  simp only at hn hreversed ⊢
  have hlen := hreversed.1
  have hnul := toDecimal_nul_notMem (n := value) (by simp only [uint64Max]; omega)
  generalize PlatformEnv.toDecimal value = digits at hreversed hlen hnul ⊢
  refine Ends.bind (Ends.forEach
    (fun i m' => m'.bytes b = (before ++ digits.take i) ++ (old.drop i ++ after) ∧ m.SameBut b m')
    ⟨by simpa using hbytes, Memory.SameBut.refl b m⟩ (Nat.zero_le n) (by omega) ?_
    fun m' h => h) ?_
  · rintro i m₁ - hi ⟨hbytes₁, hsame⟩
    obtain ⟨hi', hitem⟩ := hreversed.item hn hi
    rw [sub_eq (by omega), ok_bind, sub_eq (by omega), ok_bind, hitem, ok_bind]
    have hdrop : old.drop i = old[i] :: old.drop (i + 1) := List.drop_eq_getElem_cons (by omega)
    rw [hdrop, List.cons_append] at hbytes₁
    have hindex : (before ++ digits.take i).length = before.length + i := by
      rw [List.length_append, List.length_take]
      omega
    refine Ends.mono (Memory.ends_store hbytes₁ hindex) ?_ fun _ he => he
    rintro m₂ ⟨hbytes₂, hsame₂⟩
    refine ⟨?_, hsame.trans hsame₂⟩
    rw [hbytes₂, List.take_succ_eq_append_getElem hi']
    simp only [List.append_assoc, List.cons_append, List.nil_append]
  · rintro m₁ ⟨hbytes₁, hsame⟩
    obtain ⟨x, rest, hrest⟩ : ∃ x rest, old.drop n = x :: rest :=
      List.exists_cons_of_ne_nil fun hnil => by
        have := congrArg List.length hnil
        rw [List.length_drop, List.length_nil] at this
        omega
    rw [List.take_of_length_le (by omega), hrest, List.cons_append] at hbytes₁
    have hindex : (before ++ digits).length = before.length + n := by
      rw [List.length_append, hlen]
    refine Ends.mono (Memory.ends_store hbytes₁ hindex) ?_ fun _ he => he
    rintro m₂ ⟨hbytes₂, hsame₂⟩
    refine ⟨⟨⟨before, rest ++ after, ?_, rfl⟩, hnul⟩, hsame.trans hsame₂⟩
    change m₂.bytes b = _
    rw [hbytes₂]
    simp

end Writes

/-- Every text has its number, if it has one, and every number its text. -/
theorem decimal_exact (steps : ℕ) (m : Memory) :
    (∀ p s, m.Text p s → s.length < steps → ∃ result, decimal steps m (some p) = .ok result ∧
      ∀ n, result = some n ↔ Numeral s ∧ valueFrom 0 s = n ∧ n < 2 ^ 64) ∧
    (∀ reverse n (b : Place) offset, n < 2 ^ 64 → 20 < steps → offset + 21 ≤ b.size →
      ∃ m' digits, toDecimal steps m reverse n ⟨.array b, offset⟩ = .ok m' ∧
        m'.Text ⟨.array b, offset⟩ digits ∧ digits.length ≤ 20 ∧
        decimal steps m' (some ⟨.array b, offset⟩) = .ok (some n)) := by
  have hread : ∀ m : Memory, ∀ p s, m.Text p s → s.length < steps →
      decimal steps m (some p) = .ok (PlatformEnv.decimal (some s)) := by
    intro m p s htext hlen
    have hopt : OptText m (fun _ => True) (some p) (some s) := .some htext trivial
    have hends : Ends (decimal steps m (some p)) (· = PlatformEnv.decimal (some s)) fun _ => False :=
      decimal_ends hopt fun t ht => Option.some.inj ht ▸ hlen
    obtain ⟨result, hrun, rfl⟩ := hends.value
    exact hrun
  constructor
  · intro p s htext hlen
    exact ⟨_, hread m p s htext hlen, fun n => decimal_iff⟩
  · intro reverse n b offset hn hsteps hroom
    have hle : n ≤ uint64Max := by
      simp only [uint64Max]
      omega
    have hdecimal := decimal_toDecimal hle
    have hlen := length_of_decimal hdecimal
    have hends : Ends (toDecimal steps m reverse n ⟨.array b, offset⟩) _ fun _ => False :=
      toDecimal_ends hn hsteps hroom
    obtain ⟨m', hrun, htext, -⟩ := hends.value
    refine ⟨m', _, hrun, htext, hlen, ?_⟩
    rw [hread m' _ _ htext (by omega), hdecimal]

/-- Memory as a program finds it, when it finds zeros. -/
def blank : Memory := ⟨fun b => List.replicate b.size 0, fun _ => List.length_replicate⟩

theorem decimal_exact_sample : decimal 64 blank (some (lit "42")) = .ok (some 42) ∧
    ∃ m' digits, toDecimal 64 blank (Vector.replicate 20 0) 42 ⟨.array .generation, 0⟩ = .ok m' ∧
      m'.Text ⟨.array .generation, 0⟩ digits ∧ digits.length ≤ 20 ∧
      decimal 64 m' (some ⟨.array .generation, 0⟩) = .ok (some 42) := by
  obtain ⟨hreads, hwrites⟩ := decimal_exact 64 blank
  obtain ⟨result, hrun, hresult⟩ := hreads (lit "42") (ascii "42") (lit_text (by decide)) (by decide)
  have hnumeral : Numeral (ascii "42") := ⟨by decide, by decide +kernel, by decide⟩
  rw [(hresult 42).mpr ⟨hnumeral, rfl, by omega⟩] at hrun
  exact ⟨hrun, hwrites _ 42 .generation 0 (by omega) (by omega) (by decide)⟩

end Epilykos.PlatformEnv.Pointer
