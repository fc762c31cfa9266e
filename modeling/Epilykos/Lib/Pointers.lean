import Epilykos.Lib.Checked
import Mathlib.Data.List.GetD
import Mathlib.Logic.Function.Basic

/-!
Arrays of bytes, pointers into them, and the functions of string.h that read and write there.
An array has the size its name says; a literal is a string of the program, read only. A
pointer may stand anywhere in its array and right behind it. Functions that look at a string
or at some number of bytes check all of them, wherever they would stop.
-/

namespace Checked

/-- The arrays of the program, named by `β`, and its literals. -/
inductive Block (β : Type)
  | literal (text : List UInt8)
  | array (b : β)
  deriving DecidableEq

structure Ptr (β : Type) where
  block : Block β
  offset : ℕ
  deriving DecidableEq

structure Memory (β : Type) (size : β → ℕ) where
  bytes : β → List UInt8
  sized : ∀ b, (bytes b).length = size b

variable {ε β : Type} {size : β → ℕ}

/-- A string of the program. -/
def Ptr.literal (text : List UInt8) : Ptr β := ⟨.literal text, 0⟩

/-- `p - q`, of two pointers into one array. -/
def Ptr.distance [DecidableEq β] (p q : Ptr β) : Run ε ℕ :=
  if p.block = q.block then sub p.offset q.offset else fault .bounds

theorem Ptr.distance_eq [DecidableEq β] {b : Block β} {i j : ℕ} (h : j ≤ i) :
    (Ptr.distance ⟨b, i⟩ ⟨b, j⟩ : Run ε ℕ) = .ok (i - j) := by
  rw [distance, if_pos rfl, sub_eq h]

namespace Memory

def block (m : Memory β size) : Block β → List UInt8
  | .literal text => text ++ [0]
  | .array b => m.bytes b

/-! ### Reading -/

def load (m : Memory β size) (p : Ptr β) (i : ℕ) : Run ε UInt8 :=
  match (m.block p.block)[p.offset + i]? with
  | some c => .ok c
  | none => fault .bounds

/-- `p + n`. -/
def advance (m : Memory β size) (p : Ptr β) (n : ℕ) : Run ε (Ptr β) :=
  if p.offset + n ≤ (m.block p.block).length then .ok ⟨p.block, p.offset + n⟩ else fault .bounds

/-- The `n` bytes from `p` on. -/
def region (m : Memory β size) (p : Ptr β) (n : ℕ) : Run ε (List UInt8) :=
  if p.offset + n ≤ (m.block p.block).length then
    .ok (((m.block p.block).drop p.offset).take n)
  else fault .bounds

/-- The characters from `p` up to a NUL. -/
def string (m : Memory β size) (p : Ptr β) : Run ε (List UInt8) :=
  if 0 ∈ (m.block p.block).drop p.offset then
    .ok (((m.block p.block).drop p.offset).takeWhile (· != 0))
  else fault .bounds

def strlen (m : Memory β size) (p : Ptr β) : Run ε ℕ := do return (← m.string p).length

/-- Whether `strcmp` finds a difference. -/
def strcmp (m : Memory β size) (p q : Ptr β) : Run ε Bool := do
  return (← m.string p) != (← m.string q)

/-- Whether `strncmp` finds a difference. -/
def strncmp (m : Memory β size) (p q : Ptr β) (n : ℕ) : Run ε Bool := do
  return (← m.string p).take n != (← m.string q).take n

/-- Whether `memcmp` finds a difference. -/
def memcmp (m : Memory β size) (p q : Ptr β) (n : ℕ) : Run ε Bool := do
  return (← m.region p n) != (← m.region q n)

def memchr (m : Memory β size) (p : Ptr β) (c : UInt8) (n : ℕ) : Run ε (Option (Ptr β)) := do
  return ((← m.region p n).idxOf? c).map fun i => ⟨p.block, p.offset + i⟩

/-! ### Writing -/

section Writing

variable [DecidableEq β]

theorem write_sized (m : Memory β size) (b : β) (offset : ℕ) (xs : List UInt8)
    (h : offset + xs.length ≤ (m.bytes b).length) (c : β) :
    (Function.update m.bytes b
      ((m.bytes b).take offset ++ xs ++ (m.bytes b).drop (offset + xs.length)) c).length =
        size c := by
  by_cases hc : c = b
  · subst hc
    rw [Function.update_self, ← m.sized c]
    simp only [List.length_append, List.length_take, List.length_drop]
    omega
  · rw [Function.update_of_ne hc]
    exact m.sized c

def write (m : Memory β size) (p : Ptr β) (xs : List UInt8) : Run ε (Memory β size) :=
  match p.block with
  | .literal _ => fault .bounds
  | .array b =>
    if h : p.offset + xs.length ≤ (m.bytes b).length then
      .ok ⟨_, m.write_sized b p.offset xs h⟩
    else fault .bounds

/-- `p[i] = c`. -/
def store (m : Memory β size) (p : Ptr β) (i : ℕ) (c : UInt8) : Run ε (Memory β size) :=
  m.write ⟨p.block, p.offset + i⟩ [c]

@[irreducible] def memset (m : Memory β size) (p : Ptr β) (c : UInt8) (n : ℕ) : Run ε (Memory β size) :=
  m.write p (List.replicate n c)

def memcpy (m : Memory β size) (p q : Ptr β) (n : ℕ) : Run ε (Memory β size) := do
  if p.block = q.block then fault .overlap
  else m.write p (← m.region q n)

end Writing

/-! ### What stands at a pointer -/

/-- The array holds `s` from the pointer on. -/
def At (m : Memory β size) (p : Ptr β) (s : List UInt8) : Prop :=
  ∃ before after, m.block p.block = before ++ s ++ after ∧ before.length = p.offset

/-- The pointer is a C string. -/
structure Text (m : Memory β size) (p : Ptr β) (s : List UInt8) : Prop where
  at_nul : m.At p (s ++ [0])
  noNul : 0 ∉ s

variable {m : Memory β size} {p q : Ptr β} {s t : List UInt8}

theorem at_iff : m.At p s ↔ p.offset + s.length ≤ (m.block p.block).length ∧
    ((m.block p.block).drop p.offset).take s.length = s := by
  constructor
  · rintro ⟨before, after, heq, hlen⟩
    rw [heq, ← hlen, List.append_assoc, List.drop_left, List.take_left]
    refine ⟨?_, rfl⟩
    simp only [List.length_append]
    omega
  · rintro ⟨hle, heq⟩
    refine ⟨(m.block p.block).take p.offset,
      ((m.block p.block).drop p.offset).drop s.length, ?_, ?_⟩
    · have hrest := List.take_append_drop s.length ((m.block p.block).drop p.offset)
      rw [heq] at hrest
      rw [List.append_assoc, hrest, List.take_append_drop]
    · rw [List.length_take]
      omega

theorem at_bytes (m : Memory β size) (b : β) : m.At ⟨.array b, 0⟩ (m.bytes b) :=
  ⟨[], [], by simp [block], rfl⟩

theorem advance_array {b : β} {offset n : ℕ} (h : offset + n ≤ size b) :
    (m.advance ⟨.array b, offset⟩ n : Run ε (Ptr β)) = .ok ⟨.array b, offset + n⟩ := by
  rw [← m.sized b] at h
  exact if_pos h

theorem At.left (h : m.At p (s ++ t)) : m.At p s := by
  obtain ⟨before, after, heq, hlen⟩ := h
  exact ⟨before, t ++ after, by rw [heq]; simp, hlen⟩

theorem At.right (h : m.At p (s ++ t)) : m.At ⟨p.block, p.offset + s.length⟩ t := by
  obtain ⟨before, after, heq, hlen⟩ := h
  exact ⟨before ++ s, after, by simpa using heq, by simp [hlen]⟩

theorem At.le (h : m.At p s) : p.offset + s.length ≤ (m.block p.block).length := (at_iff.mp h).1

theorem At.le_size {b : β} (h : m.At p s) (hb : p.block = .array b) :
    p.offset + s.length ≤ size b := by
  have hle := h.le
  rw [hb] at hle
  exact le_of_le_of_eq hle (m.sized b)

theorem At.load {c : UInt8} (h : m.At p (s ++ c :: t)) : (m.load p s.length : Run ε UInt8) = .ok c := by
  obtain ⟨before, after, heq, hlen⟩ := h
  have hget : (m.block p.block)[p.offset + s.length]? = some c := by
    rw [heq, ← hlen, List.append_assoc, List.getElem?_append_right (by omega),
      Nat.add_sub_cancel_left, List.append_assoc, List.getElem?_append_right (by omega)]
    simp
  rw [Memory.load, hget]

theorem At.load_zero {c : UInt8} (h : m.At p (c :: t)) : (m.load p 0 : Run ε UInt8) = .ok c :=
  At.load (s := []) h

theorem At.load_get (h : m.At p s) {i : ℕ} (hi : i < s.length) :
    (m.load p i : Run ε UInt8) = .ok s[i] := by
  have hsplit : s = s.take i ++ s[i] :: s.drop (i + 1) := by
    rw [List.getElem_cons_drop, List.take_append_drop]
  have hlen : (s.take i).length = i := by
    rw [List.length_take]
    omega
  rw [hsplit] at h
  have hload := h.load (ε := ε)
  rwa [hlen] at hload

theorem At.advance (h : m.At p s) {n : ℕ} (hn : n ≤ s.length) :
    (m.advance p n : Run ε (Ptr β)) = .ok ⟨p.block, p.offset + n⟩ := by
  have hle := h.le
  exact if_pos (by omega)

theorem At.region (h : m.At p (s ++ t)) : (m.region p s.length : Run ε (List UInt8)) = .ok s := by
  obtain ⟨hle, heq⟩ := at_iff.mp h.left
  rw [Memory.region, if_pos hle, heq]

theorem At.whole (h : m.At p s) : (m.region p s.length : Run ε (List UInt8)) = .ok s :=
  At.region (t := []) (by rwa [List.append_nil])

theorem Text.string (h : m.Text p s) : (m.string p : Run ε (List UInt8)) = .ok s := by
  obtain ⟨before, after, heq, hlen⟩ := h.at_nul
  have hdrop : (m.block p.block).drop p.offset = s ++ 0 :: after := by
    rw [heq, ← hlen, List.append_assoc, List.drop_left, List.append_assoc]
    rfl
  have htake : (s ++ 0 :: after).takeWhile (· != 0) = s := by
    rw [List.takeWhile_append_of_pos]
    · simp
    · intro c hc
      simpa using fun hzero : c = 0 => h.noNul (hzero ▸ hc)
  rw [Memory.string, hdrop, if_pos (by simp), htake]

theorem Text.strlen (h : m.Text p s) : (m.strlen p : Run ε ℕ) = .ok s.length := by
  rw [Memory.strlen, h.string]
  rfl

theorem Text.strcmp (h : m.Text p s) (h' : m.Text q t) :
    (m.strcmp p q : Run ε Bool) = .ok (s != t) := by
  rw [Memory.strcmp, h.string, h'.string]
  rfl

theorem Text.strncmp (h : m.Text p s) (h' : m.Text q t) (n : ℕ) :
    (m.strncmp p q n : Run ε Bool) = .ok (s.take n != t.take n) := by
  rw [Memory.strncmp, h.string, h'.string]
  rfl

theorem text_literal (h : 0 ∉ s) : m.Text (.literal s) s :=
  ⟨⟨[], [], by simp [Ptr.literal, block], rfl⟩, h⟩

theorem At.memcmp {n : ℕ} (h : m.At p s) (h' : m.At q t) (hs : s.length = n)
    (ht : t.length = n) : (m.memcmp p q n : Run ε Bool) = .ok (s != t) := by
  have hp := h.whole (ε := ε)
  have hq := h'.whole (ε := ε)
  rw [hs] at hp
  rw [ht] at hq
  rw [Memory.memcmp, hp, hq]
  rfl

theorem idxOf?_append_cons {c : UInt8} (hc : c ∉ s) : (s ++ c :: t).idxOf? c = some s.length := by
  induction s with
  | nil => simp [List.idxOf?_cons]
  | cons d s ih =>
    rw [List.mem_cons, not_or] at hc
    have hd : (d == c) = false := beq_eq_false_iff_ne.mpr (Ne.symm hc.1)
    rw [List.cons_append, List.idxOf?_cons, hd, ih hc.2]
    rfl

theorem At.memchr_some {c : UInt8} {n : ℕ} (h : m.At p (s ++ c :: t))
    (hn : n = (s ++ c :: t).length) (hc : c ∉ s) :
    (m.memchr p c n : Run ε (Option (Ptr β))) = .ok (some ⟨p.block, p.offset + s.length⟩) := by
  rw [Memory.memchr, hn, h.whole, ok_bind, idxOf?_append_cons hc]
  rfl

theorem At.memchr_none {c : UInt8} {n : ℕ} (h : m.At p s) (hn : n = s.length) (hc : c ∉ s) :
    (m.memchr p c n : Run ε (Option (Ptr β))) = .ok none := by
  have hidx : s.idxOf? c = none := List.idxOf?_eq_none_iff.mpr hc
  rw [Memory.memchr, hn, h.whole, ok_bind, hidx]
  rfl

theorem Text.load_getD (h : m.Text p s) {i : ℕ} (hi : i < s.length) :
    (m.load p i : Run ε UInt8) = .ok (s.getD i 0) := by
  have hload := h.at_nul.load_get (ε := ε) (i := i) (by rw [List.length_append]; omega)
  rw [hload, List.getD_eq_getElem _ _ hi, List.getElem_append_left hi]

/-- An array around a place in it. -/
theorem bytes_split (m : Memory β size) {b : β} {offset n : ℕ} (h : offset + n ≤ size b) :
    ∃ before old after, m.bytes b = before ++ old ++ after ∧ before.length = offset ∧
      old.length = n := by
  have hsize := m.sized b
  refine ⟨(m.bytes b).take offset, ((m.bytes b).drop offset).take n,
    ((m.bytes b).drop offset).drop n, ?_, ?_, ?_⟩
  · rw [List.append_assoc, List.take_append_drop, List.take_append_drop]
  · rw [List.length_take]
    omega
  · rw [List.length_take, List.length_drop]
    omega

/-! ### What writing leaves -/

/-- All arrays but one are as they were. -/
def SameBut (b : β) (m m' : Memory β size) : Prop := ∀ c, c ≠ b → m'.bytes c = m.bytes c

variable {m' m'' : Memory β size} {b : β}

theorem SameBut.refl (b : β) (m : Memory β size) : SameBut b m m := fun _ _ => rfl

theorem SameBut.trans (h : SameBut b m m') (h' : SameBut b m' m'') : SameBut b m m'' :=
  fun c hc => (h' c hc).trans (h c hc)

theorem SameBut.block (h : SameBut b m m') {c : Block β} (hc : c ≠ .array b) :
    m'.block c = m.block c := by
  cases c with
  | literal text => rfl
  | array c => exact h c fun heq => hc (congrArg Block.array heq)

theorem SameBut.at (h : SameBut b m m') (hp : p.block ≠ .array b) (hs : m.At p s) : m'.At p s := by
  rw [At, h.block hp]
  exact hs

theorem SameBut.text (h : SameBut b m m') (hp : p.block ≠ .array b) (hs : m.Text p s) :
    m'.Text p s := ⟨h.at hp hs.at_nul, hs.noNul⟩

section Written

variable [DecidableEq β] {before old after : List UInt8} {E : ε → Prop}

theorem ends_write (h : m.bytes b = before ++ old ++ after) (hlen : old.length = s.length) :
    Ends (m.write ⟨.array b, before.length⟩ s)
      (fun m' => m'.bytes b = before ++ s ++ after ∧ SameBut b m m') E := by
  have hfits : before.length + s.length ≤ (m.bytes b).length := by
    rw [h]
    simp only [List.length_append]
    omega
  have hwrite : (m.write ⟨.array b, before.length⟩ s : Run ε _) =
      .ok ⟨_, m.write_sized b before.length s hfits⟩ := dif_pos hfits
  rw [hwrite]
  refine ⟨?_, fun c hc => Function.update_of_ne hc _ _⟩
  change Function.update m.bytes b _ b = _
  have htake : (m.bytes b).take before.length = before := by
    rw [h, List.append_assoc, List.take_left]
  have hdrop : (m.bytes b).drop (before.length + s.length) = after := by
    rw [h, ← hlen, ← List.length_append, List.drop_left]
  rw [Function.update_self, htake, hdrop]

theorem ends_store {x c : UInt8} {offset i : ℕ} (h : m.bytes b = before ++ x :: after)
    (hi : before.length = offset + i) :
    Ends (m.store ⟨.array b, offset⟩ i c)
      (fun m' => m'.bytes b = before ++ c :: after ∧ SameBut b m m') E := by
  have hsplit : m.bytes b = before ++ [x] ++ after := by simpa using h
  have hwrite := ends_write (ε := ε) (E := E) (s := [c]) hsplit rfl
  rw [hi] at hwrite
  refine Ends.mono hwrite ?_ fun _ he => he
  rintro m' ⟨hbytes, hsame⟩
  exact ⟨by simpa using hbytes, hsame⟩

theorem ends_memcpy {n : ℕ} (h : m.bytes b = before ++ old ++ after) (hs : m.At q (s ++ t))
    (hq : q.block ≠ .array b) (hold : old.length = n) (hlen : s.length = n) :
    Ends (m.memcpy ⟨.array b, before.length⟩ q n)
      (fun m' => m'.bytes b = before ++ s ++ after ∧ SameBut b m m') E := by
  rw [memcpy, if_neg (Ne.symm hq), ← hlen, hs.region]
  exact ends_write h (by omega)

theorem ends_memset {c : UInt8} {n : ℕ} (h : size b = n) :
    Ends (m.memset ⟨.array b, 0⟩ c n)
      (fun m' => m'.bytes b = List.replicate n c ∧ SameBut b m m') E := by
  have hbytes : m.bytes b = [] ++ m.bytes b ++ [] := by simp
  have hlen : (m.bytes b).length = (List.replicate n c).length := by
    rw [m.sized b, h, List.length_replicate]
  have hwrite := ends_write (ε := ε) (E := E) hbytes hlen
  rw [List.nil_append, List.append_nil] at hwrite
  rw [memset]
  exact hwrite

end Written

end Memory

end Checked
