import Mathlib.Algebra.Group.Nat.Defs
import Mathlib.Data.Nat.Notation
import Mathlib.Tactic.TypeStar

/-!
Computations in the manner of C, with everything checked that C does not check. A fault is an
index or a pointer outside of its array, a null pointer used, an array copied onto itself, a
size below zero, a number over its width, or a loop that is still running after the rounds it
was given. So a computation without a fault has none of these, and it ends.
-/

namespace Checked

inductive Fault
  | bounds
  | null
  | overlap
  | negative
  | overflow
  | endless
  deriving DecidableEq, Repr

/-- Why a computation stops before its end: a fault, or the function returns `e`. -/
inductive Stop (ε : Type)
  | fault (f : Fault)
  | returns (e : ε)
  deriving DecidableEq

abbrev Run (ε α : Type) := Except (Stop ε) α

variable {ε α β σ ρ : Type}

def fault (f : Fault) : Run ε α := .error (.fault f)

/-- `if (bad) return e;`. -/
def returnIf (bad : Prop) [Decidable bad] (e : ε) : Run ε Unit :=
  if bad then .error (.returns e) else .ok ()

/-- The value of an optional, or `return e;`. -/
def orReturn (e : ε) : Option α → Run ε α
  | none => .error (.returns e)
  | some a => .ok a

/-- A pointer about to be used. -/
def nonNull : Option α → Run ε α
  | none => fault .null
  | some a => .ok a

/-! ### Numbers and arrays of a fixed size -/

def sub (a b : ℕ) : Run ε ℕ := if b ≤ a then .ok (a - b) else fault .negative

/-- A 64-bit number. -/
def word (n : ℕ) : Run ε ℕ := if n < 2 ^ 64 then .ok n else fault .overflow

def item {n : ℕ} (xs : Vector α n) (i : ℕ) : Run ε α :=
  if h : i < n then .ok xs[i] else fault .bounds

def setItem {n : ℕ} (xs : Vector α n) (i : ℕ) (x : α) : Run ε (Vector α n) :=
  if h : i < n then .ok (xs.set i x) else fault .bounds

/-! ### Loops -/

/-- What a round of a loop leads to: the next round, or a value that leaves the loop. -/
inductive Round (σ ρ : Type)
  | next (s : σ)
  | exit (r : ρ)

def loop (steps : ℕ) (body : σ → Run ε (Round σ ρ)) (s : σ) : Run ε ρ :=
  match steps with
  | 0 => fault .endless
  | steps + 1 => do
    match ← body s with
    | .next s => loop steps body s
    | .exit r => return r

/-- `for (i = start; i < stop; ++i)`, left early with a value by some rounds. -/
def search (steps start stop : ℕ) (body : ℕ → σ → Run ε (Round σ ρ)) (s : σ) :
    Run ε (Round σ ρ) :=
  loop steps (fun x => do
    if x.1 < stop then
      match ← body x.1 x.2 with
      | .next s => return .next (x.1 + 1, s)
      | .exit r => return .exit (.exit r)
    else return .exit (.next x.2)) (start, s)

/-- `for (i = start; i < stop; ++i)`, left early by a return of the function only. -/
def forEach (steps start stop : ℕ) (body : ℕ → σ → Run ε σ) (s : σ) : Run ε σ :=
  loop steps (fun x => do
    if x.1 < stop then return .next (x.1 + 1, ← body x.1 x.2)
    else return .exit x.2) (start, s)

/-! ### What a computation ends with -/

/-- No fault: the computation ends with a value in `Q`, or the function returns one in `E`. -/
def Ends (x : Run ε α) (Q : α → Prop) (E : ε → Prop) : Prop :=
  match x with
  | .ok a => Q a
  | .error (.returns e) => E e
  | .error (.fault _) => False

/-- No fault, and nothing more. -/
def Faultless (x : Run ε α) : Prop := Ends x (fun _ => True) fun _ => True

section Rules

variable {Q : α → Prop} {E : ε → Prop}

@[simp] theorem ok_bind {a : α} {f : α → Run ε β} : ((.ok a : Run ε α) >>= f) = f a := rfl

@[simp] theorem returns_bind {e : ε} {f : α → Run ε β} :
    ((.error (.returns e) : Run ε α) >>= f) = .error (.returns e) := rfl

@[simp] theorem ends_ok {a : α} : Ends (.ok a : Run ε α) Q E ↔ Q a := Iff.rfl

@[simp] theorem ends_pure {a : α} : Ends (pure a : Run ε α) Q E ↔ Q a := Iff.rfl

@[simp] theorem ends_returns {e : ε} : Ends (.error (.returns e) : Run ε α) Q E ↔ E e := Iff.rfl

theorem ends_bind {x : Run ε α} {f : α → Run ε β} {Q : β → Prop} :
    Ends (x >>= f) Q E ↔ Ends x (fun a => Ends (f a) Q E) E := by
  cases x with
  | ok a => exact Iff.rfl
  | error e => cases e <;> exact Iff.rfl

theorem Ends.bind {x : Run ε α} {f : α → Run ε β} {Q : β → Prop} {P : α → Prop}
    (hx : Ends x P E) (hf : ∀ a, P a → Ends (f a) Q E) : Ends (x >>= f) Q E := by
  cases x with
  | ok a => exact hf a hx
  | error e => cases e <;> exact hx

theorem Ends.mono {x : Run ε α} {Q' : α → Prop} {E' : ε → Prop} (h : Ends x Q E)
    (hQ : ∀ a, Q a → Q' a) (hE : ∀ e, E e → E' e) : Ends x Q' E' := by
  cases x with
  | ok a => exact hQ a h
  | error e =>
    cases e with
    | fault f => exact h
    | returns e => exact hE e h

/-- A step with a spec of its own for what it returns. -/
theorem Ends.step {x : Run ε α} {f : α → Run ε β} {Q : β → Prop} {P : α → Prop} {E' : ε → Prop}
    (hx : Ends x P E') (hE : ∀ e, E' e → E e) (hf : ∀ a, P a → Ends (f a) Q E) :
    Ends (x >>= f) Q E := (hx.mono (fun _ h => h) hE).bind hf

theorem Ends.and {x : Run ε α} {Q' : α → Prop} {E' : ε → Prop} (h : Ends x Q E)
    (h' : Ends x Q' E') : Ends x (fun a => Q a ∧ Q' a) (fun e => E e ∧ E' e) := by
  cases x with
  | ok a => exact ⟨h, h'⟩
  | error e =>
    cases e with
    | fault f => exact h
    | returns e => exact ⟨h, h'⟩

theorem Ends.faultless {x : Run ε α} (h : Ends x Q E) : Faultless x :=
  h.mono (fun _ _ => trivial) fun _ _ => trivial

/-- Without a return either, there is a value. -/
theorem Ends.value {x : Run ε α} (h : Ends x Q fun _ => False) : ∃ a, x = .ok a ∧ Q a := by
  cases x with
  | ok a => exact ⟨a, rfl, h⟩
  | error e => cases e <;> exact h.elim

@[simp] theorem ends_returnIf {bad : Prop} [Decidable bad] {e : ε} {Q : Unit → Prop} :
    Ends (returnIf bad e) Q E ↔ (bad → E e) ∧ (¬ bad → Q ()) := by
  by_cases h : bad <;> simp [returnIf, h]

theorem returnIf_pos {bad : Prop} [Decidable bad] {e : ε} (h : bad) :
    returnIf bad e = .error (.returns e) := if_pos h

theorem returnIf_neg {bad : Prop} [Decidable bad] {e : ε} (h : ¬ bad) :
    returnIf bad e = .ok () := if_neg h

@[simp] theorem orReturn_some {e : ε} {a : α} : orReturn e (some a) = .ok a := rfl

@[simp] theorem nonNull_some {a : α} : (nonNull (some a) : Run ε α) = .ok a := rfl

theorem sub_eq {a b : ℕ} (h : b ≤ a) : (sub a b : Run ε ℕ) = .ok (a - b) := if_pos h

theorem word_eq {n : ℕ} (h : n < 2 ^ 64) : (word n : Run ε ℕ) = .ok n := if_pos h

theorem item_eq {n i : ℕ} {xs : Vector α n} (h : i < n) : (item xs i : Run ε α) = .ok xs[i] :=
  dif_pos h

theorem setItem_eq {n i : ℕ} {xs : Vector α n} {x : α} (h : i < n) :
    (setItem xs i x : Run ε (Vector α n)) = .ok (xs.set i x) := dif_pos h

/-- A loop ends when every round that goes on keeps the invariant and comes down a measure
that starts below the number of rounds. -/
theorem Ends.loop {steps : ℕ} {body : σ → Run ε (Round σ ρ)} {s : σ} {Q : ρ → Prop}
    (I : σ → Prop) (μ : σ → ℕ) (hs : I s) (hsteps : μ s < steps)
    (hbody : ∀ s, I s → Ends (body s)
      (fun | .next s' => I s' ∧ μ s' < μ s | .exit r => Q r) E) :
    Ends (loop steps body s) Q E := by
  induction steps generalizing s with
  | zero => omega
  | succ steps ih =>
    refine Ends.bind (hbody s hs) ?_
    intro round hround
    cases round with
    | next s' => exact ih hround.1 (by have := hround.2; omega)
    | exit r => exact hround

theorem Ends.search {steps start stop : ℕ} {body : ℕ → σ → Run ε (Round σ ρ)} {s : σ}
    {Q : Round σ ρ → Prop} (I : ℕ → σ → Prop) (hs : I start s) (hle : start ≤ stop)
    (hsteps : stop - start < steps)
    (hbody : ∀ i s, start ≤ i → i < stop → I i s → Ends (body i s)
      (fun | .next s' => I (i + 1) s' | .exit r => Q (.exit r)) E)
    (hstop : ∀ s, I stop s → Q (.next s)) :
    Ends (search steps start stop body s) Q E := by
  refine Ends.loop (fun x => start ≤ x.1 ∧ x.1 ≤ stop ∧ I x.1 x.2) (fun x => stop - x.1)
    ⟨Nat.le_refl _, hle, hs⟩ hsteps ?_
  rintro ⟨i, s⟩ ⟨hstart, hstop', hI⟩
  by_cases hi : i < stop
  · simp only [if_pos hi]
    refine Ends.bind (hbody i s hstart hi hI) ?_
    intro round hround
    cases round with
    | next s' => exact ⟨⟨by omega, by omega, hround⟩, by simp only; omega⟩
    | exit r => exact hround
  · simp only [if_neg hi]
    obtain rfl : i = stop := by simp only at hstop'; omega
    exact hstop s hI

theorem Ends.forEach {steps start stop : ℕ} {body : ℕ → σ → Run ε σ} {s : σ} {Q : σ → Prop}
    (I : ℕ → σ → Prop) (hs : I start s) (hle : start ≤ stop) (hsteps : stop - start < steps)
    (hbody : ∀ i s, start ≤ i → i < stop → I i s → Ends (body i s) (I (i + 1)) E)
    (hstop : ∀ s, I stop s → Q s) : Ends (forEach steps start stop body s) Q E := by
  refine Ends.loop (fun x => start ≤ x.1 ∧ x.1 ≤ stop ∧ I x.1 x.2) (fun x => stop - x.1)
    ⟨Nat.le_refl _, hle, hs⟩ hsteps ?_
  rintro ⟨i, s⟩ ⟨hstart, hstop', hI⟩
  by_cases hi : i < stop
  · simp only [if_pos hi]
    refine Ends.bind (hbody i s hstart hi hI) ?_
    intro s' hs'
    exact ⟨⟨by omega, by omega, hs'⟩, by simp only; omega⟩
  · simp only [if_neg hi]
    obtain rfl : i = stop := by simp only at hstop'; omega
    exact hstop s hI

/-! ### Loops over what a list says -/

variable {l : List α} {p : α → Bool}

/-- A search that looks at the elements of a list finds the first that passes. -/
theorem Ends.searchList {steps : ℕ} {body : ℕ → Unit → Run ε (Round Unit ρ)} (P : α → ρ → Prop)
    (hsteps : l.length < steps)
    (hbody : ∀ i (h : i < l.length), Ends (body i ())
      (fun | .next _ => p l[i] = false | .exit r => p l[i] = true ∧ P l[i] r) E) :
    Ends (Checked.search steps 0 l.length body ())
      (fun | .next _ => l.find? p = none | .exit r => ∃ x, l.find? p = some x ∧ P x r) E := by
  refine Ends.search (fun i _ => ∀ j (hj : j < l.length), j < i → p l[j] = false)
    (fun j _ hlt => absurd hlt (Nat.not_lt_zero j)) (Nat.zero_le _) (by omega) ?_ ?_
  · rintro i ⟨⟩ - hi hbefore
    refine (hbody i hi).mono ?_ fun _ he => he
    rintro (⟨⟨⟩⟩ | r) hr
    · intro j hj hlt
      rcases Nat.lt_succ_iff_lt_or_eq.mp hlt with hlt | rfl
      · exact hbefore j hj hlt
      · exact hr
    · refine ⟨l[i], List.find?_eq_some_iff_getElem.mpr ⟨hr.1, i, hi, rfl, fun j hj => ?_⟩, hr.2⟩
      rw [hbefore j (by omega) hj]
      rfl
  · intro _ hnone
    refine List.find?_eq_none.mpr fun x hx => ?_
    obtain ⟨j, hj, rfl⟩ := List.getElem_of_mem hx
    rw [hnone j hj hj]
    exact Bool.false_ne_true

/-- A loop that refuses some elements of a list refuses the list when it has one of them. -/
theorem Ends.checkList {steps start stop : ℕ} {body : ℕ → Unit → Run ε Unit}
    (hstop : stop = start + l.length) (hsteps : l.length < steps)
    (hbody : ∀ i (h : i < l.length), Ends (body (start + i) ()) (fun _ => p l[i] = false)
      (fun e => E e ∧ p l[i] = true)) :
    Ends (Checked.forEach steps start stop body ()) (fun _ => l.any p = false)
      (fun e => E e ∧ l.any p = true) := by
  subst hstop
  refine Ends.forEach (fun i _ => ∀ j (hj : j < l.length), start + j < i → p l[j] = false)
    (fun j _ hlt => by omega) (by omega) (by omega) ?_ ?_
  · rintro i ⟨⟩ hle hi hbefore
    obtain ⟨k, rfl⟩ : ∃ k, i = start + k := ⟨i - start, by omega⟩
    have hk : k < l.length := by omega
    refine (hbody k hk).mono ?_ ?_
    · intro _ hgood j hj hlt
      by_cases heq : j = k
      · subst heq
        exact hgood
      · exact hbefore j hj (by omega)
    · exact fun e he => ⟨he.1, List.any_eq_true.mpr ⟨l[k], List.getElem_mem hk, he.2⟩⟩
  · intro _ hall
    refine List.any_eq_false.mpr fun x hx => ?_
    obtain ⟨j, hj, rfl⟩ := List.getElem_of_mem hx
    rw [hall j hj (by omega)]
    exact Bool.false_ne_true

/-- A loop that takes up the elements of a list one after the other. -/
theorem Ends.forEachList {steps : ℕ} {body : ℕ → σ → Run ε σ} {s : σ} {Q : σ → Prop}
    (I : List α → σ → Prop) (hs : I l s) (hsteps : l.length < steps)
    (hbody : ∀ i (h : i < l.length) rest s, I (l[i] :: rest) s → Ends (body i s) (I rest) E)
    (hstop : ∀ s, I [] s → Q s) : Ends (Checked.forEach steps 0 l.length body s) Q E := by
  refine Ends.forEach (fun i s => I (l.drop i) s) hs (Nat.zero_le _) (by omega) ?_ ?_
  · intro i s _ hi hI
    rw [List.drop_eq_getElem_cons hi] at hI
    exact hbody i hi _ s hI
  · intro s hI
    rw [List.drop_length] at hI
    exact hstop s hI

end Rules

end Checked
