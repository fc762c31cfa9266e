import Mathlib.Logic.Relation
import Mathlib.Data.Nat.Notation

/-!
Programs that reach the outside world only through calls. A program is a finite tree: it
returns, raises, or makes one call and goes on with the answer. One text serves every
reading of it: run to its end, cut at any call, or interleaved with other parties.
Nothing here depends on what the calls are or do.
-/

namespace Program

/-- The calls a program may make, each with the type of its answers. -/
structure Interface where
  Call : Type
  Ans : Call → Type

inductive Prog (F : Interface) (ε α : Type) : Type
  | ret (a : α) : Prog F ε α
  | raise (e : ε) : Prog F ε α
  | call (c : F.Call) (k : F.Ans c → Prog F ε α) : Prog F ε α

/-- What a call may do: from one state, with one answer, to the next state. -/
abbrev Behaviour (F : Interface) (σ : Type) :=
  σ → (c : F.Call) → F.Ans c → σ → Prop

variable {F : Interface} {ε ε' α β σ : Type}

namespace Prog

def bind : Prog F ε α → (α → Prog F ε β) → Prog F ε β
  | ret a, f => f a
  | raise e, _ => raise e
  | call c k, f => call c (fun x => bind (k x) f)

/-- The handler may raise exceptions of its own type. -/
def tryCatch : Prog F ε α → (ε → Prog F ε' α) → Prog F ε' α
  | ret a, _ => ret a
  | raise e, h => h e
  | call c k, h => call c (fun x => tryCatch (k x) h)

/-- Run the clean-up whether the body returns or raises. -/
def ensure : Prog F ε α → Prog F ε Unit → Prog F ε α
  | ret a, fin => fin.bind (fun _ => ret a)
  | raise e, fin => fin.bind (fun _ => raise e)
  | call c k, fin => call c (fun x => ensure (k x) fin)

/-- A single call. -/
def perform (c : F.Call) : Prog F ε (F.Ans c) := call c ret

def ofExcept : Except ε α → Prog F ε α
  | .ok a => ret a
  | .error e => raise e

instance : Monad (Prog F ε) where
  pure := ret
  bind := bind

instance : MonadExceptOf ε (Prog F ε) where
  throw := raise
  tryCatch := tryCatch

/-- `if bad: raise e`, and on. -/
def raiseIf (bad : Prop) [Decidable bad] (e : ε) : Prog F ε Unit :=
  if bad then raise e else ret ()

/-- `if cond: p`, and on. -/
def when (cond : Prop) [Decidable cond] (p : Prog F ε Unit) : Prog F ε Unit :=
  if cond then p else ret ()

@[simp] theorem when_pos {cond : Prop} [Decidable cond] {p : Prog F ε Unit} (h : cond) :
    when cond p = p := if_pos h

@[simp] theorem when_neg {cond : Prop} [Decidable cond] {p : Prog F ε Unit} (h : ¬ cond) :
    when cond p = ret () := if_neg h

@[simp] theorem raiseIf_pos {bad : Prop} [Decidable bad] {e : ε} (h : bad) :
    (raiseIf bad e : Prog F ε Unit) = raise e := if_pos h

@[simp] theorem raiseIf_neg {bad : Prop} [Decidable bad] {e : ε} (h : ¬ bad) :
    (raiseIf bad e : Prog F ε Unit) = ret () := if_neg h

@[simp] theorem pure_eq (a : α) : (pure a : Prog F ε α) = ret a := rfl

@[simp] theorem throw_eq (e : ε) : (throw e : Prog F ε α) = raise e := rfl

@[simp] theorem ret_bind (a : α) (f : α → Prog F ε β) : (ret a >>= f) = f a := rfl

@[simp] theorem raise_bind (e : ε) (f : α → Prog F ε β) :
    ((raise e : Prog F ε α) >>= f) = raise e := rfl

@[simp] theorem call_bind (c : F.Call) (k : F.Ans c → Prog F ε α) (f : α → Prog F ε β) :
    (call c k >>= f) = call c (fun x => k x >>= f) := rfl

@[simp] theorem bind_ret (a : α) (f : α → Prog F ε β) : (ret a).bind f = f a := rfl

@[simp] theorem bind_raise (e : ε) (f : α → Prog F ε β) : (raise e).bind f = raise e := rfl

@[simp] theorem tryCatch_ret (a : α) (f : ε → Prog F ε' α) :
    (ret a : Prog F ε α).tryCatch f = ret a := rfl

@[simp] theorem tryCatch_raise (e : ε) (f : ε → Prog F ε' α) :
    (raise e : Prog F ε α).tryCatch f = f e := rfl

theorem bind_assoc {γ : Type} (p : Prog F ε α) (f : α → Prog F ε β) (g : β → Prog F ε γ) :
    ((p >>= f) >>= g) = (p >>= fun a => f a >>= g) := by
  induction p with
  | ret a => rfl
  | raise e => rfl
  | call c k ih => exact congrArg (call c) (funext ih)

theorem bind_ret_self (p : Prog F ε α) : (p >>= ret) = p := by
  induction p with
  | ret a => rfl
  | raise e => rfl
  | call c k ih => exact congrArg (call c) (funext ih)

@[simp] theorem perform_bind (c : F.Call) (f : F.Ans c → Prog F ε β) :
    (perform c >>= f) = call c f := rfl

@[simp] theorem ofExcept_ok (a : α) : (ofExcept (.ok a) : Prog F ε α) = ret a := rfl

@[simp] theorem ofExcept_error (e : ε) : (ofExcept (.error e) : Prog F ε α) = raise e := rfl

end Prog

open Prog

/-! ### Runs -/

/-- One call of the program, answered as the behaviour allows, after the others have moved
the state within the rely. -/
inductive Step (rely : σ → σ → Prop) (W : Behaviour F σ) :
    σ × Prog F ε α → σ × Prog F ε α → Prop
  | call {s s₁ s₂ : σ} {c : F.Call} {k : F.Ans c → Prog F ε α} {a : F.Ans c} :
      rely s s₁ → W s₁ c a s₂ → Step rely W (s, .call c k) (s₂, k a)

/-- Any number of calls: a run of the program, or a prefix of one. -/
abbrev Runs (rely : σ → σ → Prop) (W : Behaviour F σ) : σ × Prog F ε α → σ × Prog F ε α → Prop :=
  Relation.ReflTransGen (Step rely W)

theorem Runs.weaken {rely rely' : σ → σ → Prop} {W : Behaviour F σ} {x y : σ × Prog F ε α}
    (h : ∀ s s', rely s s' → rely' s s') (hrun : Runs rely W x y) : Runs rely' W x y := by
  refine Relation.ReflTransGen.mono ?_ _ _ hrun
  rintro _ _ ⟨hr, hw⟩
  exact .call (h _ _ hr) hw

/-- A run of the first part is a run of the whole. -/
theorem runs_bind {rely : σ → σ → Prop} {W : Behaviour F σ} {p p' : Prog F ε α} {s s' : σ}
    (h : Runs rely W (s, p) (s', p')) (f : α → Prog F ε β) :
    Runs rely W (s, p >>= f) (s', p' >>= f) := by
  generalize hx : (s, p) = x at h
  generalize hy : (s', p') = y at h
  induction h generalizing s' p' with
  | refl =>
    obtain ⟨rfl, rfl⟩ := Prod.mk.inj (hx.trans hy.symm)
    exact .refl
  | tail _ hstep ih =>
    obtain ⟨hr, hw⟩ := hstep
    obtain ⟨rfl, rfl⟩ := Prod.mk.inj hy
    exact (ih rfl).tail (.call hr hw)

/-- The program stops for good, alone on its state: between two calls, or in the middle of
one that `T` says may be left half done. -/
inductive Cut (W : Behaviour F σ) (T : σ → F.Call → σ → Prop) (p : Prog F ε α) (s s' : σ) : Prop
  | between {p' : Prog F ε α} : Runs (· = ·) W (s, p) (s', p') → Cut W T p s s'
  | within {s₁ : σ} {c : F.Call} {k : F.Ans c → Prog F ε α} :
      Runs (· = ·) W (s, p) (s₁, .call c k) → T s₁ c s' → Cut W T p s s'

/-- The program stops for good between two calls; every call is all or nothing. -/
abbrev Stops (W : Behaviour F σ) (p : Prog F ε α) (s s' : σ) : Prop :=
  Cut W (fun _ _ _ => False) p s s'

/-! ### The safety of a program -/

/-- Every call made from here on is allowed where it is made, whatever the others do within
the rely between the calls, and the program ends in `Q` (a result) or `E` (an exception). -/
def Safe (rely : σ → σ → Prop) (W : Behaviour F σ) (allowed : σ → F.Call → Prop) :
    Prog F ε α → (α → σ → Prop) → (ε → σ → Prop) → σ → Prop
  | .ret a, Q, _, s => Q a s
  | .raise e, _, E, s => E e s
  | .call c k, Q, E, s => ∀ s₁, rely s s₁ →
      allowed s₁ c ∧ ∀ a s₂, W s₁ c a s₂ → Safe rely W allowed (k a) Q E s₂

section Rules

variable {rely : σ → σ → Prop} {W : Behaviour F σ} {allowed : σ → F.Call → Prop}

@[simp] theorem safe_ret {a : α} {Q : α → σ → Prop} {E : ε → σ → Prop} {s : σ} :
    Safe rely W allowed (.ret a : Prog F ε α) Q E s ↔ Q a s := Iff.rfl

@[simp] theorem safe_raise {e : ε} {Q : α → σ → Prop} {E : ε → σ → Prop} {s : σ} :
    Safe rely W allowed (.raise e : Prog F ε α) Q E s ↔ E e s := Iff.rfl

/-- Alone on the state, nothing moves between the calls. -/
theorem safe_call {c : F.Call} {k : F.Ans c → Prog F ε α} {Q : α → σ → Prop} {E : ε → σ → Prop}
    {s : σ} : Safe (· = ·) W allowed (.call c k) Q E s ↔
      allowed s c ∧ ∀ a s₂, W s c a s₂ → Safe (· = ·) W allowed (k a) Q E s₂ := by
  constructor
  · intro h
    exact h s rfl
  · rintro h s₁ rfl
    exact h

theorem safe_raiseIf {bad : Prop} [Decidable bad] {e : ε} {Q : Unit → σ → Prop}
    {E : ε → σ → Prop} {s : σ} : Safe rely W allowed (Prog.raiseIf bad e) Q E s ↔
      (bad → E e s) ∧ (¬ bad → Q () s) := by
  by_cases h : bad <;> simp [h]

theorem Safe.mono {p : Prog F ε α} {Q Q' : α → σ → Prop} {E E' : ε → σ → Prop} {s : σ}
    (h : Safe rely W allowed p Q E s) (hQ : ∀ a t, Q a t → Q' a t)
    (hE : ∀ e t, E e t → E' e t) : Safe rely W allowed p Q' E' s := by
  induction p generalizing s with
  | ret a => exact hQ a s h
  | raise e => exact hE e s h
  | call c k ih =>
    intro s₁ hr
    exact ⟨(h s₁ hr).1, fun a s₂ hw => ih a ((h s₁ hr).2 a s₂ hw)⟩

theorem Safe.weaken {allowed' : σ → F.Call → Prop} {p : Prog F ε α} {Q : α → σ → Prop}
    {E : ε → σ → Prop} {s : σ} (h : Safe rely W allowed p Q E s)
    (hallowed : ∀ t c, allowed t c → allowed' t c) : Safe rely W allowed' p Q E s := by
  induction p generalizing s with
  | ret a => exact h
  | raise e => exact h
  | call c k ih =>
    intro s₁ hr
    exact ⟨hallowed _ _ (h s₁ hr).1, fun a s₂ hw => ih a ((h s₁ hr).2 a s₂ hw)⟩

theorem Safe.narrow {W' : Behaviour F σ} {p : Prog F ε α} {Q : α → σ → Prop} {E : ε → σ → Prop}
    {s : σ} (hW : ∀ t c a t', W' t c a t' → W t c a t') (h : Safe rely W allowed p Q E s) :
    Safe rely W' allowed p Q E s := by
  induction p generalizing s with
  | ret a => exact h
  | raise e => exact h
  | call c k ih =>
    intro s₁ hr
    exact ⟨(h s₁ hr).1, fun a s₂ hw => ih a ((h s₁ hr).2 a s₂ (hW _ _ _ _ hw))⟩

theorem Safe.bind {p : Prog F ε α} {f : α → Prog F ε β} {Q : β → σ → Prop}
    {E : ε → σ → Prop} {s : σ}
    (h : Safe rely W allowed p (fun a t => Safe rely W allowed (f a) Q E t) E s) :
    Safe rely W allowed (p >>= f) Q E s := by
  induction p generalizing s with
  | ret a => exact h
  | raise e => exact h
  | call c k ih =>
    intro s₁ hr
    exact ⟨(h s₁ hr).1, fun a s₂ hw => ih a ((h s₁ hr).2 a s₂ hw)⟩

theorem Safe.tryCatch {p : Prog F ε α} {f : ε → Prog F ε' α} {Q : α → σ → Prop}
    {E : ε' → σ → Prop} {s : σ}
    (h : Safe rely W allowed p Q (fun e t => Safe rely W allowed (f e) Q E t) s) :
    Safe rely W allowed (p.tryCatch f) Q E s := by
  induction p generalizing s with
  | ret a => exact h
  | raise e => exact h
  | call c k ih =>
    intro s₁ hr
    exact ⟨(h s₁ hr).1, fun a s₂ hw => ih a ((h s₁ hr).2 a s₂ hw)⟩

theorem Safe.ensure {p : Prog F ε α} {fin : Prog F ε Unit} {Q : α → σ → Prop}
    {E : ε → σ → Prop} {s : σ}
    (h : Safe rely W allowed p
      (fun a t => Safe rely W allowed fin (fun _ => Q a) E t)
      (fun e t => Safe rely W allowed fin (fun _ => E e) E t) s) :
    Safe rely W allowed (p.ensure fin) Q E s := by
  induction p generalizing s with
  | ret a => exact Safe.bind (f := fun _ => Prog.ret a) h
  | raise e => exact Safe.bind (f := fun _ => Prog.raise e) h
  | call c k ih =>
    intro s₁ hr
    exact ⟨(h s₁ hr).1, fun a s₂ hw => ih a ((h s₁ hr).2 a s₂ hw)⟩

/-- What is safe stays safe along every run. -/
theorem Safe.runs {p p' : Prog F ε α} {Q : α → σ → Prop} {E : ε → σ → Prop} {s s' : σ}
    (h : Safe rely W allowed p Q E s) (hrun : Runs rely W (s, p) (s', p')) :
    Safe rely W allowed p' Q E s' := by
  generalize hx : (s, p) = x at hrun
  generalize hy : (s', p') = y at hrun
  induction hrun generalizing s' p' with
  | refl =>
    obtain ⟨rfl, rfl⟩ := Prod.mk.inj (hx.trans hy.symm)
    exact h
  | tail _ hstep ih =>
    cases hstep with
    | call hr hw =>
      obtain ⟨rfl, rfl⟩ := Prod.mk.inj hy
      exact ((ih rfl) _ hr).2 _ _ hw

theorem Safe.result {p : Prog F ε α} {Q : α → σ → Prop} {E : ε → σ → Prop} {s s' : σ} {a : α}
    (h : Safe rely W allowed p Q E s) (hrun : Runs rely W (s, p) (s', .ret a)) : Q a s' :=
  h.runs hrun

theorem Safe.exception {p : Prog F ε α} {Q : α → σ → Prop} {E : ε → σ → Prop} {s s' : σ} {e : ε}
    (h : Safe rely W allowed p Q E s) (hrun : Runs rely W (s, p) (s', .raise e)) : E e s' :=
  h.runs hrun

theorem Safe.allows {p : Prog F ε α} {Q : α → σ → Prop} {E : ε → σ → Prop} {s s' : σ}
    {c : F.Call} {k : F.Ans c → Prog F ε α} (hrefl : ∀ t, rely t t)
    (h : Safe rely W allowed p Q E s) (hrun : Runs rely W (s, p) (s', .call c k)) :
    allowed s' c :=
  ((h.runs hrun) s' (hrefl s')).1

/-- A condition that holds wherever the program calls, survives a call left half done and
holds at the ends, holds wherever the program is cut. -/
theorem Safe.cut {T : σ → F.Call → σ → Prop} {C : σ → Prop} {p : Prog F ε α} {s s' : σ}
    (h : Safe (· = ·) W (fun t c => C t ∧ ∀ t', T t c t' → C t') p (fun _ => C) (fun _ => C) s)
    (hcut : Cut W T p s s') : C s' := by
  cases hcut with
  | between hrun =>
    rename_i p'
    cases p' with
    | ret a => exact h.result hrun
    | raise e => exact h.exception hrun
    | call c k => exact (h.allows (fun _ => rfl) hrun).1
  | within hrun htorn => exact (h.allows (fun _ => rfl) hrun).2 _ htorn

theorem Safe.stops {C : σ → Prop} {p : Prog F ε α} {s s' : σ}
    (h : Safe (· = ·) W (fun t _ => C t) p (fun _ => C) (fun _ => C) s) (hstop : Stops W p s s') :
    C s' :=
  (h.weaken fun _ _ ht => ⟨ht, fun _ hf => hf.elim⟩).cut hstop

theorem Safe.and {allowed' : σ → F.Call → Prop} {p : Prog F ε α} {Q Q' : α → σ → Prop}
    {E E' : ε → σ → Prop} {s : σ} (h : Safe rely W allowed p Q E s)
    (h' : Safe rely W allowed' p Q' E' s) :
    Safe rely W allowed p (fun a t => Q a t ∧ Q' a t) (fun e t => E e t ∧ E' e t) s := by
  induction p generalizing s with
  | ret a => exact ⟨h, h'⟩
  | raise e => exact ⟨h, h'⟩
  | call c k ih =>
    intro s₁ hr
    exact ⟨(h s₁ hr).1, fun a s₂ hw => ih a ((h s₁ hr).2 a s₂ hw) ((h' s₁ hr).2 a s₂ hw)⟩

end Rules

/-! ### One behaviour simulated by another -/

section Simulation

variable {τ : Type} {W : Behaviour F σ} {V : Behaviour F τ} {R : σ → τ → Prop} {C : τ → Prop}

/-- Where a condition holds at every call and at the ends, it holds here. -/
theorem Safe.here {p : Prog F ε α} {t : τ}
    (h : Safe (· = ·) V (fun t _ => C t) p (fun _ => C) (fun _ => C) t) : C t := by
  cases p with
  | ret a => exact h
  | raise e => exact h
  | call c k => exact (h t rfl).1

/-- Every call of the one behaviour is matched by the other from related states, as long as the
program keeps a condition there: then so is every run. -/
theorem Safe.simulates_runs {p p' : Prog F ε α} {s s' : σ} {t : τ}
    (h : Safe (· = ·) V (fun t _ => C t) p (fun _ => C) (fun _ => C) t)
    (hstep : ∀ s t c a s', R s t → (∀ t', V t c a t' → C t') → W s c a s' →
      ∃ t', V t c a t' ∧ R s' t') (hR : R s t)
    (hrun : Runs (· = ·) W (s, p) (s', p')) : ∃ t', Runs (· = ·) V (t, p) (t', p') ∧ R s' t' := by
  generalize hx : (s, p) = x at hrun
  generalize hy : (s', p') = y at hrun
  induction hrun generalizing s' p' with
  | refl =>
    obtain ⟨rfl, rfl⟩ := Prod.mk.inj (hx.trans hy.symm)
    exact ⟨t, .refl, hR⟩
  | tail _ hlast ih =>
    obtain ⟨rfl, hcall⟩ := hlast
    obtain ⟨rfl, rfl⟩ := Prod.mk.inj hy
    obtain ⟨t₁, hrun₁, hR₁⟩ := ih rfl
    have hnext := h.runs hrun₁ t₁ rfl
    obtain ⟨t₂, hcall₂, hR₂⟩ :=
      hstep _ _ _ _ _ hR₁ (fun t₂ h₂ => Safe.here (hnext.2 _ t₂ h₂)) hcall
    exact ⟨t₂, hrun₁.tail (.call rfl hcall₂), hR₂⟩

/-- And so is every program that stops anywhere. -/
theorem Safe.simulates {p : Prog F ε α} {s s' : σ} {t : τ}
    (h : Safe (· = ·) V (fun t _ => C t) p (fun _ => C) (fun _ => C) t)
    (hstep : ∀ s t c a s', R s t → (∀ t', V t c a t' → C t') → W s c a s' →
      ∃ t', V t c a t' ∧ R s' t') (hR : R s t)
    (hstop : Stops W p s s') : ∃ t', Stops V p t t' ∧ R s' t' := by
  cases hstop with
  | between hrun =>
    obtain ⟨t', hrun', hR'⟩ := h.simulates_runs hstep hR hrun
    exact ⟨t', .between hrun', hR'⟩
  | within _ htorn => exact htorn.elim

end Simulation

/-! ### The calls a program makes -/

/-- Whatever the answers, every call of the program is one of these. -/
def Prog.Makes (K : F.Call → Prop) : Prog F ε α → Prop
  | .ret _ => True
  | .raise _ => True
  | .call c k => K c ∧ ∀ x, (k x).Makes K

section Makes

variable {K : F.Call → Prop}

@[simp] theorem makes_ret (a : α) : (Prog.ret a : Prog F ε α).Makes K := trivial

@[simp] theorem makes_raise (e : ε) : (Prog.raise e : Prog F ε α).Makes K := trivial

@[simp] theorem makes_call {c : F.Call} {k : F.Ans c → Prog F ε α} :
    (Prog.call c k).Makes K ↔ K c ∧ ∀ x, (k x).Makes K := Iff.rfl

@[simp] theorem makes_perform {c : F.Call} : (Prog.perform c : Prog F ε (F.Ans c)).Makes K ↔ K c := by
  simp [Prog.perform]

@[simp] theorem makes_raiseIf {bad : Prop} [Decidable bad] (e : ε) :
    (Prog.raiseIf bad e : Prog F ε Unit).Makes K := by
  by_cases h : bad <;> simp [h]

@[simp] theorem makes_ofExcept (x : Except ε α) : (Prog.ofExcept x : Prog F ε α).Makes K := by
  cases x <;> trivial

theorem Prog.Makes.bind {p : Prog F ε α} {f : α → Prog F ε β} (hp : p.Makes K)
    (hf : ∀ a, (f a).Makes K) : (p >>= f).Makes K := by
  induction p with
  | ret a => exact hf a
  | raise e => trivial
  | call c k ih => exact ⟨hp.1, fun x => ih x (hp.2 x)⟩

theorem Prog.Makes.when {cond : Prop} [Decidable cond] {p : Prog F ε Unit} (hp : p.Makes K) :
    (Prog.when cond p).Makes K := by
  by_cases h : cond <;> simp [h, hp]

theorem Prog.Makes.tryCatch {p : Prog F ε α} {f : ε → Prog F ε' α} (hp : p.Makes K)
    (hf : ∀ e, (f e).Makes K) : (p.tryCatch f).Makes K := by
  induction p with
  | ret a => trivial
  | raise e => exact hf e
  | call c k ih => exact ⟨hp.1, fun x => ih x (hp.2 x)⟩

theorem Prog.Makes.ensure {p : Prog F ε α} {fin : Prog F ε Unit} (hp : p.Makes K)
    (hfin : fin.Makes K) : (p.ensure fin).Makes K := by
  induction p with
  | ret a => exact hfin.bind fun _ => trivial
  | raise e => exact hfin.bind fun _ => trivial
  | call c k ih => exact ⟨hp.1, fun x => ih x (hp.2 x)⟩

theorem Prog.Makes.mono {K' : F.Call → Prop} {p : Prog F ε α} (hp : p.Makes K)
    (hK : ∀ c, K c → K' c) : p.Makes K' := by
  induction p with
  | ret a => trivial
  | raise e => trivial
  | call c k ih => exact ⟨hK c hp.1, fun x => ih x (hp.2 x)⟩

/-- The frame rule: what every call of the kind keeps, and the others keep too, holds
throughout. -/
theorem Prog.Makes.safe {rely : σ → σ → Prop} {W : Behaviour F σ} {allowed : σ → F.Call → Prop}
    {I : σ → Prop} {p : Prog F ε α} {s : σ} (hp : p.Makes K)
    (hrely : ∀ t t', rely t t' → I t → I t')
    (hK : ∀ t c, K c → I t → allowed t c ∧ ∀ a t', W t c a t' → I t') (hs : I s) :
    Safe rely W allowed p (fun _ => I) (fun _ => I) s := by
  induction p generalizing s with
  | ret a => exact hs
  | raise e => exact hs
  | call c k ih =>
    intro s₁ hr
    have hI := hrely s s₁ hr hs
    exact ⟨(hK s₁ c hp.1 hI).1, fun a s₂ hw => ih a (hp.2 a) ((hK s₁ c hp.1 hI).2 a s₂ hw)⟩

end Makes

/-! ### The results a program gives -/

/-- Whatever the answers, every result of the program is one of these. -/
def Prog.Gives (P : α → Prop) : Prog F ε α → Prop
  | .ret a => P a
  | .raise _ => True
  | .call _ k => ∀ x, (k x).Gives P

section Gives

variable {P : α → Prop}

@[simp] theorem gives_ret {a : α} : (Prog.ret a : Prog F ε α).Gives P ↔ P a := Iff.rfl

@[simp] theorem gives_raise (e : ε) : (Prog.raise e : Prog F ε α).Gives P := trivial

theorem gives_ofExcept {x : Except ε α} (h : ∀ a, x = .ok a → P a) :
    (Prog.ofExcept x : Prog F ε α).Gives P := by
  cases x with
  | ok a => exact h a rfl
  | error e => trivial

theorem gives_raiseIf {bad : Prop} [Decidable bad] {e : ε} :
    (Prog.raiseIf bad e : Prog F ε Unit).Gives fun _ => ¬ bad := by
  by_cases h : bad <;> simp [h]

theorem gives_true (p : Prog F ε α) : p.Gives fun _ => True := by
  induction p with
  | ret a => trivial
  | raise e => trivial
  | call c k ih => exact ih

theorem Prog.Gives.bind {Q : β → Prop} {p : Prog F ε α} {f : α → Prog F ε β} (hp : p.Gives P)
    (hf : ∀ a, P a → (f a).Gives Q) : (p >>= f).Gives Q := by
  induction p with
  | ret a => exact hf a hp
  | raise e => trivial
  | call c k ih => exact fun x => ih x (hp x)

theorem Prog.Gives.mono {Q : α → Prop} {p : Prog F ε α} (hp : p.Gives P) (h : ∀ a, P a → Q a) :
    p.Gives Q := by
  induction p with
  | ret a => exact h a hp
  | raise e => trivial
  | call c k ih => exact fun x => ih x (hp x)

theorem Prog.Gives.tryCatch {p : Prog F ε α} {f : ε → Prog F ε' α} (hp : p.Gives P)
    (hf : ∀ e, (f e).Gives P) : (p.tryCatch f).Gives P := by
  induction p with
  | ret a => exact hp
  | raise e => exact hf e
  | call c k ih => exact fun x => ih x (hp x)

/-- Nothing follows a program that cannot return. -/
theorem Prog.Makes.bind_never {K : F.Call → Prop} {p : Prog F ε α} {f : α → Prog F ε β}
    (hp : p.Makes K) (hnever : p.Gives fun _ => False) : (p >>= f).Makes K := by
  induction p with
  | ret a => exact hnever.elim
  | raise e => trivial
  | call c k ih => exact ⟨hp.1, fun x => ih x (hp.2 x) (hnever x)⟩

/-- What a program gives, it gives wherever it runs. -/
theorem Prog.Gives.safe {rely : σ → σ → Prop} {W : Behaviour F σ} {p : Prog F ε α} {s : σ}
    (hp : p.Gives P) : Safe rely W (fun _ _ => True) p (fun a _ => P a) (fun _ _ => True) s := by
  induction p generalizing s with
  | ret a => exact hp
  | raise e => trivial
  | call c k ih => exact fun s₁ _ => ⟨trivial, fun a s₂ _ => ih a (hp a)⟩

/-- The frame rule, for the results too. -/
theorem Prog.Makes.safe_gives {K : F.Call → Prop} {rely : σ → σ → Prop} {W : Behaviour F σ}
    {allowed : σ → F.Call → Prop} {I : σ → Prop} {p : Prog F ε α} {s : σ} (hp : p.Makes K)
    (hgives : p.Gives P) (hrely : ∀ t t', rely t t' → I t → I t')
    (hK : ∀ t c, K c → I t → allowed t c ∧ ∀ a t', W t c a t' → I t') (hs : I s) :
    Safe rely W allowed p (fun a t => P a ∧ I t) (fun _ => I) s := by
  induction p generalizing s with
  | ret a => exact ⟨hgives, hs⟩
  | raise e => exact hs
  | call c k ih =>
    intro s₁ hr
    have hI := hrely s s₁ hr hs
    exact ⟨(hK s₁ c hp.1 hI).1,
      fun a s₂ hw => ih a (hp.2 a) (hgives a) ((hK s₁ c hp.1 hI).2 a s₂ hw)⟩

end Gives

/-! ### Programs apart from any state -/

/-- As long as the answers are of the kind `A`, every call of the program is of the kind `K`,
and it ends in `P` (a result) or `E` (an exception). -/
abbrev Local (A : (c : F.Call) → F.Ans c → Prop) (K : F.Call → Prop) (p : Prog F ε α)
    (P : α → Prop) (E : ε → Prop) : Prop :=
  Safe (σ := Unit) (· = ·) (fun _ c x _ => A c x) (fun _ => K) p (fun a _ => P a) (fun e _ => E e) ()

section Local

variable {A : (c : F.Call) → F.Ans c → Prop} {K : F.Call → Prop} {P : α → Prop} {E : ε → Prop}

theorem local_bind {Q : β → Prop} {p : Prog F ε α} {f : α → Prog F ε β}
    (h : Local A K p (fun a => Local A K (f a) Q E) E) : Local A K (p >>= f) Q E := Safe.bind h

theorem local_call {c : F.Call} {k : F.Ans c → Prog F ε α} (hc : K c)
    (hk : ∀ x, A c x → Local A K (k x) P E) : Local A K (.call c k) P E :=
  safe_call.mpr ⟨hc, fun x _ hx => hk x hx⟩

theorem Prog.Makes.loc {p : Prog F ε α} (hp : p.Makes K) (hE : ∀ e, E e) :
    Local A K p (fun _ => True) E :=
  (hp.safe (I := fun _ => True) (fun _ _ _ _ => trivial) (fun _ _ hc _ => ⟨hc, fun _ _ _ => trivial⟩)
    trivial).mono (fun _ _ h => h) fun e _ _ => hE e

/-- The frame rule for such a program: an invariant that makes the answers so, and that the
calls keep, holds throughout. -/
theorem Local.safe {rely : σ → σ → Prop} {W : Behaviour F σ} {allowed : σ → F.Call → Prop}
    {I : σ → Prop} {p : Prog F ε α} {s : σ} (h : Local A K p P E)
    (hrely : ∀ t t', rely t t' → I t → I t')
    (hA : ∀ t c x t', I t → W t c x t' → A c x)
    (hK : ∀ t c, K c → I t → allowed t c ∧ ∀ x t', W t c x t' → I t') (hs : I s) :
    Safe rely W allowed p (fun a t => P a ∧ I t) (fun e t => E e ∧ I t) s := by
  induction p generalizing s with
  | ret a => exact ⟨h, hs⟩
  | raise e => exact ⟨h, hs⟩
  | call c k ih =>
    intro s₁ hr
    have hI := hrely s s₁ hr hs
    obtain ⟨hc, hnext⟩ := safe_call.mp h
    refine ⟨(hK s₁ c hc hI).1, fun x s₂ hw => ?_⟩
    exact ih x (hnext x () (hA s₁ c x s₂ hI hw)) ((hK s₁ c hc hI).2 x s₂ hw)

end Local

/-! ### Running against one deterministic partner -/

/-- Run to the end, every call answered by `h`. -/
def Prog.run (h : σ → (c : F.Call) → F.Ans c × σ) : Prog F ε α → σ → Except ε α × σ
  | .ret a, s => (.ok a, s)
  | .raise e, s => (.error e, s)
  | .call c k, s => Prog.run h (k (h s c).1) (h s c).2

section Run

variable {h : σ → (c : F.Call) → F.Ans c × σ}

@[simp] theorem run_ret (a : α) (s : σ) : (Prog.ret a : Prog F ε α).run h s = (.ok a, s) := rfl

@[simp] theorem run_raise (e : ε) (s : σ) :
    (Prog.raise e : Prog F ε α).run h s = (.error e, s) := rfl

@[simp] theorem run_call (c : F.Call) (k : F.Ans c → Prog F ε α) (s : σ) :
    (Prog.call c k).run h s = (k (h s c).1).run h (h s c).2 := rfl

theorem run_bind (p : Prog F ε α) (f : α → Prog F ε β) (s : σ) :
    (p >>= f).run h s = match p.run h s with
      | (.ok a, t) => (f a).run h t
      | (.error e, t) => (.error e, t) := by
  induction p generalizing s with
  | ret a => rfl
  | raise e => rfl
  | call c k ih => exact ih _ _

theorem run_of_fst {p : Prog F ε α} {s : σ} {x : Except ε α} (hx : (p.run h s).1 = x) :
    p.run h s = (x, (p.run h s).2) :=
  Prod.ext hx rfl

/-- Go on from where the first part returned. -/
theorem run_bind_ok {p : Prog F ε α} {f : α → Prog F ε β} {s t : σ} {a : α}
    (hp : p.run h s = (.ok a, t)) : (p >>= f).run h s = (f a).run h t := by
  rw [run_bind, hp]

theorem run_bind_error {p : Prog F ε α} {f : α → Prog F ε β} {s t : σ} {e : ε}
    (hp : p.run h s = (.error e, t)) : (p >>= f).run h s = (.error e, t) := by
  rw [run_bind, hp]

theorem run_tryCatch (p : Prog F ε α) (f : ε → Prog F ε' α) (s : σ) :
    (p.tryCatch f).run h s = match p.run h s with
      | (.ok a, t) => (.ok a, t)
      | (.error e, t) => (f e).run h t := by
  induction p generalizing s with
  | ret a => rfl
  | raise e => rfl
  | call c k ih => exact ih _ _

/-- A clean-up leaves the state it leaves, whatever it was run after. -/
theorem run_ensure_state (p : Prog F ε α) (fin : Prog F ε Unit) (s : σ) :
    ((p.ensure fin).run h s).2 = (fin.run h (p.run h s).2).2 := by
  induction p generalizing s with
  | ret a =>
    change ((fin >>= fun _ => ret a).run h s).2 = _
    rw [run_bind]
    cases hfin : fin.run h s with
    | mk r t => cases r <;> simp [hfin]
  | raise e =>
    change ((fin >>= fun _ => (raise e : Prog F ε α)).run h s).2 = _
    rw [run_bind]
    cases hfin : fin.run h s with
    | mk r t => cases r <;> simp [hfin]
  | call c k ih => exact ih _ _

/-- What every call of the kind keeps, the run keeps. -/
theorem Prog.Makes.run_keeps {K : F.Call → Prop} {I : σ → Prop} {p : Prog F ε α} {s : σ}
    (hp : p.Makes K) (hK : ∀ t c, K c → I t → I (h t c).2) (hs : I s) : I (p.run h s).2 := by
  induction p generalizing s with
  | ret a => exact hs
  | raise e => exact hs
  | call c k ih => exact ih _ (hp.2 _) (hK s c hp.1 hs)

end Run

/-- The answers of `h` are among those the behaviour allows. -/
def Follows (h : σ → (c : F.Call) → F.Ans c × σ) (W : Behaviour F σ) : Prop :=
  ∀ s c, W s c (h s c).1 (h s c).2

theorem runs_run {h : σ → (c : F.Call) → F.Ans c × σ} {W : Behaviour F σ} (hW : Follows h W)
    (p : Prog F ε α) (s : σ) :
    Runs (· = ·) W (s, p) ((p.run h s).2, .ofExcept (p.run h s).1) := by
  induction p generalizing s with
  | ret a => exact .refl
  | raise e => exact .refl
  | call c k ih => exact .head (.call rfl (hW s c)) (ih _ _)

/-- The first `n` calls, answered by `h`. -/
def Prog.after (h : σ → (c : F.Call) → F.Ans c × σ) : ℕ → Prog F ε α → σ → σ × Prog F ε α
  | 0, p, s => (s, p)
  | _ + 1, .ret a, s => (s, .ret a)
  | _ + 1, .raise e, s => (s, .raise e)
  | n + 1, .call c k, s => Prog.after h n (k (h s c).1) (h s c).2

theorem runs_after {h : σ → (c : F.Call) → F.Ans c × σ} {W : Behaviour F σ} (hW : Follows h W)
    (n : ℕ) (p : Prog F ε α) (s : σ) : Runs (· = ·) W (s, p) (p.after h n s) := by
  induction n generalizing p s with
  | zero => exact .refl
  | succ n ih =>
    cases p with
    | ret a => exact .refl
    | raise e => exact .refl
    | call c k => exact .head (.call rfl (hW s c)) (ih _ _)

/-- A stop after the first `n` calls. -/
theorem stops_after {h : σ → (c : F.Call) → F.Ans c × σ} {W : Behaviour F σ} (hW : Follows h W)
    (n : ℕ) (p : Prog F ε α) (s : σ) : Stops W p s (p.after h n s).1 :=
  .between (runs_after hW n p s)

/-- A program that cannot end in an exception returns. -/
theorem Safe.run {h : σ → (c : F.Call) → F.Ans c × σ} {W : Behaviour F σ} (hW : Follows h W)
    {allowed : σ → F.Call → Prop} {p : Prog F ε α} {Q : α → σ → Prop} {s : σ}
    (hsafe : Safe (· = ·) W allowed p Q (fun _ _ => False) s) :
    ∃ a s', Runs (· = ·) W (s, p) (s', .ret a) ∧ Q a s' := by
  have hrun := runs_run hW p s
  cases hres : (p.run h s).1 with
  | ok a =>
    rw [hres] at hrun
    exact ⟨a, _, hrun, hsafe.result hrun⟩
  | error e =>
    rw [hres] at hrun
    exact (hsafe.exception hrun).elim

end Program
