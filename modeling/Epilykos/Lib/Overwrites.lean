import Mathlib.Data.List.Basic
import Mathlib.Tactic.TypeStar

/-!
Writes that each settle what the keys they own hold, carried out one after another. A key that
somebody owns holds what its last owner has written, whatever it held before; so a key may hold
anything in between, and the last of the writes may be carried out again.
-/

namespace Overwrites

structure Write (κ υ : Type*) where
  owns : κ → Bool
  value : κ → υ

variable {κ υ : Type*}

def Write.apply (w : Write κ υ) (f : κ → υ) : κ → υ :=
  fun k => if w.owns k then w.value k else f k

/-- All of them, the first one first. -/
def all (ws : List (Write κ υ)) (f : κ → υ) : κ → υ := ws.foldl (fun f w => w.apply f) f

/-- Nobody owns the key. -/
def Free (ws : List (Write κ υ)) (k : κ) : Prop := ∀ w ∈ ws, w.owns k = false

/-- The two hold the same at every key that nobody owns. -/
def Off (ws : List (Write κ υ)) (f g : κ → υ) : Prop := ∀ k, Free ws k → g k = f k

variable {ws vs : List (Write κ υ)} {w : Write κ υ} {f g h : κ → υ} {k : κ}

@[simp] theorem all_cons : all (w :: ws) f = all ws (w.apply f) := rfl

theorem all_append : all (vs ++ ws) f = all ws (all vs f) := List.foldl_append

theorem Free.mono (hsub : ∀ w ∈ vs, w ∈ ws) (hk : Free ws k) : Free vs k :=
  fun w hw => hk w (hsub w hw)

theorem Off.refl (ws : List (Write κ υ)) (f : κ → υ) : Off ws f f := fun _ _ => rfl

theorem Off.mono (hsub : ∀ w ∈ vs, w ∈ ws) (h : Off vs f g) : Off ws f g :=
  fun k hk => h k (hk.mono hsub)

theorem Off.trans (hfg : Off ws f g) (hgh : Off ws g h) : Off ws f h :=
  fun k hk => (hgh k hk).trans (hfg k hk)

theorem apply_owned (hk : w.owns k = true) : w.apply f k = w.value k := if_pos hk

theorem apply_free (hk : w.owns k = false) : w.apply f k = f k := by
  rw [Write.apply, hk]
  exact if_neg Bool.false_ne_true

theorem all_free (hk : Free ws k) : all ws f k = f k := by
  induction ws generalizing f with
  | nil => rfl
  | cons w ws ih =>
    obtain ⟨hw, hws⟩ := List.forall_mem_cons.mp hk
    rw [all_cons, ih hws, apply_free hw]

theorem off_all (ws : List (Write κ υ)) (f : κ → υ) : Off ws f (all ws f) :=
  fun _ hk => all_free hk

/-- The last owner has the last word. -/
theorem all_last (hk : w.owns k = true) (hws : Free ws k) : all (vs ++ w :: ws) f k = w.value k := by
  rw [all_append, all_cons, all_free hws, apply_owned hk]

/-- What the owned keys held before does not matter. -/
theorem all_congr (hfg : Off ws f g) : all ws g = all ws f := by
  induction ws generalizing f g with
  | nil =>
    funext k
    exact hfg k fun w hw => absurd hw List.not_mem_nil
  | cons w ws ih =>
    rw [all_cons, all_cons]
    refine ih fun k hk => ?_
    cases hw : w.owns k with
    | true => rw [apply_owned hw, apply_owned hw]
    | false => rw [apply_free hw, apply_free hw, hfg k (List.forall_mem_cons.mpr ⟨hw, hk⟩)]

/-- The last of the writes, once more. -/
theorem all_again (hvs : vs <:+ ws) : all vs (all ws f) = all ws f := by
  obtain ⟨us, rfl⟩ := hvs
  rw [all_append]
  exact all_congr (off_all vs _)

end Overwrites
