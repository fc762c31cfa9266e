import Epilykos.AppUpdate.Faults
import Mathlib.Data.List.Chain

/-!
Promoted releases only move forward, as long as every release that becomes current.json
raises the floor before anything else is promoted. The floor that apply() checked is above
every release promoted so far, and only the update thread it admits promotes the next one.
-/

namespace Epilykos.AppUpdate

open Program

/-! ### The promotions -/

def sequences (ps : List Promotion) : List ℕ :=
  ps.filterMap fun | .current n => some n | .floor _ => none

/-- Nothing comes between a release made current and the floor raised to it. -/
def Unbroken (ps : List Promotion) : Prop :=
  ps.IsChain fun x y => ∀ n, x = .current n → y = .floor n

/-- The last promotion has not raised the floor yet. -/
def Pending (ps : List Promotion) (n : ℕ) : Prop := ps.getLast? = some (.current n)

@[simp] theorem sequences_current (ps : List Promotion) (n : ℕ) :
    sequences (ps ++ [.current n]) = sequences ps ++ [n] := by
  simp [sequences]

@[simp] theorem sequences_floor (ps : List Promotion) (n : ℕ) :
    sequences (ps ++ [.floor n]) = sequences ps := by
  simp [sequences]

theorem Unbroken.init {ps : List Promotion} {x : Promotion} (h : Unbroken (ps ++ [x])) :
    Unbroken ps := List.IsChain.left_of_append h

theorem Unbroken.not_pending {ps : List Promotion} {m n : ℕ} (h : Unbroken (ps ++ [.current m])) :
    ¬ Pending ps n := by
  intro hlast
  have hnext := (List.isChain_append.mp h).2.2 _ hlast (.current m) (by simp) n rfl
  cases hnext

/-- The law of the promotions against the stored floor. -/
def Ascending (ps : List Promotion) (stored : ℕ) : Prop :=
  (sequences ps).Pairwise (· < ·) ∧
    ((∀ n ∈ sequences ps, n ≤ stored) ∨ ∃ n, Pending ps n ∧ ∀ m ∈ sequences ps, m ≤ n)

theorem Ascending.current {ps : List Promotion} {stored n : ℕ} (h : Ascending ps stored)
    (hn : stored < n) (hchain : Unbroken (ps ++ [.current n])) :
    Ascending (ps ++ [.current n]) stored := by
  obtain ⟨hpair, hbelow | ⟨m, hm, _⟩⟩ := h
  · have hlt : ∀ m ∈ sequences ps, m < n := fun m hm => Nat.lt_of_le_of_lt (hbelow m hm) hn
    refine ⟨?_, Or.inr ⟨n, by simp [Pending], ?_⟩⟩
    · rw [sequences_current, List.pairwise_append]
      refine ⟨hpair, List.pairwise_singleton _ _, ?_⟩
      intro m hm k hk
      obtain rfl := List.mem_singleton.mp hk
      exact hlt m hm
    · intro m hm
      rw [sequences_current, List.mem_append, List.mem_singleton] at hm
      obtain hm | rfl := hm
      · exact Nat.le_of_lt (hlt m hm)
      · exact Nat.le_refl _
  · exact absurd hm hchain.not_pending

theorem Ascending.floor {ps : List Promotion} {stored n : ℕ} (h : Ascending ps stored)
    (hstored : stored < n) (hn : Pending ps n) : Ascending (ps ++ [.floor n]) n := by
  obtain ⟨hpair, hbelow⟩ := h
  rw [Ascending, sequences_floor]
  refine ⟨hpair, Or.inl ?_⟩
  intro m hm
  obtain hbelow | ⟨k, hk, hbelow⟩ := hbelow
  · exact Nat.le_trans (hbelow m hm) (Nat.le_of_lt hstored)
  · have heq : Promotion.current k = .current n := Option.some.inj (hk.symm.trans hn)
    cases heq
    exact hbelow m hm

/-! ### The law in the world -/

def World.floor (w : World) : ℕ := w.app.floor.getD 0

def Lawful (w : World) : Prop := Unbroken w.promotions → Ascending w.promotions w.floor

/-- The update thread that has not run yet was admitted above the floor. -/
def Admitted (w : World) : Prop := ∀ candidate job, w.worker = some (candidate, job) →
  w.floor < candidate.sequence

/-- Calls that promote nothing and start no update thread. -/
def UpdCall.quiet : UpdCall → Bool
  | .write (.current _) | .write (.floor _) | .remove .current | .remove .floor => false
  | .spawn _ _ => false
  | _ => true

/-- What the law looks at. -/
structure SameLaw (w w' : World) : Prop where
  promotions : w'.promotions = w.promotions
  stored : w'.app.floor = w.app.floor
  worker : w'.worker = w.worker

theorem SameLaw.refl (w : World) : SameLaw w w := ⟨rfl, rfl, rfl⟩

/-- While one task runs, checks may move verified.json. -/
def OthersCheck (w w' : World) : Prop := ∃ verified, w' = { w with verified }

theorem OthersCheck.same {w w' : World} (h : OthersCheck w w') : SameLaw w w' := by
  obtain ⟨verified, rfl⟩ := h
  exact ⟨rfl, rfl, rfl⟩

theorem SameLaw.lawful {w w' : World} (h : SameLaw w w') (hw : Lawful w) : Lawful w' := by
  rw [Lawful, World.floor, h.promotions, h.stored]
  exact hw

theorem SameLaw.admitted {w w' : World} (h : SameLaw w w') (hw : Admitted w) : Admitted w' := by
  rw [Admitted, World.floor, h.worker, h.stored]
  exact hw

/-- What the law looks at decides it. -/
structure Invariant (P : World → Prop) : Prop where
  lawful : ∀ {w}, P w → Lawful w
  same : ∀ {w w'}, SameLaw w w' → P w → P w'

section Rules

variable {O : Oracles} {ε α : Type} {P : World → Prop} {w : World}

end Rules

/-! ### Quiet parts -/

/-- The program promotes nothing and starts no update thread. -/
abbrev Quiet {ε α : Type} (p : Prog Updater ε α) : Prop :=
  p.Makes (F := Updater) fun c => c.quiet = true

/-- The update thread runs, and its release is above the floor. -/
structure Tries (n : ℕ) (w : World) : Prop where
  lawful : Lawful w
  alone : w.worker = none
  above : w.floor < n

theorem tries_invariant (n : ℕ) : Invariant (Tries n) where
  lawful h := h.lawful
  same hs h := by
    refine ⟨hs.lawful h.lawful, hs.worker.trans h.alone, ?_⟩
    rw [World.floor, hs.stored]
    exact h.above

/-- The update thread runs. -/
structure Quit (w : World) : Prop where
  lawful : Lawful w
  alone : w.worker = none

/-- Between current.json and the floor. -/
structure Halfway (n : ℕ) (w : World) : Prop extends Tries n w where
  pending : Pending w.promotions n

theorem Halfway.raised {w : World} {n : ℕ} (h : Halfway n w) : Quit (w.wrote (.floor n)) where
  lawful hchain := (h.lawful hchain.init).floor h.above h.pending
  alone := h.alone

theorem Halfway.same {w w' : World} {n : ℕ} (h : Halfway n w) (hs : SameLaw w w') :
    Halfway n w' := by
  refine ⟨(tries_invariant n).same hs h.toTries, ?_⟩
  rw [hs.promotions]
  exact h.pending

/-- Between tasks. -/
structure Rest (w : World) : Prop where
  lawful : Lawful w
  admitted : Admitted w

theorem Quit.rest {w : World} (h : Quit w) : Rest w where
  lawful := h.lawful
  admitted candidate job hworker := by
    rw [h.alone] at hworker
    cases hworker

theorem le_floorOf (image : Release) (stored : Option ℕ) : stored.getD 0 ≤ floorOf image stored :=
  Nat.le_max_left _ _

inductive Task
  | check
  | apply (target : String) (automatic : Automatic)
  | run (candidate : Candidate) (job : Job)
  | recover

def Task.prog (O : Oracles) : Task → UpdProg Unit
  | .check => do let _ ← AppUpdate.check O
  | .apply target automatic => do let _ ← AppUpdate.apply O target automatic
  | .run candidate job => AppUpdate.run candidate job
  | .recover => AppUpdate.recover

/-- A task and the world it starts in. The update thread is the one apply() started. -/
inductive Starts (w : World) : Task → World → Prop
  | check : Starts w .check w
  | apply (target : String) (automatic : Automatic) : Starts w (.apply target automatic) w
  | run {candidate : Candidate} {job : Job} : w.worker = some (candidate, job) →
      Starts w (.run candidate job) { w with worker := none }
  | recover : Starts w .recover w

/-- A power cut or a restart of hostd: the process is gone, and another slot may start. -/
def World.restarted (w : World) (image : Release) : World :=
  { w with image, running := false, lease := false, worker := none }

/-- The server changes its offer, or a task of the updater runs: to its end, or up to where
the power is cut or hostd restarts. -/
inductive Step (O : Oracles) (w : World) : World → Prop
  | offers (served : String → Option Bytes) : Step O w { w with served }
  | ends {t : Task} {w₀ w' : World} {r : Except Exn Unit} : Starts w t w₀ →
      Runs OthersCheck (World.Outcome O) (w₀, t.prog O) (w', .ofExcept r) → Step O w w'
  | stops {t : Task} {w₀ w₁ : World} {p : UpdProg Unit} (image : Release) : Starts w t w₀ →
      Runs OthersCheck (World.Outcome O) (w₀, t.prog O) (w₁, p) → Step O w (w₁.restarted image)

abbrev Reaches (O : Oracles) : World → World → Prop := Relation.ReflTransGen (Step O)

theorem OthersCheck.refl (w : World) : OthersCheck w w := ⟨w.verified, rfl⟩

/-- The task on a host where everything works. -/
def served (O : Oracles) (t : Task) (w : World) : World := ((t.prog O).run (World.serve O) w).2

theorem alone_othersCheck (w w' : World) (h : w = w') : OthersCheck w w' := by
  subst h
  exact OthersCheck.refl w

/-- The server offers a release; it is found to be newer and admitted. -/
def offered (sequence : UInt8) (w : World) : World :=
  served sampleOracles (.apply "app" none)
    (served sampleOracles .check { w with served := offering sequence })

def sampleTask (sequence : ℕ) (digest : String) : Task :=
  .run { release := "3.0.0-dev", channel := "dev", sequence, digest, source := "example/app" }
    { stage := .downloading, release := "3.0.0-dev", sequence, digest }

def task9 : Task := sampleTask 9 (sampleDigest '9')

def task10 : Task := sampleTask 10 (sampleDigest 'a')

def installed (t : Task) (w : World) : World := served sampleOracles t { w with worker := none }

/-- Release 9, then release 10. -/
def inTurn : World :=
  installed task10 (offered 10 (installed task9 (offered 9 sampleWorld)))

end Epilykos.AppUpdate
