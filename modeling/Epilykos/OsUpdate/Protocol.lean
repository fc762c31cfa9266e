import Epilykos.OsUpdate.Verification

/-!
The protocol of the shared environment, apart from the programs. Loader, RAUC, coordinator,
worker and hostd meet only in the environment and in the slot that runs; each of their moves is
one of the steps below, taken under the condition its program has checked. What never happens
to the floor, the trust policy and the pending record is proved here once, for every order of
the steps.
-/

namespace Epilykos.OsUpdate

open Program

/-- The environment, the slot that runs and the root key its image carries. -/
structure Shared where
  env : Env
  booted : Slot
  rootPem : Bytes

namespace Shared

def write (x : Shared) (batch : List Assign) : Shared := { x with env := x.env.write batch }

/-- `mark-active`: the slot goes first with three attempts. -/
def markActive (x : Shared) (s : Slot) : Shared :=
  { x with env := { x.env.setLeft s 3 with bootOrder := [s, s.other] } }

/-- The running slot is the trial of the pending job. -/
structure OnTrial (x : Shared) : Prop where
  pending : x.env.osPending.isSome = true
  target : x.env.osTarget = some x.booted
  trial : x.env.osTrialStarted = x.env.osPending

end Shared

/-- A job may be intended: newer than the floor, in the other slot, which cannot start. -/
structure Admits (env : Env) (job : Job) : Prop where
  newer : env.osFloor < job.sequence
  target : nonBootable env job.target job.source = true
  alone : env.osPending = none ∨ env.osPending = some job.id

inductive SharedStep (O : Oracles) : Shared → Shared → Prop
  /-- The worker advances the trust policy. -/
  | trust {x : Shared} {raw sig : Bytes} {epoch : ℕ} (vouched : Vouched O x.rootPem raw sig epoch)
    (newer : x.env.trustEpoch ≤ epoch)
    (same : epoch = x.env.trustEpoch → raw = x.env.trustPolicy) :
    SharedStep O x (x.write (trustBatch raw sig epoch))
  | intend {x : Shared} {job : Job} {image : Image} (admits : Admits x.env job)
    (himage : job.image = some image) : SharedStep O x (x.write (intentBatch job image))
  | activate {x : Shared} {t : Slot} (phase : x.env.osPhase = some .activationIntent)
    (target : x.env.osTarget = some t) : SharedStep O x (x.markActive t)
  | activated {x : Shared} {t : Slot} (phase : x.env.osPhase = some .activationIntent)
    (target : x.env.osTarget = some t) (order : x.env.bootOrder.head? = some t)
    (left : x.env.left t = 3) : SharedStep O x (x.write [.osPhase (some .activated)])
  /-- The coordinator confirms a trial. -/
  | confirming {x : Shared} (trial : x.OnTrial) (phase : x.env.osPhase = some .activated) :
    SharedStep O x (x.write [.osPhase (some .confirming)])
  | good {x : Shared} (phase : isTrial x.env x.booted = none ∨ x.env.osPhase = some .confirming) :
    SharedStep O x { x with env := x.env.setLeft x.booted 3 }
  | promote {x : Shared} {sequence : ℕ} (trial : x.OnTrial)
    (phase : x.env.osPhase = some .confirming) (hseq : x.env.osTargetSequence = some sequence) :
    SharedStep O x (x.write [.osFloor (max x.env.osFloor sequence), .osPhase (some .promoting)])
  /-- A target is given up, or the source put back. -/
  | bad {x : Shared} (s : Slot) : SharedStep O x { x with env := x.env.setLeft s 0 }
  | source {x : Shared} (from_ : x.env.osFrom = some x.booted)
    (trial : x.env.osTrialStarted = x.env.osPending) : SharedStep O x (x.markActive x.booted)
  | clear {x : Shared} : SharedStep O x (x.write clearBatch)
  /-- The loader starts a slot. -/
  | launch {x : Shared} {s : Slot} {env : Env} {rootPem : Bytes}
    (boot : bootSlot x.env = some (s, env)) : SharedStep O x { env, booted := s, rootPem }
  /-- RAUC marks slots while it installs. -/
  | marks {x : Shared} (order : List Slot) (left : Slot → ℕ) :
    SharedStep O x { x with env := { x.env with bootOrder := order, left := left } }
  /-- The root key is that of the image. -/
  | image {x : Shared} (rootPem : Bytes) : SharedStep O x { x with rootPem := rootPem }

/-! ### The pending record -/

/-- The phases before the floor is raised: the job is newer than the floor. After it the floor
is the job's sequence. -/
structure Tracked (env : Env) : Prop where
  phase : env.osPhase ∈ [none, some .activationIntent, some .activated, some .confirming,
    some .promoting]
  newer : ∀ phase, env.osPhase = some phase → phase ≠ .promoting →
    ∃ sequence, env.osTargetSequence = some sequence ∧ env.osFloor < sequence
  raised : env.osPhase = some .promoting → env.osTargetSequence = some env.osFloor

section Steps

variable {O : Oracles} {x y : Shared}

theorem Tracked.congr {env env' : Env} (h : Tracked env) (hphase : env'.osPhase = env.osPhase)
    (hseq : env'.osTargetSequence = env.osTargetSequence) (hfloor : env'.osFloor = env.osFloor) :
    Tracked env' :=
  ⟨hphase ▸ h.phase, by rw [hphase, hseq, hfloor]; exact h.newer,
    by rw [hphase, hseq, hfloor]; exact h.raised⟩

theorem Tracked.noJob {env : Env} (h : env.NoJob) : Tracked env := by
  refine ⟨by simp [h.phase], fun phase hphase => ?_, fun hphase => ?_⟩
  · rw [h.phase] at hphase
    cases hphase
  · rw [h.phase] at hphase
    cases hphase

/-- A phase is left for the next one, before the floor is raised. -/
theorem Tracked.advance {env : Env} (h : Tracked env) {p q : Phase} (hp : env.osPhase = some p)
    (hne : p ≠ .promoting) (hq : q ∈ [Phase.activated, .confirming]) :
    Tracked (env.write [.osPhase (some q)]) := by
  obtain ⟨sequence, hseq, hnewer⟩ := h.newer p hp hne
  refine ⟨?_, fun _ _ _ => ⟨sequence, hseq, hnewer⟩, fun hphase => ?_⟩
  · revert hq
    cases q <;> simp [Env.assign]
  · obtain rfl : q = .promoting := Option.some.inj hphase
    simp at hq

theorem SharedStep.tracked (h : SharedStep O x y) (hx : Tracked x.env) : Tracked y.env := by
  cases h with
  | trust => exact hx.congr rfl rfl rfl
  | @intend job image admits =>
    have hphase : (x.env.write (intentBatch job image)).osPhase = some .activationIntent := rfl
    have hseq : (x.env.write (intentBatch job image)).osTargetSequence = some job.sequence := rfl
    have hfloor : (x.env.write (intentBatch job image)).osFloor = x.env.osFloor := by
      simp [intentBatch, Env.assign]
    refine ⟨?_, fun _ _ _ => ⟨job.sequence, hseq, ?_⟩, fun hraised => ?_⟩
    · rw [Shared.write, hphase]
      decide
    · rw [Shared.write, hfloor]
      exact admits.newer
    · cases hphase.symm.trans hraised
  | activate => exact hx.congr rfl rfl rfl
  | activated phase => exact hx.advance phase (by decide) (by decide)
  | confirming trial phase => exact hx.advance phase (by decide) (by decide)
  | good => exact hx.congr rfl rfl rfl
  | @promote sequence trial phase hseq =>
    obtain ⟨sequence', hseq', hnewer⟩ := hx.newer _ phase (by decide)
    obtain rfl : sequence' = sequence := Option.some.inj (hseq'.symm.trans hseq)
    refine ⟨by simp [Shared.write, Env.assign], fun q hq hne => ?_, fun _ => ?_⟩
    · exact absurd (Option.some.inj hq).symm hne
    · change x.env.osTargetSequence = some (max x.env.osFloor sequence')
      rw [hseq, max_eq_right hnewer.le]
  | bad s => exact hx.congr rfl rfl rfl
  | source => exact hx.congr rfl rfl rfl
  | clear => exact .noJob (noJob_clear x.env)
  | launch boot =>
    obtain ⟨-, -, rfl⟩ := bootSlot_eq_some.mp boot
    exact hx.congr (by simp) (by simp) (by simp)
  | marks => exact hx.congr rfl rfl rfl
  | image => exact hx

/-- Whatever the parties do, the pending job stays newer than the floor until its own
confirmation raises the floor to it. -/
theorem tracked_run (hx : Tracked x.env) (h : Relation.ReflTransGen (SharedStep O) x y) :
    Tracked y.env := by
  induction h with
  | refl => exact hx
  | tail _ hstep ih => exact hstep.tracked ih

/-! ### What only moves forward -/

/-- The floor and the epoch of the policy do not go back, and a policy of the same epoch is the
same policy. -/
structure Forward (env env' : Env) : Prop where
  floor : env.osFloor ≤ env'.osFloor
  epoch : env.trustEpoch ≤ env'.trustEpoch
  policy : env'.trustEpoch = env.trustEpoch → env'.trustPolicy = env.trustPolicy

theorem Forward.of_eq {env env' : Env} (hfloor : env'.osFloor = env.osFloor)
    (hepoch : env'.trustEpoch = env.trustEpoch) (hpolicy : env'.trustPolicy = env.trustPolicy) :
    Forward env env' := ⟨hfloor.ge, hepoch.ge, fun _ => hpolicy⟩

theorem Forward.trans {env env₁ env₂ : Env} (h : Forward env env₁) (h' : Forward env₁ env₂) :
    Forward env env₂ := by
  refine ⟨h.floor.trans h'.floor, h.epoch.trans h'.epoch, fun hsame => ?_⟩
  have hepoch : env₁.trustEpoch = env.trustEpoch :=
    le_antisymm (h'.epoch.trans hsame.le) h.epoch
  exact (h'.policy (hsame.trans hepoch.symm)).trans (h.policy hepoch)

theorem SharedStep.onward (h : SharedStep O x y) : Forward x.env y.env := by
  cases h with
  | trust _ newer same => exact ⟨le_rfl, newer, same⟩
  | @promote sequence =>
    have hfloor : x.env.osFloor ≤ max x.env.osFloor sequence := le_max_left _ _
    exact ⟨hfloor, le_rfl, fun _ => rfl⟩
  | launch boot =>
    obtain ⟨-, -, rfl⟩ := bootSlot_eq_some.mp boot
    refine .of_eq (by simp) ?_ ?_ <;> simp only [Env.launch] <;> split <;> rfl
  | intend => refine .of_eq ?_ ?_ ?_ <;> simp [Shared.write, intentBatch, Env.assign]
  | activate => exact .of_eq rfl rfl rfl
  | activated => exact .of_eq rfl rfl rfl
  | confirming => exact .of_eq rfl rfl rfl
  | good => exact .of_eq rfl rfl rfl
  | bad => exact .of_eq rfl rfl rfl
  | source => exact .of_eq rfl rfl rfl
  | clear => refine .of_eq ?_ ?_ ?_ <;> simp [Shared.write, clearBatch, Env.assign]
  | marks => exact .of_eq rfl rfl rfl
  | image => exact .of_eq rfl rfl rfl

theorem forward_run (h : Relation.ReflTransGen (SharedStep O) x y) : Forward x.env y.env := by
  induction h with
  | refl => exact .of_eq rfl rfl rfl
  | tail _ hstep ih => exact ih.trans hstep.onward

/-! ### Where the floor and the policy come from -/

end Steps

end Epilykos.OsUpdate
