import Mathlib.Logic.Function.Basic
import Epilykos.PlatformEnv.Record

/-!
What the OS updater keeps, and where. The environment variables it shares with the slot
loader and RAUC are read as the values they carry: an absent variable is `none`, a batch is
the list of its assignments. The journal and the guard are the two files on DATA.
-/

namespace Epilykos.OsUpdate

export PlatformEnv (Bytes)

abbrev JobId := String

/-- A SHA-256 in hexadecimal. -/
abbrev Digest := String

inductive Slot
  | a
  | b
  deriving DecidableEq, Repr

/-- The slot that is not this one. -/
def Slot.other : Slot → Slot
  | .a => .b
  | .b => .a

@[simp] theorem Slot.other_other (s : Slot) : s.other.other = s := by cases s <;> rfl

@[simp] theorem Slot.other_ne (s : Slot) : s.other ≠ s := by cases s <;> decide

@[simp] theorem Slot.ne_other (s : Slot) : s ≠ s.other := by cases s <;> decide

theorem Slot.eq_or_eq_other (s t : Slot) : t = s ∨ t = s.other := by cases s <;> cases t <;> decide

/-- The values of epk_os_phase the loader knows. -/
inductive Phase
  | ready
  | activationIntent
  | activated
  | trying
  | confirming
  | promoting
  deriving DecidableEq, Repr

/-! ### The environment -/

structure Env where
  /-- BOOT_ORDER. -/
  bootOrder : List Slot
  /-- BOOT_A_LEFT and BOOT_B_LEFT. -/
  left : Slot → ℕ
  osFloor : ℕ
  trustPolicy : Bytes
  trustPolicySig : Bytes
  trustEpoch : ℕ
  osPending : Option JobId
  osTarget : Option Slot
  osFrom : Option Slot
  osTargetSequence : Option ℕ
  osTargetSha256 : Option Digest
  osPhase : Option Phase
  osTrialStarted : Option JobId

/-- One line of a batch: the variable and its new value, `none` to delete it. -/
inductive Assign
  | osFloor (v : ℕ)
  | trustPolicy (v : Bytes)
  | trustPolicySig (v : Bytes)
  | trustEpoch (v : ℕ)
  | osPending (v : Option JobId)
  | osTarget (v : Option Slot)
  | osFrom (v : Option Slot)
  | osTargetSequence (v : Option ℕ)
  | osTargetSha256 (v : Option Digest)
  | osPhase (v : Option Phase)
  | osTrialStarted (v : Option JobId)
  deriving DecidableEq

namespace Env

def assign (env : Env) : Assign → Env
  | .osFloor v => { env with osFloor := v }
  | .trustPolicy v => { env with trustPolicy := v }
  | .trustPolicySig v => { env with trustPolicySig := v }
  | .trustEpoch v => { env with trustEpoch := v }
  | .osPending v => { env with osPending := v }
  | .osTarget v => { env with osTarget := v }
  | .osFrom v => { env with osFrom := v }
  | .osTargetSequence v => { env with osTargetSequence := v }
  | .osTargetSha256 v => { env with osTargetSha256 := v }
  | .osPhase v => { env with osPhase := v }
  | .osTrialStarted v => { env with osTrialStarted := v }

/-- One checked batch through fw_setenv. -/
def write (env : Env) (batch : List Assign) : Env := batch.foldl assign env

/-- The variable reads back as assigned. -/
def holds (env : Env) : Assign → Bool
  | .osFloor v => env.osFloor == v
  | .trustPolicy v => env.trustPolicy == v
  | .trustPolicySig v => env.trustPolicySig == v
  | .trustEpoch v => env.trustEpoch == v
  | .osPending v => env.osPending == v
  | .osTarget v => env.osTarget == v
  | .osFrom v => env.osFrom == v
  | .osTargetSequence v => env.osTargetSequence == v
  | .osTargetSha256 v => env.osTargetSha256 == v
  | .osPhase v => env.osPhase == v
  | .osTrialStarted v => env.osTrialStarted == v

def setLeft (env : Env) (s : Slot) (n : ℕ) : Env :=
  { env with left := Function.update env.left s n }

@[simp] theorem write_nil (env : Env) : env.write [] = env := rfl

@[simp] theorem write_cons (env : Env) (a : Assign) (batch : List Assign) :
    env.write (a :: batch) = (env.assign a).write batch := rfl

@[simp] theorem assign_bootOrder (env : Env) (a : Assign) :
    (env.assign a).bootOrder = env.bootOrder := by cases a <;> rfl

@[simp] theorem assign_left (env : Env) (a : Assign) : (env.assign a).left = env.left := by
  cases a <;> rfl

/-- No batch of the updater touches what decides the slot to start. -/
@[simp] theorem write_bootOrder (env : Env) (batch : List Assign) :
    (env.write batch).bootOrder = env.bootOrder := by
  induction batch generalizing env with
  | nil => rfl
  | cons a batch ih => rw [write_cons, ih, assign_bootOrder]

@[simp] theorem write_left (env : Env) (batch : List Assign) :
    (env.write batch).left = env.left := by
  induction batch generalizing env with
  | nil => rfl
  | cons a batch ih => rw [write_cons, ih, assign_left]

/-- Writing what already stands changes nothing. -/
theorem assign_of_holds {env : Env} {a : Assign} (h : env.holds a = true) : env.assign a = env := by
  cases a <;> simp only [holds, beq_iff_eq] at h <;> subst h <;> rfl

theorem write_of_holds {env : Env} {batch : List Assign} (h : batch.all env.holds = true) :
    env.write batch = env := by
  induction batch with
  | nil => rfl
  | cons a batch ih =>
    simp only [List.all_cons, Bool.and_eq_true] at h
    rw [write_cons, assign_of_holds h.1, ih h.2]

/-- No epk_os_* job variable is set. -/
structure NoJob (env : Env) : Prop where
  pending : env.osPending = none
  target : env.osTarget = none
  from_ : env.osFrom = none
  sequence : env.osTargetSequence = none
  sha256 : env.osTargetSha256 = none
  phase : env.osPhase = none
  trial : env.osTrialStarted = none

end Env

/-! ### The journal and the guard -/

inductive JobState
  | queued
  | downloading
  | verifying
  | installing
  | ready
  | restarting
  | trying
  | reconciling
  | confirmed
  | rolledBack
  | failed
  | cancelled
  | discarded
  deriving DecidableEq, Repr

namespace JobState

/-- WORKING. -/
def working : JobState → Bool
  | .queued | .downloading | .verifying => true
  | _ => false

/-- TERMINAL. -/
def terminal : JobState → Bool
  | .confirmed | .rolledBack | .failed | .cancelled | .discarded => true
  | _ => false

/-- The states a worker takes up: WORKING, installing and restarting. -/
def forWorker (s : JobState) : Bool := s.working || s == .installing || s == .restarting

end JobState

/-- job['progress']; `activated` is there only after an activation. -/
structure Progress where
  phase : JobState
  activated : Bool
  deriving DecidableEq

def Progress.of (phase : JobState) : Progress := { phase, activated := false }

/-- job['image']; a record rebuilt from the environment has no size. -/
structure Image where
  size : Option ℕ
  sha256 : Option Digest
  deriving DecidableEq

/-- The signed files of one release: the entry, the policy and their signatures. -/
structure Files where
  entry : Bytes
  entrySig : Bytes
  policy : Bytes
  policySig : Bytes
  deriving DecidableEq

structure RaucIdentity where
  transaction : Option JobId
  busOwner : String
  invocation : String
  deriving DecidableEq

/-- The job as the journal holds it; `none` where the record lacks the key or holds null. -/
structure Job where
  id : JobId
  requestId : Option String
  state : JobState
  sequence : ℕ
  sha256 : Option Digest
  size : Option ℕ
  source : Option Slot
  target : Option Slot
  files : Option Files
  image : Option Image
  rauc : Option RaucIdentity
  validator : Option String
  progress : Progress
  error : Option String
  reconstructed : Bool
  deriving DecidableEq

inductive GuardState
  | idle
  | active
  | pending
  | reconciling
  deriving DecidableEq, Repr

structure Guard where
  state : GuardState
  job : Option JobId
  deriving DecidableEq

end Epilykos.OsUpdate
