import Epilykos.OsUpdate.Trust

/-!
The parts of the updater that every stage of a job shares: the journal and the guard, what
this box says of itself, and the ways an install ends. Only `run_worker` and hostd call them.
-/

namespace Epilykos.OsUpdate

open Program

/-- OCI_ALLOWANCE. -/
def ociAllowance : ℕ := slotBytes

/-- A bounded command: whether it exited with code zero. -/
def run (program : String) (p : OsProg Ran) : OsProg Bool := do
  match ← p with
  | .ok => return true
  | .failed => return false
  | .noAnswer => throw (.osUpdate (program ++ " did not answer"))

/-- A bounded command whose output is read; `none` when it exits with another code. -/
def runReply {α : Type} (program : String) (p : OsProg (Reply α)) : OsProg (Option α) := do
  match ← p with
  | .answered out => return some out
  | .failed => return none
  | .noAnswer => throw (.osUpdate (program ++ " did not answer"))

/-- A key that must be there. -/
def need {α : Type} : Option α → OsProg α
  | some x => return x
  | none => throw .key

def written : Wrote → OsProg Unit
  | .done => return ()
  | .failed => throw .os
  | .noLayout => throw (.osUpdate "The OS update state directory is not usable")

def stored : Bool → OsProg Unit
  | true => return ()
  | false => throw .os

/-! ### The durable files -/

def layout : OsProg Unit := do written (← ask .layout)

def journal : OsProg (Option Job) := do
  match ← ask .readJournal with
  | .absent => return none
  | .job j => return some j
  | .unreadable =>
    throw (.osUpdate "The OS update record is unreadable; OS updates are off until it is repaired")

def save (job : Job) : OsProg Unit := do written (← ask (.writeJournal job))

/-- A missing or malformed guard reads as `reconciling`. -/
def guard : OsProg Guard := do
  return (← ask .readGuard).getD { state := .reconciling, job := none }

def setGuard (state : GuardState) (job : Option JobId) : OsProg Unit := do
  written (← ask (.writeGuard { state, job }))

/-! ### This box -/

/-- This slot's platform, or `none` on a protocol-1 card. -/
def platform : OsProg (Option Platform) := do
  match ← ask .platform with
  | .found p => return some p
  | .absent => return none
  | .invalid =>
    throw (.osUpdate "This system's platform record is invalid; OS updates are off")

def bootedSlot : OsProg Slot := do
  match ← ask .bootedSlot with
  | some s => return s
  | none => throw (.osUpdate "Could not tell which system slot is running")

def healthBlockers (slot : Slot) (env : Env) : OsProg (List String) := do
  let health ← ask .health
  return (if health = some slot then []
      else ["The running system has not been confirmed healthy since it started"]) ++
    (if env.osPending.isNone then [] else ["An earlier OS update has not finished"]) ++
    (if env.bootOrder.head? = some slot then []
      else ["The running system is not the one the box starts by default"])

/-- The verdict on the running container is the host's answer. -/
def appBlockers : OsProg (List String) := do
  match ← ask .inspectApp with
  | .answered none => return []
  | .answered (some refusal) => return [refusal]
  | .failed => return ["The app is not running"]
  | .noAnswer => return ["podman did not answer"]

/-- storage.admit. -/
def storageAdmit (required : ℕ) : OsProg Unit := do
  match ← ask (.storageAdmit required) with
  | none => return ()
  | some refusal => throw (.storage refusal)

def workerActive : OsProg Bool := run "systemctl" (ask .workerActive)

def startWorker : OsProg Unit := do
  .raiseIf (!(← run "systemctl" (ask .startWorker))) (.osUpdate "Could not start the OS update")

/-! ### The job -/

def Job.step (job : Job) (phase : JobState) : Job :=
  { job with state := phase, progress := .of phase }

/-- osu.step. -/
def step (job : Job) (phase : JobState) : OsProg Job := do
  let job := job.step phase
  save job
  return job

def Job.finished (job : Job) (state : JobState) (error : Option String) : Job :=
  { job with state, error, progress := .of state }

/-- Everything staged for the job. -/
def removeStaging (id : JobId) : OsProg Unit := do stored (← ask (.removeStaging id))

/-- The cancel request stays: a worker that was just starting still sees it. -/
def finish (job : Job) (state : JobState) (error : Option String) : OsProg Unit := do
  save (job.finished state error)
  .when state.terminal do
    removeStaging job.id
    setGuard .idle none

/-- At hostd start, before the app: the guard reflects the journal, and an interrupted job
resumes. -/
def reconcile : OsProg Unit := do
  layout
  let found ← Prog.tryCatch journal fun e => do
    .when (e matches .osUpdate _) (setGuard .reconciling none)
    throw e
  match found with
  | none => setGuard .idle none
  | some job =>
    if job.state.terminal then setGuard .idle none
    else match job.state with
      | .ready => setGuard .pending (some job.id)
      | .reconciling => setGuard .reconciling (some job.id)
      | _ =>
        setGuard .active (some job.id)
        .when (!(← workerActive)) startWorker

/-! ### The installed slot -/

/-- The target has no attempts left and the source is first. -/
def nonBootable (env : Env) : Option Slot → Option Slot → Bool
  | some target, some source => env.left target == 0 && env.bootOrder.head? == some source
  | _, _ => false

/-- The installed slot holds exactly the signed image and cannot boot yet. -/
def verifyTarget (job : Job) : OsProg Unit := do
  let env ← readEnv
  .raiseIf (!nonBootable env job.target job.source)
    (.osUpdate "The installed system is unexpectedly bootable")
  let image ← need job.image
  let size ← need image.size
  let target ← need job.target
  match ← ask (.slotHash target size) with
  | .unreadable => throw (.osUpdate "Could not read back the installed system")
  | .short => throw (.osUpdate "The installed system does not match the signed image")
  | .digest d =>
    .raiseIf (image.sha256 ≠ some d)
      (.osUpdate "The installed system does not match the signed image")
    ask (.verified job.id target)

end Epilykos.OsUpdate
