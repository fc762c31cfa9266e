import Epilykos.OsUpdate.Update

/-!
Finishing an OS update: Restart and Discard, the activation for one trial, the trial's
confirmation, and what hostd does after every boot. Every step writes its intent before
acting and is meant to be safe to repeat.
-/

namespace Epilykos.OsUpdate

open Program

/-- The variables of PENDING, all deleted. -/
def clearBatch : List Assign :=
  [.osPending none, .osTarget none, .osFrom none, .osTargetSequence none, .osTargetSha256 none,
    .osPhase none, .osTrialStarted none]

/-- TRIAL_PHASES. -/
def trialPhase : Option Phase → Bool
  | some .activated | some .confirming | some .promoting => true
  | _ => false

/-- One checked batch through fw_setenv, read back. -/
def setEnv (batch : List Assign) : OsProg Env := do
  .raiseIf (!(← run "fw_setenv" (ask (.setEnv batch))))
    (.osUpdate "Could not save the OS update state")
  let env ← readEnv
  .raiseIf (!batch.all env.holds) (.osUpdate "The saved OS update state did not read back")
  return env

def clearPending : OsProg Env := setEnv clearBatch

/-- Mark the target bad and show it cannot boot. -/
def targetBad (target : Option Slot) : OsProg Bool := do
  let target ← need target
  let _ ← run "rauc" (ask (.markBad target))
  return (← readEnv).left target == 0

/-! ### Restart and Discard, from hostd -/

/-- Administrator's Restart for a ready job; the worker activates and reboots. -/
def restart (id : JobId) : OsProg Unit := do
  let refused := Err.osUpdate "There is no OS update ready to finish"
  let some job ← journal | throw refused
  .raiseIf (job.id ≠ id ∨ job.state ≠ .ready) refused
  .raiseIf (← workerActive) (.osUpdate "The OS update is busy; try again shortly")
  save { job.step .restarting with error := none }
  startWorker

/-- Drop a ready job: the target stays non-bootable, nothing is activated. -/
def discard (id : JobId) : OsProg Unit := do
  let refused := Err.osUpdate "There is no OS update ready to discard"
  let some job ← journal | throw refused
  .raiseIf (job.id ≠ id ∨ job.state ≠ .ready) refused
  let late := Err.osUpdate "The OS update is being activated and can no longer be discarded"
  .raiseIf (← workerActive) late
  .raiseIf (← readEnv).osPending.isSome late
  .raiseIf (!(← targetBad job.target))
    (.osUpdate "Could not make sure the other system slot stays unused")
  finish job .discarded none

/-! ### Activation, by the worker -/

/-- Trust may have advanced, space shrunk or the app changed since ready. -/
def revalidate (O : Oracles) (job : Job) : OsProg Unit := do
  let plat ← need (← platform)
  let state ← currentState O plat
  let files ← need job.files
  let entry ← verifyOsRelease O files.entry files.entrySig plat state.policy
  admissible entry plat state.floor
  let blockers ← appBlockers
  .raiseIf (blockers ≠ []) (.osUpdate (blockers.headD ""))
  storageAdmit ociAllowance
  verifyTarget job

/-- Activation did not happen: target non-bootable, no pending state, ready. -/
def backToReady (job : Job) (error : String) : OsProg ℕ := do
  let safe ← Prog.tryCatch (do
      let safe ← targetBad job.target
      .when safe do let _ ← clearPending
      return safe) fun e =>
    match e with
    | .osUpdate _ | .trust _ => return false
    | e => throw e
  if safe then
    save { job.step .ready with error := some error }
    setGuard .pending (some job.id)
    return 1
  else
    save { job.step .reconciling with error := some (error ++ "; the system state needs checking") }
    setGuard .reconciling (some job.id)
    return 1

/-- The batch that records the intent to activate. -/
def intentBatch (job : Job) (image : Image) : List Assign :=
  [.osPending (some job.id), .osTarget job.target, .osFrom job.source,
    .osTargetSequence (some job.sequence), .osTargetSha256 image.sha256,
    .osPhase (some .activationIntent), .osTrialStarted none]

/-- Everything up to the intent batch; the error that keeps the job ready, if there is one. -/
def intend (O : Oracles) (job : Job) : OsProg (Option String) :=
  Prog.tryCatch (do
    revalidate O job
    let env ← readEnv
    .raiseIf (env.osPending ≠ none ∧ env.osPending ≠ some job.id)
      (.osUpdate "Another OS update is recorded in the system state")
    let image ← need job.image
    let _ ← setEnv (intentBatch job image)
    return none) fun e =>
  match e with
  | .osUpdate msg | .trust msg | .storage msg => return some msg
  | e => throw e

/-- Only the reboot was missing. -/
def alreadyActivated (job : Job) : OsProg Bool :=
  if job.progress.activated then do return (← readEnv).osPhase == some .activated
  else return false

def reboot : OsProg ℕ := do
  let _ ← run "systemctl" (ask .reboot)
  return 0

/-- The intent is durable: make the target bootable, read back, and go. -/
def activateTarget (job : Job) : OsProg ℕ := do
  let target ← need job.target
  let _ ← run "rauc" (ask (.markActive target))
  let env ← readEnv
  if env.bootOrder.head? ≠ some target ∨ env.left target ≠ 3 then
    backToReady job "The system could not be set to start the new version"
  else
    let _ ← setEnv [.osPhase (some .activated)]
    save { job with progress := { phase := .restarting, activated := true } }
    reboot

/-- Run by the worker for a `restarting` job, holding the maintenance lease. -/
def activate (O : Oracles) (job : Job) : OsProg ℕ := do
  if ← alreadyActivated job then reboot
  else
    match ← intend O job with
    | some error => backToReady job error
    | none => activateTarget job

/-! ### Confirmation, from boot health -/

/-- The text of a release as active.env may hold it. -/
def activeText (s : String) : String :=
  String.ofList (s.toList.filter fun c => c.isAlphanum || "+_.-".toList.contains c)

/-- epilykos_update._set_active for a promoted release. -/
def Release.toActive (r : Release) : Active :=
  { imageId := r.imageId, sequence := r.sequence, release := activeText r.release }

/-- The promoted application before it is replaced; none is kept of another channel. -/
def keepPrevious : Option Release → OsProg Unit
  | some r => do stored (← ask (.writePrevious r))
  | none => return ()

/-- `base` over the promoted application of its channel, unless that one is as new. -/
def promoteOver (base : Release) (same : Option Release) : OsProg Unit :=
  if same.any fun current => base.sequence ≤ current.sequence then return ()
  else do
    keepPrevious same
    stored (← ask (.writeCurrent base))
    let floor := (← ask .readAppFloor).getD 0
    stored (← ask (.writeAppFloor (max floor base.sequence)))
    stored (← ask (.writeActive base.toActive))

/-- After OS confirmation only: a newer bundled app of the same channel becomes the promoted
one. A newer app already promoted from Settings stays. -/
def promoteApp : OsProg Unit := do
  let base ← ask .baseline
  if base.imageId = "" ∨ base.sequence = 0 then return ()
  else promoteOver base ((← ask .readCurrent).filter fun current => current.channel == base.channel)

/-- What the environment alone tells of its job. -/
def rebuiltJob (env : Env) (pending : JobId) (sequence : ℕ) : Job :=
  { id := pending, requestId := none, state := .trying, sequence, sha256 := none, size := none,
    source := env.osFrom, target := env.osTarget, files := none,
    image := some { size := none, sha256 := env.osTargetSha256 }, rauc := none,
    validator := none, progress := .of .trying, error := none, reconstructed := true }

/-- The journal for the environment's pending job; reconstructed after DATA was lost. -/
def rebuild (env : Env) (found : Option Job) : OsProg Job := do
  let pending ← need env.osPending
  match found.filter fun job => job.id == pending with
  | some job => return job
  | none =>
    let sequence ← need env.osTargetSequence
    let job := rebuiltJob env pending sequence
    save job
    return job

def notTheTrial : String := "This boot is not the trial of that OS update"

/-- Confirmation intent, before RAUC is asked. -/
def confirmIntent (env : Env) : OsProg Env :=
  if env.osPhase = some .activated then setEnv [.osPhase (some .confirming)] else return env

/-- RAUC's confirmation of the slot, then the floor and `promoting` in one batch. -/
def confirmSlot (env : Env) (sequence : ℕ) : OsProg Env :=
  if env.osPhase = some .confirming then do
    .raiseIf (!(← run "rauc" (ask .markGoodBooted))) (.osUpdate "Could not confirm the new system")
    setEnv [.osFloor (max env.osFloor sequence), .osPhase (some .promoting)]
  else return env

/-- The app, the journal and the guard. -/
def confirmJob (env : Env) (slot : Slot) : OsProg Unit := do
  .raiseIf (env.left slot ≠ 3) (.osUpdate "The confirmed system did not keep its attempts")
  promoteApp
  let job ← rebuild env (← journal)
  finish job .confirmed none

/-- The trial is healthy. -/
def confirmCandidate (id : JobId) : OsProg ℕ := do
  let env ← readEnv
  let slot ← bootedSlot
  .raiseIf (env.osPending ≠ some id ∨ env.osTarget ≠ some slot ∨ env.osTrialStarted ≠ some id ∨
    !trialPhase env.osPhase) (.osUpdate notTheTrial)
  let sequence ← need env.osTargetSequence
  let env ← confirmIntent env
  let env ← confirmSlot env sequence
  confirmJob env slot
  let _ ← clearPending
  return 0

/-- epilykos-os-confirm: three attempts. -/
def confirmMain (id : JobId) : ℕ → OsProg ℕ
  | 0 => return 1
  | attempts + 1 => Prog.tryCatch (confirmCandidate id) fun e =>
    match e with
    | .osUpdate _ | .trust _ | .os => confirmMain id attempts
    | e => throw e

/-! ### Every boot -/

def interrupted : String := "The restart was interrupted; restart again to finish"

/-- The environment knows no pending job. -/
def reconcileSettled (env : Env) (found : Option Job) (slot : Slot) :
    OsProg (Option JobState) := do
  match found with
  | none => reconcile; return none
  | some job =>
    match job.state with
    | .restarting =>
      let _ ← backToReady job interrupted
      return some (← need (← journal)).state
    | .trying =>
      if some slot = job.target ∧ job.sequence ≤ env.osFloor then
        finish job .confirmed none
        return some .confirmed
      else
        finish job .failed (some "The OS update ended without a result")
        return some .failed
    | _ => reconcile; return none

/-- The target runs: the trial, or a confirmation that is finished but for the variables. -/
def reconcileTrial (env : Env) (found : Option Job) : OsProg (Option JobState) := do
  let job ← rebuild env found
  if job.state = .confirmed then
    let _ ← clearPending
    setGuard .idle none
    return some .confirmed
  else
    save (job.step .trying)
    setGuard .pending (some job.id)
    return some .trying

/-- The trial ran and the loader fell back: a rollback. Floor unchanged. -/
def reconcileRollback (env : Env) (found : Option Job) (slot : Slot) (pending : JobId) :
    OsProg (Option JobState) := do
  let job ← rebuild env found
  if !(← targetBad env.osTarget) then
    setGuard .reconciling (some pending)
    return some .reconciling
  else
    .when (env.bootOrder.head? ≠ some slot) do
      let _ ← run "rauc" (ask .markActiveBooted)
    .when (job.state ≠ .rolledBack) do
      finish job .rolledBack
        (some "The new version did not start properly, so the previous one is running")
    let _ ← clearPending
    return some .rolledBack

/-- Activation never reached a trial. -/
def reconcileUntried (env : Env) (found : Option Job) (pending : JobId) :
    OsProg (Option JobState) := do
  match found.filter fun job =>
      job.id == pending && (job.state == .restarting || job.state == .ready) with
  | some job =>
    let _ ← backToReady job interrupted
    return some .ready
  | none =>
    let job ← rebuild env found
    if ← targetBad env.osTarget then
      finish job .failed (some "The OS update was interrupted before it started")
      let _ ← clearPending
      return some .failed
    else
      setGuard .reconciling (some pending)
      return some .reconciling

/-- What reconcile_boot reads first; the guard says so when it cannot. -/
def readBoot : OsProg (Env × Option Job × Slot) :=
  Prog.tryCatch (do
    let env ← readEnv
    let found ← journal
    let slot ← bootedSlot
    return (env, found, slot)) fun e => do
  .when (e matches .osUpdate _ | .trust _) (setGuard .reconciling none)
  throw e

/-- A worker that is running carries on; hostd was only restarted. -/
def carriesOn : Option Job → OsProg Bool
  | some job => if job.state.forWorker then workerActive else return false
  | none => return false

/-- The environment knows a pending job. -/
def reconcilePending (env : Env) (found : Option Job) (slot : Slot) (pending : JobId) :
    OsProg (Option JobState) :=
  if env.osTarget = some slot then reconcileTrial env found
  else if env.osFrom ≠ some slot then do
    setGuard .reconciling (some pending)
    return some .reconciling
  else if env.osTrialStarted = some pending then reconcileRollback env found slot pending
  else reconcileUntried env found pending

/-- Make the journal and guard agree with the environment and the booted slot. Returns what
was found, for the log. -/
def reconcileBoot : OsProg (Option JobState) := do
  let (env, found, slot) ← readBoot
  if ← carriesOn found then return found.map (·.state)
  else
    match env.osPending with
    | none => reconcileSettled env found slot
    | some pending => reconcilePending env found slot pending

end Epilykos.OsUpdate
