import Epilykos.OsUpdate.Worker

/-!
The requests hostd takes for OS updates: what Settings shows, the check for a newer release,
the admission of one job, its cancellation and its dismissal.
-/

namespace Epilykos.OsUpdate

open Program

/-- What Settings shows; an unsupported card has a reason, an unreadable record an error. -/
inductive View
  | unsupported (reason : String)
  | supported (platform : Platform) (guard : GuardState) (job : Except String (Option Job))

/-- A job whose worker went away (power, crash) resumes on the next look. -/
def ensureWorker : Option Job → OsProg Unit
  | some job =>
    if job.state.forWorker then do
      .when (!(← workerActive)) startWorker
    else return ()
  | none => return ()

def flashed : String :=
  "This card was made before OS updates from Settings. Flash a current EpilykosOS image once " ++
    "to get them."

/-- An OsUpdateError as a value. -/
def sentenceOr {α : Type} (p : OsProg α) : OsProg (Except String α) :=
  Prog.tryCatch (do return .ok (← p)) fun e =>
    match e with
    | .osUpdate msg => return .error msg
    | e => throw e

/-- Looking resumes a job whose worker went away. -/
def view (resume : Bool) : OsProg View := do
  match ← sentenceOr platform with
  | .error msg => return .unsupported msg
  | .ok none => return .unsupported flashed
  | .ok (some plat) =>
    let guard ← guard
    let job ← sentenceOr do
      let job ← journal
      .when resume (ensureWorker job)
      return job
    return .supported plat guard.state job

def fetch (f : FeedFile) : OsProg Bytes := do
  match ← ask (.fetch f) with
  | some data => return data
  | none => throw (.osUpdate "Could not reach the OS update server")

def fetchRelease : OsProg Files := do
  let entry ← fetch .entry
  let entrySig ← fetch .entrySig
  let policy ← fetch .policy
  let policySig ← fetch .policySig
  return { entry, entrySig, policy, policySig }

/-- storage.admit's refusal, as one more blocker. -/
def storageBlockers (required : ℕ) : OsProg (List String) := do
  match ← ask (.storageAdmit required) with
  | none => return []
  | some refusal => return [refusal]

def requiredBytes (entry : Entry) : ℕ := entry.bundleSize + ociAllowance

inductive Checked
  | status (view : View)
  | current (view : View) (entry : Entry)
  | available (view : View) (entry : Entry) (blockers : List String) (trustUpdate : Bool)

/-- Whether the entry is newer than this box's system. -/
def isNewer (entry : Entry) (plat : Platform) (floor : ℕ) : OsProg Bool :=
  Prog.tryCatch (do admissible entry plat floor; return true) fun e =>
    if e matches .trust _ then return false else throw e

/-- Is a newer signed package out, and can it install? What was verified is kept for
`install`. -/
def check (O : Oracles) : OsProg Checked := do
  match ← platform with
  | none => return .status (← view true)
  | some plat =>
    let state ← currentState O plat
    let files ← fetchRelease
    let (entry, _, newer) ← verifyRelease O files plat state
    let shown ← view true
    if ← isNewer entry plat state.floor then
      let env ← readEnv
      let slot ← bootedSlot
      let health ← healthBlockers slot env
      let app ← appBlockers
      let space ← storageBlockers (requiredBytes entry)
      layout
      written (← ask (.writeChecked files))
      return .available shown entry (health ++ app ++ space) newer
    else return .current shown entry

/-- `[A-Za-z0-9][A-Za-z0-9-]{7,63}`. -/
def isRequestId (s : String) : Bool :=
  match s.toList with
  | [] => false
  | c :: cs => c.isAlphanum && 7 ≤ cs.length && cs.length ≤ 63 &&
      cs.all fun d => d.isAlphanum || d == '-'

/-- The job of an admission. -/
def newJob (id : JobId) (requestId : String) (entry : Entry) (slot : Slot) (files : Files) : Job :=
  { id, requestId := some requestId, state := .queued, sequence := entry.sequence,
    sha256 := some entry.bundleSha256, size := some entry.bundleSize, source := some slot,
    target := some slot.other, files := some files, image := none, rauc := none,
    validator := none, progress := .of .queued, error := none, reconstructed := false }

/-- The files of the last check. -/
def checkedFiles : OsProg Files := do
  match ← ask .readChecked with
  | some files => return files
  | none => throw (.osUpdate "Check for OS updates again, then install")

/-- The entry the request asks for, verified again now. -/
def admitEntry (O : Oracles) (plat : Platform) (files : Files) (seq : ℤ) (sha256 : Digest) :
    OsProg Entry := do
  let state ← currentState O plat
  let (entry, _, _) ← verifyRelease O files plat state
  .raiseIf ((entry.sequence : ℤ) ≠ seq ∨ entry.bundleSha256 ≠ sha256)
    (.osUpdate "The verified OS update changed; check again")
  admissible entry plat state.floor
  return entry

/-- A new job, its record and its worker. -/
def admission (O : Oracles) (plat : Platform) (seq : ℤ) (sha256 : Digest) (requestId : String) :
    OsProg Unit := do
  .raiseIf ((← guard).state ≠ .idle)
    (.osUpdate "An OS update needs checking before another can start")
  let files ← checkedFiles
  let entry ← admitEntry O plat files seq sha256
  let slot ← bootedSlot
  let health ← healthBlockers slot (← readEnv)
  let app ← appBlockers
  .raiseIf (health ++ app ≠ []) (.osUpdate ((health ++ app).headD ""))
  storageAdmit (requiredBytes entry)
  let id ← ask .newId
  stored (← ask .removeCancel)
  save (newJob id requestId entry slot files)
  startWorker

/-- The part of `install` that holds the lock; idempotent by request ID. -/
def installLocked (O : Oracles) (plat : Platform) (seq : ℤ) (sha256 : Digest)
    (requestId : String) : OsProg Unit := do
  match ← journal with
  | none => admission O plat seq sha256 requestId
  | some job =>
    if job.requestId = some requestId then do
      .raiseIf ((job.sequence : ℤ) ≠ seq ∨ job.sha256 ≠ some sha256)
        (.osUpdate "That request was for a different OS update")
      let _ ← view true
    else if job.state.terminal then admission O plat seq sha256 requestId
    else throw (.osUpdate "An OS update is already in progress")

/-- Admit one job for the exact checked package. -/
def install (O : Oracles) : Json → Json → Json → OsProg Unit
  | .int seq, .str sha256, .str requestId =>
    if isDigest sha256 && isRequestId requestId then do
      match ← platform with
      | none => throw (.osUpdate flashed)
      | some plat => installLocked O plat seq sha256 requestId
    else throw (.osUpdate "Check for OS updates again, then install")
  | _, _, _ => throw (.osUpdate "Check for OS updates again, then install")

def cancel (id : JobId) : OsProg Unit := do
  let refused := Err.osUpdate "That OS update is not running"
  let some job ← journal | throw refused
  .raiseIf (job.id ≠ id) refused
  .raiseIf (!job.state.working)
    (.osUpdate "The OS update can no longer be cancelled; it will finish installing first")
  stored (← ask (.writeCancel id))
  if ← workerActive then return () else finish job .cancelled none

def dismiss (id : JobId) : OsProg Unit := do
  let refused := Err.osUpdate "There is no finished OS update to dismiss"
  let some job ← journal | throw refused
  .raiseIf (job.id ≠ id ∨ !job.state.terminal) refused
  stored (← ask .removeJournal)
  let _ ← view true

/-- The OS update requests of the socket. -/
inductive Request
  | install (seq sha256 requestId : Json)
  | cancel (id : JobId)
  | dismiss (id : JobId)
  | restart (id : JobId)
  | discard (id : JobId)
  | check
  | view

def Request.prog (O : Oracles) : Request → OsProg Unit
  | .install seq sha256 requestId => OsUpdate.install O seq sha256 requestId
  | .cancel id => OsUpdate.cancel id
  | .dismiss id => OsUpdate.dismiss id
  | .restart id => OsUpdate.restart id
  | .discard id => OsUpdate.discard id
  | .check => do let _ ← OsUpdate.check O
  | .view => do let _ ← OsUpdate.view true

/-! ### What other maintenance must respect -/

/-- The guard, or `active` for a queued job the worker has not taken up yet. -/
def blocking : OsProg GuardState := do
  match ← sentenceOr platform with
  | .error _ => return .reconciling
  | .ok none => return .idle
  | .ok (some _) =>
    let state := (← guard).state
    if state ≠ .idle then return state
    else
      match ← sentenceOr journal with
      | .error _ => return .reconciling
      | .ok (some job) =>
        return if job.state.working || job.state == .installing then .active else .idle
      | .ok none => return .idle

end Epilykos.OsUpdate
