import Epilykos.OsUpdate.Activate

/-!
The worker of one OS update job: download, verify, install into the other slot, or take up
an install or an activation that was cut. The source keeps one job record and changes it in
place; here an exception carries the record as it was when it was raised, for the handler.
-/

namespace Epilykos.OsUpdate

open Program

/-- A part of the worker that changes the job record as it goes. -/
abbrev JobProg := Prog Host (Err × Job)

def withJob {α : Type} (job : Job) (p : OsProg α) : JobProg α := p.tryCatch fun e => .raise (e, job)

def dropJob {α : Type} (p : JobProg α) : OsProg α := p.tryCatch fun e => .raise e.1

/-- One call to the host. -/
abbrev query (c : HostCall) : JobProg (Ans c) := Prog.call (F := Host) c .ret

/-- The sentence of an exception, for the job. -/
def Err.sentence : Err → String
  | .osUpdate msg | .trust msg | .storage msg => msg
  | .value => "The OS update failed (ValueError)"
  | .connection => "The OS update failed (ConnectionError)"
  | _ => "The OS update failed (OSError)"

def cancelled (job : Job) : OsProg Bool := do return (← ask .readCancel) == some job.id

/-- The last characters of a line. -/
def lastChars (n : ℕ) (s : String) : String := String.ofList (s.toList.drop (s.length - n))

/-! ### Policy and authorization -/

/-- The entry and the policy under the current shared state, and whether the policy is newer;
it is verified here, and persisted only by the worker. -/
def verifyRelease (O : Oracles) (files : Files) (plat : Platform) (state : TrustState) :
    OsProg (Entry × Policy × Bool) := do
  let policy ← rethrow (fun e => e.isValue || e == .os)
    (.osUpdate "The published trust policy does not verify") do
      let root ← readRoot
      verifyPolicy O files.policy files.policySig root plat.board plat.channel
        (some { raw := state.raw, trustEpoch := state.trustEpoch })
  let entry ← verifyOsRelease O files.entry files.entrySig plat policy
  return (entry, policy, state.trustEpoch < policy.trustEpoch)

/-- Operation and unique bus owner of the RAUC service. -/
def raucOperation : OsProg (Option Operation × Option String) := do
  match ← runReply "busctl" (ask .raucOwner) with
  | none => return (none, none)
  | some owner =>
    let operation ← runReply "busctl" (ask .raucOperation)
    return (operation.join, owner)

/-- The keyring is regenerated by rauc.service's ExecStartPre. -/
def restartRauc : OsProg Unit := do
  let (operation, _) ← raucOperation
  .raiseIf (operation ≠ some .idle ∧ operation ≠ none)
    (.osUpdate "The system updater is busy; try again shortly")
  .raiseIf (!(← run "systemctl" (ask .restartRauc)))
    (.osUpdate "Could not restart the system updater with the new trust policy")

/-- Trust advances first and stays advanced whatever this job does. -/
def admitNewer (O : Oracles) (files : Files) (plat : Platform) (state : TrustState) :
    Bool → OsProg TrustState
  | true => do
    let state ← admitPolicy O files.policy files.policySig plat state
    restartRauc
    return state
  | false => return state

/-! ### Download -/

/-- DOWNLOAD_ATTEMPTS. -/
def downloadAttempts : ℕ := 5

/-- `int(text)`: white space around it, a sign, digits with single underscores between. -/
def pyInt (s : String) : Option ℤ :=
  let space := fun c : Char => c == ' ' || ('\t' ≤ c && c ≤ '\r') || ('\x1c' ≤ c && c ≤ '\x1f')
  let trimmed := ((s.toList.dropWhile space).reverse.dropWhile space).reverse
  let (negative, digits) := match trimmed with
    | '-' :: rest => (true, rest)
    | '+' :: rest => (false, rest)
    | rest => (false, rest)
  let groups := digits.splitOn '_'
  if groups.all (fun g => !g.isEmpty && g.all Char.isDigit) then
    let n := groups.flatten.foldl (fun (n : ℕ) c => n * 10 + (c.toNat - 48)) 0
    some (if negative then -n else n)
  else none

/-- The body of one response, appended to the part. Every block is asked for only after a
look at the cancel request; the signed size bounds their number. -/
def pour (job : Job) (size : ℕ) : ℕ → ℕ → JobProg ℕ
  | 0, _ => throw (.osUpdate "The download is larger than the signed size", job)
  | fuel + 1, got => do
    .raiseIf (← withJob job (cancelled job)) (.cancelled, job)
    match ← query .readChunk with
    | .connection => throw (.connection, job)
    | .failed => throw (.os, job)
    | .bytes data =>
      if data = [] then return got
      else do
        .raiseIf (size < got + data.length)
          (.osUpdate "The download is larger than the signed size", job)
        .raiseIf (!(← query (.appendPart job.id data))) (.os, job)
        .when (← query .secondsPassed) do
          match ← query .checkHeadroom with
          | some refusal => throw (.storage refusal, job)
          | none => withJob job (save (job.step .downloading))
        pour job size fuel (got + data.length)

/-- Where the response starts, and the job with the validator of a response that starts over. -/
def responseStart (job : Job) (size offset : ℕ) (r : Response) : JobProg (Job × ℕ) :=
  if offset ≠ 0 ∧ r.status = 206 then
    if r.contentRange = some (offset, size - 1, size) then return (job, offset)
    else do
      -- not the part we asked for: start again
      .raiseIf (!(← query (.openPart job.id 0))) (.os, job)
      throw (.connection, job)
  else if r.status = 200 then do
    let job := { job with validator := r.validator }
    withJob job (save job)
    return (job, 0)
  else throw (.osUpdate ("The OS update server answered " ++ toString r.status), job)

def transfer (job : Job) (entry : Entry) : JobProg Job := do
  let some held ← query (.partSize job.id) | throw (.os, job)
  let offset := if entry.bundleSize < held then 0 else held
  let resume := job.validator.filter fun _ => offset ≠ 0
  match ← query (.openDownload entry.bundleUrl (resume.map fun v => (offset, v))) with
  | .connection => throw (.connection, job)
  | .failed => throw (.os, job)
  | .response r =>
    let (job, offset) ← responseStart job entry.bundleSize (if resume.isSome then offset else 0) r
    .raiseIf (!(← query (.openPart job.id offset))) (.os, job)
    let got ← Prog.ensure (pour job entry.bundleSize (entry.bundleSize + 1 - offset) offset) do
      .raiseIf (!(← query (.closePart job.id))) (.os, job)
    .raiseIf (got ≠ entry.bundleSize) (.connection, job)
    let job := job.step .downloading
    withJob job (save job)
    return job

/-- Interrupted transfers are taken up again, up to the last attempt. -/
def attempts (entry : Entry) : ℕ → Job → JobProg Job
  | 0, job =>
    throw (.osUpdate "The download kept failing; check the network and try again", job)
  | n + 1, job => Prog.tryCatch (transfer job entry) fun (e, job) =>
    if e = .connection then attempts entry n job else throw (e, job)

/-- Stream to owned staging, resuming only the same signed package. -/
def download (job : Job) (entry : Entry) : JobProg Job := do
  withJob job layout
  if (← query (.finalSize job.id)) = some entry.bundleSize then return job
  else do
    .raiseIf ((← query (.partSize job.id)) = none) (.os, job)
    let job := job.step .downloading
    withJob job (save job)
    let job ← attempts entry downloadAttempts job
    .raiseIf (!(← query (.renamePart job.id))) (.os, job)
    return job

/-- Exact bytes, actual signer and signed manifest, before RAUC sees it: the identity of the
signed rootfs image, for the check of the installed slot. -/
def verifyBundle (O : Oracles) (bundle : Bytes) (entry : Entry) (policy : Policy) :
    OsProg Image := do
  .raiseIf (!(← ask (.writeKeyring policy.raucCas))) .os
  let manifest ← Prog.ensure
    (do
      checkBundle O bundle entry policy
      let (manifest, _) ← bundleSigner O bundle policy.raucCas
      return manifest)
    (do .raiseIf (!(← ask .removeKeyring)) .os)
  let ini ← Prog.ofExcept (checkManifest O manifest entry)
  let some size := pyInt (ini.get "image.rootfs" "size" "0") | throw .value
  let sha256 := ini.get "image.rootfs" "sha256" ""
  .raiseIf (¬ (0 < size ∧ size ≤ slotBytes) ∨ !isDigest sha256)
    (.osUpdate "The OS update image does not fit a system slot")
  return { size := some size.toNat, sha256 := some sha256 }

/-! ### RAUC -/

def raucIdentity : OsProg RaucIdentity := do
  .raiseIf (!(← run "systemctl" (ask .startRauc))) (.osUpdate "The system updater did not start")
  let (operation, owner) ← raucOperation
  let invocation ← runReply "systemctl" (ask .raucInvocation)
  let unavailable := Err.osUpdate "The system updater is busy or unavailable"
  match owner, invocation.join with
  | some busOwner, some invocation =>
    .raiseIf (operation ≠ some .idle ∨ busOwner = "" ∨ invocation = "") unavailable
    return { transaction := none, busOwner, invocation }
  | _, _ => throw unavailable

def finishJob (job : Job) (state : JobState) (error : Option String) : JobProg Unit :=
  withJob (job.finished state error) (finish job state error)

/-- RAUC marked the target bad before writing; make sure it stays so, and say `reconciling`
rather than guess when that cannot be shown. -/
def failInstall (job : Job) (message : String) : JobProg ℕ := do
  let target ← withJob job (need job.target)
  let _ ← withJob job (run "rauc" (ask (.markBad target)))
  let safe ← withJob job (Prog.tryCatch
    (do return nonBootable (← readEnv) job.target job.source) fun e =>
      if e matches .trust _ then return false else throw e)
  if safe then do
    finishJob job .failed (some message)
    return 1
  else
    let job := { job.step .reconciling with
      error := some (message ++ "; the other system slot needs checking") }
    withJob job do
      save job
      setGuard .reconciling (some job.id)
    return 1

/-- verify_target, with the sentence of its refusal as a value. -/
def targetRefusal (job : Job) : OsProg (Option String) :=
  Prog.tryCatch (do verifyTarget job; return none) fun e =>
    match e with
    | .osUpdate msg => return some msg
    | e => throw e

def completeInstall (job : Job) : JobProg ℕ := do
  match ← withJob job (targetRefusal job) with
  | some msg => failInstall job msg
  | none =>
    let job := job.step .ready
    withJob job do
      save job
      setGuard .pending (some job.id)
    return 0

/-- The lines of `rauc install`; the last one that is not empty. -/
def watchInstall (job : Job) : ℕ → String → OsProg String
  | 0, _ => throw .killed
  | n + 1, last => do
    match ← ask .raucOutput with
    | none => return last
    | some line =>
      .when line.progress (save (job.step .installing))
      watchInstall job n (if line.text = "" then last else line.text)

/-- Leaving the `with` block waits for the process, also on an exception. -/
def waitInstall (job : Job) : OsProg String := do
  let fuel ← ask .patience
  Prog.tryCatch (watchInstall job fuel "") fun e =>
    if e = .killed then throw e
    else do
      let _ ← ask .raucWait
      throw e

def installBundle (job : Job) : JobProg ℕ := do
  let identity ← withJob job raucIdentity
  let job := { job with rauc := some { identity with transaction := some job.id } }
  let job := job.step .installing
  withJob job (save job)
  .raiseIf (!(← query (.raucInstall job.id))) (.os, job)
  let last ← withJob job (waitInstall job)
  if ← query .raucWait then completeInstall job
  else failInstall job ("The system updater refused or failed the OS update" ++
    if last = "" then "" else ": " ++ lastChars 160 last)

/-- RAUC as it stands once it no longer installs, or once the deadline has passed, and
whether it is the recorded writer. -/
def watchRauc (job : Job) : ℕ → OsProg (Option Operation × Bool)
  | 0 => throw .killed
  | n + 1 => do
    let (operation, owner) ← raucOperation
    let invocation ← runReply "systemctl" (ask .raucInvocation)
    let same := owner.isSome && owner == job.rauc.map (·.busOwner) &&
      invocation.join == job.rauc.map (·.invocation)
    if same && operation == some .installing then
      if ← ask .deadlinePassed then return (operation, same) else watchRauc job n
    else return (operation, same)

/-- The worker died while RAUC was installing. Only the exact RAUC writer that was recorded
can complete it; anything else is interrupted. -/
def reconcileInstall (job : Job) : OsProg ℕ := do
  let fuel ← ask .patience
  let (operation, same) ← watchRauc job fuel
  if same && operation == some .idle then
    let last ← runReply "busctl" (ask .raucLastError)
    if last.join = some "" then dropJob (completeInstall job)
    else dropJob (failInstall job "The system updater failed the OS update")
  else if same then dropJob (failInstall job "The system updater did not finish in time")
  else dropJob (failInstall job "The OS update was interrupted while installing")

/-! ### The worker -/

/-- The try block of `work`. -/
def workOn (O : Oracles) (plat : Option Platform) (job : Job) : JobProg ℕ := do
  let plat ← withJob job (need plat)
  let state ← withJob job (currentState O plat)
  let files ← withJob job (need job.files)
  let (_, _, newer) ← withJob job (verifyRelease O files plat state)
  let state ← withJob job (admitNewer O files plat state newer)
  let entry ← withJob job (verifyOsRelease O files.entry files.entrySig plat state.policy)
  withJob job (admissible entry plat state.floor)
  .raiseIf (entry.sequence ≠ job.sequence ∨ some entry.bundleSha256 ≠ job.sha256)
    (.osUpdate "The OS update record does not match its authorization", job)
  let job ← download job entry
  let job := job.step .verifying
  withJob job (save job)
  let some bundle ← query (.readBundle job.id) | throw (.os, job)
  let image ← withJob job (verifyBundle O bundle entry state.policy)
  let job := { job with image := some image }
  .raiseIf (← withJob job (cancelled job)) (.cancelled, job)
  installBundle job

/-- What `work` does about an exception, with the job as it was when it was raised. -/
def workFailed : Err × Job → OsProg ℕ
  | (.cancelled, job) => do
    finish job .cancelled none
    return 0
  | (.key, _) => throw .key
  | (.killed, _) => throw .killed
  | (e, job) =>
    if job.state = .installing then dropJob (failInstall job e.sentence)
    else do
      finish job .failed (some e.sentence)
      return 1

def work (O : Oracles) (job : Job) : OsProg ℕ := do
  let plat ← platform
  Prog.tryCatch (workOn O plat job) workFailed

/-- The maintenance lease, or why it cannot be had. RAUC may still be writing for an
installing job: its worker never gives up the guard. -/
def takeLease (job : Job) : ℕ → OsProg (Option String)
  | 0 => throw .killed
  | n + 1 => do
    match ← ask .acquire with
    | .lease => return none
    | .osError => throw .os
    | .busy msg => if job.state = .installing then takeLease job n else return some msg

def stopRequested (job : Job) : OsProg Bool :=
  if job.state.working then cancelled job else return false

/-- What the worker does once it holds the lease. -/
def holdingLease (O : Oracles) (job : Job) : OsProg ℕ := do
  setGuard .active (some job.id)
  match job.state with
  | .installing => reconcileInstall job
  | .restarting => activate O job
  | _ => work O job

/-- run_worker, once it has read a job it takes up. -/
def takeUp (O : Oracles) (job : Job) : OsProg ℕ := do
  if ← stopRequested job then
    finish job .cancelled none
    return 0
  else do
    let fuel ← ask .patience
    match ← takeLease job fuel with
    | some msg =>
      finish job .failed (some msg)
      return 1
    | none => Prog.ensure (holdingLease O job) (ask .release)

def runWorker (O : Oracles) : OsProg ℕ := do
  match ← journal with
  | none => return 0
  | some job => if job.state.forWorker then takeUp O job else return 0

end Epilykos.OsUpdate
