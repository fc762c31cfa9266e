import Epilykos.Lib.Text
import Epilykos.AppUpdate.State

/-!
Application updates from Settings: what is promoted, what is offered, and how an offer is
tried. Only releases signed with the pinned key and above the sequence floor are taken.
-/

namespace Epilykos.AppUpdate

open Program

/-! ### State files -/

/-- `current()`: the promoted release, or the baseline when it is newer. -/
inductive Running
  | promoted (r : Release)
  | baseline (r : Release)
  deriving DecidableEq

def Running.toRelease : Running → Release
  | .promoted r | .baseline r => r

def currentOf (image : Release) : Option Release → Running
  | some r => if image.sequence ≤ r.sequence then .promoted r else .baseline image
  | none => .baseline image

def floorOf (image : Release) (stored : Option ℕ) : ℕ := max (stored.getD 0) image.sequence

def current : UpdProg Running := do
  let base ← ask .baseline
  return currentOf base (← ask .readCurrent)

def floor : UpdProg ℕ := do
  let stored ← ask .readFloor
  return floorOf (← ask .baseline) stored

def write (w : Write) : UpdProg Unit := do Prog.ofExcept (← ask (.write w))

def remove (f : File) : UpdProg Unit := do Prog.ofExcept (← ask (.remove f))

/-- What epilykos-run starts next; the baseline needs no file. -/
def setActive : Running → UpdProg Unit
  | .baseline _ => remove .active
  | .promoted r => write (.active r.toActive)

/-! ### Manifests -/

/-- `str()` of a field. -/
def Oracles.text (O : Oracles) : Json → String
  | .str s => s
  | value => O.str value

/-- `value == 1`. -/
def Oracles.equalsOne (O : Oracles) : Json → Bool
  | .int n => n == 1
  | .bool b => b
  | .float s => O.isOne s
  | _ => false

/-- `value or default`, where only an object can be asked for a field. -/
def truthy : Json → Bool
  | .null | .bool false | .str "" | .arr [] | .obj [] => false
  | .int n => n != 0
  | _ => true

/-- `$` also matches before a newline at the end. -/
def dropNewline (chars : List Char) : List Char :=
  if chars.getLast? = some '\n' then chars.dropLast else chars

def isHex (c : Char) : Bool := c.isDigit || ('a' ≤ c && c ≤ 'f')

/-- DIGEST_RE. -/
def isDigest (s : String) : Bool :=
  let chars := dropNewline s.toList
  "sha256:".toList.isPrefixOf chars && chars.length == 71 && (chars.drop 7).all isHex

/-- SOURCE_RE. -/
def isSource (s : String) : Bool :=
  match dropNewline s.toList with
  | [] => false
  | c :: rest =>
    (c.isDigit || c.isLower) && rest.length ≤ 127 &&
      rest.all fun d => d.isDigit || d.isLower || "._/-".toList.contains d

def notValid : Exn := .update "The update manifest is not valid"

/-- The image entry of a manifest: asking a field of anything but an object raises. -/
def imageEntry (fields : List (String × Json)) : Except Exn (Option (List (String × Json))) :=
  let images := OsUpdate.Json.get fields "images"
  if truthy images then
    match images with
    | .obj entries =>
      match OsUpdate.Json.get entries "epilykos" with
      | .obj app => .ok (some app)
      | _ => .ok none
    | _ => .error (.other "AttributeError")
  else .ok none

/-- The schema of a manifest, on the signed content only. -/
def validate (O : Oracles) (image : Release) : Json → Except Exn Candidate
  | .obj fields => do
    let app ← imageEntry fields
    match app, OsUpdate.Json.get fields "sequence", OsUpdate.Json.get fields "release" with
    | some app, .int (.ofNat sequence), .str release =>
      let digest := O.text (OsUpdate.Json.get app "digest")
      let source := O.text (OsUpdate.Json.get app "source")
      let channel := OsUpdate.Json.get fields "channel"
      if O.equalsOne (OsUpdate.Json.get fields "schema") && decide (0 < sequence) &&
          isDigest digest && isSource source then
        if OsUpdate.Json.isStr channel image.channel then
          .ok { release, channel := image.channel, sequence, digest, source }
        else .error (.update ("The update is for the " ++ O.text channel ++
          " channel, not this appliance's"))
      else .error notValid
    | _, _, _ => .error notValid
  | _ => .error (.other "AttributeError")

/-- Ed25519 signature check against the pinned key; returns the parsed manifest. -/
def verify (O : Oracles) (s : Signed) : UpdProg Candidate := do
  .raiseIf (!(← ask .keyPresent))
    (.update ("This EpilykosOS build has no app update key, so it cannot install app updates. " ++
      "Install a newer EpilykosOS image."))
  .raiseIf (s.signature.length ≠ 64) (.update "The update signature is not valid")
  .raiseIf (!(← Prog.ofExcept (← ask (.openssl s))))
    (.update "The update is not signed by Epilykos, so it was refused")
  match O.loads s.manifest with
  | none => throw (.update "The update manifest is unreadable")
  | some manifest => Prog.ofExcept (validate O (← ask .baseline) manifest)

/-- MAX_MANIFEST. -/
def maxManifest : ℕ := 64 * 1024

/-- FEED for a channel, without slashes at its end. -/
def feed (channel : String) : String :=
  let url := "https://github.com/ashipaek0/epilykos-os/releases/download/app-" ++
    (if channel = "" then "stable" else channel)
  String.ofList (url.toList.reverse.dropWhile (· == '/')).reverse

def fetch (url : String) : UpdProg Bytes := do
  let data ← Prog.ofExcept (← ask (.fetch url))
  .raiseIf (maxManifest < data.length) (.update "The update manifest is too large")
  return data

/-- The reason of an error of the network is known by the exception's type. -/
def unreachable : Exn → Exn
  | .update msg => .update msg
  | e => .update ("Could not reach the update server (" ++ e.type ++ ")")

def fetchLatest (O : Oracles) : UpdProg (Candidate × Signed) := do
  let base := feed (← ask .baseline).channel
  let signed ← Prog.tryCatch (do
    let manifest ← fetch (base ++ "/manifest.json")
    let signature ← fetch (base ++ "/manifest.json.sig")
    return { manifest, signature : Signed }) fun e => throw (unreachable e)
  return (← verify O signed, signed)

/-! ### Actions -/

structure AppView where
  currentDigest : String
  currentVersion : String
  job : Option Job
  lastResult : Option Result
  available : Option Bool
  latest : Option Candidate
  error : Option String

def appView : UpdProg AppView := do
  let cur ← current
  let job ← ask .readJob
  let lastResult ← ask .readResult
  return { currentDigest := cur.toRelease.digest, currentVersion := cur.toRelease.release, job,
           lastResult, available := none, latest := none, error := none }

/-- `except UpdateError`: the sentence, other exceptions go on. -/
def orSentence {α : Type} (p : UpdProg α) : UpdProg (Except String α) :=
  Prog.tryCatch (do return .ok (← p)) fun e =>
    match e with
    | .update msg => return .error msg
    | e => throw e

def check (O : Oracles) : UpdProg AppView := do
  let app ← appView
  match ← orSentence (fetchLatest O) with
  | .error msg => return { app with available := some false, error := some msg }
  | .ok (latest, signed) =>
    let newer := decide ((← floor) < latest.sequence) && latest.digest != app.currentDigest
    .when newer do
      -- manifest_bytes.decode(): JSON need not be in UTF-8
      .raiseIf (!O.isUtf8 signed.manifest) .value
      write (.verified signed)
    return { app with available := some newer, latest := some latest }

inductive Applied
  | alreadyAttempted
  | current
  | applying
  deriving DecidableEq

/-- The verified manifest checked again; `none` for one that fails. -/
def recheck (O : Oracles) : Option Signed → UpdProg (Option Candidate)
  | none => return none
  | some saved => Prog.tryCatch (do return some (← verify O saved)) fun e =>
    match e with
    | .update _ | .value => return none
    | e => throw e

/-- Exactly what was verified, or else what the server offers now. -/
def chosen (O : Oracles) : UpdProg Candidate := do
  match ← recheck O (← ask .readVerified) with
  | some candidate => return candidate
  | none => return (← fetchLatest O).1

/-- The sequence and digest an automatic update was told of. -/
abbrev Automatic := Option (ℕ × String)

/-- An automatic update takes only what it was told of, and only once. -/
def attempted (automatic : Automatic) (candidate : Candidate) : UpdProg Bool :=
  match automatic with
  | none => return false
  | some told => do
    .raiseIf (candidate.sequence ≠ told.1 ∨ candidate.digest ≠ told.2)
      (.update "The verified release changed; check for updates again")
    let last ← ask .readAttempt
    return decide (candidate.sequence ≤ (last.map Attempt.sequence).getD 0)

/-- Above the floor, and not what runs. -/
def isNews (candidate : Candidate) : UpdProg Bool := do
  if candidate.sequence ≤ (← floor) then return false
  else
    let cur ← current
    return candidate.digest != cur.toRelease.digest

/-- The job is written and its thread started, or nothing is left of it. -/
def admitJob (automatic : Automatic) (candidate : Candidate) : UpdProg Unit :=
  Prog.tryCatch (do
    Prog.ofExcept (← ask .inspectContainer)
    let job : Job := { stage := .downloading, release := candidate.release,
                       sequence := candidate.sequence, digest := candidate.digest }
    .when automatic.isSome
      (write (.attempt { sequence := candidate.sequence, digest := candidate.digest }))
    write (.job job)
    ask (.setRunning true)
    Prog.ofExcept (← ask (.spawn candidate job))) fun e => do
      ask (.setRunning false)
      Prog.ensure (remove .job) (ask .release)
      throw e

def apply (O : Oracles) (target : String) (automatic : Automatic) : UpdProg Applied := do
  .raiseIf (target = "os") (.update "EpilykosOS updates are not published yet")
  .raiseIf (target ≠ "app") (.update "unknown update target")
  let running ← ask .isRunning
  let job ← ask .readJob
  .raiseIf (running ∨ job.isSome) (.update "An update is already running")
  let candidate ← chosen O
  if ← attempted automatic candidate then return .alreadyAttempted
  else if !(← isNews candidate) then return .current
  else
    Prog.ofExcept (← ask .acquire)
    admitJob automatic candidate
    return .applying

/-! ### The update thread -/

def Exn.text : Exn → String
  | .update msg => msg
  | e => "The update failed (" ++ e.type ++ ")"

/-- What podman said last, at most 200 characters of it. -/
def lastLine (stderr : String) : String :=
  String.ofList
    (((Text.splitlines (Text.strip stderr.toList)).getLast?.getD "podman pull failed".toList).take 200)

def pull (ref : String) : UpdProg Unit := do
  match ← Prog.ofExcept (← ask (.pull ref)) with
  | .ok => return ()
  | .failed stderr => throw (.update ("Could not download the update: " ++ lastLine stderr))

def restartApp : UpdProg Bool := do Prog.ofExcept (← ask .restart)

/-- A start that takes too long is not healthy. -/
def reportsHealthy : UpdProg Bool :=
  Prog.tryCatch restartApp fun e => if e = .timeout then return false else throw e

def Candidate.ref (c : Candidate) : String := "docker.io/" ++ c.source ++ "@" ++ c.digest

/-- Pull and inspect the image, then have it start next. -/
def stage (candidate : Candidate) (job : Job) : UpdProg Release := do
  pull candidate.ref
  let id ← Prog.ofExcept (← ask (.inspectImage candidate.ref))
  let cand := candidate.withImage id
  write (.job { job with stage := .starting })
  setActive (.promoted cand)
  return cand

/-- current -> previous; the baseline has no file. -/
def keepPrevious : Running → UpdProg Unit
  | .promoted r => write (.previous r)
  | .baseline _ => return ()

/-- The one before the one before, unless something still names its image. -/
def prune (before : Running) (cand : Release) (oldPrevious : Option Release) : UpdProg Unit := do
  let base ← ask .baseline
  match oldPrevious with
  | none => return ()
  | some old =>
    .when (old.imageId ∉ [cand.imageId, before.toRelease.imageId, base.imageId]) do
      let _ ← Prog.ofExcept (← ask (.rmi old.imageId))

/-- Start the candidate and promote it once it is healthy. -/
def promote (before : Running) (cand : Release) : UpdProg Unit := do
  .raiseIf (!(← reportsHealthy))
    (.update "The new version did not start, so the previous version was put back")
  let oldPrevious ← ask .readPrevious
  keepPrevious before
  write (.current cand)
  write (.floor cand.sequence)
  write (.result (.ok cand.release cand.sequence))
  prune before cand oldPrevious

/-- An exception together with whether the candidate had been started. -/
def marking {α : Type} (started : Bool) (p : UpdProg α) : Prog Updater (Bool × Exn) α :=
  p.tryCatch fun e => throw (started, e)

/-- What ran before is to start again; whether it did. -/
def rollBack (before : Running) (started : Bool) : UpdProg Bool :=
  Prog.tryCatch (do
    setActive before
    if started then restartApp else return true) fun _ => return false

def failure (before : Running) (candidate : Candidate) (e : Bool × Exn) : UpdProg Unit := do
  let rolledBack ← rollBack before e.1
  write (.result (.failed e.2.text rolledBack candidate.release))

def cleanUp : UpdProg Unit :=
  Prog.ensure (do
    remove .job
    remove .verified) (do
    ask .release
    ask (.setRunning false))

/-- `_run`. The reads of `current()` do not raise, so `before` is always there. -/
def run (candidate : Candidate) (job : Job) : UpdProg Unit :=
  Prog.ensure (do
    let before ← current
    Prog.tryCatch (do
      let cand ← marking false (stage candidate job)
      marking true (promote before cand)) (failure before candidate)) cleanUp

/-! ### At hostd start -/

/-- An update cut short goes back to the last promoted image. -/
def recover : UpdProg Unit := do
  match ← ask .readJob with
  | none => return ()
  | some job =>
    setActive (← current)
    write (.result (.failed "The update was interrupted, so the previous version was kept" true
      job.release))
    remove .job

end Epilykos.AppUpdate
