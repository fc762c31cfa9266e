import Epilykos.Lib.Program
import Epilykos.OsUpdate.State

/-!
Everything the updater reaches outside its own process: the environment tools, RAUC and its
service, systemd, OpenSSL, the files on DATA, the release server and the clock. A call has
an answer and, when it takes effect, a next state. `serve` is the host on which everything
works; `Outcome` also lets a call fail, before or after it took effect, but never lets a
read tell what is not there.
-/

namespace Epilykos.OsUpdate

open Program

/-- The exceptions of the updater. TrustError is a ValueError too. -/
inductive Err
  | osUpdate (msg : String)
  | trust (msg : String)
  | storage (msg : String)
  | cancelled
  | connection
  | value
  | key
  | os
  /-- The process was killed while waiting in a loop the source does not bound. -/
  | killed
  deriving DecidableEq, Repr

/-! ### What the host answers -/

/-- How a bounded command ended: exit code zero, another one, or no answer in its time. -/
inductive Ran
  | ok
  | failed
  | noAnswer
  deriving DecidableEq

/-- A command whose output is read. -/
inductive Reply (α : Type)
  | answered (out : α)
  | failed
  | noAnswer

/-- A file replaced on DATA; `noLayout` is a state directory that is not usable. -/
inductive Wrote
  | done
  | failed
  | noLayout
  deriving DecidableEq

inductive JournalRead
  | absent
  | unreadable
  | job (j : Job)

/-- Operation of the RAUC service. -/
inductive Operation
  | idle
  | installing
  deriving DecidableEq

inductive Acquired
  | lease
  | busy (msg : String)
  | osError

/-- What reading the first bytes of a slot device gave. -/
inductive SlotHash
  | unreadable
  | short
  | digest (d : Digest)

structure Platform where
  board : String
  channel : String
  hostApi : ℕ
  osSequence : ℕ

inductive PlatformRead
  | found (p : Platform)
  | absent
  | invalid

/-- The four files of the release feed. -/
inductive FeedFile
  | entry
  | entrySig
  | policy
  | policySig

/-- An opened download: the status, the offsets of its Content-Range, its strong validator. -/
structure Response where
  status : ℕ
  contentRange : Option (ℕ × ℕ × ℕ)
  validator : Option String

inductive Opened
  | response (r : Response)
  | connection
  | failed

inductive Chunk
  | bytes (data : Bytes)
  | connection
  | failed

/-- A line of `rauc install`, and whether it reported progress worth saving. -/
structure RaucLine where
  text : String
  progress : Bool

/-- What is asked of OpenSSL. -/
inductive Openssl
  /-- The PEM holds an Ed25519 public key. -/
  | ed25519Key (pem : Bytes)
  /-- The signature of the data verifies under the key. -/
  | verify (pem data sig : Bytes)
  /-- The certificate's basic constraints say CA:TRUE. -/
  | caCert (pem : String)
  /-- The signer's public key of a CMS signature can be extracted. -/
  | signerKey (sig : Bytes)

/-! ### What the standard library reads -/

/-- A JSON value; a number that is no integer is kept as its text. -/
inductive Json
  | null
  | bool (b : Bool)
  | int (n : ℤ)
  | float (text : String)
  | str (s : String)
  | arr (items : List Json)
  | obj (fields : List (String × Json))

/-- A parsed INI file: the DEFAULT entries and the sections in order. -/
structure Ini where
  defaults : List (String × String)
  sections : List (String × List (String × String))

/-- An application release as current.json, previous.json and image.env describe one. -/
structure Release where
  release : String
  channel : String
  sequence : ℕ
  digest : String
  imageId : String
  deriving DecidableEq

/-- active.env: what epilykos-run starts next. -/
structure Active where
  imageId : String
  sequence : ℕ
  release : String
  deriving DecidableEq

/-- str(uuid.uuid4()): 32 hexadecimal digits, one of which is the version and one the
variant. -/
def uuid4 (random : ℕ → Fin 16) : JobId :=
  let d := fun i => Nat.digitChar (random i)
  String.ofList ([d 0, d 1, d 2, d 3, d 4, d 5, d 6, d 7, '-', d 8, d 9, d 10, d 11, '-',
    '4', d 13, d 14, d 15, '-', Nat.digitChar (8 + random 16 % 4), d 17, d 18, d 19, '-',
    d 20, d 21, d 22, d 23, d 24, d 25, d 26, d 27, d 28, d 29, d 30, d 31])

/-! ### The calls -/

inductive HostCall
  -- the environment tools
  | readEnv
  | setEnv (batch : List Assign)
  -- rauc
  | markBad (s : Slot)
  | markActive (s : Slot)
  | markActiveBooted
  | markGoodBooted
  | raucInstall (id : JobId)
  | raucOutput
  | raucWait
  -- the RAUC service and systemd
  | raucOwner
  | raucOperation
  | raucLastError
  | raucInvocation
  | startRauc
  | restartRauc
  | workerActive
  | startWorker
  | reboot
  -- this box
  | bootedSlot
  | platform
  | rootPem
  | health
  | recordHealthy (s : Slot)
  | inspectApp
  | storageAdmit (required : ℕ)
  | checkHeadroom
  | acquire
  | release
  | slotHash (s : Slot) (size : ℕ)
  | openssl (q : Openssl)
  | cms (sig : Bytes) (cas : List String)
  -- the files on DATA
  | layout
  | readJournal
  | writeJournal (j : Job)
  | removeJournal
  | readGuard
  | writeGuard (g : Guard)
  | readCancel
  | writeCancel (id : JobId)
  | removeCancel
  | readChecked
  | writeChecked (f : Files)
  | removeStaging (id : JobId)
  | writeKeyring (cas : List String)
  | removeKeyring
  -- the application's files
  | baseline
  | readCurrent
  | writePrevious (r : Release)
  | writeCurrent (r : Release)
  | readAppFloor
  | writeAppFloor (n : ℕ)
  | writeActive (a : Active)
  -- the release server and the staged package
  | fetch (f : FeedFile)
  | finalSize (id : JobId)
  | partSize (id : JobId)
  | openDownload (url : String) (resume : Option (ℕ × String))
  | openPart (id : JobId) (offset : ℕ)
  | readChunk
  | appendPart (id : JobId) (data : Bytes)
  | closePart (id : JobId)
  | renamePart (id : JobId)
  | readBundle (id : JobId)
  -- the clock and the unbounded waits
  | secondsPassed
  | deadlinePassed
  | patience
  | newId
  /-- No call of the source: history notes that verify_target returned. -/
  | verified (id : JobId) (s : Slot)

abbrev Ans : HostCall → Type
  | .readEnv => Option Env
  | .setEnv _ | .markBad _ | .markActive _ | .markActiveBooted | .markGoodBooted => Ran
  | .raucInstall _ => Bool
  | .raucOutput => Option RaucLine
  | .raucWait => Bool
  | .raucOwner | .raucLastError | .raucInvocation => Reply (Option String)
  | .raucOperation => Reply (Option Operation)
  | .startRauc | .restartRauc | .workerActive | .startWorker | .reboot => Ran
  | .bootedSlot => Option Slot
  | .platform => PlatformRead
  | .rootPem => Option Bytes
  | .health => Option Slot
  | .recordHealthy _ => Bool
  | .inspectApp => Reply (Option String)
  | .storageAdmit _ | .checkHeadroom => Option String
  | .acquire => Acquired
  | .release => Unit
  | .slotHash _ _ => SlotHash
  | .openssl _ => Bool
  | .cms _ _ => Option (Bytes × Bytes)
  | .readJournal => JournalRead
  | .layout | .writeJournal _ | .writeGuard _ | .writeChecked _ => Wrote
  | .removeJournal | .writeCancel _ | .removeCancel | .removeStaging _ => Bool
  | .writeKeyring _ | .removeKeyring => Bool
  | .readGuard => Option Guard
  | .readCancel => Option JobId
  | .readChecked => Option Files
  | .baseline => Release
  | .readCurrent => Option Release
  | .readAppFloor => Option ℕ
  | .writePrevious _ | .writeCurrent _ | .writeAppFloor _ | .writeActive _ => Bool
  | .fetch _ => Option Bytes
  | .finalSize _ | .partSize _ => Option ℕ
  | .openDownload _ _ => Opened
  | .openPart _ _ => Bool
  | .readChunk => Chunk
  | .appendPart _ _ | .closePart _ | .renamePart _ => Bool
  | .readBundle _ => Option Bytes
  | .secondsPassed | .deadlinePassed => Bool
  | .patience => ℕ
  | .newId => JobId
  | .verified _ _ => Unit

abbrev Host : Interface := ⟨HostCall, Ans⟩

abbrev OsProg := Prog Host Err

/-- One call to the host. -/
abbrev ask (c : HostCall) : OsProg (Ans c) := Prog.call (F := Host) c .ret

/-! ### The state outside the process -/

/-- The RAUC service as the bus shows it. -/
structure Rauc where
  owner : Option String
  invocation : String
  operation : Operation
  lastError : String

/-- A system slot, with what history knows of it: whose install last wrote it, the job
verify_target passed for since, and the job for which it was then made bootable. -/
structure SlotState where
  content : Bytes
  writtenBy : Option JobId
  verifiedFor : Option JobId
  clearedFor : Option JobId

structure Staging where
  part : Option Bytes
  final : Option Bytes

structure AppFiles where
  current : Option Release
  previous : Option Release
  floor : Option ℕ
  active : Option Active

structure World where
  env : Env
  booted : Slot
  journal : Option Job
  guard : Option Guard
  cancel : Option JobId
  checked : Option Files
  staging : JobId → Staging
  app : AppFiles
  /-- What the image of each slot says of itself and of the application it carries. -/
  platforms : Slot → Option Platform
  baselines : Slot → Release
  slots : Slot → SlotState
  rauc : Rauc
  /-- The `rauc install` the worker is waiting for. -/
  client : Option JobId
  /-- The worker's start is queued; its process runs; a reboot is on its way. -/
  workerStarting : Bool
  workerActive : Bool
  rebooting : Bool
  /-- Why the maintenance lease cannot be had, when it cannot. -/
  leaseTaken : Option String
  healthy : Option Slot
  appRefusal : Option String
  rootPem : Bytes
  feed : FeedFile → Bytes
  /-- What the release server serves, and what an open download has left to give. -/
  package : Bytes
  pouring : Bytes
  nextId : ℕ → Fin 16

/-- What SHA-256, the JSON and INI readers and OpenSSL compute. -/
structure Oracles where
  sha256 : Bytes → Digest
  /-- json.loads, refusing duplicate keys. -/
  loads : Bytes → Option Json
  /-- json.dumps as trust.canonical calls it. -/
  canonical : Json → Bytes
  configparser : Bytes → Option Ini
  accepts : Openssl → Bool
  /-- The manifest and the signer's SPKI of a CMS signature that verifies under the CAs. -/
  cms : Bytes → List String → Option (Bytes × Bytes)

namespace World

def setSlot (w : World) (s : Slot) (f : SlotState → SlotState) : World :=
  { w with slots := Function.update w.slots s (f (w.slots s)) }

/-- `rauc status mark-active`: the slot goes first with three attempts. -/
def activate (w : World) (s : Slot) : World :=
  { w.setSlot s fun t => { t with clearedFor := t.verifiedFor.or t.clearedFor } with
    env := { w.env.setLeft s 3 with bootOrder := [s, s.other] } }

def setPart (w : World) (id : JobId) (f : Staging → Staging) : World :=
  { w with staging := Function.update w.staging id (f (w.staging id)) }

/-- CHUNK. -/
def chunkSize : ℕ := 1024 * 1024

/-- The state after a call that took effect. -/
def effect (w : World) : HostCall → World
  | .setEnv batch => { w with env := w.env.write batch }
  | .markBad s => { w with env := w.env.setLeft s 0 }
  | .markActive s => w.activate s
  | .markActiveBooted => w.activate w.booted
  | .markGoodBooted => { w with env := w.env.setLeft w.booted 3 }
  | .raucInstall id => { w with client := some id }
  | .raucWait => { w with client := none }
  | .writeJournal j => { w with journal := some j }
  | .removeJournal => { w with journal := none }
  | .writeGuard g => { w with guard := some g }
  | .writeCancel id => { w with cancel := some id }
  | .removeCancel => { w with cancel := none }
  | .writeChecked f => { w with checked := some f }
  | .removeStaging id => w.setPart id fun _ => { part := none, final := none }
  | .writePrevious r => { w with app := { w.app with previous := some r } }
  | .writeCurrent r => { w with app := { w.app with current := some r } }
  | .writeAppFloor n => { w with app := { w.app with floor := some n } }
  | .writeActive a => { w with app := { w.app with active := some a } }
  | .openDownload _ resume =>
    { w with pouring := w.package.drop (resume.elim 0 Prod.fst) }
  | .openPart id offset =>
    w.setPart id fun s => { s with part := some ((s.part.getD []).take offset) }
  | .readChunk => { w with pouring := w.pouring.drop chunkSize }
  | .appendPart id data => w.setPart id fun s => { s with part := some (s.part.getD [] ++ data) }
  | .renamePart id => w.setPart id fun s => { part := none, final := s.part }
  | .startWorker => if w.workerActive then w else { w with workerStarting := true }
  | .reboot => { w with rebooting := true }
  | .recordHealthy s => { w with healthy := some s }
  | .verified id s => w.setSlot s fun t => { t with verifiedFor := some id }
  | _ => w

/-- The call answered that it was done. -/
def acknowledged : (c : HostCall) → Ans c → Prop
  | .writeJournal _, x | .writeGuard _, x | .writeChecked _, x => x = .done
  | .removeJournal, x | .writeCancel _, x | .removeCancel, x | .removeStaging _, x => x = true
  | .recordHealthy _, x => x = true
  | .writePrevious _, x | .writeCurrent _, x | .writeAppFloor _, x | .writeActive _, x => x = true
  | .openPart _ _, x | .appendPart _ _, x | .renamePart _, x => x = true
  | .raucInstall _, x => x = true
  | .startWorker, x | .reboot, x => x = .ok
  | .raucWait, _ | .verified _ _, _ => True
  | _, _ => False

def readSlot (O : Oracles) (content : Bytes) (size : ℕ) : SlotHash :=
  if content.length < size then .short else .digest (O.sha256 (content.take size))

def journalRead : Option Job → JournalRead
  | none => .absent
  | some j => .job j

def platformRead : Option Platform → PlatformRead
  | none => .absent
  | some p => .found p

/-- An answer a call may give: a read fails or tells what is there, a check passes only
when what it checks is so. -/
def truthful (O : Oracles) (w : World) : (c : HostCall) → Ans c → Prop
  | .readEnv, x => x = none ∨ x = some w.env
  | .raucWait, x => x = true → w.rauc.operation = .idle
  | .raucOwner, x => ∀ out, x = .answered out → out = w.rauc.owner
  | .raucOperation, x => ∀ out, x = .answered out → out = some w.rauc.operation
  | .raucLastError, x => ∀ out, x = .answered out → out = some w.rauc.lastError
  | .raucInvocation, x => ∀ out, x = .answered out → out = some w.rauc.invocation
  | .workerActive, x => x ≠ .noAnswer → (x = .ok ↔ w.workerActive)
  | .bootedSlot, x => x = none ∨ x = some w.booted
  | .platform, x => x = .invalid ∨ x = platformRead (w.platforms w.booted)
  | .rootPem, x => x = none ∨ x = some w.rootPem
  | .health, x => x = none ∨ x = w.healthy
  | .acquire, x => (x = .lease → w.leaseTaken = none) ∧ ∀ msg, x = .busy msg → w.leaseTaken = some msg
  | .slotHash s size, x => x = .unreadable ∨ x = readSlot O (w.slots s).content size
  | .openssl q, x => x = true → O.accepts q
  | .cms sig cas, x => x = none ∨ x = O.cms sig cas
  | .readJournal, x => x = .unreadable ∨ x = journalRead w.journal
  | .readGuard, x => x = none ∨ x = w.guard
  | .readCancel, x => x = none ∨ x = w.cancel
  | .readChecked, x => x = none ∨ x = w.checked
  | .baseline, x => x = w.baselines w.booted
  | .readCurrent, x => x = none ∨ x = w.app.current
  | .readAppFloor, x => x = none ∨ x = w.app.floor
  | .finalSize id, x => x = none ∨ x = (w.staging id).final.map List.length
  | .partSize id, x => x = none ∨ x = some ((w.staging id).part.getD []).length
  | .readBundle id, x => x = none ∨ x = (w.staging id).final
  | .newId, x => ∃ random, x = uuid4 random
  | _, _ => True

/-- What a call may come to. -/
def Outcome (O : Oracles) : Behaviour Host World := fun w c x w' =>
  truthful O w c x ∧ (w' = w.effect c ∨ (w' = w ∧ ¬ acknowledged c x))

/-! ### The host on which everything works -/

def answer (O : Oracles) (w : World) : (c : HostCall) → Ans c
  | .readEnv => some w.env
  | .setEnv _ | .markBad _ | .markActive _ | .markActiveBooted | .markGoodBooted => .ok
  | .raucInstall _ => true
  | .raucOutput => none
  | .raucWait => w.rauc.operation == .idle
  | .raucOwner => .answered w.rauc.owner
  | .raucLastError => .answered (some w.rauc.lastError)
  | .raucInvocation => .answered (some w.rauc.invocation)
  | .raucOperation => .answered (some w.rauc.operation)
  | .workerActive => if w.workerActive then .ok else .failed
  | .startRauc | .restartRauc | .startWorker | .reboot => .ok
  | .bootedSlot => some w.booted
  | .platform => platformRead (w.platforms w.booted)
  | .rootPem => some w.rootPem
  | .health => w.healthy
  | .recordHealthy _ => true
  | .inspectApp => .answered w.appRefusal
  | .storageAdmit _ | .checkHeadroom => none
  | .acquire => match w.leaseTaken with | none => .lease | some msg => .busy msg
  | .release => ()
  | .slotHash s size => readSlot O (w.slots s).content size
  | .openssl q => O.accepts q
  | .cms sig cas => O.cms sig cas
  | .readJournal => journalRead w.journal
  | .layout | .writeJournal _ | .writeGuard _ | .writeChecked _ => .done
  | .removeJournal | .writeCancel _ | .removeCancel | .removeStaging _ => true
  | .writeKeyring _ | .removeKeyring => true
  | .readGuard => w.guard
  | .readCancel => w.cancel
  | .readChecked => w.checked
  | .baseline => w.baselines w.booted
  | .readCurrent => w.app.current
  | .readAppFloor => w.app.floor
  | .writePrevious _ | .writeCurrent _ | .writeAppFloor _ | .writeActive _ => true
  | .fetch f => some (w.feed f)
  | .finalSize id => (w.staging id).final.map List.length
  | .partSize id => some ((w.staging id).part.getD []).length
  | .openDownload _ none => .response { status := 200, contentRange := none, validator := none }
  | .openDownload _ (some (offset, _)) => .response
    { status := 206, contentRange := some (offset, w.package.length - 1, w.package.length),
      validator := none }
  | .openPart _ _ => true
  | .readChunk => .bytes (w.pouring.take chunkSize)
  | .appendPart _ _ | .closePart _ | .renamePart _ => true
  | .readBundle id => (w.staging id).final
  | .secondsPassed | .deadlinePassed => false
  | .patience => 8
  | .newId => uuid4 w.nextId
  | .verified _ _ => ()

def serve (O : Oracles) (w : World) (c : HostCall) : Ans c × World := (answer O w c, w.effect c)

/-- What the working host does is among what a call may come to. -/
theorem serve_follows (O : Oracles) : Follows (F := Host) (serve O) (Outcome O) := by
  intro w c
  refine ⟨?_, Or.inl rfl⟩
  cases c with
  | workerActive => by_cases h : w.workerActive <;> simp [serve, answer, truthful, h]
  | acquire => cases h : w.leaseTaken <;> simp [serve, answer, truthful, h]
  | newId => exact ⟨w.nextId, rfl⟩
  | _ => simp [serve, answer, truthful]

end World

/-! ### A box for examples -/

def sampleId : JobId := "00000000-0000-4000-8000-000000000001"

def sampleDigest : Digest := String.ofList (List.replicate 64 'a')

/-- Slot A runs and is confirmed; slot B cannot start. -/
def sampleEnv : Env :=
  { bootOrder := [.a, .b], left := fun | .a => 3 | .b => 0, osFloor := 11, trustPolicy := [],
    trustPolicySig := [], trustEpoch := 1, osPending := none, osTarget := none, osFrom := none,
    osTargetSequence := none, osTargetSha256 := none, osPhase := none, osTrialStarted := none }

def sampleWorld (env : Env) (booted : Slot) : World :=
  { env, booted, journal := none, guard := none, cancel := none, checked := none,
    staging := fun _ => { part := none, final := none },
    app := { current := none, previous := none, floor := none, active := none },
    platforms := fun _ => none,
    baselines := fun _ =>
      { release := "2.9.0", channel := "dev", sequence := 9, digest := "", imageId := "c" },
    slots := fun _ =>
      { content := [], writtenBy := none, verifiedFor := none, clearedFor := none },
    rauc := { owner := some ":1.7", invocation := "inv-1", operation := .idle, lastError := "" },
    client := none, workerStarting := false, workerActive := false, rebooting := false,
    leaseTaken := none, healthy := none, appRefusal := none, rootPem := [], feed := fun _ => [],
    package := [], pouring := [], nextId := fun i => if i = 31 then 1 else 0 }

/-- A job of the running slot A for slot B. -/
def sampleJob (state : JobState) : Job :=
  { id := sampleId, requestId := some "request-1", state, sequence := 12,
    sha256 := some sampleDigest, size := some 64, source := some .a, target := some .b,
    files := none, image := some { size := some 0, sha256 := some sampleDigest }, rauc := none,
    validator := none, progress := .of state, error := none, reconstructed := false }

/-- The variables of its activation, in one phase. -/
def sampleActivated (phase : Phase) (trial : Option JobId) : Env :=
  { sampleEnv with
    bootOrder := [.b, .a], left := fun | .a => 3 | .b => 2, osPending := some sampleId,
    osTarget := some .b, osFrom := some .a, osTargetSequence := some 12,
    osTargetSha256 := some sampleDigest, osPhase := some phase, osTrialStarted := trial }

/-- Everything verifies. -/
def sampleOracles : Oracles :=
  { sha256 := fun _ => sampleDigest, loads := fun _ => none, canonical := fun _ => [],
    configparser := fun _ => none, accepts := fun _ => true, cms := fun _ _ => none }

end Epilykos.OsUpdate
