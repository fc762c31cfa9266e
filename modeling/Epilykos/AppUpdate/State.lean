import Epilykos.Lib.Program
import Epilykos.OsUpdate.Activate

/-!
What the application updater keeps on DATA, and everything it asks of the world: its files,
podman, systemctl, OpenSSL, the release server. A read tells what is there. Any other call
may fail, before or after it took effect.
-/

namespace Epilykos.AppUpdate

open Program

export OsUpdate (Bytes Release Active AppFiles Json)

/-- What a verified manifest offers. -/
structure Candidate where
  release : String
  channel : String
  sequence : ℕ
  digest : String
  source : String
  deriving DecidableEq

/-- `dict(candidate, image_id=image_id)`. -/
def Candidate.withImage (c : Candidate) (id : String) : Release :=
  { release := c.release, channel := c.channel, sequence := c.sequence, digest := c.digest,
    imageId := id }

inductive Stage
  | downloading
  | starting
  deriving DecidableEq

/-- job.json. -/
structure Job where
  stage : Stage
  release : String
  sequence : ℕ
  digest : String
  deriving DecidableEq

/-- result.json: how the last update ended. -/
inductive Result
  | ok (release : String) (sequence : ℕ)
  | failed (error : String) (rolledBack : Bool) (release : String)
  deriving DecidableEq

/-- A manifest with its signature, as verified.json keeps them. -/
structure Signed where
  manifest : Bytes
  signature : Bytes
  deriving DecidableEq

/-- auto-attempt.json. -/
structure Attempt where
  sequence : ℕ
  digest : String
  deriving DecidableEq

/-- The exceptions of the updater; one that is not its own is known by its type. -/
inductive Exn
  | update (msg : String)
  | timeout
  | value
  | other (type : String)
  deriving DecidableEq

def Exn.type : Exn → String
  | .update _ => "UpdateError"
  | .timeout => "TimeoutExpired"
  | .value => "ValueError"
  | .other type => type

/-! ### The calls -/

inductive File
  | current
  | previous
  | floor
  | active
  | job
  | result
  | verified
  | attempt
  deriving DecidableEq

inductive Write
  | current (r : Release)
  | previous (r : Release)
  | floor (n : ℕ)
  | active (a : Active)
  | job (j : Job)
  | result (r : Result)
  | verified (s : Signed)
  | attempt (a : Attempt)
  deriving DecidableEq

/-- How podman pull ended: code zero, or another one with what it wrote. -/
inductive Pulled
  | ok
  | failed (stderr : String)

inductive UpdCall
  | baseline
  | readCurrent
  | readPrevious
  | readFloor
  | readJob
  | readResult
  | readVerified
  | readAttempt
  | write (w : Write)
  | remove (f : File)
  /-- The `_running` event. -/
  | isRunning
  | setRunning (running : Bool)
  | spawn (candidate : Candidate) (job : Job)
  | acquire
  | release
  | keyPresent
  | openssl (s : Signed)
  | fetch (url : String)
  | inspectContainer
  | pull (ref : String)
  | inspectImage (ref : String)
  | restart
  | rmi (id : String)

/-- A call may raise, except for the reads of files the source guards. -/
abbrev UpdCall.Ans : UpdCall → Type
  | .baseline => Release
  | .readCurrent | .readPrevious => Option Release
  | .readFloor => Option ℕ
  | .readJob => Option Job
  | .readResult => Option Result
  | .readVerified => Option Signed
  | .readAttempt => Option Attempt
  | .write _ | .remove _ | .spawn _ _ | .acquire | .inspectContainer => Except Exn Unit
  | .isRunning | .keyPresent => Bool
  | .setRunning _ | .release => Unit
  | .openssl _ | .restart | .rmi _ => Except Exn Bool
  | .fetch _ => Except Exn Bytes
  | .pull _ => Except Exn Pulled
  | .inspectImage _ => Except Exn String

abbrev Updater : Interface := ⟨UpdCall, UpdCall.Ans⟩

abbrev UpdProg := Prog Updater Exn

abbrev ask (c : UpdCall) : UpdProg c.Ans := Prog.call (F := Updater) c .ret

/-! ### The world -/

/-- A release made current, or the floor raised. -/
inductive Promotion
  | current (sequence : ℕ)
  | floor (n : ℕ)
  deriving DecidableEq

structure World where
  image : Release
  app : AppFiles
  job : Option Job
  result : Option Result
  verified : Option Signed
  attempt : Option Attempt
  running : Bool
  lease : Bool
  /-- The update thread that has not run yet. -/
  worker : Option (Candidate × Job)
  /-- The image IDs in storage. -/
  images : List String
  /-- What the release server gives. -/
  served : String → Option Bytes
  /-- What current.json and floor were replaced by, in order. -/
  promotions : List Promotion

/-- What the registry holds under a reference, and what OpenSSL and the JSON reader
compute. -/
structure Oracles where
  imageOf : String → String
  signed : Signed → Bool
  loads : Bytes → Option Json
  /-- `str()` of a value that is not a string. -/
  str : Json → String
  /-- The number equals one. -/
  isOne : String → Bool
  isUtf8 : Bytes → Bool

namespace World

def wrote (w : World) : Write → World
  | .current r =>
    { w with app := { w.app with current := some r },
             promotions := w.promotions ++ [.current r.sequence] }
  | .previous r => { w with app := { w.app with previous := some r } }
  | .floor n =>
    { w with app := { w.app with floor := some n }, promotions := w.promotions ++ [.floor n] }
  | .active a => { w with app := { w.app with active := some a } }
  | .job j => { w with job := some j }
  | .result r => { w with result := some r }
  | .verified s => { w with verified := some s }
  | .attempt a => { w with attempt := some a }

def removed (w : World) : File → World
  | .current => { w with app := { w.app with current := none } }
  | .previous => { w with app := { w.app with previous := none } }
  | .floor => { w with app := { w.app with floor := none } }
  | .active => { w with app := { w.app with active := none } }
  | .job => { w with job := none }
  | .result => { w with result := none }
  | .verified => { w with verified := none }
  | .attempt => { w with attempt := none }

/-- The world after a call that took effect. -/
def effect (O : Oracles) (w : World) : UpdCall → World
  | .write x => w.wrote x
  | .remove f => w.removed f
  | .setRunning running => { w with running }
  | .spawn candidate job => { w with worker := some (candidate, job) }
  | .acquire => { w with lease := true }
  | .release => { w with lease := false }
  | .pull ref => { w with images := O.imageOf ref :: w.images }
  | .rmi id => { w with images := w.images.filter (· ≠ id) }
  | _ => w

/-- The call answered that it was done. -/
def acknowledged : (c : UpdCall) → c.Ans → Bool
  | .write _, .ok _ | .remove _, .ok _ | .spawn _ _, .ok _ | .acquire, .ok _ => true
  | .setRunning _, _ | .release, _ => true
  | .pull _, .ok .ok => true
  | .rmi _, .ok true => true
  | _, _ => false

/-- An answer a call may give: a read tells what is there. -/
def truthful (O : Oracles) (w : World) : (c : UpdCall) → c.Ans → Prop
  | .baseline, x => x = w.image
  | .readCurrent, x => x = w.app.current
  | .readPrevious, x => x = w.app.previous
  | .readFloor, x => x = w.app.floor
  | .readJob, x => x = w.job
  | .readResult, x => x = w.result
  | .readVerified, x => x = w.verified
  | .readAttempt, x => x = w.attempt
  | .isRunning, x => x = w.running
  | .acquire, x => x = .ok () → w.lease = false
  | .openssl s, x => x = .ok true → O.signed s
  | .inspectImage ref, x => ∀ id, x = .ok id → id = O.imageOf ref ∧ id ∈ w.images
  | _, _ => True

/-- What a call may come to. -/
def Outcome (O : Oracles) : Behaviour Updater World := fun w c x w' =>
  truthful O w c x ∧ (w' = w.effect O c ∨ (w' = w ∧ acknowledged c x = false))

end World

end Epilykos.AppUpdate
