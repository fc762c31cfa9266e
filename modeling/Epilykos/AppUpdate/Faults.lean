import Epilykos.AppUpdate.Update

/-!
A plan of faults: what becomes of every call of the update thread, before a first one has
failed and after it. Reads tell the truth under every plan. Every plan is among what a call
may come to.
-/

namespace Epilykos.AppUpdate

open Program

/-- What becomes of a call: a failed one may have taken effect. -/
inductive Fate
  | done
  | exits (stderr : String) (took : Bool)
  | raises (e : Exn) (took : Bool)
  deriving DecidableEq

def Fate.took : Fate → Bool
  | .done => true
  | .exits _ took | .raises _ took => took

/-- A place where a call may fail. -/
inductive Point
  | pull
  | inspect
  | restart
  | rmi
  | write (f : File)
  | remove (f : File)
  | elsewhere
  deriving DecidableEq

def Write.file : Write → File
  | .current _ => .current
  | .previous _ => .previous
  | .floor _ => .floor
  | .active _ => .active
  | .job _ => .job
  | .result _ => .result
  | .verified _ => .verified
  | .attempt _ => .attempt

def UpdCall.point : UpdCall → Point
  | .pull _ => .pull
  | .inspectImage _ => .inspect
  | .restart => .restart
  | .rmi _ => .rmi
  | .write w => .write w.file
  | .remove f => .remove f
  | _ => .elsewhere

/-- The fate of each place, before a first failure and after it. -/
abbrev Plan := Bool → Point → Fate

/-- A call that either is done or raises; nothing else can become of it. -/
def Fate.unit : Fate → Except Exn Unit
  | .done => .ok ()
  | .exits _ _ => .error (.other "OSError")
  | .raises e _ => .error e

/-- Whether a subprocess exited with code zero. -/
def Fate.code (good : Bool) : Fate → Except Exn Bool
  | .done => .ok good
  | .exits _ _ => .ok false
  | .raises e _ => .error e

def Fate.pulled : Fate → Except Exn Pulled
  | .done => .ok .ok
  | .exits stderr _ => .ok (.failed stderr)
  | .raises e _ => .error e

def Fate.fetched (data : Option Bytes) : Fate → Except Exn Bytes
  | .done => match data with
    | some data => .ok data
    | none => .error (.other "HTTPError")
  | .exits _ _ => .error (.other "HTTPError")
  | .raises e _ => .error e

def notInspected : Exn := .update "Could not verify the app maintenance configuration"

def Fate.inspected (images : List String) (id : String) : Fate → Except Exn String
  | .done => if id ∈ images then .ok id else .error notInspected
  | .exits _ _ => .error notInspected
  | .raises e _ => .error e

namespace World

def answer (O : Oracles) (w : World) (f : Fate) : (c : UpdCall) → c.Ans
  | .baseline => w.image
  | .readCurrent => w.app.current
  | .readPrevious => w.app.previous
  | .readFloor => w.app.floor
  | .readJob => w.job
  | .readResult => w.result
  | .readVerified => w.verified
  | .readAttempt => w.attempt
  | .write _ | .remove _ | .spawn _ _ | .inspectContainer => f.unit
  | .acquire => if w.lease then .error (.update "App maintenance is running.") else f.unit
  | .isRunning => w.running
  | .keyPresent => true
  | .setRunning _ | .release => ()
  | .openssl s => f.code (O.signed s)
  | .restart | .rmi _ => f.code true
  | .fetch url => f.fetched (w.served url)
  | .pull _ => f.pulled
  | .inspectImage ref => f.inspected w.images (O.imageOf ref)

/-- The call did what it was asked for. -/
def good : (c : UpdCall) → c.Ans → Bool
  | .write _, .error _ | .remove _, .error _ | .inspectImage _, .error _ => false
  | .pull _, .ok .ok => true
  | .pull _, _ => false
  | .restart, .ok true => true
  | .restart, _ => false
  | .rmi _, .error _ => false
  | _, _ => true

def settle (O : Oracles) (w : World) (f : Fate) (c : UpdCall) : World :=
  if f.took || acknowledged c (w.answer O f c) then w.effect O c else w

theorem settle_outcome (O : Oracles) (w : World) (f : Fate) (c : UpdCall) :
    Outcome O w c (w.answer O f c) (w.settle O f c) := by
  constructor
  · cases c with
    | acquire => cases h : w.lease <;> simp [truthful, answer, h]
    | openssl s => cases f <;> simp [truthful, answer, Fate.code]
    | inspectImage ref =>
      cases f <;> simp only [truthful, answer, Fate.inspected]
      case done =>
        split
        · rintro id ⟨⟩
          exact ⟨rfl, ‹_›⟩
        · rintro id ⟨⟩
      all_goals rintro id ⟨⟩
    | _ => simp [truthful, answer]
  · by_cases h : (f.took || acknowledged c (w.answer O f c)) = true
    · exact Or.inl (if_pos h)
    · simp only [Bool.not_eq_true, Bool.or_eq_false_iff] at h
      exact Or.inr ⟨by simp [settle, h.1, h.2], h.2⟩

/-- The host under a plan; it remembers whether a call has failed. -/
def host (O : Oracles) (p : Plan) (s : World × Bool) (c : UpdCall) : c.Ans × (World × Bool) :=
  let f := p s.2 c.point
  let x := s.1.answer O f c
  (x, s.1.settle O f c, s.2 || !good c x)

/-- Everything works. -/
def serve (O : Oracles) (w : World) (c : UpdCall) : c.Ans × World :=
  (w.answer O .done c, w.settle O .done c)

theorem serve_follows (O : Oracles) : Follows (F := Updater) (serve O) (Outcome O) :=
  fun w c => settle_outcome O w .done c

theorem host_outcome (O : Oracles) (p : Plan) (s : World × Bool) (c : UpdCall) :
    Outcome O s.1 c (host O p s c).1 (host O p s c).2.1 :=
  settle_outcome O s.1 (p s.2 c.point) c

end World

/-! ### A box for examples -/

def sampleDigest (c : Char) : String := "sha256:" ++ String.ofList (List.replicate 64 c)

def sampleManifest (sequence : ℕ) (digest : String) : Json :=
  .obj [("schema", .int 1), ("release", .str "3.0.0-dev"), ("channel", .str "dev"),
    ("sequence", .int sequence),
    ("images", .obj [("epilykos", .obj [("digest", .str digest), ("source", .str "example/app")])])]

/-- Two signed manifests, of sequences 9 and 10. -/
def sampleOracles : Oracles where
  imageOf ref := ref
  signed _ := true
  loads
    | [9] => some (sampleManifest 9 (sampleDigest '9'))
    | [10] => some (sampleManifest 10 (sampleDigest 'a'))
    | _ => none
  str _ := ""
  isOne _ := false
  isUtf8 _ := true

def manifestUrl : String := feed "dev" ++ "/manifest.json"

/-- The server offers the manifest of this sequence. -/
def offering (sequence : UInt8) (url : String) : Option Bytes :=
  some (if url = manifestUrl then [sequence] else List.replicate 64 0)

/-- Only the preloaded image, of sequence 7. -/
def sampleWorld : World :=
  { image := { release := "2.7.0-dev", channel := "dev", sequence := 7, digest := sampleDigest '7',
               imageId := "base" }
    app := { current := none, previous := none, floor := none, active := none }
    job := none, result := none, verified := none, attempt := none, running := false
    lease := false, worker := none, images := ["base"], served := offering 10, promotions := [] }

end Epilykos.AppUpdate
