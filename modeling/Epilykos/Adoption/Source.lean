import Epilykos.Lib.Runs
import Epilykos.Lib.Utf8
import Epilykos.OsUpdate.Worker

/-!
The app that a card is adopted with. `bootstrap_export` reads the state of the application
updater strictly and refuses what it does not understand; `epilykos_update` reads the same
files leniently and makes do with what it finds.
-/

namespace Epilykos.Adoption

open Text
open PlatformEnv (Bytes ascii uint64Max)
open OsUpdate (Json pyInt)

/-! ### Files -/

/-- A path: nothing, a regular file of one link, or something else, with what an open that
follows links reads there. -/
inductive Entry
  | missing
  | regular (raw : Bytes)
  | other (opened : Option Bytes)

/-- `exists`: a link that leads nowhere counts. -/
def Entry.present : Entry → Bool
  | .missing => false
  | _ => true

/-- What `open()` reads. -/
def Entry.opened : Entry → Option Bytes
  | .missing => none
  | .regular raw => some raw
  | .other opened => opened

/-- The updater directory. -/
structure Updater where
  job : Entry
  current : Entry
  floor : Entry
  active : Entry
  previous : Entry

def Updater.none : Updater := ⟨.missing, .missing, .missing, .missing, .missing⟩

/-- What stands at the path of the updater directory. -/
inductive UpdaterPath
  | missing
  | directory (files : Updater)
  | other (files : Updater)

def UpdaterPath.files : UpdaterPath → Updater
  | .missing => .none
  | .directory files => files
  | .other files => files

structure Box where
  image : Entry
  /-- platform.json exists. -/
  platform : Bool
  updater : UpdaterPath

/-! ### The JSON module -/

/-- `json.loads` of a text and of bytes, an object as the pairs of the text; and of a float
whether it is not zero and its integer part. Bytes that are UTF-8 are read as their text. -/
structure JsonModule where
  loads : List Char → Option Json
  loadBytes : Bytes → Option Json
  float : String → Bool × ℤ
  utf8 : ∀ raw text value, Utf8.decode raw = some text → loads text = some value →
    loadBytes raw = some value

/-- A field of an object; the last pair of a key counts. -/
def field (fields : List (String × Json)) (name : String) : Json :=
  (fields.reverse.lookup name).getD .null

mutual
/-- No object in it has a key twice. -/
def unique : Json → Bool
  | .arr items => uniqueItems items
  | .obj fields => decide (fields.map Prod.fst).Nodup && uniqueFields fields
  | _ => true
def uniqueItems : List Json → Bool
  | [] => true
  | item :: items => unique item && uniqueItems items
def uniqueFields : List (String × Json) → Bool
  | [] => true
  | (_, value) :: fields => unique value && uniqueFields fields
end

/-! ### bootstrap_export -/

/-- A ValueError: one of the module's own, or one of a decoder. -/
inductive Exn
  | value (msg : String)
  | unicode
  | json
  deriving DecidableEq

def integer (n : ℕ) : Except Exn ℕ :=
  if 1 ≤ n ∧ n ≤ uint64Max then .ok n else .error (.value "invalid positive sequence")

/-- `bytes.decode("ascii")` -/
def asciiText (raw : Bytes) : Except Exn (List Char) :=
  if raw.all (·.toNat < 0x80) then .ok (raw.map fun b => Char.ofNat b.toNat)
  else .error .unicode

/-- `[1-9][0-9]{0,19}`, with or without a newline after it. -/
def decimalText (text : List Char) : Except Exn ℕ :=
  let digits := if text.getLast? = some '\n' then text.dropLast else text
  if digits.all Char.isDigit ∧ digits ≠ [] ∧ digits.head? ≠ some '0' ∧ digits.length ≤ 20 then
    integer (Nat.ofDigitChars 10 digits 0)
  else .error (.value "missing/malformed sequence floor")

def decimal (raw : Bytes) : Except Exn ℕ := do
  decimalText (← asciiText raw)

abbrev Values := List (List Char × List Char)

def printable (c : Char) : Bool := 32 ≤ c.toNat && c.toNat ≤ 126

/-- `[A-Z_]+` -/
def isKey (key : List Char) : Bool := key ≠ [] && key.all fun c => c.isUpper || c == '_'

/-- One line of image.env or active.env. -/
def addLine (values : Values) (line : List Char) : Except Exn Values :=
  if line = [] ∨ line.head? = some '#' then .ok values
  else match partition '=' line with
    | none => .error (.value "malformed image/state metadata")
    | some (key, value) =>
      if !line.all printable then .error (.value "malformed image/state metadata")
      else if !isKey key || (values.map Prod.fst).contains key then
        .error (.value "duplicate/invalid metadata key")
      else .ok (values ++ [(key, value)])

def envText (text : List Char) : Except Exn Values := (splitlines text).foldlM addLine []

def envValues (raw : Bytes) : Except Exn Values := do
  envText (← asciiText raw)

/-- What an app is known by. -/
structure Identity where
  channel : String
  sequence : ℕ
  digest : String
  imageId : String
  release : String
  deriving DecidableEq

def isHex (c : Char) : Bool := c.isDigit || ('a' ≤ c && c ≤ 'f')

/-- `[0-9a-f]{64}` -/
def isImageId (text : List Char) : Bool := text.length == 64 && text.all isHex

def digestStart : List Char := "sha256:".toList

/-- `sha256:[0-9a-f]{64}` -/
def isDigest (text : List Char) : Bool :=
  digestStart.isPrefixOf text && isImageId (text.drop digestStart.length)

/-- `[A-Za-z0-9.+_-]{1,64}` -/
def isRelease (text : List Char) : Bool :=
  1 ≤ text.length && text.length ≤ 64 &&
    text.all fun c => c.isAlphanum || c == '.' || c == '+' || c == '_' || c == '-'

/-- A string field of a form. -/
def strField (form : List Char → Bool) (msg : String) : Json → Except Exn String
  | .str s => if form s.toList then .ok s else .error (.value msg)
  | _ => .error (.value msg)

def intField : Json → Except Exn ℕ
  | .int (.ofNat n) => integer n
  | _ => .error (.value "invalid positive sequence")

def isChannel (text : List Char) : Bool := text == "dev".toList || text == "stable".toList

def identity : Json → Except Exn Identity
  | .obj fields => do
    let channel ← strField isChannel "app identity channel" (field fields "channel")
    let sequence ← intField (field fields "sequence")
    let digest ← strField isDigest "app identity digest" (field fields "digest")
    let imageId ← strField isImageId "app identity image_id" (field fields "image_id")
    let release ← strField isRelease "app release identity" (field fields "release")
    return { channel, sequence, digest, imageId, release }
  | _ => .error (.value "app identity channel")

def keyChannel : List Char := "EPILYKOS_CHANNEL".toList

def keySequence : List Char := "EPILYKOS_SEQUENCE".toList

def keyRelease : List Char := "EPILYKOS_RELEASE".toList

def keyImageRef : List Char := "EPILYKOS_IMAGE_REF".toList

def keyImageId : List Char := "EPILYKOS_IMAGE_ID".toList

def keyOsVersion : List Char := "EPILYKOS_OS_VERSION".toList

/-- `[a-z0-9/._-]` -/
def isNameChar (c : Char) : Bool :=
  c.isLower || c.isDigit || c == '.' || c == '_' || c == '/' || c == '-'

/-- `docker.io/[a-z0-9][a-z0-9/._-]{0,127}@sha256:[0-9a-f]{64}`. The first full stop stands for
any character but a newline. -/
def isPinned (ref : List Char) : Bool :=
  match ref.drop 6 with
  | any :: rest =>
    let name := (rest.drop 3).takeWhile isNameChar
    let tail := (rest.drop 3).dropWhile isNameChar
    ref.take 6 == "docker".toList && any != '\n' && rest.take 3 == "io/".toList &&
      (name.head?.any fun c => c.isLower || c.isDigit) && name.length ≤ 128 &&
      tail.head? == some '@' && isDigest tail.tail
  | [] => false

/-- `text.rsplit("@", 1)[1]` -/
def afterLast (text : List Char) : List Char := (text.reverse.takeWhile (· != '@')).reverse

/-- A string that may be missing. -/
def ofText : Option (List Char) → Json
  | some text => .str (String.ofList text)
  | none => .null

def parseBaselineText (values : Values) : Except Exn Identity :=
  let ref := (values.lookup keyImageRef).getD []
  if !isPinned ref then .error (.value "immutable baseline must use a pinned Docker image")
  else do
    let sequence ← decimalText ((values.lookup keySequence).getD [])
    identity (.obj [("channel", ofText (values.lookup keyChannel)), ("sequence", .int sequence),
      ("release", ofText (values.lookup keyRelease)),
      ("digest", .str (String.ofList (afterLast ref))),
      ("image_id", ofText (values.lookup keyImageId))])

def parseBaseline (raw : Bytes) : Except Exn Identity := do
  parseBaselineText (← envValues raw)

/-- `read_state` -/
def readState (maximum : ℕ) : Entry → Except Exn Bytes
  | .regular raw =>
    if raw.length ≤ maximum then .ok raw else .error (.value "source state size limit")
  | .missing => .error (.value "source state missing/unsafe")
  | .other _ => .error (.value "state must be a single regular file")

/-- MAXIMUM. -/
def stateMax : ℕ := 65536

def jsonState (M : JsonModule) (raw : Bytes) : Except Exn Json :=
  match M.loadBytes raw with
  | none => .error .json
  | some value => if unique value then .ok value else .error (.value "duplicate source JSON key")

/-- `v?0\.[0-6](?:[.+-][A-Za-z0-9.+_-]+)?` -/
def isLegacy (version : List Char) : Bool :=
  let version := if version.head? = some 'v' then version.tail else version
  match version with
  | '0' :: '.' :: minor :: rest =>
    ('0' ≤ minor && minor ≤ '6') &&
      match rest with
      | [] => true
      | sep :: rest =>
        (sep == '.' || sep == '+' || sep == '-') && rest ≠ [] &&
          rest.all fun c => c.isAlphanum || c == '.' || c == '+' || c == '_' || c == '-'
  | _ => false

/-- What `collect_source` returns, without its constants. -/
structure Source where
  channel : String
  app : Identity
  appFloor : ℕ
  osVersion : List Char
  deriving DecidableEq

/-- The identity in current.json. -/
def promotedOf (M : JsonModule) (current : Entry) : Except Exn Identity := do
  identity (← jsonState M (← readState stateMax current))

/-- active.env has to name the promoted app, where it is there. -/
def checkActive (active : Entry) (promoted base : Identity) : Except Exn Unit :=
  if active.present then do
    let values ← envValues (← readState 8192 active)
    if values.lookup "EPILYKOS_ACTIVE_IMAGE_ID".toList ≠ some promoted.imageId.toList then
      .error (.value "active app differs from promoted identity")
    else do
      let sequence ← decimalText ((values.lookup "EPILYKOS_ACTIVE_SEQUENCE".toList).getD [])
      if sequence ≠ promoted.sequence ∨
          values.lookup "EPILYKOS_ACTIVE_RELEASE".toList ≠ some promoted.release.toList then
        .error (.value "active app differs from promoted identity")
      else .ok ()
  else if base.sequence ≤ promoted.sequence then
    .error (.value "missing promoted active identity")
  else .ok ()

/-- The app and its floor: what was promoted, checked on every side, or the baseline. -/
def adopted (M : JsonModule) (files : Updater) (base : Identity) :
    Except Exn (Identity × ℕ) :=
  if files.current.present then do
    let promoted ← promotedOf M files.current
    let stored ← decimal (← readState 32 files.floor)
    if promoted.channel ≠ base.channel ∨ stored ≠ promoted.sequence then
      .error (.value "promoted app floor/channel conflict")
    else do
      checkActive files.active promoted base
      return (if base.sequence ≤ promoted.sequence then promoted else base,
        max base.sequence stored)
  else if files.floor.present || files.active.present || files.previous.present then
    .error (.value "missing promoted identity with surviving updater state")
  else .ok (base, base.sequence)

/-- `collect_source` -/
def collectSource (M : JsonModule) (box : Box) (allowLegacy : Bool) : Except Exn Source := do
  let raw ← readState 8192 box.image
  let values ← envValues raw
  let base ← parseBaseline raw
  let version := (values.lookup keyOsVersion).getD []
  if !allowLegacy || box.platform || !isLegacy version then
    .error (.value "only explicitly authorized pre-0.7 protocol-1 sources are supported")
  else
    match box.updater with
    | .other _ => .error (.value "unsafe updater directory")
    | _ =>
      if box.updater.files.job.present then
        .error (.value "application update in progress/unreconciled")
      else do
        let (app, floor) ← adopted M box.updater.files base
        return { channel := base.channel, app, appFloor := floor, osVersion := version }

def Identity.json (app : Identity) : Json :=
  .obj [("channel", .str app.channel), ("sequence", .int app.sequence), ("digest", .str app.digest),
    ("image_id", .str app.imageId), ("release", .str app.release)]

/-- What `adoption_plan` returns. -/
structure Plan where
  channel : String
  appFloor : ℕ
  sourceApp : Identity
  targetApp : Identity
  installed : Bool
  status : String

/-- `adoption_plan` of a collected source, whose constants pass its first check. -/
def adoptionPlan (source : Source) (targetBaseline : Json) : Except Exn Plan := do
  let app ← identity source.app.json
  let target ← identity targetBaseline
  let floor ← integer source.appFloor
  if source.channel ≠ app.channel ∨ floor ≠ app.sequence then
    .error (.value "invalid source floor/identity")
  else if target.channel ≠ app.channel ∨ target.sequence < floor then
    .error (.value "new same-channel baseline must meet the existing app floor")
  else if target.sequence = app.sequence ∧ target ≠ app then
    .error (.value "same app sequence has conflicting identity")
  else return {
    channel := app.channel, appFloor := floor, sourceApp := app, targetApp := target,
    installed := false, status := "prepared-only; requires explicit spare-card adoption integration" }

/-! ### epilykos_update -/

/-- What a line of image.env sets. -/
def assign (line : List Char) : Option (List Char × List Char) :=
  if '=' ∈ line ∧ line.head? ≠ some '#' then partition '=' (strip line) else none

def fileEnv (text : List Char) : Values := (fileLines text).filterMap assign

/-- `env.get(key, '')`; the last line of a key counts. -/
def getText (env : Values) (key : List Char) : List Char := (env.reverse.lookup key).getD []

/-- The environment of image.env; none when it cannot be opened. -/
def readEnv (image : Entry) : Except Exn Values :=
  match image.opened with
  | none => .ok []
  | some raw =>
    match Utf8.decode raw with
    | none => .error .unicode
    | some text => .ok (fileEnv text)

/-- `baseline()['sequence']` -/
def envSequence (env : Values) : ℤ :=
  (pyInt (String.ofList ((env.reverse.lookup keySequence).getD ['0']))).getD 0

/-- `baseline()` -/
def baseline (env : Values) : List (String × Json) :=
  [("release", .str (String.ofList (getText env keyRelease))),
    ("channel", .str (String.ofList (getText env keyChannel))),
    ("sequence", .int (envSequence env)),
    ("digest", .str (String.ofList (((partition '@' (getText env keyImageRef)).map Prod.snd).getD []))),
    ("image_id", .str (String.ofList (getText env keyImageId))),
    ("os_version", .str (String.ofList (getText env keyOsVersion))),
    ("baseline", .bool true)]

/-- `_read_json` -/
def readJson (M : JsonModule) (entry : Entry) : Option Json :=
  entry.opened.bind fun raw => (Utf8.decode raw).bind M.loads

def truthy (M : JsonModule) : Json → Bool
  | .null => false
  | .bool b => b
  | .int n => n != 0
  | .float text => (M.float text).1
  | .str s => s != ""
  | .arr items => !items.isEmpty
  | .obj fields => !fields.isEmpty

/-- `int(value)`; a TypeError or a ValueError is `none`. -/
def toInt (M : JsonModule) : Json → Option ℤ
  | .bool b => some (if b then 1 else 0)
  | .int n => some n
  | .float text => some (M.float text).2
  | .str s => pyInt s
  | _ => none

/-- What `current()` returns: an object's fields. Other exceptions are `none`. -/
def current (M : JsonModule) (box : Box) : Option (List (String × Json)) :=
  match readEnv box.image with
  | .error _ => none
  | .ok env =>
    match readJson M box.updater.files.current with
    | none => some (baseline env)
    | some cur =>
      if truthy M cur then
        match cur with
        | .obj fields =>
          let number := if (fields.lookup "sequence").isSome then field fields "sequence" else .int 0
          (toInt M number).map fun n => if envSequence env ≤ n then fields else baseline env
        | _ => none
      else some (baseline env)

/-- `floor()` -/
def floor (box : Box) : Option ℤ :=
  let stored := (box.updater.files.floor.opened.bind fun raw =>
    (Utf8.decode raw).bind fun text => pyInt (String.ofList (strip text))).getD 0
  match readEnv box.image with
  | .error _ => none
  | .ok env => some (max stored (envSequence env))

end Epilykos.Adoption
