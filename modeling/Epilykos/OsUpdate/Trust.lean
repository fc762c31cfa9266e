import Epilykos.PlatformEnv.Parse
import Epilykos.OsUpdate.Host

/-!
Shared OS trust: the root-signed policy kept in the environment, the signed authorization of
one package, and the agreement of a bundle with both. Validation fails closed, and the
policy's signature is checked every time it is used.
-/

namespace Epilykos.OsUpdate

open Program PlatformEnv

/-- POLICY_MAX. -/
def policyMax : ℕ := 6144

/-- ENTRY_MAX. -/
def entryMax : ℕ := 8192

/-- BUNDLE_MAX. -/
def bundleMax : ℕ := 3 * 1024 ^ 3

/-- SLOT_BYTES. -/
def slotBytes : ℕ := 1536 * 1024 * 1024

/-- COMPATIBLE. -/
def compatible : String := "epilykos-raspberrypi3"

/-- The exceptions an `except ValueError` clause takes. -/
def Err.isValue : Err → Bool
  | .value | .trust _ => true
  | _ => false

/-- `except ... as exc: raise other from exc`. -/
def rethrow {α : Type} (caught : Err → Bool) (other : Err) (p : OsProg α) : OsProg α :=
  p.tryCatch fun e => throw (if caught e then other else e)

/-- `if bad: raise TrustError(msg)`, and on. -/
def refuseIf (bad : Prop) [Decidable bad] (msg : String) : Except Err Unit :=
  if bad then .error (.trust msg) else .ok ()

/-! ### Bounded values -/

namespace Json

def get (fields : List (String × Json)) (name : String) : Json := (fields.lookup name).getD .null

/-- `set(value) == names`. -/
def hasFields (fields : List (String × Json)) (names : List String) : Bool :=
  fields.all (fun f => names.contains f.1) && names.all fun n => (fields.lookup n).isSome

def isStr : Json → String → Bool
  | .str s, t => s == t
  | _, _ => false

def isInt : Json → ℤ → Bool
  | .int n, m => n == m
  | _, _ => false

end Json

def strictJson (O : Oracles) (raw : Bytes) (maximum : ℕ) : Except Err Json :=
  if raw.length = 0 ∨ maximum < raw.length then .error .value
  else match O.loads raw with
    | none => .error .value
    | some value => if O.canonical value = raw then .ok value else .error .value

def integer (minimum : ℕ) : Json → Except Err ℕ
  | .int (.ofNat n) => if minimum ≤ n ∧ n ≤ uint64Max then .ok n else .error .value
  | _ => .error .value

def printable (s : String) : Bool := s.toList.all fun c => 32 ≤ c.toNat && c.toNat ≤ 126

def text (maximum : ℕ) : Json → Except Err String
  | .str s => if 0 < s.length ∧ s.length ≤ maximum ∧ printable s then .ok s else .error .value
  | _ => .error .value

def b64Char (n : ℕ) : UInt8 :=
  if n < 26 then (65 + n).toUInt8
  else if n < 52 then (71 + n).toUInt8
  else if n < 62 then (n - 4).toUInt8
  else if n = 62 then 43 else 47

def b64Encode : Bytes → Bytes
  | [] => []
  | [x] => [b64Char (x.toNat / 4), b64Char (x.toNat % 4 * 16), 61, 61]
  | [x, y] =>
    [b64Char (x.toNat / 4), b64Char (x.toNat % 4 * 16 + y.toNat / 16),
      b64Char (y.toNat % 16 * 4), 61]
  | x :: y :: z :: rest =>
    b64Char (x.toNat / 4) :: b64Char (x.toNat % 4 * 16 + y.toNat / 16) ::
      b64Char (y.toNat % 16 * 4 + z.toNat / 64) :: b64Char (z.toNat % 64) :: b64Encode rest

/-- The bytes a canonical padded base64 text stands for. -/
def b64Decode : Bytes → Option Bytes
  | [] => some []
  | a :: b :: c :: d :: rest =>
    match b64Digit a, b64Digit b, b64Digit c, b64Digit d with
    | some x, some y, some z, some u =>
      (b64Decode rest).map fun tail =>
        (x * 4 + y / 16).toUInt8 :: (y % 16 * 16 + z / 4).toUInt8 :: (z % 4 * 64 + u).toUInt8 :: tail
    | some x, some y, some z, none =>
      if d = 61 ∧ rest = [] ∧ z % 4 = 0 then
        some [(x * 4 + y / 16).toUInt8, (y % 16 * 16 + z / 4).toUInt8] else none
    | some x, some y, none, none =>
      if c = 61 ∧ d = 61 ∧ rest = [] ∧ y % 16 = 0 then some [(x * 4 + y / 16).toUInt8] else none
    | _, _, _, _ => none
  | _ => none

/-- trust.b64: canonical base64 of exactly `size` bytes. -/
def b64 (size : ℕ) : Json → Except Err Bytes
  | .str s =>
    if s.toList.all (fun c => c.toNat < 128) then
      match b64Decode (ascii s) with
      | some raw => if raw.length = size then .ok raw else .error .value
      | none => .error .value
    else .error .value
  | _ => .error .value

/-- `[0-9a-f]{64}`. -/
def isDigest (s : String) : Bool :=
  s.length == 64 && s.toList.all fun c => c.isDigit || ('a' ≤ c && c ≤ 'f')

/-- `[A-Za-z0-9][A-Za-z0-9._-]{0,63}`. -/
def isKeyId (s : String) : Bool :=
  match s.toList with
  | [] => false
  | c :: cs => c.isAlphanum && cs.length ≤ 63 &&
      cs.all fun d => d.isAlphanum || d == '.' || d == '_' || d == '-'

/-- A PEM body between its two marker lines: base64 characters and line ends, not empty. -/
def isPem (label : String) (chars : List Char) : Bool :=
  let first := s!"-----BEGIN {label}-----\n".toList
  let last := s!"\n-----END {label}-----\n".toList
  first.isPrefixOf chars && last.isSuffixOf chars && first.length + last.length < chars.length &&
    ((chars.drop first.length).take (chars.length - first.length - last.length)).all fun c =>
      c.isAlphanum || c == '+' || c == '/' || c == '=' || c == '\n'

/-! ### Calls -/

/-- trust.read_env. -/
def readEnv : OsProg Env := do
  match ← ask .readEnv with
  | some env => return env
  | none => throw (.trust "system state is unreadable; OS updates are off")

def openssl (q : Openssl) : OsProg Unit := do
  if ← ask (.openssl q) then return () else throw .value

def ed25519Verify (publicPem data signature : Bytes) : OsProg Unit := do
  .raiseIf (signature.length ≠ 64) .value
  openssl (.ed25519Key publicPem)
  openssl (.verify publicPem data signature)

def ed25519Spki : Bytes := [0x30, 0x2a, 0x30, 0x05, 0x06, 0x03, 0x2b, 0x65, 0x70, 0x03, 0x21, 0x00]

def rawPublicPem (raw32 : Bytes) : Bytes :=
  ascii "-----BEGIN PUBLIC KEY-----\n" ++ b64Encode (ed25519Spki ++ raw32) ++
    ascii "\n-----END PUBLIC KEY-----\n"

/-! ### The root-signed policy -/

structure IndexKey where
  keyId : String
  publicKey : Bytes
  deriving DecidableEq

structure Policy where
  board : String
  channel : String
  trustEpoch : ℕ
  indexKeys : List IndexKey
  raucCas : List String
  leaves : List Digest
  deriving DecidableEq

def policyFields : List String :=
  ["schema", "board", "channel", "trust_epoch", "index_keys", "rauc_cas", "rauc_leaf_spki_sha256"]

def readKey : Json → Except Err IndexKey
  | .obj fields =>
    if Json.hasFields fields ["key_id", "public_key"] then
      match Json.get fields "key_id" with
      | .str keyId =>
        if isKeyId keyId then
          (b64 32 (Json.get fields "public_key")).map fun publicKey => { keyId, publicKey }
        else .error .value
      | _ => .error .value
    else .error .value
  | _ => .error .value

/-- The index keys: one to eight, no identifier and no key twice. -/
def readKeys : Json → Except Err (List IndexKey)
  | .arr items =>
    if items.length = 0 ∨ 8 < items.length then .error .value
    else match items.mapM readKey with
      | .ok keys =>
        if (keys.map (·.keyId)).Nodup ∧ (keys.map (·.publicKey)).Nodup then .ok keys
        else .error .value
      | .error e => .error e
  | _ => .error .value

/-- A list of distinct strings, one to `maximum` of them, each accepted by `ok`. -/
def readStrings (maximum : ℕ) (ok : String → Bool) : Json → Except Err (List String)
  | .arr items =>
    if items.length = 0 ∨ maximum < items.length then .error .value
    else
      let strings := items.filterMap fun | .str s => some s | _ => none
      if strings.length = items.length ∧ strings.Nodup ∧ strings.all ok then .ok strings
      else .error .value
  | _ => .error .value

def checkCas : List String → OsProg Unit
  | [] => return ()
  | ca :: rest => do
    .raiseIf (!isPem "CERTIFICATE" ca.toList) .value
    openssl (.caCert ca)
    checkCas rest

/-- What `verify_policy` is told of the current state. -/
structure Current where
  raw : Bytes
  trustEpoch : ℕ

def verifyPolicy (O : Oracles) (raw signature rootPubkey : Bytes) (board channel : String)
    (current : Option Current) : OsProg Policy := do
  let .obj fields ← Prog.ofExcept (strictJson O raw policyMax) | throw .value
  .raiseIf (!(Json.hasFields fields policyFields && Json.isInt (Json.get fields "schema") 1)) .value
  .raiseIf (board ≠ "raspberrypi3" ∨ (channel ≠ "dev" ∧ channel ≠ "stable") ∨
    !Json.isStr (Json.get fields "board") board ∨
    !Json.isStr (Json.get fields "channel") channel) .value
  let trustEpoch ← Prog.ofExcept (integer 1 (Json.get fields "trust_epoch"))
  .raiseIf (signature.length ≠ 64) .value
  .raiseIf (rootPubkey.length = 0 ∨ 256 < rootPubkey.length ∨
    !isPem "PUBLIC KEY" (rootPubkey.map fun b => Char.ofNat b.toNat)) .value
  openssl (.ed25519Key rootPubkey)
  openssl (.verify rootPubkey raw signature)
  let indexKeys ← Prog.ofExcept (readKeys (Json.get fields "index_keys"))
  let raucCas ← Prog.ofExcept (readStrings 4 (fun _ => true) (Json.get fields "rauc_cas"))
  checkCas raucCas
  let leaves ← Prog.ofExcept (readStrings 16 isDigest (Json.get fields "rauc_leaf_spki_sha256"))
  .raiseIf (current.any fun current => current.trustEpoch == 0 ||
    trustEpoch < current.trustEpoch || (trustEpoch == current.trustEpoch && raw != current.raw))
    .value
  return { board, channel, trustEpoch, indexKeys, raucCas, leaves }

/-! ### Signed per-package authorization -/

structure Entry where
  board : String
  channel : String
  sequence : ℕ
  trustEpoch : ℕ
  indexKeyId : String
  version : String
  bootProtocol : ℕ
  minHostApi : ℕ
  bundleUrl : String
  bundleSize : ℕ
  bundleSha256 : Digest
  notesUrl : String
  deriving DecidableEq

def entryFields : List String :=
  ["schema", "board", "channel", "sequence", "trust_epoch", "index_key_id", "version",
    "boot_protocol", "min_host_api", "bundle", "notes_url"]

/-- The part of `_verify_os_release` before the signature: the entry, and the key it names. -/
def readEntry (O : Oracles) (raw : Bytes) (platform : Platform) (policy : Policy) :
    Except Err (Entry × IndexKey) := do
  let .obj fields ← strictJson O raw entryMax | throw (.trust "unsupported OS release entry")
  refuseIf (!(Json.hasFields fields entryFields && Json.isInt (Json.get fields "schema") 1))
    "unsupported OS release entry"
  refuseIf (!(Json.isStr (Json.get fields "board") platform.board &&
    Json.isStr (Json.get fields "channel") platform.channel))
    "OS release is for another board or channel"
  refuseIf (platform.board ≠ policy.board ∨ platform.channel ≠ policy.channel)
    "OS release does not match the trust policy"
  let sequence ← integer 1 (Json.get fields "sequence")
  refuseIf (!Json.isInt (Json.get fields "boot_protocol") 2)
    "OS release needs a different boot protocol"
  let minHostApi ← integer 1 (Json.get fields "min_host_api")
  refuseIf (platform.hostApi < minHostApi) "OS release needs a newer host"
  let trustEpoch ← integer 1 (Json.get fields "trust_epoch")
  refuseIf (trustEpoch ≠ policy.trustEpoch)
    "OS release was authorized under a different trust epoch"
  let version ← text 64 (Json.get fields "version")
  let notesUrl ← text 512 (Json.get fields "notes_url")
  let .obj bundle := Json.get fields "bundle" | throw (.trust "OS release bundle schema")
  refuseIf (!Json.hasFields bundle ["url", "size", "sha256"]) "OS release bundle schema"
  let bundleUrl ← text 512 (Json.get bundle "url")
  refuseIf (!("https://".isPrefixOf bundleUrl && "https://".isPrefixOf notesUrl))
    "OS release links must use HTTPS"
  let bundleSize ← integer 1 (Json.get bundle "size")
  refuseIf (bundleMax < bundleSize) "OS release bundle size"
  let .str bundleSha256 := Json.get bundle "sha256" | throw (.trust "OS release bundle hash")
  refuseIf (!isDigest bundleSha256) "OS release bundle hash"
  let unlisted := Err.trust "OS release signed by a key the trust policy does not list"
  let .str indexKeyId := Json.get fields "index_key_id" | throw unlisted
  match policy.indexKeys.find? (·.keyId == indexKeyId) with
  | none => throw unlisted
  | some key =>
    return ({ board := platform.board, channel := platform.channel, sequence, trustEpoch,
              indexKeyId, version, bootProtocol := 2, minHostApi, bundleUrl, bundleSize,
              bundleSha256, notesUrl }, key)

def verifyOsRelease (O : Oracles) (raw signature : Bytes) (platform : Platform)
    (policy : Policy) : OsProg Entry :=
  rethrow (· == .value) (.trust "OS release authorization is malformed") do
    let (entry, key) ← Prog.ofExcept (readEntry O raw platform policy)
    rethrow (· == .value) (.trust "OS release signature does not verify")
      (ed25519Verify (rawPublicPem key.publicKey) raw signature)
    return entry

/-- Offered only above both the confirmed floor and this slot's own sequence. -/
def admissible (entry : Entry) (platform : Platform) (floor : ℕ) : OsProg Unit :=
  .raiseIf (entry.sequence ≤ floor ∨ entry.sequence ≤ platform.osSequence)
    (.trust "OS release is not newer than this box's system")

/-! ### Bundles -/

/-- A big-endian number. -/
def bigEndian (bytes : Bytes) : ℕ := bytes.foldl (fun n b => n * 256 + b.toNat) 0

/-- The CMS signature appended to a bundle: the payload, the CMS and its size in 8 bytes. -/
def bundleSignature (bundle : Bytes) : Except Err Bytes :=
  let size := bundle.length
  let malformed := Err.trust "bundle signature is missing or malformed"
  if size < 64 then .error malformed
  else
    let length := bigEndian (bundle.drop (size - 8))
    if length = 0 ∨ 64 * 1024 < length ∨ size ≤ length + 8 then .error malformed
    else .ok ((bundle.drop (size - 8 - length)).take length)

/-- The manifest inside the CMS and the digest of the signer's SPKI. -/
def bundleSigner (O : Oracles) (bundle : Bytes) (cas : List String) : OsProg (Bytes × Digest) := do
  let sig ← Prog.ofExcept (bundleSignature bundle)
  match ← ask (.cms sig cas) with
  | none => throw (.trust "bundle signature does not verify against the trust policy's CAs")
  | some (manifest, spki) =>
    openssl (.signerKey sig)
    .raiseIf (64 * 1024 < manifest.length) (.trust "bundle manifest too large")
    .raiseIf (manifest.any fun b => 128 ≤ b) .value
    return (manifest, O.sha256 spki)

namespace Ini

def find (ini : Ini) (sect : String) : Option (List (String × String)) :=
  ini.sections.lookup sect

/-- An entry of a section, the DEFAULT entries included; `fallback` when there is none. -/
def get (ini : Ini) (sect key fallback : String) : String :=
  match ini.find sect with
  | none => fallback
  | some entries => ((entries.lookup key).or (ini.defaults.lookup key)).getD fallback

def has (ini : Ini) (sect key : String) : Bool :=
  match ini.find sect with
  | none => false
  | some entries => ((entries.lookup key).or (ini.defaults.lookup key)).isSome

end Ini

/-- META_FIELDS with the text of each in the entry. -/
def Entry.metaFields (entry : Entry) : List (String × String) :=
  [("board", entry.board), ("channel", entry.channel), ("sequence", toString entry.sequence),
    ("boot_protocol", toString entry.bootProtocol), ("min_host_api", toString entry.minHostApi),
    ("trust_epoch", toString entry.trustEpoch)]

def checkManifest (O : Oracles) (manifest : Bytes) (entry : Entry) : Except Err Ini := do
  let some ini := O.configparser manifest | throw (.trust "bundle manifest is malformed")
  refuseIf (ini.get "update" "compatible" "" ≠ compatible) "bundle is for another system"
  refuseIf (ini.get "bundle" "format" "" ≠ "verity") "only verity bundles are accepted"
  refuseIf ((ini.sections.map Prod.fst).filter ("image.".isPrefixOf ·) ≠ ["image.rootfs"] ∨
    (ini.find "hooks").isSome ∨ ini.has "image.rootfs" "hooks" ∨
    ini.has "image.rootfs" "adaptive") "bundle must carry exactly one rootfs image and no hooks"
  refuseIf (ini.find "handler").isSome "bundle must not carry a custom handler"
  match entry.metaFields.find? fun f => ini.get "meta.epilykos" f.1 "" ≠ f.2 with
  | some f => throw (.trust s!"bundle and its authorization disagree on {f.1}")
  | none => return ini

/-- The exact authorized bytes, the actual signer and its signed manifest. -/
def checkBundle (O : Oracles) (bundle : Bytes) (entry : Entry) (policy : Policy) :
    OsProg Unit := do
  .raiseIf (bundle.length ≠ entry.bundleSize ∨ O.sha256 bundle ≠ entry.bundleSha256)
    (.trust "downloaded package differs from its authorization")
  let (manifest, spki) ← bundleSigner O bundle policy.raucCas
  .raiseIf (spki ∉ policy.leaves) (.trust "bundle signed by a signer the trust policy does not list")
  let _ ← Prog.ofExcept (checkManifest O manifest entry)
  return ()

/-! ### The shared state in the environment -/

structure TrustState where
  policy : Policy
  raw : Bytes
  signature : Bytes
  trustEpoch : ℕ
  floor : ℕ

def readRoot : OsProg Bytes := do
  match ← ask .rootPem with
  | some root => return root
  | none => throw .os

/-- The verified current policy and floor. The environment tools refuse a record without
epk_trust_policy, its signature, the epoch or the floor, or with another state schema. -/
def currentState (O : Oracles) (platform : Platform) : OsProg TrustState := do
  let env ← readEnv
  rethrow (fun e => e.isValue || e == .os)
    (.trust "system trust state is missing or invalid; OS updates are off") do
      let root ← readRoot
      let policy ← verifyPolicy O env.trustPolicy env.trustPolicySig root platform.board
        platform.channel none
      .raiseIf (policy.trustEpoch ≠ env.trustEpoch) .value
      return { policy, raw := env.trustPolicy, signature := env.trustPolicySig,
               trustEpoch := policy.trustEpoch, floor := env.osFloor }

/-- Persist a newer root-signed policy before any install that needs it. -/
def admitPolicy (O : Oracles) (raw signature : Bytes) (platform : Platform)
    (state : TrustState) : OsProg TrustState := do
  let root ← readRoot
  let policy ← rethrow Err.isValue (.trust "the new trust policy is not acceptable")
    (verifyPolicy O raw signature root platform.board platform.channel
      (some { raw := state.raw, trustEpoch := state.trustEpoch }))
  let batch := [Assign.trustPolicy raw, .trustPolicySig signature, .trustEpoch policy.trustEpoch]
  .raiseIf ((← ask (.setEnv batch)) ≠ .ok) (.trust "could not save the new trust policy")
  let after ← currentState O platform
  .raiseIf (after.raw ≠ raw ∨ after.trustEpoch ≠ policy.trustEpoch)
    (.trust "the saved trust policy did not read back")
  return after

end Epilykos.OsUpdate
