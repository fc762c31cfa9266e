import Epilykos.Lib.Crc32
import Epilykos.Lib.Text
import Epilykos.OsUpdate.BootText
import Epilykos.PlatformEnv.Base64
import Epilykos.PlatformEnv.Seed

/-!
The host-only builder of the first environment, tools/os_bootstrap.py, beside the loader's
parser: whatever the builder accepts, the loader reads back as the map that was serialized.
All text is ASCII by the checks made on it, so it is kept as its bytes.
-/

namespace Epilykos.OsBootstrap

open Program PlatformEnv
open OsUpdate (Json Err OsProg Oracles Digest Platform)

/-- RUNTIME_RESERVE. -/
def runtimeReserve : ℕ := 4096

/-! ### The platform record -/

def platformFields : List String :=
  ["schema", "board", "arch", "slot_layout", "boot_protocol", "channel", "os_version",
    "os_sequence", "source", "kernel", "host_api", "app_release"]

/-- `[0-9a-f]{40}`. -/
def isCommit (s : String) : Bool :=
  s.length == 40 && s.toList.all fun c => c.isDigit || ('a' ≤ c && c ≤ 'f')

/-- Every refusal is a ValueError. -/
def validatePlatform : Json → Except Err Platform
  | .obj fields =>
    let field := Json.get fields
    if !Json.hasFields fields platformFields ∨ !Json.isInt (field "schema") 1 ∨
        !Json.isStr (field "board") "raspberrypi3" ∨ !Json.isStr (field "arch") "arm64" ∨
        !Json.isStr (field "slot_layout") "pi3-mbr-v1" ∨ !Json.isInt (field "boot_protocol") 2 then
      .error .value
    else match field "channel", OsUpdate.integer 1 (field "os_sequence"),
        OsUpdate.integer 2 (field "host_api"), OsUpdate.text 64 (field "os_version"),
        OsUpdate.text 128 (field "kernel"), OsUpdate.text 64 (field "app_release"),
        field "source" with
      | .str channel, .ok osSequence, .ok hostApi, .ok _, .ok _, .ok _, .str source =>
        if (channel ≠ "dev" ∧ channel ≠ "stable") ∨ !isCommit source then .error .value
        else .ok { board := "raspberrypi3", channel, hostApi, osSequence }
      | _, _, _, _, _, _, _ => .error .value
  | _ => .error .value

/-! ### The defaults -/

/-- `raw.decode("ascii").splitlines()`. -/
def asciiLines (raw : Bytes) : List Bytes :=
  (Text.splitlines (raw.map fun b => Char.ofNat b.toNat)).map fun line =>
    line.map fun c => c.toNat.toUInt8

def isLetter (c : UInt8) : Bool := (65 ≤ c && c ≤ 90) || (97 ≤ c && c ≤ 122)

/-- `[A-Za-z_][A-Za-z0-9_]*`. -/
def isDefaultName : Bytes → Bool
  | [] => false
  | c :: cs => (isLetter c || c == 95) && cs.all fun d =>
      isLetter d || (48 ≤ d && d ≤ 57) || d == 95

def isReserved (name : Bytes) : Bool :=
  (ascii "epk_").isPrefixOf name || (ascii "BOOT_").isPrefixOf name

def parseDefault (seen : List Entry) (line : Bytes) : Except Err Entry :=
  match memchr 61 line with
  | none => .error .value
  | some (name, value) =>
    if !isDefaultName name ∨ (get seen name).isSome ∨ isReserved name then .error .value
    else if !value.all isPrintable then .error .value
    else .ok ⟨name, value⟩

def parseLines : List Entry → List Bytes → Except Err (List Entry)
  | seen, [] => .ok seen
  | seen, line :: rest =>
    match parseDefault seen line with
    | .error e => .error e
    | .ok entry => parseLines (seen ++ [entry]) rest

def parseDefaults (raw : Bytes) : Except Err (List Entry) :=
  if raw.length = 0 ∨ dataSize < raw.length ∨ raw.getLast? ≠ some 10 then .error .value
  else if raw.any (128 ≤ ·) then .error .value
  else parseLines [] (asciiLines raw)

/-! ### Serialization -/

/-- `values[name] = value`: a name that is there keeps its place. -/
def setItem (values : List Entry) (e : Entry) : List Entry :=
  if (get values e.name).isSome then values.map fun v => if v.name = e.name then e else v
  else values ++ [e]

def update (values items : List Entry) : List Entry := items.foldl setItem values

/-- `sorted(values.items())`. -/
def sorted (values : List Entry) : List Entry := values.mergeSort fun a b => a.name ≤ b.name

/-- A payload leaves the headroom free. -/
def payload (values : List Entry) :
    Except Err { data : Bytes // data.length + headroom ≤ dataSize } :=
  if maxEntries < values.length then .error .value
  else
    let data := lines ((sorted values).map Entry.text) ++ [0]
    if h : data.length + headroom ≤ dataSize then .ok ⟨data, h⟩ else .error .value

/-- `zlib.crc32`. -/
def zlibCrc32 (data : Bytes) : UInt32 := Crc32.crc32 0xedb88320 data

/-- `struct.pack("<I", crc)`. -/
def packCrc (crc : UInt32) : Vector UInt8 4 :=
  #v[crc.toUInt8, (crc >>> 8).toUInt8, (crc >>> 16).toUInt8, (crc >>> 24).toUInt8]

def padded (data : Bytes) : Bytes := data ++ List.replicate (dataSize - data.length) 255

theorem padded_length {data : Bytes} (h : data.length + headroom ≤ dataSize) :
    (padded data).length = dataSize := by
  rw [padded, List.length_append, List.length_replicate]
  omega

def record (values : List Entry) (flag : UInt8) : Except Err Record :=
  (payload values).map fun p =>
    { crc := packCrc (zlibCrc32 (padded p.1)), flag, data := padded p.1,
      size := padded_length p.2 }

/-! ### The seed -/

/-- `str(n)`. -/
def str (n : ℕ) : Bytes := ascii (toString n)

/-- What the builder sets over the defaults. -/
def seedItems (osSequence trustEpoch : ℕ) (policyRaw signature : Bytes) : List Entry := [
  ⟨ascii "BOOT_ORDER", ascii "A B"⟩,
  ⟨ascii "BOOT_A_LEFT", ascii "3"⟩,
  ⟨ascii "BOOT_B_LEFT", ascii "3"⟩,
  ⟨ascii "epk_state_schema", ascii "1"⟩,
  ⟨ascii "epk_state_generation", ascii "0"⟩,
  ⟨ascii "epk_os_floor", str osSequence⟩,
  ⟨ascii "epk_trust_epoch", str trustEpoch⟩,
  ⟨ascii "epk_trust_policy", OsUpdate.b64Encode policyRaw⟩,
  ⟨ascii "epk_trust_policy_sig", OsUpdate.b64Encode signature⟩]

def placeholder : Bytes := ascii "epk_budget_runtime"

/-- The budget fixture, never in a record. -/
def worstItems : List Entry := [
  ⟨ascii "epk_state_generation", str uint64Max⟩,
  ⟨ascii "epk_os_floor", str uint64Max⟩,
  ⟨ascii "epk_trust_epoch", str uint64Max⟩,
  ⟨ascii "epk_trust_policy", List.replicate 8192 65⟩,
  ⟨ascii "epk_trust_policy_sig", List.replicate 86 65 ++ [61, 61]⟩,
  ⟨placeholder, List.replicate (runtimeReserve - placeholder.length - 2) 120⟩]

structure Budget where
  recordBytes : ℕ
  payloadBytes : ℕ
  seedUsedBytes : ℕ
  seedFreeBytes : ℕ
  worstCaseUsedBytes : ℕ
  worstCaseFreeBytes : ℕ
  headroomRequiredBytes : ℕ
  runtimeReserveBytes : ℕ
  policyMaxDecodedBytes : ℕ
  runtimeReserveEntries : ℕ
  defaultsSha256 : Digest
  platformSha256 : Digest
  policySha256 : Digest

structure Seed where
  a : Record
  b : Record
  budget : Budget

/-- What the builder serializes. -/
def seedValues (defs : List Entry) (osSequence trustEpoch : ℕ) (policyRaw signature : Bytes) :
    List Entry :=
  update defs (seedItems osSequence trustEpoch policyRaw signature)

/-- The budget and the records. The call is openssl_public_der; the digest of what it answers
is left out. -/
def writeSeed (O : Oracles) (defaults : Bytes) (platform : Json) (policyRaw rootPubkey : Bytes)
    (values : List Entry) : OsProg Seed := do
  .raiseIf (maxEntries < values.length + 64) .value
  let used ← Prog.ofExcept (payload values)
  let worstUsed ← Prog.ofExcept (payload (update values worstItems))
  OsUpdate.openssl (.ed25519Key rootPubkey)
  let a ← Prog.ofExcept (record values 1)
  let b ← Prog.ofExcept (record values 2)
  return { a, b, budget := {
    recordBytes := envSize
    payloadBytes := dataSize
    seedUsedBytes := used.1.length
    seedFreeBytes := dataSize - used.1.length
    worstCaseUsedBytes := worstUsed.1.length
    worstCaseFreeBytes := dataSize - worstUsed.1.length
    headroomRequiredBytes := headroom
    runtimeReserveBytes := runtimeReserve
    policyMaxDecodedBytes := OsUpdate.policyMax
    runtimeReserveEntries := 64
    defaultsSha256 := O.sha256 defaults
    platformSha256 := O.sha256 (O.canonical platform)
    policySha256 := O.sha256 policyRaw } }

def buildSeed (O : Oracles) (defaults : Bytes) (platform : Json)
    (policyRaw signature rootPubkey : Bytes) : OsProg Seed := do
  let plat ← Prog.ofExcept (validatePlatform platform)
  let policy ← OsUpdate.verifyPolicy O policyRaw signature rootPubkey plat.board plat.channel none
  let defs ← Prog.ofExcept (parseDefaults defaults)
  writeSeed O defaults platform policyRaw rootPubkey
    (seedValues defs plat.osSequence policy.trustEpoch policyRaw signature)

/-! ### The checksum -/

theorem crcBit_eq (c : UInt32) : crcBit c = Crc32.shift 0xedb88320 c := by
  have hlow : c &&& 1 = 0 ∨ c &&& 1 = 1 := by
    rw [← UInt32.toNat_inj, ← UInt32.toNat_inj, UInt32.toNat_and, UInt32.toNat_one,
      Nat.and_one_is_mod, UInt32.toNat_zero]
    omega
  rcases hlow with hlow | hlow
  · rw [crcBit, Crc32.shift, hlow, if_neg (by decide), UInt32.sub_self, UInt32.and_zero,
      UInt32.xor_zero]
  · rw [crcBit, Crc32.shift, hlow, if_pos rfl, UInt32.xor_comm]
    rfl

theorem crcByte_eq (c : UInt32) (byte : UInt8) :
    crcByte c byte = Crc32.update 0xedb88320 c byte := by
  have hshifts : ∀ x, (List.range 8).foldl (fun c _ => crcBit c) x =
      Crc32.shifts 0xedb88320 8 x := by
    intro x
    simp only [List.range, List.range.loop, List.foldl_cons, List.foldl_nil, Crc32.shifts,
      crcBit_eq]
  rw [crcByte, hshifts, Crc32.update_eq]

/-- The builder's table-driven checksum is the loader's bitwise one. -/
theorem zlibCrc32_eq (data : Bytes) : zlibCrc32 data = nativeCrc data := by
  have hstep : crcByte = Crc32.update 0xedb88320 := by
    funext c byte
    exact crcByte_eq c byte
  rw [zlibCrc32, Crc32.crc32, nativeCrc, hstep, ← UInt32.xor_neg_one]
  rfl

/-! ### Records -/

theorem payload_ok {values : List Entry} {data : { data : Bytes // data.length + headroom ≤ dataSize }}
    (h : payload values = .ok data) :
    values.length ≤ maxEntries ∧ data.1 = lines ((sorted values).map Entry.text) ++ [0] := by
  unfold payload at h
  by_cases hcount : maxEntries < values.length
  · rw [if_pos hcount] at h
    cases h
  · rw [if_neg hcount] at h
    simp only at h
    split_ifs at h
    have heq := Except.ok.inj h
    exact ⟨Nat.le_of_not_lt hcount, by rw [← heq]⟩

/-- The builder writes the pair of records the image is made with. -/
theorem record_ok {values : List Entry} {flag : UInt8} {r : Record}
    (h : record values flag = .ok r) : r = seedRecord (sorted values) flag := by
  unfold record at h
  cases hpayload : payload values with
  | error e =>
    rw [hpayload] at h
    cases h
  | ok p =>
    rw [hpayload] at h
    cases h
    obtain ⟨_, hdata⟩ := payload_ok hpayload
    have hroom := p.2
    have hpadded : padded p.1 = (lines ((sorted values).map Entry.text) ++
        0 :: List.replicate dataSize 255).take dataSize := by
      have hlength := congrArg List.length hdata
      simp only [List.length_append, List.length_singleton] at hlength
      rw [padded, hdata, List.take_append, List.take_of_length_le (by omega), List.append_assoc,
        List.singleton_append]
      congr 1
      obtain ⟨n, hn⟩ : ∃ n, dataSize - (lines ((sorted values).map Entry.text)).length = n + 1 :=
        ⟨dataSize - p.1.length, by omega⟩
      rw [hn, List.take_succ_cons, List.take_replicate, List.length_append, List.length_singleton]
      congr 2
      omega
    rw [seedRecord, Record.setCrc]
    simp only [zlibCrc32_eq, hpadded, packCrc]

theorem sorted_perm (values : List Entry) : (sorted values).Perm values :=
  List.mergeSort_perm _ _

/-- What an entry takes in a payload. -/
def entrySize (e : Entry) : ℕ := e.name.length + e.value.length + 2

theorem lines_size (values : List Entry) :
    (lines (values.map Entry.text)).length = (values.map entrySize).sum := by
  rw [lines_length, List.map_map]
  congr 1
  refine List.map_congr_left fun e _ => ?_
  simp only [Function.comp_apply, Entry.text, List.length_append, List.length_cons, entrySize]
  omega

theorem payload_size {values : List Entry}
    {data : { data : Bytes // data.length + headroom ≤ dataSize }}
    (h : payload values = .ok data) : (values.map entrySize).sum + 1 + headroom ≤ dataSize := by
  have hroom := data.2
  have hperm := lines_length_perm ((sorted_perm values).map Entry.text)
  rw [(payload_ok h).2, List.length_append, List.length_singleton, hperm, lines_size] at hroom
  exact hroom

theorem payload_complete {values : List Entry} (hcount : values.length ≤ maxEntries)
    (hroom : (values.map entrySize).sum + 1 + headroom ≤ dataSize) :
    ∃ data, payload values = .ok data := by
  have hperm := lines_length_perm ((sorted_perm values).map Entry.text)
  rw [← lines_size, ← hperm] at hroom
  rw [payload, if_neg (Nat.not_lt.mpr hcount)]
  simp only [List.length_append, List.length_singleton]
  rw [dif_pos hroom]
  exact ⟨_, rfl⟩

/-! ### The defaults -/

/-- Names the loader knows, none of them the builder's own. -/
structure DefaultsOk (entries : List Entry) : Prop where
  wellFormed : WellFormed entries
  own : ∀ e ∈ entries, isReserved e.name = false

theorem isNameChar_default : ∀ c : UInt8,
    (isLetter c || (48 ≤ c && c ≤ 57) || c == 95) = true → isNameChar c = true := by
  have h : ∀ n < 256, (isLetter (UInt8.ofNat n) || (48 ≤ UInt8.ofNat n && UInt8.ofNat n ≤ 57) ||
      UInt8.ofNat n == 95) = true → isNameChar (UInt8.ofNat n) = true := by decide +kernel
  intro c
  simpa using h c.toNat c.toNat_lt

theorem isDefaultName_chars {name : Bytes} (h : isDefaultName name = true) :
    name ≠ [] ∧ ∀ c ∈ name, isNameChar c = true := by
  cases name with
  | nil => cases h
  | cons c cs =>
    simp only [isDefaultName, Bool.and_eq_true, List.all_eq_true] at h
    refine ⟨List.cons_ne_nil _ _, fun d hd => isNameChar_default d ?_⟩
    rcases List.mem_cons.mp hd with rfl | hd
    · rcases Bool.or_eq_true _ _ ▸ h.1 with hl | hu <;> simp [*]
    · exact h.2 d hd

theorem DefaultsOk.snoc {seen : List Entry} {line : Bytes} {e : Entry} (h : DefaultsOk seen)
    (hparse : parseDefault seen line = .ok e) : DefaultsOk (seen ++ [e]) := by
  unfold parseDefault at hparse
  split at hparse
  · cases hparse
  · rename_i name value _
    split_ifs at hparse with hname hvalue
    cases hparse
    simp only [not_or, Bool.not_eq_true', Bool.not_eq_false, Bool.not_eq_true,
      Option.isSome_eq_false_iff, Option.isNone_iff_eq_none] at hname hvalue
    obtain ⟨hne, hchars⟩ := isDefaultName_chars hname.1
    refine ⟨h.wellFormed.snoc ⟨hne, hchars, List.all_eq_true.mp hvalue⟩
      (get_eq_none_iff.mp hname.2.1), fun e he => ?_⟩
    rcases List.mem_append.mp he with he | he
    · exact h.own e he
    · rw [List.mem_singleton.mp he]
      exact hname.2.2

theorem parseLines_ok {lines : List Bytes} {seen entries : List Entry} (hseen : DefaultsOk seen)
    (h : parseLines seen lines = .ok entries) : DefaultsOk entries := by
  induction lines generalizing seen with
  | nil =>
    cases h
    exact hseen
  | cons line rest ih =>
    rw [parseLines] at h
    cases hparse : parseDefault seen line with
    | error e =>
      rw [hparse] at h
      cases h
    | ok e =>
      rw [hparse] at h
      exact ih (hseen.snoc hparse) h

theorem parseDefaults_ok {raw : Bytes} {entries : List Entry}
    (h : parseDefaults raw = .ok entries) : DefaultsOk entries := by
  unfold parseDefaults at h
  split_ifs at h
  exact parseLines_ok ⟨WellFormed.nil, by simp⟩ h

/-! ### The values -/

theorem setItem_append {values items : List Entry} {e : Entry} (h : get values e.name = none) :
    setItem (values ++ items) e = values ++ setItem items e := by
  have hget : (get (values ++ items) e.name).isSome = (get items e.name).isSome := by
    rw [Bool.eq_iff_iff, get_isSome_iff, get_isSome_iff]
    constructor
    · rintro ⟨v, hv, hname⟩
      rcases List.mem_append.mp hv with hv | hv
      · exact absurd hname (get_eq_none_iff.mp h v hv)
      · exact ⟨v, hv, hname⟩
    · rintro ⟨v, hv, hname⟩
      exact ⟨v, List.mem_append_right _ hv, hname⟩
  have hsame : values.map (fun v => if v.name = e.name then e else v) = values :=
    (List.map_congr_left fun v hv => if_neg (get_eq_none_iff.mp h v hv)).trans (List.map_id' _)
  rw [setItem, setItem, hget]
  split_ifs
  · rw [List.map_append, hsame]
  · rw [List.append_assoc]

theorem update_append {values items new : List Entry}
    (h : ∀ e ∈ new, get values e.name = none) :
    update (values ++ items) new = values ++ update items new := by
  induction new generalizing items with
  | nil => rfl
  | cons e rest ih =>
    change update (setItem (values ++ items) e) rest = values ++ update (setItem items e) rest
    rw [setItem_append (h e (List.mem_cons_self ..)),
      ih fun e' he' => h e' (List.mem_cons_of_mem _ he')]

theorem DefaultsOk.get_reserved {entries : List Entry} (h : DefaultsOk entries) {name : Bytes}
    (hname : isReserved name = true) : get entries name = none :=
  get_eq_none_iff.mpr fun e he heq => by
    have hown := h.own e he
    rw [heq, hname] at hown
    cases hown

/-- The names the builder sets. -/
def seedNames : List Bytes :=
  ["BOOT_ORDER", "BOOT_A_LEFT", "BOOT_B_LEFT", "epk_state_schema", "epk_state_generation",
    "epk_os_floor", "epk_trust_epoch", "epk_trust_policy", "epk_trust_policy_sig"].map ascii

theorem seedItems_names (osSequence trustEpoch : ℕ) (policyRaw signature : Bytes) :
    (seedItems osSequence trustEpoch policyRaw signature).map Entry.name = seedNames := rfl

theorem seedNames_ok : ∀ name ∈ seedNames,
    name ≠ [] ∧ (∀ c ∈ name, isNameChar c = true) ∧ isReserved name = true := by
  decide +kernel

theorem seedNames_nodup : seedNames.Nodup := by decide +kernel

theorem seedItems_reserved (osSequence trustEpoch : ℕ) (policyRaw signature : Bytes) :
    ∀ e ∈ seedItems osSequence trustEpoch policyRaw signature, isReserved e.name = true :=
  fun e he => (seedNames_ok e.name (List.mem_map_of_mem he)).2.2

theorem worstItems_reserved : ∀ e ∈ worstItems, isReserved e.name = true := by
  decide +kernel

theorem update_seedItems {entries : List Entry} (h : DefaultsOk entries) (osSequence trustEpoch : ℕ)
    (policyRaw signature : Bytes) :
    update entries (seedItems osSequence trustEpoch policyRaw signature) =
      entries ++ seedItems osSequence trustEpoch policyRaw signature := by
  have hfresh : update [] (seedItems osSequence trustEpoch policyRaw signature) =
      seedItems osSequence trustEpoch policyRaw signature := by
    simp +decide [update, setItem, PlatformEnv.get, seedItems]
  conv_lhs => rw [← List.append_nil entries]
  rw [update_append fun e he => h.get_reserved (seedItems_reserved _ _ _ _ e he), hfresh]

/-- What the builder's own entries are in the budget fixture. -/
def worstValues : List Entry := [
  ⟨ascii "BOOT_ORDER", ascii "A B"⟩,
  ⟨ascii "BOOT_A_LEFT", ascii "3"⟩,
  ⟨ascii "BOOT_B_LEFT", ascii "3"⟩,
  ⟨ascii "epk_state_schema", ascii "1"⟩] ++ worstItems

theorem update_worstItems {entries : List Entry} (h : DefaultsOk entries)
    (osSequence trustEpoch : ℕ) (policyRaw signature : Bytes) :
    update (entries ++ seedItems osSequence trustEpoch policyRaw signature) worstItems =
      entries ++ worstValues := by
  rw [update_append fun e he => h.get_reserved (worstItems_reserved e he)]
  rfl

theorem str_uint64Max : (str uint64Max).length = 20 := by decide +kernel

theorem worstValues_size : (worstValues.map entrySize).sum = 12591 := by
  simp only [worstValues, worstItems, List.map_append, List.map_cons, List.map_nil, entrySize,
    List.length_append, List.length_replicate, str_uint64Max, List.sum_append_nat, List.sum_cons,
    List.sum_nil]
  decide +kernel

/-! ### Scalars -/

theorem digitChar_byte {d : ℕ} (h : d < 10) : (Nat.digitChar d).toNat.toUInt8 = (48 + d).toUInt8 := by
  revert d
  decide

theorem decimalFrom_toDigits {n : ℕ} (h : n ≤ uint64Max) :
    decimalFrom 0 ((Nat.toDigits 10 n).map fun c => c.toNat.toUInt8) = some n := by
  induction n using Nat.strong_induction_on with
  | _ n ih =>
    have hlast : ∀ q d, d < 10 → q * 10 + d ≤ uint64Max →
        decimalFrom q [(Nat.digitChar d).toNat.toUInt8] = some (q * 10 + d) := by
      intro q d hd hle
      rw [digitChar_byte hd, decimalFrom_digit [] hd hle]
      rfl
    by_cases hlt : n < 10
    · rw [Nat.toDigits_of_lt_base hlt, List.map_singleton, hlast 0 n hlt (by omega)]
      simp
    · have hle : n / 10 ≤ uint64Max := by omega
      rw [Nat.toDigits_of_base_le (by omega) (by omega), List.map_append, decimalFrom_append,
        ih (n / 10) (by omega) hle, List.map_singleton, Option.bind_some,
        hlast _ _ (Nat.mod_lt n (by omega)) (by omega)]
      congr 1
      omega

theorem str_eq (n : ℕ) : str n = (Nat.toDigits 10 n).map fun c => c.toNat.toUInt8 := by
  have htext : (toString n).toList = Nat.toDigits 10 n := by simp
  rw [str, ascii, htext]

/-- The loader reads the builder's numbers. -/
theorem decimal_str {n : ℕ} (h : n ≤ uint64Max) : decimal (some (str n)) = some n := by
  have hread := decimalFrom_toDigits h
  rw [← str_eq] at hread
  cases hstr : str n with
  | nil =>
    rw [str_eq, List.map_eq_nil_iff] at hstr
    exact absurd hstr Nat.toDigits_ne_nil
  | cons c cs =>
    rw [hstr] at hread
    rw [decimal, if_neg, hread]
    rintro ⟨rfl, hrest⟩
    rw [str_eq] at hstr
    rcases Nat.eq_zero_or_pos n with rfl | hpos
    · rw [Nat.toDigits_zero, List.map_singleton, List.cons.injEq] at hstr
      exact hrest hstr.2.symm
    · obtain ⟨d, ds, hdigits⟩ := List.exists_cons_of_ne_nil (@Nat.toDigits_ne_nil n 10)
      have hmem : d ∈ Nat.toDigits 10 n := by
        rw [hdigits]
        exact List.mem_cons_self ..
      have hd := OsUpdate.toDigits_isDigit d hmem
      have hhead := OsUpdate.toDigits_head_ne_zero hpos
      rw [hdigits] at hstr hhead
      rw [List.map_cons, List.cons.injEq] at hstr
      refine hhead ?_
      rw [List.head?_cons, Option.some_inj]
      have hge := OsUpdate.digit_ge hd
      have hlt := OsUpdate.digit_lt hd
      have hbyte := congrArg UInt8.toNat hstr.1
      have hzero : ('0' : Char).toNat = 48 := rfl
      have hnat : d.toNat.toUInt8.toNat = d.toNat % 256 := rfl
      rw [hnat] at hbyte
      change d.toNat % 256 = 48 at hbyte
      exact Char.toNat_inj.mp (by omega)

/-! ### What the loader reads -/

/-- What the builder has checked before it serializes. -/
structure Checked (osSequence trustEpoch : ℕ) (policyRaw signature : Bytes) : Prop where
  osSequence_le : osSequence ≤ uint64Max
  trustEpoch_le : trustEpoch ≤ uint64Max
  policy_ne : policyRaw ≠ []
  policy_le : policyRaw.length ≤ OsUpdate.policyMax
  signature : signature.length = 64

section Reads

variable {defs : List Entry} {osSequence trustEpoch : ℕ} {policyRaw signature : Bytes}

theorem seedItems_ok (h : Checked osSequence trustEpoch policyRaw signature) :
    ∀ e ∈ seedItems osSequence trustEpoch policyRaw signature, EntryOk e := by
  have hvalues : ∀ e ∈ seedItems osSequence trustEpoch policyRaw signature,
      ∀ c ∈ e.value, isPrintable c = true := by
    simp only [seedItems, List.mem_cons, List.not_mem_nil, or_false, forall_eq_or_imp, forall_eq]
    exact ⟨by decide +kernel, by decide +kernel, by decide +kernel, by decide +kernel,
      by decide +kernel, printable_of_decimal (decimal_str h.osSequence_le),
      printable_of_decimal (decimal_str h.trustEpoch_le), b64Encode_printable policyRaw,
      b64Encode_printable signature⟩
  intro e he
  have hname : e.name ∈ seedNames := List.mem_map_of_mem he
  exact ⟨(seedNames_ok e.name hname).1, (seedNames_ok e.name hname).2.1, hvalues e he⟩

/-- The builder's names are none of the defaults'. -/
theorem DefaultsOk.names_nodup (h : DefaultsOk defs) :
    (defs.map Entry.name ++ seedNames).Nodup := by
  rw [List.nodup_append]
  refine ⟨h.wellFormed.nodup, seedNames_nodup, ?_⟩
  intro a ha b hb heq
  obtain ⟨e, he, rfl⟩ := List.mem_map.mp ha
  have hown := h.own e he
  rw [heq, (seedNames_ok b hb).2.2] at hown
  cases hown

theorem values_wellFormed (hdefs : DefaultsOk defs)
    (h : Checked osSequence trustEpoch policyRaw signature) :
    WellFormed (defs ++ seedItems osSequence trustEpoch policyRaw signature) := by
  refine ⟨fun e he => ?_, ?_⟩
  · rcases List.mem_append.mp he with he | he
    · exact hdefs.wellFormed.entry_ok e he
    · exact seedItems_ok h e he
  · rw [List.map_append, seedItems_names]
    exact hdefs.names_nodup

theorem get_append_of_none {values items : List Entry} {name : Bytes}
    (h : PlatformEnv.get values name = none) :
    PlatformEnv.get (values ++ items) name = PlatformEnv.get items name := by
  have hfind : (values.find? fun e => e.name == name) = none := by
    simpa [PlatformEnv.get] using h
  rw [PlatformEnv.get, PlatformEnv.get, List.find?_append, hfind, Option.none_or]

theorem get_perm {values values' : List Entry} (hperm : values.Perm values')
    (hnodup : (values.map Entry.name).Nodup) (name : Bytes) :
    PlatformEnv.get values name = PlatformEnv.get values' name := by
  apply Option.ext
  intro value
  rw [get_eq_some_iff hnodup, get_eq_some_iff ((hperm.map _).nodup hnodup), hperm.mem_iff]

/-- The view of a seeded record. -/
def seedView (values : List Entry) (osSequence trustEpoch : ℕ) : View where
  entries := sorted values
  used := (lines ((sorted values).map Entry.text)).length + 1
  generation := 0
  floor := osSequence
  epoch := trustEpoch

theorem storable_seed (hdefs : DefaultsOk defs)
    (h : Checked osSequence trustEpoch policyRaw signature)
    {data : { data : Bytes // data.length + headroom ≤ dataSize }}
    (hpayload : payload (defs ++ seedItems osSequence trustEpoch policyRaw signature) = .ok data) :
    Storable (sorted (defs ++ seedItems osSequence trustEpoch policyRaw signature))
      (seedView (defs ++ seedItems osSequence trustEpoch policyRaw signature) osSequence
        trustEpoch) := by
  have hwf := values_wellFormed hdefs h
  obtain ⟨hcount, hdata⟩ := payload_ok hpayload
  have hroom := data.2
  have hperm := sorted_perm (defs ++ seedItems osSequence trustEpoch policyRaw signature)
  have hnodup := (hperm.symm.map Entry.name).nodup hwf.nodup
  have hget : ∀ name, isReserved name = true →
      PlatformEnv.get (sorted (defs ++ seedItems osSequence trustEpoch policyRaw signature)) name =
        PlatformEnv.get (seedItems osSequence trustEpoch policyRaw signature) name :=
    fun name hname => by
      rw [get_perm hperm hnodup, get_append_of_none (hdefs.get_reserved hname)]
  rw [hdata, List.length_append, List.length_singleton] at hroom
  refine ⟨⟨fun e he => hwf.entry_ok e (hperm.mem_iff.mp he), hnodup⟩, ?_, hroom, ?_⟩
  · rw [hperm.length_eq]
    exact hcount
  · apply parseFields_ok
    · rw [hget _ (by decide)]
      simp +decide [seedItems, PlatformEnv.get]
    · rw [hget _ (by decide)]
      simp +decide [seedItems, PlatformEnv.get]
    · rw [hget _ (by decide), ← decimal_str h.osSequence_le]
      simp +decide [seedItems, PlatformEnv.get]
    · rw [hget _ (by decide), ← decimal_str h.trustEpoch_le]
      simp +decide [seedItems, PlatformEnv.get]
    · have hpolicy : PlatformEnv.get (seedItems osSequence trustEpoch policyRaw signature)
          (ascii "epk_trust_policy") = some (OsUpdate.b64Encode policyRaw) := by
        simp +decide [seedItems, PlatformEnv.get]
      rw [hget _ (by decide), hpolicy, b64Size_encode h.policy_ne]
      exact List.length_pos_iff.mpr h.policy_ne
    · have hpolicy : PlatformEnv.get (seedItems osSequence trustEpoch policyRaw signature)
          (ascii "epk_trust_policy") = some (OsUpdate.b64Encode policyRaw) := by
        simp +decide [seedItems, PlatformEnv.get]
      rw [hget _ (by decide), hpolicy, b64Size_encode h.policy_ne]
      exact h.policy_le
    · have hsig : PlatformEnv.get (seedItems osSequence trustEpoch policyRaw signature)
          (ascii "epk_trust_policy_sig") = some (OsUpdate.b64Encode signature) := by
        simp +decide [seedItems, PlatformEnv.get]
      have hne : signature ≠ [] := by
        rintro rfl
        exact absurd h.signature (by decide)
      rw [hget _ (by decide), hsig, b64Size_encode hne, h.signature]

end Reads

theorem integer_ok {minimum n : ℕ} {value : Json} (h : OsUpdate.integer minimum value = .ok n) :
    value = .int n ∧ minimum ≤ n ∧ n ≤ uint64Max := by
  unfold OsUpdate.integer at h
  split at h
  · split_ifs at h with hn
    cases h
    exact ⟨rfl, hn⟩
  · cases h

/-- The epoch a policy text states. -/
def StatesEpoch (O : Oracles) (policyRaw : Bytes) (epoch : ℕ) : Prop :=
  ∃ fields, O.loads policyRaw = some (.obj fields) ∧ Json.get fields "trust_epoch" = .int epoch

theorem strictJson_ok {O : Oracles} {raw : Bytes} {maximum : ℕ} {value : Json}
    (h : OsUpdate.strictJson O raw maximum = .ok value) :
    raw ≠ [] ∧ raw.length ≤ maximum ∧ O.loads raw = some value := by
  unfold OsUpdate.strictJson at h
  split_ifs at h with hsize
  simp only [not_or, not_lt] at hsize
  cases hloads : O.loads raw with
  | none =>
    rw [hloads] at h
    cases h
  | some v =>
    rw [hloads] at h
    simp only at h
    split_ifs at h
    cases h
    exact ⟨fun hnil => hsize.1 (by rw [hnil]; rfl), hsize.2, rfl⟩

/-- What a verified policy has been checked for, whatever OpenSSL answered. -/
theorem verifyPolicy_gives {O : Oracles} {raw signature root : Bytes} {board channel : String}
    {current : Option OsUpdate.Current} :
    (OsUpdate.verifyPolicy O raw signature root board channel current).Gives fun policy =>
      raw ≠ [] ∧ raw.length ≤ OsUpdate.policyMax ∧ signature.length = 64 ∧
        policy.trustEpoch ≤ uint64Max ∧ StatesEpoch O raw policy.trustEpoch := by
  unfold OsUpdate.verifyPolicy
  refine Prog.Gives.bind (gives_ofExcept fun _ h => h) fun value hvalue => ?_
  obtain ⟨hne, hle, hloads⟩ := strictJson_ok hvalue
  cases value with
  | obj fields =>
    refine Prog.Gives.bind (gives_true _) fun _ _ => ?_
    refine Prog.Gives.bind (gives_true _) fun _ _ => ?_
    refine Prog.Gives.bind (gives_ofExcept fun _ h => h) fun epoch hepoch => ?_
    refine Prog.Gives.bind gives_raiseIf fun _ hsignature => ?_
    obtain ⟨hfield, _, hmax⟩ := integer_ok hepoch
    refine Prog.Gives.bind (gives_true _) fun _ _ => ?_
    refine Prog.Gives.bind (gives_true _) fun _ _ => ?_
    refine Prog.Gives.bind (gives_true _) fun _ _ => ?_
    refine Prog.Gives.bind (gives_true _) fun _ _ => ?_
    refine Prog.Gives.bind (gives_true _) fun _ _ => ?_
    refine Prog.Gives.bind (gives_true _) fun _ _ => ?_
    refine Prog.Gives.bind (gives_true _) fun _ _ => ?_
    refine Prog.Gives.bind (gives_true _) fun _ _ => ?_
    exact ⟨hne, hle, not_not.mp hsignature, hmax, fields, hloads, hfield⟩
  | _ => trivial

theorem validatePlatform_ok {platform : Json} {plat : Platform}
    (h : validatePlatform platform = .ok plat) :
    ∃ fields, platform = .obj fields ∧ Json.get fields "os_sequence" = .int plat.osSequence ∧
      plat.osSequence ≤ uint64Max := by
  cases platform with
  | obj fields =>
    simp only [validatePlatform] at h
    split_ifs at h
    split at h
    · rename_i channel osSequence _ _ _ _ _ hsequence _ _ _ _ _
      split_ifs at h
      cases h
      obtain ⟨hfield, _, hmax⟩ := integer_ok hsequence
      exact ⟨fields, rfl, hfield, hmax⟩
    · cases h
  | _ => cases h

/-- What the builder knows of the values it serializes into a seed. -/
structure Wrote (values : List Entry) (seed : Seed) : Prop where
  count : values.length + 64 ≤ maxEntries
  used : ∃ data, payload values = .ok data
  worst : ∃ data, payload (update values worstItems) = .ok data
  a : record values 1 = .ok seed.a
  b : record values 2 = .ok seed.b

theorem writeSeed_gives {O : Oracles} {defaults : Bytes} {platform : Json}
    {policyRaw rootPubkey : Bytes} {values : List Entry} :
    (writeSeed O defaults platform policyRaw rootPubkey values).Gives (Wrote values) := by
  unfold writeSeed
  refine Prog.Gives.bind gives_raiseIf fun _ hcount => ?_
  refine Prog.Gives.bind (gives_ofExcept fun _ h => h) fun used hused => ?_
  refine Prog.Gives.bind (gives_ofExcept fun _ h => h) fun worst hworst => ?_
  refine Prog.Gives.bind (gives_true _) fun _ _ => ?_
  refine Prog.Gives.bind (gives_ofExcept fun _ h => h) fun a ha => ?_
  refine Prog.Gives.bind (gives_ofExcept fun _ h => h) fun b hb => ?_
  exact ⟨Nat.le_of_not_lt hcount, ⟨_, hused⟩, ⟨_, hworst⟩, ha, hb⟩

/-- The defaults, the platform and the epoch of the policy a seed was made from. -/
structure BuiltFrom (O : Oracles) (defaults : Bytes) (platform : Json)
    (policyRaw signature : Bytes) (seed : Seed) (defs : List Entry) (plat : Platform)
    (epoch : ℕ) : Prop where
  platform : validatePlatform platform = .ok plat
  defaults : parseDefaults defaults = .ok defs
  states : StatesEpoch O policyRaw epoch
  checked : Checked plat.osSequence epoch policyRaw signature
  wrote : Wrote (seedValues defs plat.osSequence epoch policyRaw signature) seed

theorem buildSeed_gives {O : Oracles} {defaults : Bytes} {platform : Json}
    {policyRaw signature rootPubkey : Bytes} :
    (buildSeed O defaults platform policyRaw signature rootPubkey).Gives fun seed =>
      ∃ defs plat epoch, BuiltFrom O defaults platform policyRaw signature seed defs plat epoch := by
  unfold buildSeed
  refine Prog.Gives.bind (gives_ofExcept fun _ h => h) fun plat hplat => ?_
  refine Prog.Gives.bind verifyPolicy_gives fun policy hpolicy => ?_
  obtain ⟨hne, hle, hsignature, hmax, hstates⟩ := hpolicy
  obtain ⟨_, _, _, hosSequence⟩ := validatePlatform_ok hplat
  refine Prog.Gives.bind (gives_ofExcept fun _ h => h) fun defs hdefs => ?_
  generalize hvalues :
    seedValues defs plat.osSequence policy.trustEpoch policyRaw signature = values
  refine writeSeed_gives.mono fun seed hwrote => ?_
  refine ⟨defs, plat, policy.trustEpoch, hplat, hdefs, hstates, ?_, ?_⟩
  · exact ⟨hosSequence, hmax, hne, hle, hsignature⟩
  · rw [hvalues]
    exact hwrote

/-- The seed of given values reads as it should. -/
structure Reads (seed : Seed) (values : List Entry) (osSequence epoch : ℕ) : Prop where
  select : ∃ used, epkEnvSelect seed.a seed.b = .ok ⟨.b, 0, osSequence, epoch, used⟩
  parse : ∀ r ∈ [seed.a, seed.b], ∃ v, parse r = .ok v ∧
    ∀ name, PlatformEnv.get v.entries name = PlatformEnv.get values name

theorem BuiltFrom.reads {O : Oracles} {defaults : Bytes} {platform : Json}
    {policyRaw signature : Bytes} {seed : Seed} {defs : List Entry} {plat : Platform} {epoch : ℕ}
    (h : BuiltFrom O defaults platform policyRaw signature seed defs plat epoch) :
    Reads seed (seedValues defs plat.osSequence epoch policyRaw signature) plat.osSequence
      epoch := by
  have hdefs := parseDefaults_ok h.defaults
  have hvalues := update_seedItems hdefs plat.osSequence epoch policyRaw signature
  have hwrote := h.wrote
  obtain ⟨data, hused⟩ := hwrote.used
  rw [seedValues, hvalues] at hwrote hused ⊢
  have hstorable := storable_seed hdefs h.checked hused
  have hwf := values_wellFormed hdefs h.checked
  have hperm := sorted_perm (defs ++ seedItems plat.osSequence epoch policyRaw signature)
  have ha := record_ok hwrote.a
  have hb := record_ok hwrote.b
  have hselect := Device.select_of_choose (choose_seedDevice hstorable)
  constructor
  · rw [ha, hb]
    exact ⟨_, hselect⟩
  · have hget : ∀ name, PlatformEnv.get
        (sorted (defs ++ seedItems plat.osSequence epoch policyRaw signature)) name =
          PlatformEnv.get (defs ++ seedItems plat.osSequence epoch policyRaw signature) name :=
      fun name => (get_perm hperm.symm hwf.nodup name).symm
    intro r hr
    rcases List.mem_cons.mp hr with rfl | hr
    · rw [ha]
      exact ⟨_, parse_seedRecord hstorable 1, hget⟩
    · rw [List.mem_singleton.mp hr, hb]
      exact ⟨_, parse_seedRecord hstorable 2, hget⟩

/-- However OpenSSL answers: a seed the builder returns selects record B with the numbers it
was built for, and both records read back as the map it serialized. -/
theorem seed_agrees {O : Oracles} {σ : Type} {W : Behaviour OsUpdate.Host σ} {s s' : σ}
    {defaults : Bytes} {platform : Json} {policyRaw signature rootPubkey : Bytes} {seed : Seed}
    (hrun : Runs (· = ·) W (s, buildSeed O defaults platform policyRaw signature rootPubkey)
      (s', .ret seed)) :
    ∃ defs plat epoch, validatePlatform platform = .ok plat ∧ StatesEpoch O policyRaw epoch ∧
      parseDefaults defaults = .ok defs ∧
      Reads seed (seedValues defs plat.osSequence epoch policyRaw signature) plat.osSequence
        epoch := by
  obtain ⟨defs, plat, epoch, h⟩ := buildSeed_gives.safe.result hrun
  exact ⟨defs, plat, epoch, h.platform, h.states, h.defaults, h.reads⟩

/-! ### A seed -/

deriving instance DecidableEq for OsUpdate.Platform

def sampleDefaults : Bytes := ascii "bootdelay=2\n"

def samplePlatform : Json := .obj [
  ("schema", .int 1), ("board", .str "raspberrypi3"), ("arch", .str "arm64"),
  ("slot_layout", .str "pi3-mbr-v1"), ("boot_protocol", .int 2), ("channel", .str "dev"),
  ("os_version", .str "1.0"), ("os_sequence", .int 12),
  ("source", .str (String.ofList (List.replicate 40 'a'))), ("kernel", .str "6.12"),
  ("host_api", .int 2), ("app_release", .str "3.1")]

def sampleCa : String := "-----BEGIN CERTIFICATE-----\nAAAA\n-----END CERTIFICATE-----\n"

def samplePolicy : Json := .obj [
  ("board", .str "raspberrypi3"), ("channel", .str "dev"),
  ("index_keys", .arr [.obj [("key_id", .str "k"),
    ("public_key", .str "AAAAAAAAAAAAAAAAAAAAAAAAAAAAAAAAAAAAAAAAAAA=")]]),
  ("rauc_cas", .arr [.str sampleCa]),
  ("rauc_leaf_spki_sha256", .arr [.str (String.ofList (List.replicate 64 'a'))]),
  ("schema", .int 1), ("trust_epoch", .int 2)]

def samplePolicyRaw : Bytes := ascii
  ("\x7b\"board\":\"raspberrypi3\",\"channel\":\"dev\",\"index_keys\":[\x7b\"key_id\":\"k\"," ++
    "\"public_key\":\"AAAAAAAAAAAAAAAAAAAAAAAAAAAAAAAAAAAAAAAAAAA=\"\x7d],\"rauc_cas\":[" ++
    "\"-----BEGIN CERTIFICATE-----\\nAAAA\\n-----END CERTIFICATE-----\\n\"]," ++
    "\"rauc_leaf_spki_sha256\":[\"" ++ String.ofList (List.replicate 64 'a') ++
    "\"],\"schema\":1,\"trust_epoch\":2\x7d")

def sampleSignature : Bytes := List.replicate 64 7

def sampleRoot : Bytes := ascii "-----BEGIN PUBLIC KEY-----\nAAAA\n-----END PUBLIC KEY-----\n"

/-- The one text there is to read, and an OpenSSL that accepts it. -/
def sampleOracles : Oracles :=
  { OsUpdate.sampleOracles with
    loads := fun raw => if raw = samplePolicyRaw then some samplePolicy else none
    canonical := fun _ => samplePolicyRaw }

def sampleBox : OsUpdate.World := OsUpdate.sampleWorld OsUpdate.sampleEnv .a

def sampleBuild : OsProg Seed :=
  buildSeed sampleOracles sampleDefaults samplePlatform samplePolicyRaw sampleSignature sampleRoot

theorem writeSeed_run {O : Oracles} {defaults : Bytes} {platform : Json}
    {policyRaw rootPubkey : Bytes} {values : List Entry} {w : OsUpdate.World}
    (haccepts : O.accepts (.ed25519Key rootPubkey) = true)
    (hcount : values.length + 64 ≤ maxEntries) (hused : ∃ data, payload values = .ok data)
    (hworst : ∃ data, payload (update values worstItems) = .ok data) :
    ∃ seed, ((writeSeed O defaults platform policyRaw rootPubkey values).run
      (OsUpdate.World.serve O) w).1 = .ok seed := by
  obtain ⟨data, hused⟩ := hused
  obtain ⟨worst, hworst⟩ := hworst
  have hrecord : ∀ flag, ∃ r, record values flag = .ok r := fun flag => by
    rw [record, hused]
    exact ⟨_, rfl⟩
  obtain ⟨a, ha⟩ := hrecord 1
  obtain ⟨b, hb⟩ := hrecord 2
  have hcall : (OsUpdate.World.serve O w (.openssl (.ed25519Key rootPubkey))).1 = true := haccepts
  rw [writeSeed, Prog.raiseIf_neg (Nat.not_lt.mpr hcount), hused, hworst, ha, hb]
  simp [OsUpdate.openssl, OsUpdate.ask, hcall]

def sampleDefs : List Entry := [⟨ascii "bootdelay", ascii "2"⟩]

theorem parseDefaults_sample : parseDefaults sampleDefaults = .ok sampleDefs := by decide +kernel

def samplePlat : Platform :=
  { board := "raspberrypi3", channel := "dev", hostApi := 2, osSequence := 12 }

theorem validatePlatform_sample : validatePlatform samplePlatform = .ok samplePlat := by
  decide +kernel

def sampleVerified : OsUpdate.Policy :=
  { board := "raspberrypi3", channel := "dev", trustEpoch := 2
    indexKeys := [{ keyId := "k", publicKey := List.replicate 32 0 }], raucCas := [sampleCa]
    leaves := [String.ofList (List.replicate 64 'a')] }

theorem verifyPolicy_sample :
    ((OsUpdate.verifyPolicy sampleOracles samplePolicyRaw sampleSignature sampleRoot
      samplePlat.board samplePlat.channel none).run (OsUpdate.World.serve sampleOracles)
      sampleBox).1 = .ok sampleVerified := by
  decide +kernel

theorem sampleBuild_ok :
    ∃ seed, (sampleBuild.run (OsUpdate.World.serve sampleOracles) sampleBox).1 = .ok seed := by
  have hpolicy := run_of_fst verifyPolicy_sample
  have hdefs := parseDefaults_ok parseDefaults_sample
  rw [sampleBuild, buildSeed, validatePlatform_sample, Prog.ofExcept_ok, Prog.ret_bind,
    run_bind_ok hpolicy, parseDefaults_sample, Prog.ofExcept_ok, Prog.ret_bind, seedValues,
    update_seedItems hdefs]
  refine writeSeed_run rfl (by decide +kernel) (payload_complete (by decide +kernel)
    (by decide +kernel)) ?_
  rw [update_worstItems hdefs]
  refine payload_complete (by decide +kernel) ?_
  rw [List.map_append, List.sum_append_nat, worstValues_size]
  decide +kernel

/-- A seed is built, and it reads as it should. -/
theorem seed_agrees_sample : ∃ seed defs plat epoch,
    validatePlatform samplePlatform = .ok plat ∧ StatesEpoch sampleOracles samplePolicyRaw epoch ∧
      parseDefaults sampleDefaults = .ok defs ∧
      Reads seed (seedValues defs plat.osSequence epoch samplePolicyRaw sampleSignature)
        plat.osSequence epoch := by
  obtain ⟨seed, hseed⟩ := sampleBuild_ok
  have hrun := runs_run (OsUpdate.World.serve_follows sampleOracles) sampleBuild sampleBox
  rw [hseed] at hrun
  exact ⟨seed, seed_agrees hrun⟩

end Epilykos.OsBootstrap
