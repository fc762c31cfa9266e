import Epilykos.Lib.Base64
import Epilykos.Lib.Sha256

/-!
The authorized keys file: how a public key line is read, how the file's keys are read and
written, and that what was written is read back.
-/

namespace Epilykos.Ssh

open Text

abbrev Line := List Char

/-- KEY_TYPES. -/
def keyTypes : List Line := [
  "ssh-ed25519".toList, "ssh-rsa".toList, "ecdsa-sha2-nistp256".toList,
  "ecdsa-sha2-nistp384".toList, "ecdsa-sha2-nistp521".toList,
  "sk-ssh-ed25519@openssh.com".toList, "sk-ecdsa-sha2-nistp256@openssh.com".toList]

inductive SshError
  | notAKey
  | notBase64
  | typeMismatch
  | controlCharacters
  | noSuchKey
  deriving DecidableEq, Repr

/-- The text of an SshError. -/
def SshError.message : SshError → String
  | notAKey => "not an SSH public key (expected e.g. \"ssh-ed25519 AAAA... name\")"
  | notBase64 => "the key is not valid base64"
  | typeMismatch => "the key data does not match its type"
  | controlCharacters => "the key comment contains control characters"
  | noSuchKey => "no such key"

/-- `bytes.decode('ascii', 'replace')`. -/
def decodeAscii (bytes : List UInt8) : Line :=
  bytes.map fun b => if b < 128 then Char.ofNat b.toNat else '\uFFFD'

/-- `int.from_bytes(bytes, 'big')`. -/
def fromBytes (bytes : List UInt8) : ℕ := bytes.foldl (fun n b => n * 256 + b.toNat) 0

/-- The type a key's data begins with; `none` where the length before it is missing. -/
def blobType (blob : List UInt8) : Option Line :=
  if blob.length < 4 then none
  else some (decodeAscii ((blob.drop 4).take (fromBytes (blob.take 4))))

structure PublicKey where
  type : Line
  blob : List UInt8
  comment : Line
  deriving DecidableEq, Repr

/-- The checks of `parse_key` on the words of the line. -/
def parseParts (type data rest : Line) : Except SshError PublicKey :=
  if type ∉ keyTypes then .error .notAKey
  else match Base64.decode data with
    | none => .error .notBase64
    | some blob =>
      if blobType blob ≠ some type then .error .typeMismatch
      else if (strip rest).any fun c => c.toNat < 32 then .error .controlCharacters
      else .ok ⟨type, blob, strip rest⟩

def parseKey (line : Line) : Except SshError PublicKey :=
  match splitMax 2 (strip line) with
  | [type, data] => parseParts type data []
  | [type, data, rest] => parseParts type data rest
  | _ => .error .notAKey

def fingerprint (blob : List UInt8) : Line :=
  "SHA256:".toList ++
    ((Base64.encode (Sha256.sha256 blob)).reverse.dropWhile (· == '=')).reverse

/-- A key of the file, with the line it stands on. -/
structure Key extends PublicKey where
  line : Line
  deriving DecidableEq, Repr

def keyOfLine (line : Line) : Option Key :=
  if line = [] ∨ line.head? = some '#' then none
  else match parseKey line with
    | .ok key => some ⟨key, line⟩
    | .error _ => none

/-- _read_keys, of the text of the file; none where there is no file. -/
def keysOf : Option Line → List Key
  | none => []
  | some text => ((fileLines text).map strip).filterMap keyOfLine

/-- What _write_keys writes. -/
def fileText (lines : List Line) : Line := lines.flatMap (· ++ ['\n'])

/-- The line `add_key` writes for a key. -/
def cleanLine (key : PublicKey) : Line :=
  key.type ++ ' ' :: Base64.encode key.blob ++
    if key.comment = [] then [] else ' ' :: key.comment

example : (parseKey "  ssh-rsa AAAAB3NzaC1yc2EB  the  box \n".toList).toOption.map cleanLine =
    some "ssh-rsa AAAAB3NzaC1yc2EB the  box".toList := by decide +kernel

/-! ### What is written is read back -/

/-- What every parsed key satisfies. -/
structure PublicKey.Sound (key : PublicKey) : Prop where
  type_mem : key.type ∈ keyTypes
  blob_type : blobType key.blob = some key.type
  comment_stripped : Stripped key.comment
  comment_plain : ∀ c ∈ key.comment, 32 ≤ c.toNat

theorem parseParts_sound {type data rest : Line} {key : PublicKey}
    (h : parseParts type data rest = .ok key) : key.Sound := by
  unfold parseParts at h
  by_cases htype : type ∈ keyTypes
  · rw [if_neg (not_not.mpr htype)] at h
    cases hdata : Base64.decode data with
    | none => simp [hdata] at h
    | some blob =>
      rw [hdata] at h
      dsimp only at h
      split_ifs at h with hblob hplain
      cases h
      exact ⟨htype, not_not.mp hblob, stripped_strip rest, by simpa using hplain⟩
  · rw [if_pos htype] at h
    cases h

theorem parseKey_sound {line : Line} {key : PublicKey} (h : parseKey line = .ok key) :
    key.Sound := by
  unfold parseKey at h
  split at h
  · exact parseParts_sound h
  · exact parseParts_sound h
  · cases h

theorem keyTypes_plain : ∀ type ∈ keyTypes,
    type ≠ [] ∧ (∀ c ∈ type, isSpace c = false) ∧ type.head? ≠ some '#' := by
  have hall : (keyTypes.all fun type =>
      !type.isEmpty && type.all (fun c => !isSpace c) && type.head? != some '#') = true := by
    decide +kernel
  intro type hmem
  have htype := List.all_eq_true.mp hall type hmem
  simp only [Bool.and_eq_true, Bool.not_eq_true', List.isEmpty_eq_false_iff, List.all_eq_true,
    bne_iff_ne] at htype
  exact ⟨htype.1.1, htype.1.2, htype.2⟩

section Clean

variable {key : PublicKey}

theorem PublicKey.Sound.blob_ne_nil (h : key.Sound) : key.blob ≠ [] := by
  intro hnil
  have hblob := h.blob_type
  simp [hnil, blobType] at hblob

theorem PublicKey.Sound.parseParts_eq (h : key.Sound) :
    parseParts key.type (Base64.encode key.blob) key.comment = .ok key := by
  have hplain : (key.comment.any fun c => c.toNat < 32) = false := by
    rw [List.any_eq_false]
    intro c hc
    have hle := h.comment_plain c hc
    simpa using hle
  simp [parseParts, h.type_mem, Base64.decode_encode, h.blob_type, h.comment_stripped.strip_eq,
    hplain]

theorem PublicKey.Sound.cleanLine_stripped (h : key.Sound) : Stripped (cleanLine key) := by
  obtain ⟨hne, htype, -⟩ := keyTypes_plain _ h.type_mem
  have hdata := Base64.encode_ne_nil h.blob_ne_nil
  constructor
  · intro c hc
    cases hcons : key.type with
    | nil => exact absurd hcons hne
    | cons d ds =>
      rw [cleanLine, hcons] at hc
      obtain rfl : d = c := by simpa using hc
      exact htype d (by simp [hcons])
  · intro c hc
    unfold cleanLine at hc
    split_ifs at hc with hcomment
    · rw [List.append_nil, last_append (by simp)] at hc
      rw [List.getLast?_cons_of_ne_nil hdata] at hc
      exact Base64.encode_no_space _ c (List.mem_of_mem_getLast? hc)
    · rw [last_append (by simp), List.getLast?_cons_of_ne_nil hcomment] at hc
      exact h.comment_stripped.last c hc

theorem PublicKey.Sound.cleanLine_plain (h : key.Sound) :
    '\n' ∉ cleanLine key ∧ '\r' ∉ cleanLine key := by
  obtain ⟨-, htype, -⟩ := keyTypes_plain _ h.type_mem
  have hplain : ∀ c ∈ cleanLine key, isSpace c = false ∨ 32 ≤ c.toNat := by
    intro c hc
    unfold cleanLine at hc
    rcases List.mem_append.mp hc with hc | hc
    · rcases List.mem_append.mp hc with hc | hc
      · exact .inl (htype c hc)
      · rcases List.mem_cons.mp hc with rfl | hc
        · exact .inr (by decide)
        · exact .inl (Base64.encode_no_space _ c hc)
    · split_ifs at hc with hcomment
      · cases hc
      · rcases List.mem_cons.mp hc with rfl | hc
        · exact .inr (by decide)
        · exact .inr (h.comment_plain c hc)
  constructor
  · intro hc
    rcases hplain _ hc with hspace | hle
    · exact absurd hspace (by decide)
    · exact absurd hle (by decide)
  · intro hc
    rcases hplain _ hc with hspace | hle
    · exact absurd hspace (by decide)
    · exact absurd hle (by decide)

theorem PublicKey.Sound.parse_cleanLine (h : key.Sound) : parseKey (cleanLine key) = .ok key := by
  obtain ⟨hne, htype, -⟩ := keyTypes_plain _ h.type_mem
  have hspace : isSpace ' ' = true := by decide
  have hdata := Base64.encode_ne_nil h.blob_ne_nil
  have hparts : splitMax 2 (cleanLine key) = key.type :: Base64.encode key.blob ::
      if key.comment = [] then [] else [key.comment] := by
    rw [cleanLine, List.append_assoc, splitMax_word 1 hne htype (by simp [hspace]),
      List.cons_append, splitMax_space, splitMax_word 0 hdata (Base64.encode_no_space _)]
    · split_ifs with hcomment
      · rfl
      · rw [splitMax_space, splitMax, lstrip_eq h.comment_stripped.head, if_neg hcomment]
    · split_ifs <;> simp [hspace]
  rw [parseKey, h.cleanLine_stripped.strip_eq, hparts]
  by_cases hcomment : key.comment = []
  · rw [if_pos hcomment]
    have hkey := h.parseParts_eq
    rwa [hcomment] at hkey
  · rw [if_neg hcomment]
    exact h.parseParts_eq

end Clean

/-- A key that is read from the file stands on a line that is read as this key. -/
structure Key.Sound (key : Key) : Prop where
  key_sound : key.toPublicKey.Sound
  line_stripped : Stripped key.line
  line_plain : '\n' ∉ key.line ∧ '\r' ∉ key.line
  line_key : keyOfLine key.line = some key

theorem keyOfLine_some {line : Line} {key : Key} (h : keyOfLine line = some key) :
    key.line = line ∧ key.toPublicKey.Sound := by
  unfold keyOfLine at h
  split_ifs at h
  cases hkey : parseKey line with
  | error e => simp [hkey] at h
  | ok parsed =>
    rw [hkey] at h
    cases h
    exact ⟨rfl, parseKey_sound hkey⟩

theorem keysOf_sound {content : Option Line} {key : Key} (h : key ∈ keysOf content) :
    key.Sound := by
  cases content with
  | none => cases h
  | some text =>
    obtain ⟨line, hline, hkey⟩ := List.mem_filterMap.mp h
    obtain ⟨raw, hraw, rfl⟩ := List.mem_map.mp hline
    obtain ⟨hkeyline, hsound⟩ := keyOfLine_some hkey
    obtain ⟨hnewline, hreturn⟩ := mem_fileLines hraw
    refine ⟨hsound, ?_, ?_, by rwa [hkeyline]⟩
    · rw [hkeyline]
      exact stripped_strip raw
    · rw [hkeyline]
      exact ⟨fun hc => hnewline (strip_subset hc), fun hc => hreturn (strip_subset hc)⟩

/-- The key `add_key` writes, as it will be read. -/
def cleanKey (key : PublicKey) : Key := ⟨key, cleanLine key⟩

theorem cleanKey_sound {key : PublicKey} (h : key.Sound) : (cleanKey key).Sound := by
  refine ⟨h, h.cleanLine_stripped, h.cleanLine_plain, ?_⟩
  obtain ⟨hne, -, hhash⟩ := keyTypes_plain _ h.type_mem
  have hline : ¬ (cleanLine key = [] ∨ (cleanLine key).head? = some '#') := by
    cases hcons : key.type with
    | nil => exact absurd hcons hne
    | cons c cs =>
      rw [hcons] at hhash
      simpa [cleanLine, hcons] using hhash
  simp only [keyOfLine, cleanKey, if_neg hline, h.parse_cleanLine]

/-- What is written is read back. -/
theorem keysOf_fileText {keys : List Key} (h : ∀ key ∈ keys, key.Sound) :
    keysOf (some (fileText (keys.map Key.line))) = keys := by
  have hplain : ∀ line ∈ keys.map Key.line, '\n' ∉ line ∧ '\r' ∉ line := by
    intro line hline
    obtain ⟨key, hkey, rfl⟩ := List.mem_map.mp hline
    exact (h key hkey).line_plain
  rw [keysOf, fileText, fileLines_join hplain]
  clear hplain
  induction keys with
  | nil => rfl
  | cons key keys ih =>
    have hkey := h key (.head _)
    rw [List.map_cons, List.map_cons, hkey.line_stripped.strip_eq,
      List.filterMap_cons_some hkey.line_key, ih fun key hmem => h key (.tail _ hmem)]

end Epilykos.Ssh
