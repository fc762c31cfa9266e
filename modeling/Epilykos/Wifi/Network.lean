import Epilykos.Lib.Text
import Epilykos.PlatformEnv.Record
import Mathlib.Logic.Function.Basic

/-!
The known-network files of iwd: how they are named and written, and how the files of one
network are saved and put back. A network has at most two files, and no file is of two
networks.
-/

namespace Epilykos.Wifi

open PlatformEnv (Bytes)

/-- What the Wi-Fi helpers raise. -/
inductive Exn
  | wifi (msg : String)
  /-- Any other ValueError; a UnicodeError is one too. -/
  | value
  | unicode
  | key
  | attribute
  | recursion
  deriving DecidableEq

structure WifiNetwork where
  ssid : Bytes
  passphrase : List Char
  hidden : Bool
  country : List Char
  deriving DecidableEq

def isHexDigit (c : Char) : Bool :=
  c.isDigit || ('a' ≤ c && c ≤ 'f') || ('A' ≤ c && c ≤ 'F')

/-- `$` also matches before a newline at the end. -/
def toEnd (text : List Char) : List Char :=
  if text.getLast? = some '\n' then text.dropLast else text

/-- HEX64. -/
def isHex64 (text : List Char) : Bool := (toEnd text).length == 64 && (toEnd text).all isHexDigit

/-- COUNTRY. -/
def isCountry (text : List Char) : Bool :=
  (toEnd text).length == 2 && (toEnd text).all Char.isUpper

def WifiNetwork.validate (net : WifiNetwork) : Except Exn WifiNetwork :=
  if net.ssid.length < 1 ∨ 32 < net.ssid.length then
    .error (.wifi "SSID must be 1 to 32 bytes")
  else if net.passphrase ≠ [] ∧ isHex64 net.passphrase = false ∧
      (net.passphrase.length < 8 ∨ 63 < net.passphrase.length) then
    .error (.wifi "Wi-Fi password must be 8 to 63 characters")
  else if net.passphrase ≠ [] ∧ isHex64 net.passphrase = false ∧
      net.passphrase.any (fun c => c.toNat < 32 || 126 < c.toNat) then
    .error (.wifi "Wi-Fi password must be printable ASCII")
  else if net.country ≠ [] ∧ isCountry net.country = false then
    .error (.wifi "country must be a two-letter code such as GB or NG")
  else .ok net

theorem WifiNetwork.validate_ok {net valid : WifiNetwork} (h : net.validate = .ok valid) :
    valid = net := by
  rw [validate] at h
  split_ifs at h
  exact (Except.ok.inj h).symm

/-! ### Names and contents -/

abbrev FileName := List Char

/-- `bytes.decode('ascii')` -/
def decodeAscii (data : Bytes) : Option (List Char) :=
  if data.all (· < 128) then some (data.map fun b => Char.ofNat b.toNat) else none

def hexDigit (n : ℕ) : Char := "0123456789abcdef".toList.getD n '0'

/-- `bytes.hex()` -/
def hex (data : Bytes) : List Char :=
  data.flatMap fun b => [hexDigit (b.toNat / 16), hexDigit (b.toNat % 16)]

def isPlain (c : Char) : Bool := c.isAlphanum || "-_ ".toList.contains c

/-- iwd's own rule: the plain name of letters, digits, '-', '_' or space; otherwise '=' and
the name in hex. -/
def iwdFileName (ssid : Bytes) (openNetwork : Bool) : FileName :=
  let ext := if openNetwork then ".open".toList else ".psk".toList
  match decodeAscii ssid with
  | some text => if text ≠ [] ∧ text.all isPlain then text ++ ext else '=' :: hex ssid ++ ext
  | none => '=' :: hex ssid ++ ext

/-- What ell's settings parser reads back. -/
def settingsEscape (value : List Char) : List Char :=
  let out := value.flatMap fun
    | '\\' => "\\\\".toList
    | '\t' => "\\t".toList
    | '\n' => "\\n".toList
    | '\r' => "\\r".toList
    | c => [c]
  match out with
  | ' ' :: rest => "\\s".toList ++ rest
  | out => out

def iwdFileContent (net : WifiNetwork) : List Char :=
  let security := if net.passphrase = [] then [] else
    ["[Security]".toList,
     if isHex64 net.passphrase then "PreSharedKey=".toList ++ net.passphrase.map Char.toLower
     else "Passphrase=".toList ++ settingsEscape net.passphrase, []]
  let settings := ["[Settings]".toList, "AutoConnect=true".toList] ++
    if net.hidden then ["Hidden=true".toList] else []
  List.intercalate ['\n'] (security ++ settings) ++ ['\n']

/-! ### The directory -/

/-- A file as text mode reads it: text, or bytes that are not UTF-8. -/
inductive Content
  | text (chars : List Char)
  | raw (data : Bytes)
  deriving DecidableEq

/-- iwd's state directory on DATA. -/
abbrev Dir := FileName → Option Content

def Dir.write (dir : Dir) (name : FileName) (text : List Char) : Dir :=
  Function.update dir name (some (.text text))

def Dir.unlink (dir : Dir) (name : FileName) : Dir := Function.update dir name none

/-- Write (or replace) the file of a network; a network can only be one type, so a stale file
of the other one is dropped. -/
def writeIwdNetwork (dir : Dir) (net : WifiNetwork) : Except Exn Dir := do
  let _ ← net.validate
  let dir := dir.unlink (iwdFileName net.ssid (net.passphrase ≠ []))
  return dir.write (iwdFileName net.ssid (net.passphrase = [])) (iwdFileContent net)

def removeIwdNetwork (dir : Dir) (ssid : Bytes) : Dir :=
  (dir.unlink (iwdFileName ssid false)).unlink (iwdFileName ssid true)

/-- `open(path).read()`: text mode makes every line end a newline. -/
def Content.read : Content → Except Exn (List Char)
  | .text chars => .ok (Text.universal chars)
  | .raw _ => .error .unicode

abbrev Saved := List (FileName × List Char)

/-- One file of a network, where it is there. -/
def savedFile (dir : Dir) (name : FileName) : Except Exn Saved :=
  match dir name with
  | none => .ok []
  | some content => do return [(name, ← content.read)]

/-- The files of a network as they are now. -/
def savedNetwork (dir : Dir) (ssid : Bytes) : Except Exn Saved := do
  let secured ← savedFile dir (iwdFileName ssid false)
  return secured ++ (← savedFile dir (iwdFileName ssid true))

/-- A network is put back the way savedNetwork found it. -/
def restoreNetwork (dir : Dir) (ssid : Bytes) (saved : Saved) : Dir :=
  saved.foldl (fun dir file => dir.write file.1 file.2) (removeIwdNetwork dir ssid)

/-! ### No file is of two networks -/

theorem hexDigit_injective {m n : ℕ} (hm : m < 16) (hn : n < 16) (h : hexDigit m = hexDigit n) :
    m = n := by
  have hall : ∀ i < 16, ∀ j < 16, hexDigit i = hexDigit j → i = j := by decide +kernel
  exact hall m hm n hn h

theorem hex_injective {s t : Bytes} (h : hex s = hex t) : s = t := by
  induction s generalizing t with
  | nil =>
    cases t with
    | nil => rfl
    | cons b t => cases h
  | cons a s ih =>
    cases t with
    | nil => cases h
    | cons b t =>
      simp only [hex, List.flatMap_cons, List.cons_append, List.nil_append, List.cons.injEq] at h
      have ha := a.toNat_lt
      have hb := b.toNat_lt
      have hhigh := hexDigit_injective (by omega) (by omega) h.1
      have hlow := hexDigit_injective (by omega) (by omega) h.2.1
      have hbyte : a = b := UInt8.toNat_inj.mp (by omega)
      rw [hbyte, ih h.2.2]

theorem decodeAscii_codes {s : Bytes} {text : List Char} (h : decodeAscii s = some text) :
    s.map UInt8.toNat = text.map Char.toNat := by
  rw [decodeAscii] at h
  split_ifs at h with hall
  · obtain rfl := Option.some.inj h
    rw [List.map_map]
    refine List.map_congr_left fun b hb => ?_
    have hlt : b.toNat < 128 := of_decide_eq_true (List.all_eq_true.mp hall b hb)
    have hcodes : ∀ n < 128, (Char.ofNat n).toNat = n := by decide +kernel
    exact (hcodes _ hlt).symm

theorem decodeAscii_injective {s t : Bytes} {text : List Char} (hs : decodeAscii s = some text)
    (ht : decodeAscii t = some text) : s = t :=
  List.map_injective_iff.mpr (fun _ _ => UInt8.toNat_inj.mp)
    ((decodeAscii_codes hs).trans (decodeAscii_codes ht).symm)

/-- What a name says before its dot: the plain name, or '=' and the name in hex. -/
def stem (ssid : Bytes) : List Char :=
  match decodeAscii ssid with
  | some text => if text ≠ [] ∧ text.all isPlain then text else '=' :: hex ssid
  | none => '=' :: hex ssid

/-- What it says after it. -/
def kind (openNetwork : Bool) : List Char := if openNetwork then "open".toList else "psk".toList

theorem iwdFileName_eq (ssid : Bytes) (openNetwork : Bool) :
    iwdFileName ssid openNetwork = stem ssid ++ '.' :: kind openNetwork := by
  have hext : (if openNetwork then ".open".toList else ".psk".toList) =
      '.' :: kind openNetwork := by
    cases openNetwork <;> rfl
  rw [iwdFileName, stem, hext]
  cases decodeAscii ssid with
  | none => rfl
  | some text =>
    by_cases hplain : text ≠ [] ∧ text.all isPlain = true
    · simp only [if_pos hplain]
    · simp only [if_neg hplain]

theorem hex_no_dot (data : Bytes) : '.' ∉ '=' :: hex data := by
  have hdigit : ∀ i < 16, hexDigit i ≠ '.' := by decide +kernel
  intro hmem
  rcases List.mem_cons.mp hmem with heq | hmem
  · revert heq
    decide
  · obtain ⟨b, _, hb⟩ := List.mem_flatMap.mp hmem
    have hlt := b.toNat_lt
    rcases List.mem_cons.mp hb with heq | hb
    · exact hdigit (b.toNat / 16) (by omega) heq.symm
    · rw [List.mem_singleton] at hb
      exact hdigit (b.toNat % 16) (by omega) hb.symm

theorem plain_no_dot {text : List Char} (h : text.all isPlain = true) :
    '.' ∉ text ∧ '=' ∉ text := by
  constructor <;>
  · intro hmem
    have hplain := List.all_eq_true.mp h _ hmem
    revert hplain
    decide +kernel

theorem stem_no_dot (ssid : Bytes) : '.' ∉ stem ssid := by
  rw [stem]
  split
  · split_ifs with hplain
    · exact (plain_no_dot hplain.2).1
    · exact hex_no_dot ssid
  · exact hex_no_dot ssid

/-- A plain name has no '='. -/
theorem stem_cases (ssid : Bytes) :
    (∃ text, decodeAscii ssid = some text ∧ '=' ∉ text ∧ stem ssid = text) ∨
      stem ssid = '=' :: hex ssid := by
  rw [stem]
  cases hascii : decodeAscii ssid with
  | none => exact Or.inr rfl
  | some text =>
    by_cases hplain : text ≠ [] ∧ text.all isPlain = true
    · exact Or.inl ⟨text, rfl, (plain_no_dot hplain.2).2, if_pos hplain⟩
    · exact Or.inr (if_neg hplain)

theorem stem_injective {s t : Bytes} (h : stem s = stem t) : s = t := by
  rcases stem_cases s with ⟨text, hs, hplain, hstem⟩ | hstem
  · rcases stem_cases t with ⟨text', ht, _, hstem'⟩ | hstem'
    · have htext : text = text' := hstem.symm.trans (h.trans hstem')
      exact decodeAscii_injective hs (htext ▸ ht)
    · have htext : text = '=' :: hex t := hstem.symm.trans (h.trans hstem')
      exact (hplain (htext ▸ .head _)).elim
  · rcases stem_cases t with ⟨text', ht, hplain, hstem'⟩ | hstem'
    · have htext : '=' :: hex s = text' := hstem.symm.trans (h.trans hstem')
      exact (hplain (htext ▸ .head _)).elim
    · have hhex : '=' :: hex s = '=' :: hex t := hstem.symm.trans (h.trans hstem')
      exact hex_injective (List.cons.inj hhex).2

theorem iwdFileName_injective {s t : Bytes} {o o' : Bool}
    (h : iwdFileName s o = iwdFileName t o') : s = t ∧ o = o' := by
  rw [iwdFileName_eq, iwdFileName_eq] at h
  have hbefore : ∀ ssid rest, (stem ssid ++ '.' :: rest).takeWhile (· ≠ '.') = stem ssid := by
    intro ssid rest
    have hkept : ∀ c ∈ stem ssid, decide (c ≠ '.') = true := fun c hc =>
      decide_eq_true fun heq => stem_no_dot ssid (heq ▸ hc)
    rw [List.takeWhile_append_of_pos hkept]
    simp
  have hstem : stem s = stem t := by
    rw [← hbefore s (kind o), h, hbefore]
  refine ⟨stem_injective hstem, ?_⟩
  rw [hstem, List.append_cancel_left_eq, List.cons.injEq] at h
  revert h
  cases o <;> cases o' <;> decide

/-! ### What is saved is put back -/

/-- The file is of the network. -/
def IsOf (ssid : Bytes) (name : FileName) : Prop := ∃ o, name = iwdFileName ssid o

theorem IsOf.same {s t : Bytes} {name : FileName} (hs : IsOf s name) (ht : IsOf t name) : s = t := by
  obtain ⟨o, rfl⟩ := hs
  obtain ⟨o', hname⟩ := ht
  exact (iwdFileName_injective hname).1

/-- A file that reads back as it is: text without a carriage return, or no text at all. -/
def ReadsBack (dir : Dir) (ssid : Bytes) : Prop :=
  ∀ o text, dir (iwdFileName ssid o) = some (.text text) → '\r' ∉ text

theorem savedFile_back {dir : Dir} {name : FileName} {saved : Saved}
    (hplain : ∀ text, dir name = some (.text text) → '\r' ∉ text)
    (h : savedFile dir name = .ok saved) :
    dir name = none ∧ saved = [] ∨
      ∃ text, dir name = some (.text text) ∧ saved = [(name, text)] := by
  rw [savedFile] at h
  cases hfile : dir name with
  | none =>
    rw [hfile] at h
    cases h
    exact Or.inl ⟨rfl, rfl⟩
  | some content =>
    rw [hfile] at h
    cases content with
    | raw data => cases h
    | text text =>
      have htext : Content.read (.text text) = .ok text := by
        rw [Content.read, Text.universal_eq (hplain text hfile)]
      change (do return [(name, ← Content.read (.text text))]) = Except.ok saved at h
      rw [htext] at h
      cases h
      exact Or.inr ⟨text, rfl, rfl⟩

theorem savedNetwork_parts {dir : Dir} {ssid : Bytes} {saved : Saved}
    (h : savedNetwork dir ssid = .ok saved) :
    ∃ secured opened, savedFile dir (iwdFileName ssid false) = .ok secured ∧
      savedFile dir (iwdFileName ssid true) = .ok opened ∧ saved = secured ++ opened := by
  rw [savedNetwork] at h
  cases hsecured : savedFile dir (iwdFileName ssid false) with
  | error e =>
    rw [hsecured] at h
    cases h
  | ok secured =>
    cases hopened : savedFile dir (iwdFileName ssid true) with
    | error e =>
      rw [hsecured, hopened] at h
      cases h
    | ok opened =>
      rw [hsecured, hopened] at h
      cases h
      exact ⟨secured, opened, rfl, rfl, rfl⟩

/-- One file is put back where none is. -/
theorem restore_file {dir dir' : Dir} {name : FileName} {saved : Saved}
    (hplain : ∀ text, dir name = some (.text text) → '\r' ∉ text)
    (h : savedFile dir name = .ok saved) (hgone : dir' name = none) :
    saved.foldl (fun d file => d.write file.1 file.2) dir' =
      Function.update dir' name (dir name) := by
  rcases savedFile_back hplain h with ⟨hnone, rfl⟩ | ⟨text, htext, rfl⟩
  · rw [hnone, ← hgone, Function.update_eq_self]
    rfl
  · rw [htext]
    rfl

/-- Whatever was written meanwhile to the files of the network. -/
theorem restore_saved {dir dir' : Dir} {ssid : Bytes} {saved : Saved}
    (hplain : ReadsBack dir ssid) (h : savedNetwork dir ssid = .ok saved)
    (hother : ∀ name, ¬ IsOf ssid name → dir' name = dir name) :
    restoreNetwork dir' ssid saved = dir := by
  obtain ⟨secured, opened, hsecured, hopened, rfl⟩ := savedNetwork_parts h
  have hne : iwdFileName ssid true ≠ iwdFileName ssid false := fun heq =>
    absurd (iwdFileName_injective heq).2 (by decide)
  have hgone : removeIwdNetwork dir' ssid (iwdFileName ssid false) = none := by
    simp [removeIwdNetwork, Dir.unlink, hne.symm]
  have hgone' : Function.update (removeIwdNetwork dir' ssid) (iwdFileName ssid false)
      (dir (iwdFileName ssid false)) (iwdFileName ssid true) = none := by
    simp [removeIwdNetwork, Dir.unlink, hne]
  rw [restoreNetwork, List.foldl_append, restore_file (hplain false) hsecured hgone,
    restore_file (hplain true) hopened hgone']
  funext name
  by_cases hopen : name = iwdFileName ssid true
  · rw [hopen, Function.update_self]
  · rw [Function.update_of_ne hopen]
    by_cases hsecure : name = iwdFileName ssid false
    · rw [hsecure, Function.update_self]
    · rw [Function.update_of_ne hsecure, removeIwdNetwork, Dir.unlink, Dir.unlink,
        Function.update_of_ne hopen, Function.update_of_ne hsecure]
      refine hother name ?_
      rintro ⟨o, ho⟩
      cases o with
      | false => exact hsecure ho
      | true => exact hopen ho

theorem savedFile_names {dir : Dir} {name : FileName} {saved : Saved}
    (h : savedFile dir name = .ok saved) : ∀ file ∈ saved, file.1 = name := by
  rw [savedFile] at h
  cases hfile : dir name with
  | none =>
    rw [hfile] at h
    cases h
    intro file hmem
    cases hmem
  | some content =>
    rw [hfile] at h
    change (content.read >>= fun text => pure [(name, text)]) = Except.ok saved at h
    cases htext : content.read with
    | error e =>
      rw [htext] at h
      cases h
    | ok text =>
      rw [htext] at h
      cases h
      intro file hmem
      rw [List.mem_singleton.mp hmem]

theorem savedNetwork_names {dir : Dir} {ssid : Bytes} {saved : Saved}
    (h : savedNetwork dir ssid = .ok saved) : ∀ file ∈ saved, IsOf ssid file.1 := by
  obtain ⟨secured, opened, hsecured, hopened, rfl⟩ := savedNetwork_parts h
  intro file hmem
  rcases List.mem_append.mp hmem with hmem | hmem
  · exact ⟨false, savedFile_names hsecured file hmem⟩
  · exact ⟨true, savedFile_names hopened file hmem⟩

/-- The files of other networks stay. -/
theorem restore_other {dir : Dir} {ssid : Bytes} {saved : Saved} {name : FileName}
    (hsaved : ∀ file ∈ saved, IsOf ssid file.1) (hname : ¬ IsOf ssid name) :
    restoreNetwork dir ssid saved name = dir name := by
  have hwritten : ∀ d : Dir, (saved.foldl (fun d file => d.write file.1 file.2) d) name = d name := by
    intro d
    induction saved generalizing d with
    | nil => rfl
    | cons file saved ih =>
      have hne : name ≠ file.1 := fun heq => hname (heq ▸ hsaved file (.head _))
      rw [List.foldl_cons, ih fun file hfile => hsaved file (.tail _ hfile), Dir.write,
        Function.update_of_ne hne]
  rw [restoreNetwork, hwritten, removeIwdNetwork, Dir.unlink, Dir.unlink,
    Function.update_of_ne fun heq => hname ⟨_, heq⟩, Function.update_of_ne fun heq => hname ⟨_, heq⟩]

theorem write_other {dir dir' : Dir} {net : WifiNetwork} {name : FileName}
    (h : writeIwdNetwork dir net = .ok dir') (hname : ¬ IsOf net.ssid name) :
    dir' name = dir name := by
  rw [writeIwdNetwork] at h
  cases hvalid : net.validate with
  | error e =>
    rw [hvalid] at h
    cases h
  | ok _ =>
    rw [hvalid] at h
    cases h
    rw [Dir.write, Function.update_of_ne fun heq => hname ⟨_, heq⟩, Dir.unlink,
      Function.update_of_ne fun heq => hname ⟨_, heq⟩]

theorem write_valid {dir : Dir} {net : WifiNetwork} (h : net.validate = .ok net) :
    ∃ dir', writeIwdNetwork dir net = .ok dir' := by
  rw [writeIwdNetwork, h]
  exact ⟨_, rfl⟩

end Epilykos.Wifi
