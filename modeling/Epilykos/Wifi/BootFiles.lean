import Epilykos.Lib.Regex
import Epilykos.Wifi.YamlScalar

/-!
The files with Wi-Fi settings that a computer leaves on BOOT. Each of them is read by its own
parser, which finds a network, finds none or raises. The parsers go by regular expressions and
by lines; what they take from Python's library beyond that is a parameter.
-/

namespace Epilykos.Wifi

open PlatformEnv (Bytes)
open Regex (Pattern Spot)

/-! ### Text -/

/-- The code points of a text that is written out. -/
abbrev lit (text : String) : Codes := codes text.toList

/-- A lone surrogate becomes a character that no setting may have. -/
def chars (text : Codes) : List Char := text.map Char.ofNat

def lstripCodes (text : Codes) : Codes := text.dropWhile isSpaceCode

def isBreakCode (n : ℕ) : Bool :=
  (10 ≤ n && n ≤ 13) || (28 ≤ n && n ≤ 30) || n == 0x85 || n == 0x2028 || n == 0x2029

/-- `str.splitlines()`, with the line read so far. -/
def linesFrom (line : Codes) : Codes → List Codes
  | [] => if line = [] then [] else [line]
  | 13 :: 10 :: rest => line :: linesFrom [] rest
  | c :: rest =>
    if isBreakCode c then line :: linesFrom [] rest else linesFrom (line ++ [c]) rest

def splitLines (text : Codes) : List Codes := linesFrom [] text

/-- `str.split(sep, 1)`; `none` where there is no separator. -/
def splitOnce (sep : ℕ) (text : Codes) : Option (Codes × Codes) :=
  if sep ∈ text then some (text.takeWhile (· != sep), (text.dropWhile (· != sep)).tail) else none

/-- The character the bytes begin with, and how many of them it is. -/
def leadingChar (data : Bytes) : Option (ℕ × ℕ) :=
  [1, 2, 3, 4].findSome? fun n =>
    match decodeUtf8 (data.take n) with
    | some [c] => some (c.toNat, n)
    | _ => none

/-- `bytes.decode('utf-8', 'surrogateescape')`, behind the bytes of a character that is read:
a byte of no character is a lone surrogate. -/
def decodeEscape (skip : ℕ) : Bytes → Codes
  | [] => []
  | b :: rest =>
    if skip = 0 then
      match leadingChar (b :: rest) with
      | some (c, n) => c :: decodeEscape (n - 1) rest
      | none => (0xdc00 + b.toNat) :: decodeEscape 0 rest
    else decodeEscape (skip - 1) rest

def hexValue (c : ℕ) : Option ℕ :=
  if 48 ≤ c ∧ c ≤ 57 then some (c - 48)
  else if 97 ≤ c ∧ c ≤ 102 then some (c - 87)
  else if 65 ≤ c ∧ c ≤ 70 then some (c - 55)
  else none

/-- `bytes.fromhex(text)`: white space of ASCII may stand between two bytes. -/
def fromHex : Codes → Option Bytes
  | [] => some []
  | c :: rest =>
    if c = 32 ∨ 9 ≤ c ∧ c ≤ 13 then fromHex rest
    else match rest with
      | [] => none
      | d :: rest => do
        return UInt8.ofNat ((← hexValue c) * 16 + (← hexValue d)) :: (← fromHex rest)

/-! ### What comes from the library -/

/-- A value of a TOML file: a string, a table, or another one by what `str` and `bool` say. -/
inductive Toml
  | text (s : Codes)
  | table (shown : Codes) (entries : List (Codes × Toml))
  | other (shown : Codes) (truth : Bool)

abbrev Table := List (Codes × Toml)

def Toml.str : Toml → Codes
  | text s => s
  | table shown _ => shown
  | other shown _ => shown

def Toml.truthy : Toml → Bool
  | text s => s ≠ []
  | table _ entries => entries ≠ []
  | other _ truth => truth

def Toml.isTable : Toml → Bool
  | table _ _ => true
  | _ => false

/-- A `TOMLDecodeError`, or any other exception. -/
inductive TomlError
  | decode
  | other (e : Exn)

/-- The case tables of Unicode, UTF-16 with replacement and `tomllib`. -/
structure Python where
  lower : Codes → Codes
  upper : Codes → Codes
  decodeUtf16 : Bytes → Codes
  loads : Codes → Except TomlError Table

/-- The text of a file that someone saved on BOOT from their computer. -/
def decodeBootFile (py : Python) (data : Bytes) : Codes :=
  if [0xff, 0xfe] <+: data ∨ [0xfe, 0xff] <+: data then py.decodeUtf16 data
  else
    let data := if [0xef, 0xbb, 0xbf] <+: data then data.drop 3 else data
    decodeEscape 0 (data.reverse.dropWhile (· == 0)).reverse

/-- An empty file, or one of zero bytes and white space. -/
def isBlank (data : Bytes) : Bool := data.all fun b => [0, 32, 9, 13, 10].contains b

def unquote (value : Codes) : Codes :=
  let value := stripCodes value
  if isQuoted 34 value ∨ isQuoted 39 value then value.tail.dropLast else value

def truthy (py : Python) (value : Codes) : Bool :=
  [lit "1", lit "true", lit "yes", lit "on"].contains (py.lower (stripCodes value))

/-- The settings that a file names, which have to be valid. -/
def settings (ssid : Bytes) (passphrase : List Char) (hidden : Bool) (country : List Char) :
    Except Exn WifiNetwork :=
  WifiNetwork.validate { ssid, passphrase, hidden, country }

/-! ### wifi.txt -/

/-- One line of the file; the values so far come newest first. -/
def readValue (py : Python) (values : List (Codes × Codes)) (raw : Codes) : List (Codes × Codes) :=
  let line := (stripCodes raw).dropWhile (· == 0xfeff)
  if line = [] ∨ line.head? = some 35 then values
  else match splitOnce 61 line with
    | none => values
    | some (key, value) => (py.lower (stripCodes key), unquote value) :: values

/-- EpilykosOS's own format: key=value lines. -/
def parseWifiTxt (py : Python) (text : Codes) : Except Exn WifiNetwork :=
  let values := (splitLines text).foldl (readValue py) []
  let get (key : String) (default : Codes) := (values.lookup (lit key)).getD default
  match values.lookup (lit "ssid") with
  | none => .error (.wifi "wifi.txt has no ssid= line")
  | some ssid =>
    if ssid = [] then .error (.wifi "ssid= is empty in wifi.txt")
    else do
      let password := get "password" (get "psk" (get "passphrase" []))
      settings (← encodeUtf8 ssid) (chars password) (truthy py (get "hidden" []))
        (chars (py.upper (get "country" [])))

/-! ### Patterns -/

def isLetter (c : ℕ) : Bool := (65 ≤ c && c ≤ 90) || (97 ≤ c && c ≤ 122)

def isWord (c : ℕ) : Bool := isLetter c || (48 ≤ c && c ≤ 57) || c == 95

/-- `\s*` -/
def spaces : Pattern ℕ := .many (.letter isSpaceCode)

/-- `^` -/
def atStart : Pattern ℕ := .here fun before _ => before = []

/-- `$`: also before a newline at the end. -/
def atEnd : Pattern ℕ := .here fun _ after => after = [] ∨ after = [10]

/-- `^` with re.M -/
def atLineStart : Pattern ℕ := .here fun before _ => before.head?.all (· == 10)

/-- `$` with re.M -/
def atLineEnd : Pattern ℕ := .here fun _ after => after.head?.all (· == 10)

def word (text : String) : Pattern ℕ := .lit (lit text)

/-- `.`, where re.S is not set. -/
def dot : Pattern ℕ := .letter (· != 10)

/-- `.*?` with re.S -/
def anything : Pattern ℕ := .star true (.letter fun _ => true)

/-- `^\s*country=([A-Za-z]{2})\s*$` with re.M -/
def countryLine : Pattern ℕ :=
  .seqs [atLineStart, spaces, word "country=",
    .group 1 (.seq (.letter isLetter) (.letter isLetter)), spaces, atLineEnd]

/-- `network\s*=\s*\{(.*?)^\s*\}` with re.S and re.M -/
def networkBlock : Pattern ℕ :=
  .seqs [word "network", spaces, word "=", spaces, word "\x7b", .group 1 anything, atLineStart,
    spaces, word "\x7d"]

/-- `cat\s*>\s*/etc/wpa_supplicant/wpa_supplicant\.conf\s*<<\s*'?([A-Za-z0-9_]+)'?\s*\n(.*?)\n\1\s*$`
with re.S and re.M -/
def hereDocument : Pattern ℕ :=
  .seqs [word "cat", spaces, word ">", spaces, word "/etc/wpa_supplicant/wpa_supplicant.conf",
    spaces, word "<<", spaces, .option (word "'"), .group 1 (.some (.letter isWord)),
    .option (word "'"), spaces, word "\n", .group 2 anything, word "\n", .again 1, spaces,
    atLineEnd]

/-- `^\s*regulatory-domain:\s*(.+)$` with re.M -/
def regulatoryDomain : Pattern ℕ :=
  .seqs [atLineStart, spaces, word "regulatory-domain:", spaces, .group 1 (.some dot), atLineEnd]

/-- `^\s*access-points:\s*$` -/
def accessPoints : Pattern ℕ := .seqs [atStart, spaces, word "access-points:", spaces, atEnd]

/-- `"(?:[^"\\]|\\.)*"` -/
def doubleQuoted : Pattern ℕ :=
  .seqs [word "\"", .many (.alt (.letter fun c => c != 34 && c != 92) (.seq (word "\\") dot)),
    word "\""]

/-- `'(?:[^']|'')*'` -/
def singleQuoted : Pattern ℕ :=
  .seqs [word "'", .many (.alt (.letter (· != 39)) (word "''")), word "'"]

/-- `^("(?:[^"\\]|\\.)*"|'(?:[^']|'')*'|[^:#]+):\s*$` -/
def pointName : Pattern ℕ :=
  .seqs [atStart, .group 1 (.alt doubleQuoted (.alt singleQuoted
    (.some (.letter fun c => c != 58 && c != 35)))), word ":", spaces, atEnd]

/-- `^hidden:\s*true\s*$` -/
def hiddenLine : Pattern ℕ :=
  .seqs [atStart, word "hidden:", spaces, word "true", spaces, atEnd]

/-- What a group holds, for a method of it; None has no methods. -/
def groupOf (found : Spot ℕ) (i : ℕ) : Except Exn Codes :=
  match found.group i with
  | some held => .ok held
  | none => .error .attribute

/-! ### wpa_supplicant.conf and firstrun.sh -/

/-- What is read of the network block so far. -/
structure Block where
  ssid : Option Bytes
  passphrase : Codes
  hidden : Bool
  openNetwork : Bool

/-- What stands between a quote at the beginning and the last one of the line. -/
def quotedPart (v : Codes) : Option Codes :=
  match v with
  | 34 :: rest =>
    if 34 ∈ rest then some (rest.reverse.dropWhile (· != 34)).tail.reverse else none
  | _ => none

/-- The name of a network: quoted, or in hex. -/
def readSsid (v : Codes) : Except Exn Bytes :=
  match quotedPart v with
  | some name => encodeUtf8 name
  | none =>
    match fromHex (if lit "hex:" <+: v then v.drop 4 else v) with
    | some ssid => .ok ssid
    | none => .error (.wifi "unreadable ssid in network block")

def readBlockLine (block : Block) (raw : Codes) : Except Exn Block :=
  let line := stripCodes raw
  let joined := line.filter (· != 32)
  if lit "ssid=" <+: line then do return { block with ssid := some (← readSsid (line.drop 5)) }
  else if lit "psk=" <+: line then
    .ok { block with passphrase := (quotedPart (line.drop 4)).getD (line.drop 4) }
  else if joined = lit "key_mgmt=NONE" then .ok { block with openNetwork := true }
  else if joined = lit "scan_ssid=1" then .ok { block with hidden := true }
  else .ok block

/-- The country of the file, where a line names one. -/
def wpaCountry (text : Codes) : Except Exn (List Char) :=
  match countryLine.search text with
  | none => .ok []
  | some found => do return (chars (← groupOf found 1)).map Char.toUpper

/-- A wpa_supplicant.conf with a network block. -/
def parseWpaSupplicant (text : Codes) : Except Exn WifiNetwork := do
  let country ← wpaCountry text
  match networkBlock.search text with
  | none => throw (.wifi "no network=\x7b\x7d block")
  | some found =>
    let block ← (splitLines (← groupOf found 1)).foldlM readBlockLine ⟨none, [], false, false⟩
    match block.ssid.getD [] with
    | [] => throw (.wifi "network block has no ssid")
    | ssid =>
      settings ssid (if block.openNetwork then [] else chars block.passphrase) block.hidden country

/-- Raspberry Pi Imager's script: the settings are in its wpa_supplicant.conf. -/
def parseFirstrun (text : Codes) : Except Exn (Option WifiNetwork) :=
  match hereDocument.search text with
  | none => .ok none
  | some found => do return some (← parseWpaSupplicant (← groupOf found 2))

/-! ### network-config -/

/-- The first access point, as far as it is read; the indent is the one of its name. -/
structure Point where
  ssid : Option Bytes
  indent : ℕ
  passphrase : List Char
  hidden : Bool

def indentOf (line : Codes) : ℕ := line.length - (lstripCodes line).length

def readPassword (value : Codes) : Except Exn (List Char) := do
  match decodeUtf8 (← yamlScalar value) with
  | some text => return text
  | none => throw .unicode

/-- A line that is blank or a comment. -/
def isSkipped (line : Codes) : Bool := stripCodes line = [] ∨ (lstripCodes line).head? = some 35

/-- The name of the access point. -/
def readName (point : Point) (line : Codes) : Except Exn Point :=
  match pointName.match? (stripCodes line) with
  | none => .error (.wifi "unreadable access point in network-config")
  | some found => do
    return { point with ssid := some (← yamlScalar (← groupOf found 1)), indent := indentOf line }

/-- A line under its name. -/
def readSetting (point : Point) (body : Codes) : Except Exn Point :=
  if lit "password:" <+: body then do
    return { point with passphrase := ← readPassword (body.drop 9) }
  else if (hiddenLine.match? body).isSome then .ok { point with hidden := true }
  else .ok point

/-- The lines under `access-points:`, which stands at `base`; a second access point is left. -/
def readPoint (base : ℕ) (point : Point) : List Codes → Except Exn Point
  | [] => .ok point
  | line :: rest =>
    if isSkipped line then readPoint base point rest
    else if indentOf line ≤ base then .ok point
    else match point.ssid with
      | none => do readPoint base (← readName point line) rest
      | some _ =>
        if indentOf line ≤ point.indent then .ok point
        else do readPoint base (← readSetting point (stripCodes line)) rest

/-- The first `access-points:` that has a point with a name. -/
def readPoints (country : List Char) : List Codes → Except Exn (Option WifiNetwork)
  | [] => .ok none
  | line :: rest =>
    if (accessPoints.match? line).isNone then readPoints country rest
    else do
      let point ← readPoint (indentOf line) ⟨none, 0, [], false⟩ rest
      match point.ssid.getD [] with
      | [] => readPoints country rest
      | ssid => return some (← settings ssid point.passphrase point.hidden country)

/-- `bytes.decode('ascii', 'replace')` -/
def decodeAsciiReplace (data : Bytes) : List Char :=
  data.map fun b => if b < 128 then Char.ofNat b.toNat else Char.ofNat 0xfffd

def regulatoryCountry (text : Codes) : Except Exn (List Char) :=
  match regulatoryDomain.search text with
  | none => .ok []
  | some found => do
    return (decodeAsciiReplace (← yamlScalar (← groupOf found 1))).map Char.toUpper

/-- cloud-init's network-config as Raspberry Pi Imager writes it. -/
def parseNetworkConfig (text : Codes) : Except Exn (Option WifiNetwork) := do
  readPoints (← regulatoryCountry text) (splitLines text)

/-! ### rpi-preseed.toml -/

/-- `table.get(key, default)` -/
def Table.get (table : Table) (key : String) (default : Toml) : Toml :=
  (table.lookup (lit key)).getD default

def readSsidHex (value : Toml) : Except Exn Bytes :=
  match fromHex value.str with
  | some ssid => .ok ssid
  | none => .error (.wifi "unreadable ssid_hex in rpi-preseed.toml")

def parseWlan (py : Python) (wlan : Table) : Except Exn WifiNetwork := do
  let hex := wlan.get "ssid_hex" (.text [])
  let ssid ← if hex.truthy then readSsidHex hex
    else encodeUtf8 (wlan.get "ssid" (.text [])).str
  settings ssid (chars (wlan.get "password" (.text [])).str)
    (wlan.get "hidden" (.other [] false)).truthy
    (chars (py.upper (wlan.get "country" (.text [])).str))

/-- Raspberry Pi Imager's newest format. What is no table has no `get`. -/
def parsePreseedToml (py : Python) (text : Codes) : Except Exn (Option WifiNetwork) :=
  match py.loads text with
  | .error .decode => .error (.wifi "rpi-preseed.toml is not valid TOML")
  | .error (.other e) => .error e
  | .ok data =>
    match data.lookup (lit "wlan") with
    | none => .ok none
    | some wlan =>
      if wlan.truthy = false then .ok none
      else match wlan with
        | .table _ entries => do return some (← parseWlan py entries)
        | _ => .error .attribute

end Epilykos.Wifi
