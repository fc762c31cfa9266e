import Epilykos.Wifi.Network

/-!
What iwd finds in a known-network file. The reader knows the rules the writer names: group
lines, key=value lines, and values in which \\, \s, \t, \n and \r stand for one character.
HEX64 lets a newline follow the digits of a key, which ends its line in the file.
-/

namespace Epilykos.Wifi

open PlatformEnv (Bytes)

/-! ### Reading settings -/

/-- The character a backslash and this one stand for. -/
def unescaped : Char → Option Char
  | '\\' => some '\\'
  | 's' => some ' '
  | 't' => some '\t'
  | 'n' => some '\n'
  | 'r' => some '\r'
  | _ => none

def settingsUnescape : List Char → Option (List Char)
  | [] => some []
  | [c] => if c = '\\' then none else some [c]
  | c :: d :: rest =>
    if c = '\\' then do return (← unescaped d) :: (← settingsUnescape rest)
    else (settingsUnescape (d :: rest)).map (c :: ·)

/-- A group's name and its keys with their values, in the order of the lines. -/
abbrev Group := List Char × List (List Char × List Char)

def isBlankChar (c : Char) : Bool := c = ' ' || c = '\t'

/-- A line is blank, begins a group or is a key of the last one. Blanks before a value are no
part of it. -/
def readLine (groups : List Group) (line : List Char) : Option (List Group) :=
  match line with
  | [] => some groups
  | '[' :: rest =>
    if rest.getLast? = some ']' then some (groups ++ [(rest.dropLast, [])]) else none
  | line => do
    let (key, value) ← Text.partition '=' line
    let value ← settingsUnescape (value.dropWhile isBlankChar)
    let (name, keys) ← groups.getLast?
    return groups.dropLast ++ [(name, keys ++ [(key, value)])]

def readSettings (text : List Char) : Option (List Group) :=
  (Text.linesFrom [] text).foldlM readLine []

/-- The passphrase or the key. -/
def securityGroups (passphrase : List Char) : List Group :=
  if passphrase = [] then [] else
    [("Security".toList,
      [if isHex64 passphrase then ("PreSharedKey".toList, passphrase.map Char.toLower)
       else ("Passphrase".toList, passphrase)])]

/-- The settings of a network: its secret, and whether it is hidden. -/
def WifiNetwork.settings (net : WifiNetwork) : List Group :=
  securityGroups net.passphrase ++
    [("Settings".toList, ("AutoConnect".toList, "true".toList) ::
      if net.hidden then [("Hidden".toList, "true".toList)] else [])]

/-! ### Values -/

def escapeChar : Char → List Char
  | '\\' => "\\\\".toList
  | '\t' => "\\t".toList
  | '\n' => "\\n".toList
  | '\r' => "\\r".toList
  | c => [c]

theorem unescape_plain {c : Char} (h : c ≠ '\\') (rest : List Char) :
    settingsUnescape (c :: rest) = (settingsUnescape rest).map (c :: ·) := by
  cases rest with
  | nil => simp [settingsUnescape, h]
  | cons d rest => rw [settingsUnescape, if_neg h]

theorem unescape_escapeChar (c : Char) (rest : List Char) :
    settingsUnescape (escapeChar c ++ rest) = (settingsUnescape rest).map (c :: ·) := by
  unfold escapeChar
  split
  · cases h : settingsUnescape rest <;> simp [settingsUnescape, unescaped, h]
  · cases h : settingsUnescape rest <;> simp [settingsUnescape, unescaped, h]
  · cases h : settingsUnescape rest <;> simp [settingsUnescape, unescaped, h]
  · cases h : settingsUnescape rest <;> simp [settingsUnescape, unescaped, h]
  · rename_i hbackslash _ _ _
    exact unescape_plain hbackslash rest

theorem unescape_escapeSpace (rest : List Char) :
    settingsUnescape ('\\' :: 's' :: rest) = (settingsUnescape rest).map (' ' :: ·) := by
  cases h : settingsUnescape rest <;> simp [settingsUnescape, unescaped, h]

theorem unescape_flatMap (value : List Char) :
    settingsUnescape (value.flatMap escapeChar) = some value := by
  induction value with
  | nil => rfl
  | cons c value ih => rw [List.flatMap_cons, unescape_escapeChar, ih, Option.map_some]

theorem settingsEscape_eq (value : List Char) :
    settingsEscape value = match value.flatMap escapeChar with
      | ' ' :: rest => "\\s".toList ++ rest
      | out => out := rfl

theorem escapeChar_head (c : Char) :
    (∃ d, escapeChar c = ['\\', d]) ∨ escapeChar c = [c] ∧ c ≠ '\t' := by
  unfold escapeChar
  split
  · exact Or.inl ⟨_, rfl⟩
  · exact Or.inl ⟨_, rfl⟩
  · exact Or.inl ⟨_, rfl⟩
  · exact Or.inl ⟨_, rfl⟩
  · rename_i htab _ _
    exact Or.inr ⟨rfl, htab⟩

/-- A value is read back, leading spaces and all. -/
theorem unescape_settingsEscape (value : List Char) :
    settingsUnescape ((settingsEscape value).dropWhile isBlankChar) = some value := by
  have hback := unescape_flatMap value
  have hbackslash : isBlankChar '\\' = false := by decide
  rw [settingsEscape_eq]
  split
  · rename_i rest hout
    rw [hout, unescape_plain (by decide)] at hback
    change settingsUnescape (List.dropWhile isBlankChar ('\\' :: 's' :: rest)) = some value
    rw [List.dropWhile_cons_of_neg (by simp [hbackslash])]
    exact (unescape_escapeSpace rest).trans hback
  · rename_i hspace
    have hkept : (value.flatMap escapeChar).dropWhile isBlankChar = value.flatMap escapeChar := by
      cases value with
      | nil => rfl
      | cons c value =>
        rw [List.flatMap_cons] at hspace ⊢
        rcases escapeChar_head c with ⟨d, hc⟩ | ⟨hc, htab⟩
        · rw [hc, List.cons_append, List.dropWhile_cons_of_neg (by simp [hbackslash])]
        · rw [hc, List.singleton_append] at hspace ⊢
          have hne : c ≠ ' ' := fun heq => hspace _ (by rw [heq])
          rw [List.dropWhile_cons_of_neg (by simp [isBlankChar, hne, htab])]
    rw [hkept, hback]

theorem mem_settingsEscape {value : List Char} {c : Char} (h : c ∈ settingsEscape value) :
    c ≠ '\n' := by
  have hchar : ∀ d, '\n' ∉ escapeChar d := by
    intro d
    unfold escapeChar
    split
    · decide
    · decide
    · decide
    · decide
    · rename_i hnewline _
      exact fun hmem => hnewline (List.mem_singleton.mp hmem).symm
  have hout : '\n' ∉ value.flatMap escapeChar := fun hmem => by
    obtain ⟨d, _, hd⟩ := List.mem_flatMap.mp hmem
    exact hchar d hd
  rintro rfl
  rw [settingsEscape_eq] at h
  split at h
  · rename_i rest heq
    rw [heq] at hout
    rcases List.mem_append.mp h with hmem | hmem
    · revert hmem
      decide
    · exact hout (.tail _ hmem)
  · exact hout h

/-! ### Lines -/

theorem readLine_key {groups : List Group} {name key raw value : List Char}
    {keys : List (List Char × List Char)} (hne : key ≠ [])
    (hplain : (key.all fun c => c != '[' && c != '=') = true)
    (hvalue : settingsUnescape (raw.dropWhile isBlankChar) = some value) :
    readLine (groups ++ [(name, keys)]) (key ++ '=' :: raw) =
      some (groups ++ [(name, keys ++ [(key, value)])]) := by
  have hkey : ∀ c ∈ key, c ≠ '[' ∧ c ≠ '=' := by simpa using hplain
  clear hplain
  have hpartition : Text.partition '=' (key ++ '=' :: raw) = some (key, raw) := by
    clear hne
    induction key with
    | nil => rfl
    | cons c key ih =>
      rw [List.cons_append, Text.partition, if_neg (hkey c (.head _)).2,
        ih fun d hd => hkey d (.tail _ hd)]
      rfl
  obtain ⟨c, key, rfl⟩ := List.exists_cons_of_ne_nil hne
  rw [readLine]
  · rw [hpartition]
    simp [hvalue]
  · rw [List.cons_append]
    exact List.cons_ne_nil _ _
  · rw [List.cons_append]
    exact fun rest heq => (hkey c (.head _)).1 (List.cons.inj heq).1

theorem readLine_blank (groups : List Group) : readLine groups [] = some groups := rfl

theorem readLine_security (groups : List Group) :
    readLine groups "[Security]".toList = some (groups ++ [("Security".toList, [])]) := by
  simp [readLine]

theorem readLine_settings (groups : List Group) :
    readLine groups "[Settings]".toList = some (groups ++ [("Settings".toList, [])]) := by
  simp [readLine]

theorem readLines_pair {groups middle last : List Group} {l l' : List Char}
    (h : readLine groups l = some middle) (h' : readLine middle l' = some last) :
    [l, l'].foldlM readLine groups = some last := by
  simp [h, h']

/-- The lines with the key or the passphrase. -/
def securityLines (passphrase : List Char) : List (List Char) :=
  if passphrase = [] then [] else
    ["[Security]".toList,
     if isHex64 passphrase then "PreSharedKey=".toList ++ passphrase.map Char.toLower
     else "Passphrase=".toList ++ settingsEscape passphrase]

def settingsLines (hidden : Bool) : List (List Char) :=
  ["[Settings]".toList, "AutoConnect=true".toList] ++
    if hidden then ["Hidden=true".toList] else []

theorem read_settingsLines (groups : List Group) (hidden : Bool) :
    (settingsLines hidden).foldlM readLine groups =
      some (groups ++ [("Settings".toList, ("AutoConnect".toList, "true".toList) ::
        if hidden then [("Hidden".toList, "true".toList)] else [])]) := by
  have hauto : readLine (groups ++ [("Settings".toList, [])]) "AutoConnect=true".toList = some
      (groups ++ [("Settings".toList, [("AutoConnect".toList, "true".toList)])]) :=
    @readLine_key groups "Settings".toList "AutoConnect".toList "true".toList "true".toList []
      (by decide) rfl (by decide +kernel)
  have hhidden : readLine (groups ++ [("Settings".toList, [("AutoConnect".toList,
      "true".toList)])]) "Hidden=true".toList = some (groups ++ [("Settings".toList,
        [("AutoConnect".toList, "true".toList), ("Hidden".toList, "true".toList)])]) :=
    @readLine_key groups "Settings".toList "Hidden".toList "true".toList "true".toList
      [("AutoConnect".toList, "true".toList)] (by decide) rfl (by decide +kernel)
  cases hidden with
  | false =>
    simp only [settingsLines, List.foldlM_append, List.foldlM_cons, readLine_settings, hauto,
      Bool.false_eq_true, if_false, List.foldlM_nil, Option.bind_eq_bind, Option.bind_some,
      Option.pure_def]
  | true =>
    simp only [settingsLines, List.foldlM_append, List.foldlM_cons, readLine_settings, hauto,
      hhidden, if_true, List.foldlM_nil, Option.bind_eq_bind, Option.bind_some, Option.pure_def]

theorem read_blankLines (groups : List Group) {blank : List (List Char)}
    (h : ∀ l ∈ blank, l = []) : blank.foldlM readLine groups = some groups := by
  induction blank with
  | nil => rfl
  | cons l blank ih =>
    rw [h l (.head _), List.foldlM_cons, readLine_blank]
    exact ih fun l hl => h l (.tail _ hl)

theorem toNat_of_isHexDigit {c : Char} (h : isHexDigit c = true) : c.toNat < 128 := by
  simp only [isHexDigit, Char.isDigit, Bool.or_eq_true, Bool.and_eq_true, decide_eq_true_eq,
    Char.le_def, UInt32.le_iff_toNat_le] at h
  have h9 : ('9' : Char).val.toNat = 57 := rfl
  have hf : ('f' : Char).val.toNat = 102 := rfl
  have hF : ('F' : Char).val.toNat = 70 := rfl
  change c.val.toNat < 128
  rcases h with (⟨_, h⟩ | ⟨_, h⟩) | ⟨_, h⟩
  · omega
  · omega
  · omega

theorem toLower_of_isHexDigit {c : Char} (h : isHexDigit c = true) :
    c ≠ '\n' ∧ c.toLower ≠ '\\' ∧ c.toLower ≠ '\n' ∧ isBlankChar c.toLower = false := by
  have hall : ∀ n < 128, isHexDigit (Char.ofNat n) = true → Char.ofNat n ≠ '\n' ∧
      (Char.ofNat n).toLower ≠ '\\' ∧ (Char.ofNat n).toLower ≠ '\n' ∧
        isBlankChar (Char.ofNat n).toLower = false := by
    decide +kernel
  have hc := hall c.toNat (toNat_of_isHexDigit h)
  rw [Char.ofNat_toNat] at hc
  exact hc h

theorem unescape_hex {key : List Char} (h : ∀ c ∈ key, isHexDigit c = true) :
    settingsUnescape (key.map Char.toLower) = some (key.map Char.toLower) := by
  induction key with
  | nil => rfl
  | cons c key ih =>
    rw [List.map_cons, unescape_plain (toLower_of_isHexDigit (h c (.head _))).2.1,
      ih fun d hd => h d (.tail _ hd), Option.map_some]

theorem hex_value {key : List Char} (h : ∀ c ∈ key, isHexDigit c = true) :
    settingsUnescape ((key.map Char.toLower).dropWhile isBlankChar) =
      some (key.map Char.toLower) := by
  have hkept : (key.map Char.toLower).dropWhile isBlankChar = key.map Char.toLower := by
    cases key with
    | nil => rfl
    | cons c key =>
      rw [List.map_cons, List.dropWhile_cons_of_neg]
      simp [(toLower_of_isHexDigit (h c (.head _))).2.2.2]
  rw [hkept, unescape_hex h]

theorem read_securityLines {passphrase : List Char}
    (hkey : isHex64 passphrase = true → ∀ c ∈ passphrase, isHexDigit c = true) :
    (securityLines passphrase).foldlM readLine [] =
      some (securityGroups passphrase) := by
  rw [securityLines, securityGroups]
  split_ifs with hnone hhex
  · rfl
  · have hline := @readLine_key [] "Security".toList "PreSharedKey".toList _ _ []
      (by decide) rfl (hex_value (hkey hhex))
    exact readLines_pair (readLine_security []) hline
  · have hline := @readLine_key [] "Security".toList "Passphrase".toList _ _ []
      (by decide) rfl (unescape_settingsEscape passphrase)
    exact readLines_pair (readLine_security []) hline

/-! ### Valid networks -/

theorem toEnd_cases (text : List Char) :
    toEnd text = text ∧ text.getLast? ≠ some '\n' ∨
      text = toEnd text ++ ['\n'] ∧ text.getLast? = some '\n' := by
  rw [toEnd]
  split_ifs with hlast
  · exact Or.inr ⟨(List.dropLast_append_getLast? _ hlast).symm, hlast⟩
  · exact Or.inl ⟨rfl, hlast⟩

theorem isHex64_digits {text : List Char} (h : isHex64 text = true) :
    ∀ c ∈ toEnd text, isHexDigit c = true := by
  rw [isHex64, Bool.and_eq_true] at h
  exact List.all_eq_true.mp h.2

/-- No newline is left of a passphrase that passed. -/
theorem validate_no_newline {net : WifiNetwork} (h : net.validate = .ok net) :
    '\n' ∉ toEnd net.passphrase := by
  intro hmem
  by_cases hhex : isHex64 net.passphrase = true
  · exact (toLower_of_isHexDigit (isHex64_digits hhex _ hmem)).1 rfl
  · have hmem' : '\n' ∈ net.passphrase := by
      rcases toEnd_cases net.passphrase with ⟨heq, _⟩ | ⟨_, hlast⟩
      · exact heq ▸ hmem
      · exact List.mem_of_getLast? hlast
    have hne : net.passphrase ≠ [] := List.ne_nil_of_mem hmem'
    have hchars : net.passphrase.any (fun c => c.toNat < 32 || 126 < c.toNat) = true :=
      List.any_eq_true.mpr ⟨_, hmem', by decide⟩
    rw [WifiNetwork.validate] at h
    split_ifs at h with h1 h2 h3
    exact h3 ⟨hne, by simpa using hhex, hchars⟩

/-- Only a key of 64 digits can have a newline after it. -/
theorem validate_hex {net : WifiNetwork} (h : net.validate = .ok net)
    (hlast : net.passphrase.getLast? = some '\n') : isHex64 net.passphrase = true := by
  by_contra hhex
  have hmem : '\n' ∈ net.passphrase := List.mem_of_getLast? hlast
  have hchars : net.passphrase.any (fun c => c.toNat < 32 || 126 < c.toNat) = true :=
    List.any_eq_true.mpr ⟨_, hmem, by decide⟩
  rw [WifiNetwork.validate] at h
  split_ifs at h with h1 h2 h3
  exact h3 ⟨List.ne_nil_of_mem hmem, by simpa using hhex, hchars⟩

theorem intercalate_lines {lines : List (List Char)} (h : lines ≠ []) :
    List.intercalate ['\n'] lines ++ ['\n'] = lines.flatMap (· ++ ['\n']) := by
  induction lines with
  | nil => exact absurd rfl h
  | cons l lines ih =>
    cases lines with
    | nil => simp [List.intercalate]
    | cons l' lines =>
      rw [List.flatMap_cons, ← ih (by simp)]
      simp [List.intercalate]

theorem toEnd_toEnd {net : WifiNetwork} (h : net.validate = .ok net) :
    toEnd (toEnd net.passphrase) = toEnd net.passphrase := by
  rcases toEnd_cases (toEnd net.passphrase) with ⟨heq, _⟩ | ⟨_, hlast⟩
  · exact heq
  · exact absurd (List.mem_of_getLast? hlast) (validate_no_newline h)

theorem isHex64_toEnd {net : WifiNetwork} (h : net.validate = .ok net) :
    isHex64 (toEnd net.passphrase) = isHex64 net.passphrase := by
  rw [isHex64, toEnd_toEnd h, isHex64]

/-- The lines of a file; a newline behind a key is a blank line more. -/
theorem content_lines {net : WifiNetwork} (h : net.validate = .ok net) :
    ∃ blank : List (List Char), (∀ l ∈ blank, l = []) ∧ iwdFileContent net =
      (securityLines (toEnd net.passphrase) ++ blank ++ settingsLines net.hidden).flatMap
        (· ++ ['\n']) := by
  have hsettings : settingsLines net.hidden ≠ [] := by
    rw [settingsLines, List.cons_append]
    exact List.cons_ne_nil _ _
  change ∃ blank : List (List Char), _ ∧
    List.intercalate ['\n'] (_ ++ settingsLines net.hidden) ++ ['\n'] = _
  rw [intercalate_lines (List.append_ne_nil_of_right_ne_nil _ hsettings)]
  by_cases hopen : net.passphrase = []
  · refine ⟨[], by simp, ?_⟩
    rw [if_pos hopen, hopen]
    rfl
  · rw [if_neg hopen]
    rcases toEnd_cases net.passphrase with ⟨heq, _⟩ | ⟨heq, hlast⟩
    · refine ⟨[[]], by simp, ?_⟩
      rw [heq, securityLines, if_neg hopen]
      rfl
    · have hhex := validate_hex h hlast
      have hkey : toEnd net.passphrase ≠ [] := by
        intro hnil
        rw [isHex64, hnil] at hhex
        cases hhex
      have hlower : net.passphrase.map Char.toLower =
          (toEnd net.passphrase).map Char.toLower ++ ['\n'] := by
        conv_lhs => rw [heq]
        rw [List.map_append]
        rfl
      refine ⟨[[], []], by simp, ?_⟩
      rw [securityLines, if_neg hkey, isHex64_toEnd h, if_pos hhex, if_pos hhex, hlower]
      simp

/-- What is read of a valid network is its settings without that newline. -/
theorem read_content {net : WifiNetwork} (h : net.validate = .ok net) :
    readSettings (iwdFileContent net) =
      some { net with passphrase := toEnd net.passphrase }.settings := by
  obtain ⟨blank, hblank, hlines⟩ := content_lines h
  have hnewline := validate_no_newline h
  have hkey : isHex64 (toEnd net.passphrase) = true →
      ∀ c ∈ toEnd net.passphrase, isHexDigit c = true := fun hhex => by
    have hdigits := isHex64_digits hhex
    rwa [toEnd_toEnd h] at hdigits
  have hsecurity : ∀ l ∈ securityLines (toEnd net.passphrase), '\n' ∉ l := by
    intro l hl
    rw [securityLines] at hl
    split_ifs at hl with hnone hhex
    · cases hl
    · rcases List.mem_cons.mp hl with rfl | hl
      · decide
      · rw [List.mem_singleton.mp hl, List.mem_append, not_or]
        refine ⟨by decide, fun hmem => ?_⟩
        obtain ⟨c, hc, heq⟩ := List.mem_map.mp hmem
        exact (toLower_of_isHexDigit (hkey hhex c hc)).2.2.1 heq
    · rcases List.mem_cons.mp hl with rfl | hl
      · decide
      · rw [List.mem_singleton.mp hl, List.mem_append, not_or]
        exact ⟨by decide, fun hmem => mem_settingsEscape hmem rfl⟩
  have hsettings : ∀ l ∈ settingsLines net.hidden, '\n' ∉ l := by
    cases net.hidden <;> decide
  rw [readSettings, hlines, Text.linesFrom_join, List.foldlM_append, List.foldlM_append,
    read_securityLines hkey]
  · change ((List.foldlM readLine _ blank).bind fun groups =>
      List.foldlM readLine groups (settingsLines net.hidden)) = _
    rw [read_blankLines _ hblank, Option.bind_some, read_settingsLines]
    rfl
  · intro l hl
    rcases List.mem_append.mp hl with hl | hl
    · rcases List.mem_append.mp hl with hl | hl
      · exact hsecurity l hl
      · rw [hblank l hl]
        simp
    · exact hsettings l hl

/-- The size of all values. -/
def valuesSize (groups : List Group) : ℕ :=
  (groups.map fun g => (g.2.map fun p => p.2.length).sum).sum

theorem securityGroups_size (passphrase : List Char) :
    valuesSize (securityGroups passphrase) = passphrase.length := by
  rw [securityGroups]
  split_ifs with hopen hhex
  · rw [hopen]
    rfl
  · change (passphrase.map Char.toLower).length + 0 + 0 = passphrase.length
    rw [List.length_map]
    rfl
  · rfl

theorem settings_injective {net : WifiNetwork} {passphrase : List Char}
    (h : { net with passphrase }.settings = net.settings) :
    passphrase.length = net.passphrase.length := by
  have hsecurity := List.append_cancel_right h
  rw [← securityGroups_size passphrase, hsecurity, securityGroups_size]

/-! ### The property -/

/-- The name is one component of a path. -/
structure Component (name : FileName) : Prop where
  slash : '/' ∉ name
  nul : Char.ofNat 0 ∉ name
  proper : name ∉ [[], ['.'], ['.', '.']]
  length : name.length ≤ 255

/-- The file says what the network is, under a name of its own, and nothing else changed. -/
structure Faithful (dir : Dir) (net : WifiNetwork) (dir' : Dir) : Prop where
  content : ∃ text, dir' (iwdFileName net.ssid (net.passphrase = [])) = some (.text text) ∧
    readSettings text = some net.settings
  component : ∀ o, Component (iwdFileName net.ssid o)
  distinct : ∀ ssid o o', iwdFileName net.ssid o = iwdFileName ssid o' → net.ssid = ssid ∧ o = o'
  only : dir' (iwdFileName net.ssid (net.passphrase ≠ [])) = none
  others : ∀ ssid ≠ net.ssid, ∀ o, dir' (iwdFileName ssid o) = dir (iwdFileName ssid o)

theorem hexDigit_name : ∀ i < 16, hexDigit i ≠ '/' ∧ hexDigit i ≠ Char.ofNat 0 := by
  decide +kernel

theorem mem_stem {ssid : Bytes} {c : Char} (h : c ∈ stem ssid) :
    c ≠ '/' ∧ c ≠ Char.ofNat 0 := by
  have hhex : ∀ d ∈ '=' :: hex ssid, d ≠ '/' ∧ d ≠ Char.ofNat 0 := by
    intro d hd
    rcases List.mem_cons.mp hd with rfl | hd
    · decide
    · obtain ⟨b, _, hb⟩ := List.mem_flatMap.mp hd
      have hlt := b.toNat_lt
      rcases List.mem_cons.mp hb with rfl | hb
      · exact hexDigit_name _ (by omega)
      · rw [List.mem_singleton.mp hb]
        exact hexDigit_name _ (by omega)
  rw [stem] at h
  split at h
  · split_ifs at h with hplain
    · have hc := List.all_eq_true.mp hplain.2 c h
      constructor
      · rintro rfl
        revert hc
        decide
      · rintro rfl
        revert hc
        decide
    · exact hhex c h
  · exact hhex c h

theorem stem_length (ssid : Bytes) : (stem ssid).length ≤ 2 * ssid.length + 1 := by
  have hhex : (hex ssid).length = 2 * ssid.length := by
    rw [hex, List.length_flatMap]
    simp [Nat.mul_comm]
  rcases stem_cases ssid with ⟨text, htext, _, hstem⟩ | hstem
  · have hlength := congrArg List.length (decodeAscii_codes htext)
    rw [List.length_map, List.length_map] at hlength
    rw [hstem]
    omega
  · rw [hstem, List.length_cons, hhex]

theorem iwdFileName_component {ssid : Bytes} (h : ssid.length ≤ 32) (o : Bool) :
    Component (iwdFileName ssid o) := by
  have hkind : ∀ o, '/' ∉ '.' :: kind o ∧ Char.ofNat 0 ∉ '.' :: kind o ∧
      3 ≤ (kind o).length ∧ (kind o).length ≤ 4 := by
    decide
  obtain ⟨hslash, hnul, hmin, hmax⟩ := hkind o
  have hlength := stem_length ssid
  rw [iwdFileName_eq]
  refine ⟨?_, ?_, ?_, ?_⟩
  · rw [List.mem_append]
    exact fun hmem => hmem.elim (fun hc => (mem_stem hc).1 rfl) hslash
  · rw [List.mem_append]
    exact fun hmem => hmem.elim (fun hc => (mem_stem hc).2 rfl) hnul
  · intro hmem
    have hsize : (stem ssid ++ '.' :: kind o).length ≤ 2 := by
      simp only [List.mem_cons, List.not_mem_nil, or_false] at hmem
      rcases hmem with heq | heq | heq
      · rw [heq]
        decide
      · rw [heq]
        decide
      · rw [heq]
        decide
    rw [List.length_append, List.length_cons] at hsize
    omega
  · rw [List.length_append, List.length_cons]
    omega

/-- A valid network is written faithfully unless its passphrase ends in a newline. -/
theorem write_faithful_iff {dir : Dir} {net : WifiNetwork} (h : net.validate = .ok net) :
    ∃ dir', writeIwdNetwork dir net = .ok dir' ∧
      (Faithful dir net dir' ↔ net.passphrase.getLast? ≠ some '\n') := by
  obtain ⟨dir', hwrite⟩ := @write_valid dir net h
  refine ⟨dir', hwrite, ?_⟩
  have hdir : dir' = (dir.unlink (iwdFileName net.ssid (net.passphrase ≠ []))).write
      (iwdFileName net.ssid (net.passphrase = [])) (iwdFileContent net) := by
    rw [writeIwdNetwork, h] at hwrite
    exact (Except.ok.inj hwrite).symm
  have hfile : dir' (iwdFileName net.ssid (net.passphrase = [])) =
      some (.text (iwdFileContent net)) := by
    rw [hdir, Dir.write, Function.update_self]
  constructor
  · intro hfaithful
    obtain ⟨text, htext, hread⟩ := hfaithful.content
    obtain rfl : iwdFileContent net = text := by simpa using hfile.symm.trans htext
    rw [read_content h] at hread
    have hlength := settings_injective (Option.some.inj hread)
    rcases toEnd_cases net.passphrase with ⟨_, hlast⟩ | ⟨heq, _⟩
    · exact hlast
    · have hmore := congrArg List.length heq
      rw [List.length_append, List.length_singleton] at hmore
      omega
  · intro hlast
    have hend : toEnd net.passphrase = net.passphrase := if_neg hlast
    have hssid : net.ssid.length ≤ 32 := by
      rw [WifiNetwork.validate] at h
      split_ifs at h with hlength
      omega
    refine ⟨⟨_, hfile, ?_⟩, iwdFileName_component hssid, fun _ _ _ heq =>
      iwdFileName_injective heq, ?_, fun ssid hne o => ?_⟩
    · rw [read_content h, hend]
    · have hne : iwdFileName net.ssid (net.passphrase ≠ []) ≠
          iwdFileName net.ssid (net.passphrase = []) := fun heq => by
        have hsame := (iwdFileName_injective heq).2
        by_cases hopen : net.passphrase = [] <;> simp [hopen] at hsame
      rw [hdir, Dir.write, Function.update_of_ne hne, Dir.unlink, Function.update_self]
    · exact write_other hwrite fun hof => hne (hof.same ⟨o, rfl⟩).symm

def emptyDir : Dir := fun _ => none

/-- A key copied with the end of its line. -/
def pastedKey : WifiNetwork :=
  { ssid := [65], passphrase := List.replicate 64 'a' ++ ['\n'], hidden := false, country := [] }

theorem pastedKey_valid : pastedKey.validate = .ok pastedKey := by decide +kernel

theorem pastedKey_unfaithful : pastedKey.validate = .ok pastedKey ∧
    ∃ dir', writeIwdNetwork emptyDir pastedKey = .ok dir' ∧ ¬ Faithful emptyDir pastedKey dir' := by
  refine ⟨pastedKey_valid, emptyDir.write (iwdFileName [65] false) (iwdFileContent pastedKey), ?_, ?_⟩
  · rw [writeIwdNetwork, pastedKey_valid]
    change Except.ok ((emptyDir.unlink _).write _ _) = _
    rw [Dir.unlink, show Function.update emptyDir _ none = emptyDir from Function.update_eq_self _ _]
    rfl
  · intro hfaithful
    obtain ⟨text, htext, hread⟩ := hfaithful.content
    have hfile : emptyDir.write (iwdFileName [65] false) (iwdFileContent pastedKey)
        (iwdFileName [65] false) = some (.text (iwdFileContent pastedKey)) :=
      Function.update_self ..
    obtain rfl : iwdFileContent pastedKey = text := by simpa using hfile.symm.trans htext
    rw [read_content pastedKey_valid] at hread
    have hlength := settings_injective (Option.some.inj hread)
    revert hlength
    decide +kernel

def hiddenNetwork : WifiNetwork :=
  { ssid := [65, 32, 66], passphrase := " back\\slash".toList, hidden := true, country := "GB".toList }

theorem write_faithful_sample : ∃ dir', writeIwdNetwork emptyDir hiddenNetwork = .ok dir' ∧
    Faithful emptyDir hiddenNetwork dir' := by
  have hvalid : hiddenNetwork.validate = .ok hiddenNetwork := by decide +kernel
  obtain ⟨dir', hwrite, hfaithful⟩ := @write_faithful_iff emptyDir hiddenNetwork hvalid
  exact ⟨dir', hwrite, hfaithful.mpr (by decide)⟩

end Epilykos.Wifi
