import Epilykos.Wifi.BootFiles

/-!
What the parsers of the files on BOOT may raise, and that the networks they find are valid. All
but two kinds of exceptions are ones the import expects: a scalar that ends in the middle of an
escape, and a value where a table is expected.
-/

namespace Epilykos.Wifi

open PlatformEnv (Bytes)
open Regex (Pattern Spot)

/-! ### What a computation ends in -/

/-- The exceptions that the import expects of a parser: WifiError, ValueError, UnicodeError. -/
def Exn.caught : Exn → Bool
  | wifi _ => true
  | value => true
  | unicode => true
  | _ => false

/-- A computation ends in a result of `Q` or in an exception of `E`. -/
def Ends {α : Type} (x : Except Exn α) (Q : α → Prop) (E : Exn → Prop) : Prop :=
  match x with
  | .ok a => Q a
  | .error e => E e

section Ends

variable {α β : Type} {Q : α → Prop} {E E' : Exn → Prop}

theorem Ends.bind {x : Except Exn α} {f : α → Except Exn β} {R : β → Prop} (hx : Ends x Q E)
    (hf : ∀ a, Q a → Ends (f a) R E) : Ends (x >>= f) R E := by
  cases x with
  | ok a => exact hf a hx
  | error e => exact hx

theorem Ends.mono {x : Except Exn α} {R : α → Prop} (h : Ends x Q E) (hQ : ∀ a, Q a → R a)
    (hE : ∀ e, E e → E' e) : Ends x R E' := by
  cases x with
  | ok a => exact hQ a h
  | error e => exact hE e h

theorem Ends.ok {x : Except Exn α} (h : Ends x Q E) {a : α} (ha : x = .ok a) : Q a := by
  rw [ha] at h
  exact h

theorem Ends.error {x : Except Exn α} (h : Ends x Q E) {e : Exn} (he : x = .error e) : E e := by
  rw [he] at h
  exact h

end Ends

/-- A network that can be written. -/
abbrev WifiNetwork.Valid (net : WifiNetwork) : Prop := net.validate = .ok net

theorem validate_ends (net : WifiNetwork) : Ends net.validate WifiNetwork.Valid (·.caught = true) := by
  cases h : net.validate with
  | ok valid =>
    obtain rfl := WifiNetwork.validate_ok h
    exact h
  | error e =>
    rw [WifiNetwork.validate] at h
    split_ifs at h <;> cases h <;> rfl

theorem settings_ends (ssid : Bytes) (passphrase : List Char) (hidden : Bool) (country : List Char) :
    Ends (settings ssid passphrase hidden country) WifiNetwork.Valid (·.caught = true) :=
  validate_ends _

theorem encodeUtf8_ends (text : Codes) : Ends (encodeUtf8 text) (fun _ => True) (·.caught = true) := by
  rw [encodeUtf8]
  split_ifs
  · rfl
  · trivial

/-- A match holds something in a group that every way goes through, and it is part of the text. -/
theorem groupOf_ends {r : Pattern ℕ} {text : Codes} {found : Spot ℕ} {i : ℕ} {E : Exn → Prop}
    (hfound : Regex.Found r text found) (hr : r.binds i = true) :
    Ends (groupOf found i) (fun held => held <:+: text) E := by
  obtain ⟨held, hheld⟩ := hfound.group i hr
  rw [groupOf, hheld]
  exact hfound.within i held hheld

theorem parseWifiTxt_ends (py : Python) (text : Codes) :
    Ends (parseWifiTxt py text) WifiNetwork.Valid (·.caught = true) := by
  rw [parseWifiTxt]
  cases ((splitLines text).foldl (readValue py) []).lookup (lit "ssid") with
  | none => rfl
  | some ssid =>
    by_cases hssid : ssid = []
    · simp only [if_pos hssid]
      rfl
    · simp only [if_neg hssid]
      exact (encodeUtf8_ends ssid).bind fun _ _ => settings_ends _ _ _ _

theorem readSsid_ends (v : Codes) : Ends (readSsid v) (fun _ => True) (·.caught = true) := by
  unfold readSsid
  split
  · exact encodeUtf8_ends _
  · split
    · trivial
    · rfl

theorem readBlockLine_ends (block : Block) (raw : Codes) :
    Ends (readBlockLine block raw) (fun _ => True) (·.caught = true) := by
  unfold readBlockLine
  simp only
  split_ifs
  · exact (readSsid_ends _).bind fun _ _ => trivial
  · trivial
  · trivial
  · trivial
  · trivial

theorem foldlM_ends {α β : Type} {f : β → α → Except Exn β} {E : Exn → Prop}
    (hf : ∀ b a, Ends (f b a) (fun _ => True) E) (l : List α) (b : β) :
    Ends (l.foldlM f b) (fun _ => True) E := by
  induction l generalizing b with
  | nil => trivial
  | cons a l ih => exact (hf b a).bind fun b _ => ih b

theorem parseWpaSupplicant_ends (text : Codes) :
    Ends (parseWpaSupplicant text) WifiNetwork.Valid (·.caught = true) := by
  have hcountry : Ends (wpaCountry text) (fun _ => True) (·.caught = true) := by
    unfold wpaCountry
    split
    · trivial
    · rename_i found hfound
      exact (groupOf_ends (Regex.search_found hfound) (by decide)).bind fun _ _ => trivial
  refine hcountry.bind fun country _ => ?_
  split
  · rfl
  · rename_i found hfound
    refine (groupOf_ends (Regex.search_found hfound) (by decide)).bind fun body _ => ?_
    refine (foldlM_ends readBlockLine_ends _ _).bind fun block _ => ?_
    split
    · rfl
    · exact settings_ends _ _ _ _

/-- A result that may be missing. -/
def Fine (net : Option WifiNetwork) : Prop := ∀ n, net = some n → n.Valid

theorem fine_none : Fine none := fun _ h => (Option.some_ne_none _ h.symm).elim

theorem fine_some {net : WifiNetwork} (h : net.Valid) : Fine (some net) := by
  intro n hn
  cases hn
  exact h

theorem parseFirstrun_ends (text : Codes) :
    Ends (parseFirstrun text) Fine (·.caught = true) := by
  unfold parseFirstrun
  split
  · exact fine_none
  · rename_i found hfound
    refine (groupOf_ends (Regex.search_found hfound) (by decide)).bind fun body _ => ?_
    exact (parseWpaSupplicant_ends body).bind fun net hnet => fine_some hnet

/-! ### A scalar that ends in the middle of an escape -/

/-- A backslash stands before a double quote. -/
def EscapedQuote (text : Codes) : Prop := [92, 34] <:+: text

theorem EscapedQuote.mono {part text : Codes} (h : EscapedQuote part) (hpart : part <:+: text) :
    EscapedQuote text := h.trans hpart

theorem stripCodes_part (text : Codes) : stripCodes text <:+: text := by
  have hfront : text.dropWhile isSpaceCode <:+ text := List.dropWhile_suffix _
  have hback : stripCodes text <+: text.dropWhile isSpaceCode := by
    have h := (List.dropWhile_suffix (l := (text.dropWhile isSpaceCode).reverse) isSpaceCode).reverse
    rwa [List.reverse_reverse] at h
  exact hback.isInfix.trans hfront.isInfix

/-- What unquoteFrom raises beyond what the import expects. -/
def BadEnd (s : Codes) (e : Exn) : Prop := e.caught = true ∨ e = .key ∧ [92] <:+ s

theorem BadEnd.mono {s t : Codes} {e : Exn} (h : BadEnd s e) (hst : s <:+ t) : BadEnd t e :=
  h.imp_right fun h => ⟨h.1, h.2.trans hst⟩

theorem chr_ends (code : ℤ) : Ends (chr code) (fun _ => True) (·.caught = true) := by
  rw [chr]
  split_ifs
  · trivial
  · rfl

/-- Only a backslash at the end has no entry in the table and no width. -/
theorem unquoteFrom_ends (s : Codes) : Ends (unquoteFrom s) (fun _ => True) (BadEnd s) := by
  induction s using unquoteFrom.induct with
  | case1 =>
    rw [unquoteFrom]
    trivial
  | case2 c rest hc ih =>
    rw [unquoteFrom.eq_def]
    simp only [if_pos hc]
    have hrest := ih.mono (fun _ h => h) fun _ h => h.mono (List.suffix_cons c rest)
    exact hrest.bind fun _ _ => trivial
  | case3 c hc =>
    obtain rfl : c = 92 := not_not.mp hc
    rw [unquoteFrom]
    exact Or.inr ⟨rfl, List.suffix_rfl⟩
  | case4 c hc e rest d hd ih =>
    rw [unquoteFrom, if_neg hc]
    simp only [hd]
    have hrest := ih.mono (fun _ h => h) fun _ h =>
      h.mono ((List.suffix_cons e rest).trans (List.suffix_cons c _))
    exact hrest.bind fun _ _ => trivial
  | case5 c hc e rest hd hw =>
    rw [unquoteFrom, if_neg hc]
    simp only [hd, hw]
    exact Or.inl rfl
  | case6 c hc e rest hd n hw hint =>
    rw [unquoteFrom, if_neg hc]
    simp only [hd, hw, hint]
    exact Or.inl rfl
  | case7 c hc e rest hd n hw code hint ih =>
    rw [unquoteFrom, if_neg hc]
    simp only [hd, hw, hint]
    have hrest := ih.mono (fun _ h => h) fun _ h => h.mono ((List.drop_suffix n rest).trans
      ((List.suffix_cons e rest).trans (List.suffix_cons c _)))
    refine ((chr_ends code).mono (fun _ h => h) fun _ h => Or.inl h).bind fun d _ => ?_
    exact hrest.bind fun _ _ => trivial

/-- What yamlScalar raises beyond what the import expects. -/
def BadScalar (text : Codes) (e : Exn) : Prop := e.caught = true ∨ e = .key ∧ EscapedQuote text

theorem BadScalar.mono {part text : Codes} {e : Exn} (h : BadScalar part e) (hpart : part <:+: text) :
    BadScalar text e := h.imp_right fun h => ⟨h.1, h.2.mono hpart⟩

theorem quoted_inner {q : ℕ} {value : Codes} (h : isQuoted q value = true) :
    value = q :: value.tail.dropLast ++ [q] := by
  simp only [isQuoted, Bool.and_eq_true, decide_eq_true_eq] at h
  obtain ⟨⟨hhead, hlast⟩, hlength⟩ := h
  cases value with
  | nil => cases hhead
  | cons c rest =>
    obtain rfl : c = q := Option.some.inj hhead
    have hrest : rest ≠ [] := by
      rintro rfl
      exact absurd hlength (Nat.not_succ_le_self 1)
    have hend : rest.getLast hrest = c := by
      rw [List.getLast?_cons_of_ne_nil hrest, List.getLast?_eq_some_getLast hrest] at hlast
      exact Option.some.inj hlast
    have hsplit := List.dropLast_append_getLast hrest
    rw [hend] at hsplit
    rw [List.tail_cons, List.cons_append, hsplit]

theorem yamlScalar_ends (value : Codes) :
    Ends (yamlScalar value) (fun _ => True) (BadScalar value) := by
  have hpart := stripCodes_part value
  have hencode : ∀ text, Ends (encodeUtf8 text) (fun _ => True) (BadScalar value) := fun text =>
    (encodeUtf8_ends text).mono (fun _ h => h) fun _ he => Or.inl he
  unfold yamlScalar
  simp only
  split_ifs with hdouble hsingle
  · have hinner : ∀ e, BadEnd (stripCodes value).tail.dropLast e → BadScalar value e := by
      rintro e (he | ⟨he, lead, hlead⟩)
      · exact Or.inl he
      · refine Or.inr ⟨he, EscapedQuote.mono ?_ hpart⟩
        rw [quoted_inner hdouble, ← hlead]
        exact ⟨34 :: lead, [], by simp⟩
    refine ((unquoteFrom_ends _).mono (fun _ h => h) hinner).bind fun x _ => ?_
    split_ifs
    · trivial
    · exact hencode _
  · exact hencode _
  · exact hencode _

theorem mem_linesFrom {line text l : Codes} (h : l ∈ linesFrom line text) : l <:+: line ++ text := by
  fun_induction linesFrom line text with
  | case1 => cases h
  | case2 line hne =>
    obtain rfl := List.mem_singleton.mp h
    exact (List.append_nil l).symm ▸ List.infix_rfl
  | case3 line rest ih =>
    rcases List.mem_cons.mp h with rfl | h
    · exact (List.prefix_append _ _).isInfix
    · exact (ih h).trans ⟨line ++ [13, 10], [], by simp⟩
  | case4 line c rest _ hbreak ih =>
    rcases List.mem_cons.mp h with rfl | h
    · exact (List.prefix_append _ _).isInfix
    · exact (ih h).trans ⟨line ++ [c], [], by simp⟩
  | case5 line c rest _ hbreak ih =>
    rw [List.append_cons]
    exact ih h

theorem mem_splitLines {text l : Codes} (h : l ∈ splitLines text) : l <:+: text := mem_linesFrom h

theorem readPassword_ends (value : Codes) :
    Ends (readPassword value) (fun _ => True) (BadScalar value) := by
  refine (yamlScalar_ends value).bind fun bytes _ => ?_
  split
  · trivial
  · exact Or.inl rfl

theorem readName_ends (point : Point) (line : Codes) :
    Ends (readName point line) (fun _ => True) (BadScalar line) := by
  unfold readName
  split
  · exact Or.inl rfl
  · rename_i found hfound
    refine (groupOf_ends (Regex.match_found hfound) (by decide)).bind fun name hname => ?_
    have hpart : name <:+: line := hname.trans (stripCodes_part line)
    have hscalar := (yamlScalar_ends name).mono (fun _ h => h) fun _ h => h.mono hpart
    exact hscalar.bind fun _ _ => trivial

theorem readSetting_ends (point : Point) (body : Codes) :
    Ends (readSetting point body) (fun _ => True) (BadScalar body) := by
  have hpart : body.drop 9 <:+: body := (List.drop_suffix 9 body).isInfix
  unfold readSetting
  split_ifs
  · have hpassword := (readPassword_ends (body.drop 9)).mono (fun _ h => h) fun _ h => h.mono hpart
    exact hpassword.bind fun _ _ => trivial
  · trivial
  · trivial

theorem readPoint_ends {text : Codes} (base : ℕ) (point : Point) {lines : List Codes}
    (hlines : ∀ l ∈ lines, l <:+: text) :
    Ends (readPoint base point lines) (fun _ => True) (BadScalar text) := by
  induction lines generalizing point with
  | nil => trivial
  | cons line rest ih =>
    obtain ⟨hline, hrest⟩ := List.forall_mem_cons.mp hlines
    have hbody : stripCodes line <:+: text := (stripCodes_part line).trans hline
    have hname := (readName_ends point line).mono (fun _ h => h) fun _ h => h.mono hline
    have hsetting := (readSetting_ends point (stripCodes line)).mono (fun _ h => h)
      fun _ h => h.mono hbody
    rw [readPoint]
    cases point.ssid with
    | none =>
      simp only
      split_ifs
      · exact ih point hrest
      · trivial
      · exact hname.bind fun point _ => ih point hrest
    | some ssid =>
      simp only
      split_ifs
      · exact ih point hrest
      · trivial
      · trivial
      · exact hsetting.bind fun point _ => ih point hrest

theorem readPoints_ends {text : Codes} (country : List Char) {lines : List Codes}
    (hlines : ∀ l ∈ lines, l <:+: text) :
    Ends (readPoints country lines) Fine (BadScalar text) := by
  induction lines with
  | nil => exact fine_none
  | cons line rest ih =>
    have hrest : ∀ l ∈ rest, l <:+: text := fun l hl => hlines l (.tail _ hl)
    unfold readPoints
    split_ifs
    · exact ih hrest
    · refine (readPoint_ends _ _ hrest).bind fun point _ => ?_
      split
      · exact ih hrest
      · refine ((settings_ends _ _ _ _).mono (fun _ h => h) fun _ h => Or.inl h).bind fun net hnet => ?_
        exact fine_some hnet

theorem parseNetworkConfig_ends (text : Codes) :
    Ends (parseNetworkConfig text) Fine (BadScalar text) := by
  have hcountry : Ends (regulatoryCountry text) (fun _ => True) (BadScalar text) := by
    unfold regulatoryCountry
    split
    · trivial
    · rename_i found hfound
      refine (groupOf_ends (Regex.search_found hfound) (by decide)).bind fun held hheld => ?_
      refine ((yamlScalar_ends held).mono (fun _ h => h) fun _ h => h.mono hheld).bind fun _ _ => ?_
      trivial
  exact hcountry.bind fun country _ => readPoints_ends country fun _ => mem_splitLines

/-! ### A file that is no table where one is expected -/

/-- `wlan` is there and is no table. -/
def NoTable (py : Python) (text : Codes) : Prop :=
  ∃ data wlan, py.loads text = .ok data ∧ data.lookup (lit "wlan") = some wlan ∧
    wlan.truthy = true ∧ wlan.isTable = false

/-- What parsePreseedToml raises, with what `tomllib` raises itself. -/
def BadTable (py : Python) (text : Codes) (e : Exn) : Prop :=
  e.caught = true ∨ e = .attribute ∧ NoTable py text ∨ py.loads text = .error (.other e)

theorem readSsidHex_ends (value : Toml) :
    Ends (readSsidHex value) (fun _ => True) (·.caught = true) := by
  unfold readSsidHex
  split
  · trivial
  · rfl

theorem parseWlan_ends (py : Python) (wlan : Table) :
    Ends (parseWlan py wlan) WifiNetwork.Valid (·.caught = true) := by
  unfold parseWlan
  simp only
  split_ifs
  · exact (readSsidHex_ends _).bind fun _ _ => settings_ends _ _ _ _
  · exact (encodeUtf8_ends _).bind fun _ _ => settings_ends _ _ _ _

theorem parsePreseedToml_ends (py : Python) (text : Codes) :
    Ends (parsePreseedToml py text) Fine (BadTable py text) := by
  unfold parsePreseedToml
  split
  · exact Or.inl rfl
  · rename_i e hloads
    exact Or.inr (Or.inr hloads)
  · rename_i data hloads
    cases hwlan : data.lookup (lit "wlan") with
    | none => exact fine_none
    | some wlan =>
      by_cases htruthy : wlan.truthy = false
      · simp only [if_pos htruthy]
        exact fine_none
      · simp only [if_neg htruthy]
        rw [Bool.not_eq_false] at htruthy
        cases wlan with
        | table shown entries =>
          have hparse : Ends (parseWlan py entries) WifiNetwork.Valid (BadTable py text) :=
            (parseWlan_ends py entries).mono (fun _ h => h) fun _ h => Or.inl h
          exact hparse.bind fun net hnet => fine_some hnet
        | text s => exact Or.inr (Or.inl ⟨rfl, data, _, hloads, hwlan, htruthy, rfl⟩)
        | other shown truth => exact Or.inr (Or.inl ⟨rfl, data, _, hloads, hwlan, htruthy, rfl⟩)

end Epilykos.Wifi
