import Epilykos.Lib.Overwrites
import Epilykos.Lib.Program
import Epilykos.Wifi.BootErrors
import Epilykos.Wifi.Settings

/-!
The import of the Wi-Fi settings that somebody left on BOOT. Each file that is there is read, its
network becomes a known network on DATA, and when all of them are read, the files that were used
are deleted. What an import leaves is said apart from the calls that it takes: the last network
of a name has the last word, and only a file that the parsers give up on keeps the others on BOOT.
-/

namespace Epilykos.Wifi.BootImport

open PlatformEnv (Bytes)
open Program

/-! ### The files on BOOT -/

/-- A file with settings and its parser. -/
structure Source where
  name : String
  parse : Codes → Except Exn (Option WifiNetwork)
  valid : ∀ text net, parse text = .ok (some net) → net.Valid

/-- A parser that finds a network or raises. -/
def Source.always (name : String) (parse : Codes → Except Exn WifiNetwork)
    (h : ∀ text, Ends (parse text) WifiNetwork.Valid (·.caught = true)) : Source where
  name := name
  parse text := (parse text).map some
  valid text net hnet := by
    change (parse text).map some = .ok (some net) at hnet
    cases hparse : parse text with
    | error e =>
      rw [hparse] at hnet
      cases hnet
    | ok found =>
      rw [hparse] at hnet
      cases hnet
      exact (h text).ok hparse

/-- BOOT_SOURCES: the order they are applied in. -/
def bootSources (py : Python) : List Source := [
  .always "wpa_supplicant.conf" parseWpaSupplicant parseWpaSupplicant_ends,
  ⟨"firstrun.sh", parseFirstrun, fun text net h => (parseFirstrun_ends text).ok h net rfl⟩,
  ⟨"network-config", parseNetworkConfig,
    fun text net h => (parseNetworkConfig_ends text).ok h net rfl⟩,
  ⟨"rpi-preseed.toml", parsePreseedToml py,
    fun text net h => (parsePreseedToml_ends py text).ok h net rfl⟩,
  .always "wifi.txt" (parseWifiTxt py) (parseWifiTxt_ends py),
  .always "wifi.txt.txt" (parseWifiTxt py) (parseWifiTxt_ends py)]

/-! ### The import -/

/-- A file on DATA that the import writes. -/
inductive Place
  | network (name : FileName)
  | country
  deriving DecidableEq

inductive Call
  | isFile (name : String)
  | read (name : String)
  | remount (writable : Bool)
  | unlinkBoot (name : String)
  /-- A file that is not there is no failure. -/
  | unlink (name : FileName)
  /-- A temporary file that is renamed. -/
  | replace (name : FileName) (text : List Char)
  /-- A file that is opened for writing, and written. -/
  | saveCountry (text : List Char)

/-- What a call answers; `none` and `false` are an OSError, or a mount that failed. -/
def Ans : Call → Type
  | .isFile _ => Bool
  | .read _ => Option Bytes
  | .remount _ => Bool
  | .unlinkBoot _ => Bool
  | .unlink _ => Bool
  | .replace _ _ => Bool
  | .saveCountry _ => Bool

abbrev Files : Interface := ⟨Call, Ans⟩

inductive Failure
  | os
  | exn (e : Exn)
  deriving DecidableEq

abbrev Import := Prog Files Failure

def unlinkBoot (name : String) : Import Unit :=
  .call (.unlinkBoot name) fun (ok : Bool) => Prog.raiseIf (ok = false) .os

def unlink (name : FileName) : Import Unit :=
  .call (.unlink name) fun (ok : Bool) => Prog.raiseIf (ok = false) .os

def writeFile (name : FileName) (text : List Char) : Import Unit :=
  .call (.replace name text) fun (ok : Bool) => Prog.raiseIf (ok = false) .os

/-- Write the known-network file; a stale file of the other type is dropped first. -/
def writeIwdNetwork (net : WifiNetwork) : Import Unit :=
  match net.validate with
  | .error e => .raise (.exn e)
  | .ok _ => do
    unlink (iwdFileName net.ssid (net.passphrase ≠ []))
    writeFile (iwdFileName net.ssid (net.passphrase = [])) (iwdFileContent net)

/-- A country that was validated has no other letters than those of ASCII. -/
def saveCountry (country : List Char) : Import Unit :=
  let country := country.map Char.toUpper
  if isCountry country = false then
    .raise (.exn (.wifi "country must be a two-letter code"))
  else .call (.saveCountry (country ++ ['\n'])) fun (ok : Bool) => Prog.raiseIf (ok = false) .os

/-- The network of a file. -/
def addNetwork (net : WifiNetwork) : Import Unit := do
  writeIwdNetwork net
  Prog.when (net.country ≠ []) (saveCountry net.country)

/-- What a file holds: whether it is to be deleted. -/
def readData (py : Python) (source : Source) : Option Bytes → Import Bool
  | none => .raise .os
  | some data =>
    if isBlank data then .ret false
    else match source.parse (decodeBootFile py data) with
      | .error e => if e.caught then .ret false else .raise (.exn e)
      | .ok none => .ret true
      | .ok (some net) => do
        addNetwork net
        return true

def importFile (py : Python) (source : Source) : Import Bool :=
  .call (.read source.name) (readData py source)

/-- The names of the files that are to be deleted. -/
def importFiles (py : Python) : List Source → Import (List String)
  | [] => .ret []
  | source :: rest => do
    let used ← importFile py source
    let names ← importFiles py rest
    return if used then source.name :: names else names

/-- The files that are there. -/
def present : List Source → Import (List Source)
  | [] => .ret []
  | source :: rest => .call (.isFile source.name) fun (there : Bool) => do
    let found ← present rest
    return if there then source :: found else found

def removeAll : List String → Import Unit
  | [] => .ret ()
  | name :: rest => do
    unlinkBoot name
    removeAll rest

def bootRw (writable : Bool) : Import Bool := .call (.remount writable) fun (ok : Bool) => .ret ok

/-- BOOT is writable while the files are deleted, and read-only again whatever happens. -/
def deleteFiles (names : List String) : Import Unit :=
  (removeAll names).ensure do
    let _ ← bootRw false
    return

def importBootFiles (py : Python) : Import Unit := do
  let found ← present (bootSources py)
  let names ← importFiles py found
  Prog.when (names ≠ []) do
    let writable ← bootRw true
    Prog.when (writable = true) (deleteFiles names)

/-! ### The card -/

structure Card where
  boot : String → Option Bytes
  data : Place → Option Content

/-- The known networks on DATA. -/
def Card.dir (card : Card) : Dir := fun name => card.data (.network name)

def Card.put (card : Card) (place : Place) (content : Option Content) : Card :=
  { card with data := Function.update card.data place content }

def Card.unlinkBoot (card : Card) (name : String) : Card :=
  { card with boot := Function.update card.boot name none }

@[simp] theorem Card.put_data (card : Card) (place : Place) (content : Option Content) :
    (card.put place content).data = Function.update card.data place content := rfl

/-- Every call does what it is for. -/
def serve (card : Card) : (c : Call) → Ans c × Card
  | .isFile name => ((card.boot name).isSome, card)
  | .read name => (card.boot name, card)
  | .remount _ => (true, card)
  | .unlinkBoot name => (true, card.unlinkBoot name)
  | .unlink name => (true, card.put (.network name) none)
  | .replace name text => (true, card.put (.network name) (some (.text text)))
  | .saveCountry text => (true, card.put .country (some (.text text)))

/-! ### What an import is for -/

/-- What becomes of a file: it stays, it is deleted, a network is found, or the import stops. -/
inductive Reading
  | left
  | empty
  | network (net : WifiNetwork)
  | stops (e : Exn)

def Source.reading (py : Python) (source : Source) (data : Bytes) : Reading :=
  if isBlank data then .left
  else match source.parse (decodeBootFile py data) with
    | .error e => if e.caught then .left else .stops e
    | .ok none => .empty
    | .ok (some net) => .network net

abbrev Plan := List (String × Reading)

/-- The files that are there, in the order of the sources. -/
def planOf (py : Python) (sources : List Source) (boot : String → Option Bytes) : Plan :=
  sources.filterMap fun source =>
    (boot source.name).map fun data => (source.name, source.reading py data)

/-- The networks up to the file that the import stops at. -/
def networks : Plan → List WifiNetwork
  | [] => []
  | (_, .stops _) :: _ => []
  | (_, .network net) :: rest => net :: networks rest
  | (_, .empty) :: rest => networks rest
  | (_, .left) :: rest => networks rest

def consumed : Plan → List String
  | [] => []
  | (name, .network _) :: rest => name :: consumed rest
  | (name, .empty) :: rest => name :: consumed rest
  | (_, .left) :: rest => consumed rest
  | (_, .stops _) :: rest => consumed rest

/-- The exception that stops the import. -/
def stop : Plan → Option Exn
  | [] => none
  | (_, .stops e) :: _ => some e
  | (_, .network _) :: rest => stop rest
  | (_, .empty) :: rest => stop rest
  | (_, .left) :: rest => stop rest

/-- The places a network settles: both of its files, and the country where it names one. -/
def writes (net : WifiNetwork) : Overwrites.Write Place (Option Content) where
  owns
    | .network name => name = iwdFileName net.ssid true ∨ name = iwdFileName net.ssid false
    | .country => net.country ≠ []
  value
    | .network name =>
      if name = iwdFileName net.ssid (net.passphrase = []) then some (.text (iwdFileContent net))
      else none
    | .country => some (.text (net.country.map Char.toUpper ++ ['\n']))

def written (nets : List WifiNetwork) (data : Place → Option Content) : Place → Option Content :=
  Overwrites.all (nets.map writes) data

/-- What becomes of the files on BOOT. -/
abbrev plan (py : Python) (card : Card) : Plan := planOf py (bootSources py) card.boot

/-- What the files that are read end in: the names of those to delete, or what stops them. -/
def ended (s : Card) (plan : Plan) : Except Failure (List String) × Card :=
  match stop plan with
  | some e => (.error (.exn e), { s with data := written (networks plan) s.data })
  | none => (.ok (consumed plan), { s with data := written (networks plan) s.data })

/-- The card without these files. -/
def Card.without (card : Card) (names : List String) : Card :=
  { card with boot := fun name => if name ∈ names then none else card.boot name }

/-- What an import ends in, and the card it leaves. -/
def imported (py : Python) (card : Card) : Except Failure Unit × Card :=
  match ended card (plan py card) with
  | (.error e, after) => (.error e, after)
  | (.ok names, after) => (.ok (), after.without names)

/-! ### The places of a network -/

theorem valid_country {net : WifiNetwork} (h : net.Valid) (hne : net.country ≠ []) :
    isCountry net.country = true := by
  rw [WifiNetwork.Valid, WifiNetwork.validate] at h
  split_ifs at h with _ _ _ hbad
  by_contra hcountry
  exact hbad ⟨hne, Bool.eq_false_iff.mpr hcountry⟩

/-- Letters that are capital stay so. -/
theorem country_upper {country : List Char} (h : isCountry country = true) :
    country.map Char.toUpper = country := by
  rw [isCountry, Bool.and_eq_true] at h
  have hupper : ∀ c ∈ country, c.toUpper = c := by
    intro c hc
    have hplace : c ∈ toEnd country ∨ c = '\n' := by
      rcases toEnd_cases country with ⟨heq, _⟩ | ⟨heq, _⟩
      · rw [heq]
        exact Or.inl hc
      · rw [heq] at hc
        exact (List.mem_append.mp hc).imp_right List.mem_singleton.mp
    rcases hplace with hin | rfl
    · have hcapital : 'A'.val ≤ c.val ∧ c.val ≤ 'Z'.val :=
        of_decide_eq_true (List.all_eq_true.mp h.2 c hin)
      refine dif_neg fun hsmall => ?_
      exact absurd (UInt32.le_trans hsmall.1 hcapital.2) (by decide)
    · rfl
  exact (List.map_congr_left hupper).trans (List.map_id _)

/-- The file of the network. -/
def ownFile (net : WifiNetwork) : FileName := iwdFileName net.ssid (net.passphrase = [])

/-- The one of the other type. -/
def otherFile (net : WifiNetwork) : FileName := iwdFileName net.ssid (net.passphrase ≠ [])

theorem other_ne_own (net : WifiNetwork) : otherFile net ≠ ownFile net := by
  intro h
  have hkind := (iwdFileName_injective h).2
  by_cases hopen : net.passphrase = []
  · simp [hopen] at hkind
  · simp [hopen] at hkind

theorem owns_network {net : WifiNetwork} {name : FileName} :
    (writes net).owns (.network name) = true ↔ name = ownFile net ∨ name = otherFile net := by
  by_cases hopen : net.passphrase = []
  · simp [writes, ownFile, otherFile, hopen]
  · simp [writes, ownFile, otherFile, hopen, or_comm]

theorem owns_country {net : WifiNetwork} :
    (writes net).owns .country = true ↔ net.country ≠ [] := by
  simp [writes]

/-- Both files as the network leaves them. -/
def placed (net : WifiNetwork) (data : Place → Option Content) : Place → Option Content :=
  Function.update (Function.update data (.network (otherFile net)) none) (.network (ownFile net))
    (some (.text (iwdFileContent net)))

theorem apply_network (net : WifiNetwork) (data : Place → Option Content) (name : FileName) :
    (writes net).apply data (.network name) = placed net data (.network name) := by
  by_cases hown : name = ownFile net
  · rw [Overwrites.apply_owned (owns_network.mpr (Or.inl hown)), placed, hown, Function.update_self]
    exact if_pos rfl
  · have hne : Place.network name ≠ .network (ownFile net) := by simpa using hown
    by_cases hother : name = otherFile net
    · rw [Overwrites.apply_owned (owns_network.mpr (Or.inr hother)), placed,
        Function.update_of_ne hne, hother, Function.update_self]
      exact if_neg (other_ne_own net)
    · have hfree : (writes net).owns (.network name) = false := by
        rw [← Bool.not_eq_true, owns_network, not_or]
        exact ⟨hown, hother⟩
      have hne' : Place.network name ≠ .network (otherFile net) := by simpa using hother
      rw [Overwrites.apply_free hfree, placed, Function.update_of_ne hne, Function.update_of_ne hne']

/-- What a network leaves, without a country and with one. -/
theorem apply_writes (net : WifiNetwork) (data : Place → Option Content) :
    (writes net).apply data = if net.country = [] then placed net data
      else Function.update (placed net data) .country
        (some (.text (net.country.map Char.toUpper ++ ['\n']))) := by
  by_cases hcountry : net.country = []
  · rw [if_pos hcountry]
    funext place
    cases place with
    | network name => exact apply_network net data name
    | country =>
      have hfree : (writes net).owns .country = false := by
        rw [← Bool.not_eq_true, owns_country, not_not]
        exact hcountry
      rw [Overwrites.apply_free hfree]
      rfl
  · rw [if_neg hcountry]
    funext place
    cases place with
    | network name =>
      rw [apply_network, Function.update_of_ne (by simp)]
    | country => rw [Overwrites.apply_owned (owns_country.mpr hcountry), Function.update_self]; rfl

/-! ### One import without a failure -/

theorem run_addNetwork {net : WifiNetwork} (h : net.Valid) (s : Card) :
    (addNetwork net).run serve s = (.ok (), { s with data := (writes net).apply s.data }) := by
  have hfiles : (writeIwdNetwork net).run serve s = (.ok (), { s with data := placed net s.data }) := by
    rw [writeIwdNetwork, show net.validate = .ok net from h]
    rfl
  rw [addNetwork, run_bind_ok hfiles, apply_writes]
  by_cases hcountry : net.country = []
  · rw [Prog.when_neg (not_not.mpr hcountry), if_pos hcountry]
    rfl
  · have hgood := valid_country h hcountry
    rw [Prog.when_pos hcountry, if_neg hcountry, saveCountry, country_upper hgood]
    simp only [hgood]
    rfl

/-- The known networks are those that the network written to the directory gives. -/
theorem addNetwork_dir {net : WifiNetwork} (h : net.Valid) (s : Card) :
    Wifi.writeIwdNetwork s.dir net = .ok ((addNetwork net).run serve s).2.dir := by
  have hdir : ∀ name, ((s.dir.unlink (otherFile net)).write (ownFile net) (iwdFileContent net)) name =
      (writes net).apply s.data (.network name) := by
    intro name
    rw [apply_network, placed, Dir.write, Dir.unlink]
    by_cases hown : name = ownFile net
    · simp [hown]
    · by_cases hother : name = otherFile net
      · simp [hother, other_ne_own]
      · simp [hown, hother, Card.dir]
  rw [Wifi.writeIwdNetwork, show net.validate = .ok net from h, run_addNetwork h]
  exact congrArg Except.ok (funext hdir)

/-- What is left of a file, for the import. -/
def Reading.ends (s : Card) : Reading → Except Failure Bool × Card
  | .left => (.ok false, s)
  | .empty => (.ok true, s)
  | .network net => (.ok true, { s with data := (writes net).apply s.data })
  | .stops e => (.error (.exn e), s)

variable {py : Python} {source : Source} {sources : List Source} {data : Bytes} {s t : Card}

theorem reading_valid {net : WifiNetwork} (h : source.reading py data = .network net) :
    net.Valid := by
  rw [Source.reading] at h
  split_ifs at h
  split at h
  · split_ifs at h
  · cases h
  · rename_i hparse
    cases h
    exact source.valid _ _ hparse

theorem run_importFile (hdata : s.boot source.name = some data) :
    (importFile py source).run serve s = (source.reading py data).ends s := by
  have hvalid := @reading_valid py source data
  change Prog.run serve (readData py source (s.boot source.name)) s = _
  rw [hdata, readData]
  rw [Source.reading] at hvalid ⊢
  split_ifs with hblank
  · rfl
  · rw [if_neg hblank] at hvalid
    split at hvalid
    · split_ifs <;> rfl
    · rfl
    · rename_i net _
      rw [run_bind_ok (run_addNetwork (hvalid rfl) s)]
      rfl

theorem planOf_cons (hdata : s.boot source.name = some data) :
    planOf py (source :: sources) s.boot =
      (source.name, source.reading py data) :: planOf py sources s.boot := by
  simp [planOf, hdata]

theorem run_importFiles (hthere : ∀ src ∈ sources, (s.boot src.name).isSome) :
    (importFiles py sources).run serve s = ended s (planOf py sources s.boot) := by
  induction sources generalizing s with
  | nil => rfl
  | cons source sources ih =>
    obtain ⟨hsource, hrest⟩ := List.forall_mem_cons.mp hthere
    obtain ⟨data, hdata⟩ := Option.isSome_iff_exists.mp hsource
    rw [importFiles, run_bind, run_importFile hdata, planOf_cons hdata]
    cases source.reading py data with
    | left =>
      simp only [Reading.ends, run_bind, ih hrest, ended, networks, consumed, stop]
      cases stop (planOf py sources s.boot) <;> rfl
    | empty =>
      simp only [Reading.ends, run_bind, ih hrest, ended, networks, consumed, stop]
      cases stop (planOf py sources s.boot) <;> rfl
    | network net =>
      have hnext := ih (s := { s with data := (writes net).apply s.data }) hrest
      simp only [Reading.ends, run_bind, hnext, ended, networks, consumed, stop]
      cases stop (planOf py sources s.boot) <;> rfl
    | stops e => rfl

/-- The sources whose file is there. -/
abbrev there (sources : List Source) (s : Card) : List Source :=
  sources.filter fun src => (s.boot src.name).isSome

theorem there_cons (source : Source) (sources : List Source) (s : Card) :
    there (source :: sources) s = if (s.boot source.name).isSome then source :: there sources s
      else there sources s := List.filter_cons

theorem run_present (sources : List Source) (s : Card) :
    (present sources).run serve s = (.ok (there sources s), s) := by
  induction sources with
  | nil => rfl
  | cons source sources ih =>
    change Prog.run serve (present sources >>= _) s = _
    rw [run_bind, ih, there_cons]
    rfl

theorem planOf_there (sources : List Source) (s : Card) :
    planOf py (there sources s) s.boot = planOf py sources s.boot := by
  rw [planOf, planOf, List.filterMap_filter]
  refine List.filterMap_congr fun source _ => ?_
  cases s.boot source.name <;> rfl

theorem there_isSome (sources : List Source) (s : Card) :
    ∀ src ∈ there sources s, (s.boot src.name).isSome :=
  fun _ h => (List.mem_filter.mp h).2

theorem without_nil (s : Card) : s.without [] = s := by
  simp [Card.without]

theorem without_cons (s : Card) (name : String) (names : List String) :
    (s.unlinkBoot name).without names = s.without (name :: names) := by
  have hboot : ∀ other, (if other ∈ names then none else Function.update s.boot name none other) =
      if other ∈ name :: names then none else s.boot other := by
    intro other
    by_cases heq : other = name
    · simp [heq]
    · simp [heq]
  rw [Card.without, Card.without]
  exact congrArg (fun boot => Card.mk boot s.data) (funext hboot)

theorem run_removeAll (names : List String) (s : Card) :
    (removeAll names).run serve s = (.ok (), s.without names) := by
  induction names generalizing s with
  | nil => rw [without_nil]; rfl
  | cons name names ih =>
    have hone : (unlinkBoot name).run serve s = (.ok (), s.unlinkBoot name) := rfl
    rw [removeAll, run_bind_ok hone, ih, without_cons]

theorem run_ensure {F : Interface} {ε α σ : Type} {h : σ → (c : F.Call) → F.Ans c × σ}
    {p : Prog F ε α} {fin : Prog F ε Unit} {s t u : σ} {a : α} (hp : p.run h s = (.ok a, t))
    (hfin : fin.run h t = (.ok (), u)) : (p.ensure fin).run h s = (.ok a, u) := by
  induction p generalizing s with
  | ret b =>
    obtain ⟨hb, rfl⟩ := Prod.mk.inj hp
    cases hb
    exact run_bind_ok hfin
  | raise e => cases (Prod.mk.inj hp).1
  | call c k ih => exact ih _ hp

/-- Without a failure, the import does what it is for. -/
theorem run_import (py : Python) (s : Card) :
    (importBootFiles py).run serve s = imported py s := by
  have hfiles : (importFiles py (there (bootSources py) s)).run serve s = ended s (plan py s) := by
    rw [run_importFiles (there_isSome _ s), planOf_there]
  rw [importBootFiles, run_bind_ok (run_present _ s), run_bind, hfiles, imported]
  rcases ended s (plan py s) with ⟨result, after⟩
  cases result with
  | error e => rfl
  | ok names =>
    by_cases hnames : names = []
    · simp only [hnames, without_nil]
      rfl
    · simp only [Prog.when_pos hnames]
      exact run_ensure (run_removeAll names after) rfl

/-! ### What an import leaves -/

/-- What the networks leave on DATA: the last one of a name has the last word. -/
structure Recorded (nets : List WifiNetwork) (before after : Place → Option Content) : Prop where
  last : ∀ earlier net later, nets = earlier ++ net :: later → (∀ n ∈ later, n.ssid ≠ net.ssid) →
    after (.network (ownFile net)) = some (.text (iwdFileContent net)) ∧
      after (.network (otherFile net)) = none
  others : ∀ name, (∀ net ∈ nets, ¬ IsOf net.ssid name) →
    after (.network name) = before (.network name)
  country : ∀ earlier net later, nets = earlier ++ net :: later → net.country ≠ [] →
    (∀ n ∈ later, n.country = []) →
    after .country = some (.text (net.country.map Char.toUpper ++ ['\n']))
  kept : (∀ net ∈ nets, net.country = []) → after .country = before .country

theorem owns_isOf {net : WifiNetwork} {name : FileName} :
    (writes net).owns (.network name) = true ↔ IsOf net.ssid name := by
  simp [writes, IsOf, or_comm]

theorem free_later {place : Place} {later : List WifiNetwork}
    (h : ∀ n ∈ later, (writes n).owns place = false) : Overwrites.Free (later.map writes) place := by
  intro w hw
  obtain ⟨n, hn, rfl⟩ := List.mem_map.mp hw
  exact h n hn

theorem written_last {earlier later : List WifiNetwork} {net : WifiNetwork} {place : Place}
    (data : Place → Option Content) (howns : (writes net).owns place = true)
    (hlater : ∀ n ∈ later, (writes n).owns place = false) :
    written (earlier ++ net :: later) data place = (writes net).value place := by
  rw [written, List.map_append, List.map_cons, Overwrites.all_last howns (free_later hlater)]

theorem recorded (nets : List WifiNetwork) (data : Place → Option Content) :
    Recorded nets data (written nets data) := by
  refine ⟨?_, ?_, ?_, ?_⟩
  · rintro earlier net later rfl hlater
    have hfree : ∀ name, IsOf net.ssid name → ∀ n ∈ later,
        (writes n).owns (.network name) = false := by
      intro name hname n hn
      rw [← Bool.not_eq_true, owns_isOf]
      exact fun h => hlater n hn (IsOf.same h hname)
    have hown : IsOf net.ssid (ownFile net) := ⟨_, rfl⟩
    have hother : IsOf net.ssid (otherFile net) := ⟨_, rfl⟩
    rw [written_last data (owns_isOf.mpr hown) (hfree _ hown),
      written_last data (owns_isOf.mpr hother) (hfree _ hother)]
    exact ⟨if_pos rfl, if_neg (other_ne_own net)⟩
  · intro name hname
    refine Overwrites.all_free (free_later fun n hn => ?_)
    rw [← Bool.not_eq_true, owns_isOf]
    exact hname n hn
  · rintro earlier net later rfl hcountry hlater
    rw [written_last data (owns_country.mpr hcountry) fun n hn => ?_]
    · rfl
    · rw [← Bool.not_eq_true, owns_country, not_not]
      exact hlater n hn
  · intro hnone
    refine Overwrites.all_free (free_later fun n hn => ?_)
    rw [← Bool.not_eq_true, owns_country, not_not]
    exact hnone n hn

/-- Only two of the files can stop the import: a network-config in which a backslash stands before
a double quote, and a rpi-preseed.toml whose `wlan` is no table, or on which `tomllib` gives up
other than by a ValueError. -/
inductive Stops (py : Python) : String → Codes → Exn → Prop
  | scalar {text : Codes} : EscapedQuote text → Stops py "network-config" text .key
  | table {text : Codes} : NoTable py text → Stops py "rpi-preseed.toml" text .attribute
  | toml {text : Codes} {e : Exn} : py.loads text = .error (.other e) → e.caught = false →
    Stops py "rpi-preseed.toml" text e

theorem always_caught {name : String} {parse : Codes → Except Exn WifiNetwork}
    {h : ∀ text, Ends (parse text) WifiNetwork.Valid (·.caught = true)} {text : Codes} {e : Exn}
    (he : (Source.always name parse h).parse text = .error e) : e.caught = true := by
  change (parse text).map some = .error e at he
  cases hparse : parse text with
  | ok net =>
    rw [hparse] at he
    cases he
  | error e' =>
    rw [hparse] at he
    cases he
    exact (h text).error hparse

theorem source_stops (hsource : source ∈ bootSources py) {text : Codes} {e : Exn}
    (hparse : source.parse text = .error e) (he : e.caught = false) :
    Stops py source.name text e := by
  have hno : ¬ e.caught = true := by
    rw [he]
    exact Bool.false_ne_true
  simp only [bootSources, List.mem_cons, List.not_mem_nil, or_false] at hsource
  rcases hsource with rfl | rfl | rfl | rfl | rfl | rfl
  · exact (hno (always_caught hparse)).elim
  · exact (hno ((parseFirstrun_ends text).error hparse)).elim
  · rcases (parseNetworkConfig_ends text).error hparse with h | ⟨rfl, h⟩
    · exact (hno h).elim
    · exact .scalar h
  · rcases (parsePreseedToml_ends py text).error hparse with h | ⟨rfl, h⟩ | h
    · exact (hno h).elim
    · exact .table h
    · exact .toml h he
  · exact (hno (always_caught hparse)).elim
  · exact (hno (always_caught hparse)).elim

theorem stop_mem {plan : Plan} {e : Exn} (h : stop plan = some e) :
    ∃ name, (name, .stops e) ∈ plan := by
  induction plan with
  | nil => cases h
  | cons p rest ih =>
    obtain ⟨name, reading⟩ := p
    cases reading with
    | stops e' =>
      cases h
      exact ⟨name, .head _⟩
    | _ =>
      obtain ⟨other, hother⟩ := ih h
      exact ⟨other, .tail _ hother⟩

theorem reading_stops {e : Exn} (h : source.reading py data = .stops e) :
    source.parse (decodeBootFile py data) = .error e ∧ e.caught = false := by
  rw [Source.reading] at h
  split_ifs at h
  split at h
  · rename_i hparse
    split_ifs at h with hcaught
    cases h
    exact ⟨hparse, Bool.eq_false_iff.mpr hcaught⟩
  · cases h
  · cases h

/-- The card after an import that no file stopped. -/
structure Imported (py : Python) (before after : Card) : Prop where
  data : Recorded (networks (plan py before)) before.data after.data
  boot : after.boot = (before.without (consumed (plan py before))).boot

/-- The card after an import that a file stopped: the networks before it are known, and every file
is still there. -/
structure Stopped (py : Python) (before after : Card) (e : Exn) : Prop where
  data : Recorded (networks (plan py before)) before.data after.data
  boot : after.boot = before.boot
  cause : ∃ source ∈ bootSources py, ∃ data, before.boot source.name = some data ∧
    source.parse (decodeBootFile py data) = .error e ∧
    Stops py source.name (decodeBootFile py data) e

/-- One bad file stops the others in two cases only; otherwise every network is written whose own
file parses, and exactly the files that were used are deleted. -/
theorem import_result (py : Python) (card : Card) :
    (∃ after, (importBootFiles py).run serve card = (.ok (), after) ∧ Imported py card after) ∨
      ∃ e after, (importBootFiles py).run serve card = (.error (.exn e), after) ∧
        Stopped py card after e := by
  rw [run_import]
  cases hstop : stop (plan py card) with
  | none =>
    left
    rw [imported, ended, hstop]
    exact ⟨_, rfl, recorded _ _, rfl⟩
  | some e =>
    right
    rw [imported, ended, hstop]
    refine ⟨e, _, rfl, recorded _ _, rfl, ?_⟩
    obtain ⟨name, hmem⟩ := stop_mem hstop
    obtain ⟨source, hsource, hfile⟩ := List.mem_filterMap.mp hmem
    obtain ⟨data, hdata, hreading⟩ := Option.map_eq_some_iff.mp hfile
    obtain ⟨hparse, hcaught⟩ := reading_stops (Prod.mk.inj hreading).2
    exact ⟨source, hsource, data, hdata, hparse, source_stops hsource hparse hcaught⟩

end Epilykos.Wifi.BootImport
