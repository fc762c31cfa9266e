import Epilykos.Adoption.Baseline

/-!
What adoption takes over is what the updater runs and the floor it keeps, where the updater
can read the file that the adopted app comes from.
-/

namespace Epilykos.Adoption

open Text
open PlatformEnv (Bytes ascii uint64Max)
open OsUpdate (Json pyInt)

/-! ### What was collected -/

/-- image.env as the strict reader takes it. -/
structure Image (box : Box) (text : List Char) (values : Values) (base : Identity) : Prop where
  opened : ∃ raw, box.image.opened = some raw ∧ Utf8.decode raw = some text
  parsed : ∃ raw, box.image = .regular raw ∧ asciiText raw = .ok text
  read : envText text = .ok values
  base : parseBaselineText values = .ok base

theorem asciiText_ok {raw : Bytes} {text : List Char} (h : asciiText raw = .ok text) :
    Utf8.decode raw = some text := by
  rw [asciiText] at h
  split_ifs at h with hall
  rw [Utf8.decode_ascii (by simpa using hall), ← Except.ok.inj h]

theorem readState_ok {maximum : ℕ} {entry : Entry} {raw : Bytes}
    (h : readState maximum entry = .ok raw) : entry = .regular raw := by
  cases entry with
  | regular raw' =>
    rw [readState] at h
    split_ifs at h
    rw [Except.ok.inj h]
  | missing => cases h
  | other opened => cases h

/-- The two ways to an app: nothing was promoted, or something was, with its floor. -/
inductive Adopted (M : JsonModule) (files : Updater) (base : Identity) : Identity → Prop
  | baseline : files.current = .missing → files.floor = .missing →
      Adopted M files base base
  | promoted (promoted : Identity) : promotedOf M files.current = .ok promoted →
      (∃ raw, files.floor = .regular raw ∧ decimal raw = .ok promoted.sequence) →
      promoted.channel = base.channel →
      Adopted M files base (if base.sequence ≤ promoted.sequence then promoted else base)

theorem present_false {entry : Entry} (h : entry.present = false) : entry = .missing := by
  cases entry with
  | missing => rfl
  | regular raw => cases h
  | other opened => cases h

theorem adopted_ok {M : JsonModule} {files : Updater} {base app : Identity} {floor : ℕ}
    (h : adopted M files base = .ok (app, floor)) :
    Adopted M files base app ∧ floor = app.sequence := by
  rw [adopted] at h
  by_cases hcurrent : files.current.present = true
  · rw [if_pos hcurrent] at h
    obtain ⟨promoted, hpromoted, h⟩ := bind_ok h
    obtain ⟨raw, hraw, h⟩ := bind_ok h
    obtain ⟨stored, hdecimal, h⟩ := bind_ok h
    by_cases hconflict : promoted.channel ≠ base.channel ∨ stored ≠ promoted.sequence
    · rw [if_pos hconflict] at h
      cases h
    · rw [if_neg hconflict] at h
      rw [not_or, not_not, not_not] at hconflict
      obtain ⟨-, -, h⟩ := bind_ok h
      obtain ⟨rfl, rfl⟩ := Prod.mk.inj (Except.ok.inj h)
      obtain ⟨hchannel, rfl⟩ := hconflict
      refine ⟨.promoted promoted hpromoted ⟨raw, readState_ok hraw, hdecimal⟩ hchannel, ?_⟩
      split_ifs with hle
      · exact Nat.max_eq_right hle
      · exact Nat.max_eq_left (by omega)
  · rw [if_neg hcurrent] at h
    split_ifs at h with hsurvives
    obtain ⟨rfl, rfl⟩ := Prod.mk.inj (Except.ok.inj h)
    simp only [Bool.or_eq_true, not_or, Bool.not_eq_true] at hsurvives hcurrent
    exact ⟨.baseline (present_false hcurrent) (present_false hsurvives.1.1), rfl⟩

theorem collectSource_ok {M : JsonModule} {box : Box} {allowLegacy : Bool} {source : Source}
    (h : collectSource M box allowLegacy = .ok source) : ∃ text values base,
      Image box text values base ∧ Adopted M box.updater.files base source.app ∧
      source.appFloor = source.app.sequence ∧ source.channel = base.channel := by
  rw [collectSource] at h
  obtain ⟨raw, hraw, h⟩ := bind_ok h
  obtain ⟨values, hvalues, h⟩ := bind_ok h
  obtain ⟨base, hbase, h⟩ := bind_ok h
  obtain ⟨text, htext, hread⟩ := bind_ok hvalues
  obtain ⟨values', hvalues', hparse⟩ := bind_ok hbase
  obtain rfl := Except.ok.inj (hvalues.symm.trans hvalues')
  have himage := readState_ok hraw
  by_cases hlegacy : (!allowLegacy || box.platform ||
      !isLegacy ((values.lookup keyOsVersion).getD [])) = true
  · simp only [if_pos hlegacy] at h
    cases h
  simp only [if_neg hlegacy] at h
  refine ⟨text, values, base, ⟨⟨raw, by rw [himage]; rfl, asciiText_ok htext⟩, ⟨raw, himage, htext⟩,
    hread, hparse⟩, ?_⟩
  split at h
  · cases h
  · by_cases hjob : box.updater.files.job.present = true
    · rw [if_pos hjob] at h
      cases h
    · rw [if_neg hjob] at h
      obtain ⟨⟨app, floor⟩, hadopted, hsource⟩ := bind_ok h
      obtain rfl := Except.ok.inj hsource
      obtain ⟨happ, hfloor⟩ := adopted_ok hadopted
      exact ⟨happ, hfloor, rfl⟩

/-! ### The plan -/

/-- A plan keeps the floor and does not put another app at the same sequence. -/
def PlanKeeps (source : Source) : Prop :=
  ∀ target, (∃ e, adoptionPlan source target = .error e) ∨
    ∃ plan, adoptionPlan source target = .ok plan ∧
      source.appFloor ≤ plan.targetApp.sequence ∧
      (plan.targetApp.sequence = source.app.sequence → plan.targetApp = source.app)

theorem planKeeps {source : Source} (hvalid : Valid source.app) : PlanKeeps source := by
  intro target
  cases hplan : adoptionPlan source target with
  | error e => exact Or.inl ⟨e, rfl⟩
  | ok plan =>
    refine Or.inr ⟨plan, rfl, ?_⟩
    obtain ⟨fields, hfields, hreports⟩ := reports_json source.app
    have happ : identity source.app.json = .ok source.app := by
      rw [hfields]
      exact identity_of hreports hvalid
    rw [adoptionPlan] at hplan
    obtain ⟨app, hid, hplan⟩ := bind_ok hplan
    obtain rfl : source.app = app := Except.ok.inj (happ.symm.trans hid)
    obtain ⟨targetApp, -, hplan⟩ := bind_ok hplan
    obtain ⟨floor, hfloor, hplan⟩ := bind_ok hplan
    obtain ⟨rfl, -⟩ := integer_ok hfloor
    split_ifs at hplan with hsource hlow hconflict
    obtain rfl := Except.ok.inj hplan
    rw [not_or, Nat.not_lt] at hlow
    refine ⟨hlow.2, ?_⟩
    intro hsequence
    by_contra hne
    exact hconflict ⟨hsequence, hne⟩

/-! ### The updater's reading -/

/-- The updater can read current.json: it is JSON as UTF-8 text. -/
def Readable (M : JsonModule) (current : Entry) : Prop :=
  ∃ raw text value, current.opened = some raw ∧ Utf8.decode raw = some text ∧
    M.loads text = some value

theorem readEnv_image {box : Box} {text : List Char} {values : Values} {base : Identity}
    (h : Image box text values base) : readEnv box.image = .ok (fileEnv text) := by
  obtain ⟨raw, hopened, hdecode⟩ := h.opened
  simp only [readEnv, hopened, hdecode]

/-- What the strict reader takes of current.json the updater reads too, if it can. -/
theorem readJson_promoted {M : JsonModule} {current : Entry} {promoted : Identity}
    (h : promotedOf M current = .ok promoted) (hreadable : Readable M current) :
    ∃ fields, readJson M current = some (.obj fields) ∧ Reports fields promoted := by
  obtain ⟨raw, hraw, h⟩ := bind_ok h
  obtain ⟨value, hvalue, h⟩ := bind_ok h
  obtain ⟨fields, rfl, hreports, -⟩ := identity_ok h
  obtain rfl := readState_ok hraw
  obtain ⟨raw', text, value', hopened, hdecode, hloads⟩ := hreadable
  obtain rfl := Option.some.inj hopened
  rw [jsonState, M.utf8 raw text value' hdecode hloads] at hvalue
  simp only at hvalue
  split_ifs at hvalue
  obtain rfl := Except.ok.inj hvalue
  refine ⟨fields, ?_, hreports⟩
  rw [readJson, hopened, Option.bind_some, hdecode, Option.bind_some, hloads]

theorem readJson_unreadable {M : JsonModule} {current : Entry} (h : ¬Readable M current) :
    readJson M current = none := by
  cases hread : readJson M current with
  | none => rfl
  | some value =>
    obtain ⟨raw, hopened, hread⟩ := Option.bind_eq_some_iff.mp hread
    obtain ⟨text, hdecode, hloads⟩ := Option.bind_eq_some_iff.mp hread
    exact absurd ⟨raw, text, value, hopened, hdecode, hloads⟩ h

theorem Reports.lookup {fields : List (String × Json)} {app : Identity}
    (h : Reports fields app) : (fields.lookup "sequence").isSome = true ∧ fields ≠ [] := by
  have hreverse : fields.reverse.lookup "sequence" ≠ none := by
    intro hnone
    have hsequence := h.sequence
    rw [field, hnone] at hsequence
    cases hsequence
  have hsome : fields.lookup "sequence" ≠ none := by
    intro hnone
    rw [List.lookup_eq_none_iff] at hnone
    refine hreverse (List.lookup_eq_none_iff.mpr ?_)
    intro p hp
    exact hnone p (List.mem_reverse.mp hp)
  refine ⟨Option.isSome_iff_ne_none.mpr hsome, ?_⟩
  rintro rfl
  exact hsome rfl

theorem current_promoted {M : JsonModule} {box : Box} {text : List Char} {values : Values}
    {base promoted : Identity} (himage : Image box text values base)
    (hpromoted : promotedOf M box.updater.files.current = .ok promoted)
    (hreadable : Readable M box.updater.files.current) :
    ∃ fields, Reports fields promoted ∧ current M box =
      some (if envSequence (fileEnv text) ≤ promoted.sequence then fields
        else baseline (fileEnv text)) := by
  obtain ⟨fields, hread, hreports⟩ := readJson_promoted hpromoted hreadable
  obtain ⟨hsome, hne⟩ := hreports.lookup
  refine ⟨fields, hreports, ?_⟩
  have htruthy : truthy M (.obj fields) = true := by simpa [truthy] using hne
  simp only [current, readEnv_image himage, hread, htruthy, if_true, hsome, hreports.sequence,
    toInt, Option.map_some]

theorem current_baseline {M : JsonModule} {box : Box} {text : List Char} {values : Values}
    {base : Identity} (himage : Image box text values base)
    (hread : readJson M box.updater.files.current = none) :
    current M box = some (baseline (fileEnv text)) := by
  simp only [current, readEnv_image himage, hread]

/-- `floor()` reads back what `decimal` read. -/
theorem floor_stored {box : Box} {text : List Char} {values : Values} {base : Identity}
    (himage : Image box text values base) {raw : Bytes} {stored : ℕ}
    (hfloor : box.updater.files.floor = .regular raw) (hstored : decimal raw = .ok stored) :
    floor box = some (max (stored : ℤ) (envSequence (fileEnv text))) := by
  obtain ⟨chars, hchars, hdecimal⟩ := bind_ok hstored
  obtain ⟨digits, hdigits, hall, hne, rfl, -⟩ := decimalText_ok hdecimal
  obtain ⟨hhead, hlast⟩ := digits_ends hall
  have hstrip : strip chars = digits := by
    have hself : strip digits = digits := Stripped.strip_eq ⟨hhead, hlast⟩
    obtain rfl | rfl := hdigits
    · exact hself
    · have hhead' : ∀ c ∈ (digits ++ ['\n']).head?, isSpace c = false := by
        rw [List.head?_append_of_ne_nil _ hne]
        exact hhead
      have hlead : strip ([] ++ (digits ++ ['\n'])) = rstrip (digits ++ ['\n']) :=
        strip_lead (by simp) hhead'
      obtain ⟨a, d, rfl⟩ := (List.eq_nil_or_concat digits).resolve_left hne
      rw [List.nil_append] at hlead
      rw [hlead, List.concat_eq_append, List.append_assoc, List.singleton_append,
        rstrip_append (hlast d (by simp)), rstrip_spaces (by simp [isSpace])]
  simp only [floor, hfloor, Entry.opened, Option.bind_some, asciiText_ok hchars, hstrip,
    pyInt_digits hall hne, Option.getD_some, readEnv_image himage]

theorem floor_missing {box : Box} {text : List Char} {values : Values} {base : Identity}
    (himage : Image box text values base) (hfloor : box.updater.files.floor = .missing) :
    floor box = some (max 0 (envSequence (fileEnv text))) := by
  simp only [floor, hfloor, Entry.opened, Option.bind_none, Option.getD_none,
    readEnv_image himage]

/-! ### Where the floor is kept -/

/-- The source says what the updater says, its floor is its app's sequence, and every plan
keeps it. -/
structure Kept (M : JsonModule) (box : Box) (source : Source) : Prop where
  current : ∃ fields, Adoption.current M box = some fields ∧ Reports fields source.app
  floor : Adoption.floor box = some (source.appFloor : ℤ)
  sequence : source.appFloor = source.app.sequence
  plan : PlanKeeps source

/-- The adopted app comes from current.json, which the updater can read. -/
def FromPromoted (M : JsonModule) (box : Box) : Prop :=
  ∃ text values base promoted, Image box text values base ∧
    promotedOf M box.updater.files.current = .ok promoted ∧
    base.sequence ≤ promoted.sequence ∧ Readable M box.updater.files.current

/-- The adopted app is the one of image.env, which is plain. -/
def FromImage (M : JsonModule) (box : Box) : Prop :=
  ∃ text values base, Image box text values base ∧ PlainImage text values ∧
    (box.updater.files.current = .missing ∨
      ∃ promoted, promotedOf M box.updater.files.current = .ok promoted ∧
        (promoted.sequence < base.sequence ∨ promoted = base))

theorem Image.unique {box : Box} {text text' : List Char} {values values' : Values}
    {base base' : Identity} (h : Image box text values base)
    (h' : Image box text' values' base') : text = text' ∧ values = values' ∧ base = base' := by
  obtain ⟨raw, hraw, htext⟩ := h.parsed
  obtain ⟨raw', hraw', htext'⟩ := h'.parsed
  obtain rfl := Entry.regular.inj (hraw.symm.trans hraw')
  obtain rfl := Except.ok.inj (htext.symm.trans htext')
  obtain rfl := Except.ok.inj (h.read.symm.trans h'.read)
  obtain rfl := Except.ok.inj (h.base.symm.trans h'.base)
  exact ⟨rfl, rfl, rfl⟩

section Cases

variable {M : JsonModule} {box : Box} {text : List Char} {values : Values}
  {base promoted : Identity} {source : Source}

/-- The lenient baseline reports the strict one in a plain image.env only. -/
theorem Image.reports_iff (himage : Image box text values base) :
    Reports (baseline (fileEnv text)) base ↔ PlainImage text values :=
  baseline_reports_iff (parseBaselineText_ok himage.base) (envText_read himage.read)

theorem Image.plain (himage : Image box text values base) (h : FromImage M box) :
    PlainImage text values := by
  obtain ⟨text', values', base', himage', hplain, -⟩ := h
  obtain ⟨rfl, rfl, rfl⟩ := himage.unique himage'
  exact hplain

theorem kept_baseline (himage : Image box text values base)
    (hcurrent : box.updater.files.current = .missing) (hfile : box.updater.files.floor = .missing)
    (happ : source.app = base) (hfloor : source.appFloor = source.app.sequence) :
    Kept M box source ↔ FromPromoted M box ∨ FromImage M box := by
  have hnone : readJson M box.updater.files.current = none := by
    rw [hcurrent]
    rfl
  constructor
  · intro hkept
    obtain ⟨fields, hfields, hreports⟩ := hkept.current
    rw [current_baseline himage hnone] at hfields
    obtain rfl := Option.some.inj hfields
    rw [happ] at hreports
    exact Or.inr ⟨text, values, base, himage, himage.reports_iff.mp hreports, Or.inl hcurrent⟩
  · intro h
    obtain ⟨text', values', base', promoted, -, hpromoted, -⟩ | h := h
    · rw [hcurrent] at hpromoted
      cases hpromoted
    · have hreports := himage.reports_iff.mpr (himage.plain h)
      have hsequence : envSequence (fileEnv text) = base.sequence :=
        Json.int.inj hreports.sequence
      refine ⟨⟨_, current_baseline himage hnone, happ ▸ hreports⟩, ?_, hfloor,
        planKeeps (happ ▸ (parseBaselineText_ok himage.base).valid)⟩
      rw [floor_missing himage hfile, hsequence, hfloor, happ]
      exact congrArg some (Int.max_eq_right (by omega))

theorem promotedOf_valid {current : Entry} (h : promotedOf M current = .ok promoted) :
    Valid promoted := by
  obtain ⟨raw, -, h⟩ := bind_ok h
  obtain ⟨value, -, h⟩ := bind_ok h
  obtain ⟨fields, -, -, hvalid⟩ := identity_ok h
  exact hvalid

theorem kept_promoted (himage : Image box text values base)
    (hpromoted : promotedOf M box.updater.files.current = .ok promoted)
    (hfile : ∃ raw, box.updater.files.floor = .regular raw ∧
      decimal raw = .ok promoted.sequence)
    (hle : base.sequence ≤ promoted.sequence) (happ : source.app = promoted)
    (hfloor : source.appFloor = source.app.sequence) :
    Kept M box source ↔ FromPromoted M box ∨ FromImage M box := by
  have hread := envText_read himage.read
  have hb := parseBaselineText_ok himage.base
  obtain ⟨raw, hraw, hdecimal⟩ := hfile
  have hbound : envSequence (fileEnv text) ≤ promoted.sequence := by
    obtain ⟨heq, -⟩ | ⟨hzero, -⟩ := hb.sequence_cases hread
    · omega
    · omega
  have hfloorIs : floor box = some (source.appFloor : ℤ) := by
    rw [floor_stored himage hraw hdecimal, hfloor, happ]
    exact congrArg some (Int.max_eq_left hbound)
  have hplan : PlanKeeps source := planKeeps (happ ▸ promotedOf_valid hpromoted)
  by_cases hreadable : Readable M box.updater.files.current
  · obtain ⟨fields, hreports, hcurrent⟩ := current_promoted himage hpromoted hreadable
    rw [if_pos hbound] at hcurrent
    refine ⟨fun _ => Or.inl ⟨text, values, base, promoted, himage, hpromoted, hle, hreadable⟩,
      fun _ => ⟨⟨fields, hcurrent, happ ▸ hreports⟩, hfloorIs, hfloor, hplan⟩⟩
  · have hcurrent := current_baseline himage (readJson_unreadable hreadable)
    constructor
    · intro hkept
      obtain ⟨fields, hfields, hreports⟩ := hkept.current
      rw [hcurrent] at hfields
      obtain rfl := Option.some.inj hfields
      rw [happ] at hreports
      have hsame := reports_eq hb hread (promotedOf_valid hpromoted) hreports
      rw [hsame] at hreports
      exact Or.inr ⟨text, values, base, himage, himage.reports_iff.mp hreports,
        Or.inr ⟨promoted, hpromoted, Or.inr hsame⟩⟩
    · intro h
      obtain ⟨-, -, -, -, -, -, -, hreadable'⟩ | h := h
      · exact absurd hreadable' hreadable
      · have hreports := himage.reports_iff.mpr (himage.plain h)
        obtain ⟨text', values', base', himage', -, hmissing | ⟨promoted', hpromoted', hcase⟩⟩ := h
        · rw [hmissing] at hpromoted
          cases hpromoted
        · obtain ⟨rfl, rfl, rfl⟩ := himage.unique himage'
          obtain rfl := Except.ok.inj (hpromoted.symm.trans hpromoted')
          obtain hlt | rfl := hcase
          · omega
          · exact ⟨⟨_, hcurrent, happ ▸ hreports⟩, hfloorIs, hfloor, hplan⟩

theorem kept_older (himage : Image box text values base)
    (hpromoted : promotedOf M box.updater.files.current = .ok promoted)
    (hfile : ∃ raw, box.updater.files.floor = .regular raw ∧
      decimal raw = .ok promoted.sequence)
    (hlt : promoted.sequence < base.sequence) (happ : source.app = base)
    (hfloor : source.appFloor = source.app.sequence) :
    Kept M box source ↔ FromPromoted M box ∨ FromImage M box := by
  obtain ⟨raw, hraw, hdecimal⟩ := hfile
  have hcurrent : ∀ fields, current M box = some fields → Reports fields base →
      Reports (baseline (fileEnv text)) base := by
    intro fields hfields hreports
    by_cases hreadable : Readable M box.updater.files.current
    · obtain ⟨fields', hreports', hcurrent⟩ := current_promoted himage hpromoted hreadable
      rw [hcurrent] at hfields
      split_ifs at hfields
      · obtain rfl := Option.some.inj hfields
        have hsame := hreports.sequence.symm.trans hreports'.sequence
        have := Json.int.inj hsame
        omega
      · obtain rfl := Option.some.inj hfields
        exact hreports
    · rw [current_baseline himage (readJson_unreadable hreadable)] at hfields
      obtain rfl := Option.some.inj hfields
      exact hreports
  constructor
  · intro hkept
    obtain ⟨fields, hfields, hreports⟩ := hkept.current
    rw [happ] at hreports
    exact Or.inr ⟨text, values, base, himage,
      himage.reports_iff.mp (hcurrent fields hfields hreports),
      Or.inr ⟨promoted, hpromoted, Or.inl hlt⟩⟩
  · intro h
    obtain ⟨text', values', base', promoted', himage', hpromoted', hle, -⟩ | h := h
    · obtain ⟨-, -, rfl⟩ := himage.unique himage'
      obtain rfl := Except.ok.inj (hpromoted.symm.trans hpromoted')
      omega
    · have hreports := himage.reports_iff.mpr (himage.plain h)
      have hsequence : envSequence (fileEnv text) = base.sequence :=
        Json.int.inj hreports.sequence
      have hbase : current M box = some (baseline (fileEnv text)) := by
        by_cases hreadable : Readable M box.updater.files.current
        · obtain ⟨fields, -, hcurrent⟩ := current_promoted himage hpromoted hreadable
          rw [hcurrent, if_neg (by omega)]
        · exact current_baseline himage (readJson_unreadable hreadable)
      refine ⟨⟨_, hbase, happ ▸ hreports⟩, ?_, hfloor,
        planKeeps (happ ▸ (parseBaselineText_ok himage.base).valid)⟩
      rw [floor_stored himage hraw hdecimal, hsequence, hfloor, happ]
      exact congrArg some (Int.max_eq_right (by omega))

end Cases

/-- Adoption takes over what the updater says and the floor it keeps exactly where the updater
can read the file that the app comes from. -/
theorem collectSource_keeps_iff (M : JsonModule) (box : Box) (allowLegacy : Bool)
    (source : Source) (h : collectSource M box allowLegacy = .ok source) :
    Kept M box source ↔ FromPromoted M box ∨ FromImage M box := by
  obtain ⟨text, values, base, himage, hadopted, hfloor, -⟩ := collectSource_ok h
  generalize happ : source.app = app at hadopted
  cases hadopted with
  | baseline hcurrent hfile => exact kept_baseline himage hcurrent hfile happ hfloor
  | promoted promoted hpromoted hfile hchannel =>
    by_cases hle : base.sequence ≤ promoted.sequence
    · rw [if_pos hle] at happ
      exact kept_promoted himage hpromoted hfile hle happ hfloor
    · rw [if_neg hle] at happ
      exact kept_older himage hpromoted hfile (by omega) happ hfloor

/-! ### A sample card -/

/-- A module that has nothing to read. -/
def sampleModule : JsonModule where
  loads _ := none
  loadBytes _ := none
  float _ := (false, 0)
  utf8 _ _ _ _ h := by cases h

/-- An image.env, with the character after docker. -/
def sampleImage (dot : UInt8) : Bytes :=
  ascii "EPILYKOS_CHANNEL=dev\nEPILYKOS_SEQUENCE=7\nEPILYKOS_RELEASE=1\n" ++
    ascii "EPILYKOS_OS_VERSION=0.6\nEPILYKOS_IMAGE_ID=" ++ List.replicate 64 98 ++
    ascii "\nEPILYKOS_IMAGE_REF=docker" ++ [dot] ++ ascii "io/e@sha256:" ++
    List.replicate 64 97 ++ [10]

/-- A box on which nothing was promoted. -/
def sampleBox (dot : UInt8) : Box := ⟨.regular (sampleImage dot), false, .missing⟩

def sampleDigest : List Char := digestStart ++ List.replicate 64 'a'

def sampleApp : Identity :=
  ⟨"dev", 7, String.ofList sampleDigest, String.ofList (List.replicate 64 'b'), "1"⟩

def sampleSource : Source := ⟨"dev", sampleApp, 7, ['0', '.', '6']⟩

theorem collectSource_sample (dot : UInt8) (h : dot = 46 ∨ dot = 64) :
    collectSource sampleModule (sampleBox dot) true = .ok sampleSource := by
  obtain rfl | rfl := h
  · decide +kernel
  · decide +kernel

def sampleText (dot : UInt8) : List Char := (sampleImage dot).map fun b => Char.ofNat b.toNat

def sampleRef : List Char := "docker.io/e@".toList ++ sampleDigest

def sampleValues : Values :=
  [(keyChannel, "dev".toList), (keySequence, ['7']), (keyRelease, ['1']),
    (keyOsVersion, "0.6".toList), (keyImageId, List.replicate 64 'b'), (keyImageRef, sampleRef)]

theorem sampleText_eq : asciiText (sampleImage 46) = .ok (sampleText 46) := by
  decide +kernel

theorem image_sample : Image (sampleBox 46) (sampleText 46) sampleValues sampleApp where
  opened := ⟨_, rfl, asciiText_ok sampleText_eq⟩
  parsed := ⟨_, rfl, sampleText_eq⟩
  read := by decide +kernel
  base := by decide +kernel

theorem fromImage_sample : FromImage sampleModule (sampleBox 46) := by
  refine ⟨sampleText 46, sampleValues, sampleApp, image_sample, ⟨?_, ?_⟩, Or.inl rfl⟩
  · have hlines : (appKeys.all fun key => (sampleValues.lookup key).any fun value =>
        ((fileLines (sampleText 46)).map strip).contains (key ++ '=' :: value)) = true := by
      decide +kernel
    intro key hkey
    have hline := List.all_eq_true.mp hlines key hkey
    cases hvalue : sampleValues.lookup key with
    | none =>
      rw [hvalue] at hline
      cases hline
    | some value =>
      rw [hvalue] at hline
      exact ⟨value, rfl, List.contains_iff_mem.mp hline⟩
  · intro ref href
    have hsample : sampleValues.lookup keyImageRef = some sampleRef := by decide +kernel
    obtain rfl := Option.some.inj (hsample.symm.trans href)
    decide +kernel

/-- The sample is adopted as the updater reports it. -/
theorem collectSource_keeps_sample : Kept sampleModule (sampleBox 46) sampleSource :=
  (collectSource_keeps_iff sampleModule (sampleBox 46) true sampleSource
    (collectSource_sample 46 (Or.inl rfl))).mpr (Or.inr fromImage_sample)

/-- A second separator in the reference, where the pattern's full stop lets one pass: the
updater reports another digest than the one that is adopted. -/
theorem collectSource_loses : ¬∀ M box allowLegacy source,
    collectSource M box allowLegacy = .ok source → Kept M box source := by
  intro h
  obtain ⟨fields, hfields, hreports⟩ := (h sampleModule (sampleBox 64) true sampleSource
    (collectSource_sample 64 (Or.inr rfl))).current
  have hdecode : Utf8.decode (sampleImage 64) = some (sampleText 64) :=
    asciiText_ok (by decide +kernel)
  have henv : readEnv (sampleBox 64).image = .ok (fileEnv (sampleText 64)) := by
    simp only [readEnv, sampleBox, Entry.opened, hdecode]
  have hread : readJson sampleModule (sampleBox 64).updater.files.current = none := rfl
  simp only [current, henv, hread, Option.some.injEq] at hfields
  subst hfields
  have hdigest := Json.str.inj hreports.digest
  revert hdigest
  decide +kernel

end Epilykos.Adoption
