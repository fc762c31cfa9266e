import Epilykos.SlotLinux.Dtb
import Mathlib.Algebra.Group.Nat.Defs

/-!
The check of a kernel module of an OS slot: an ELF object whose section headers and sections
lie inside the file, with one `.modinfo` that has one `vermagic`, of the slot's kernel.
-/

namespace Epilykos.SlotLinux

open Binary
open PlatformEnv (Bytes ascii)

/-- A little-endian number of some bytes at an offset. -/
def number (raw : Bytes) (offset size : ℕ) : Except Exn ℕ :=
  match unpackFrom raw offset size with
  | some bytes => .ok (littleEndian bytes)
  | none => .error .struct

/-- What is read of a section header. -/
structure Section where
  name : ℕ
  start : ℕ
  size : ℕ

/-- The fields of a header of 64 bytes, `<IIQQQQIIQQ`. -/
def Section.ofBytes (bytes : Bytes) : Section where
  name := littleEndian (slice bytes 0 4)
  start := littleEndian (slice bytes 24 32)
  size := littleEndian (slice bytes 32 40)

def sectionHeader (raw : Bytes) (offset : ℕ) : Except Exn Section :=
  match unpackFrom raw offset 64 with
  | some bytes => .ok (.ofBytes bytes)
  | none => .error .struct

/-- The headers from an offset on. -/
def sectionHeaders (raw : Bytes) (offset : ℕ) : ℕ → Except Exn (List Section)
  | 0 => .ok []
  | count + 1 => do
    let s ← sectionHeader raw offset
    let rest ← sectionHeaders raw (offset + 64) count
    return s :: rest

def sectionData (raw : Bytes) (s : Section) : Except Exn Bytes :=
  if raw.length < s.start + s.size then .error (.value "module section outside file")
  else .ok (slice raw s.start (s.start + s.size))

def modinfoName : Bytes := ascii ".modinfo"

/-- The data of the `.modinfo` sections. -/
def modinfo (raw names : Bytes) : List Section → Except Exn (List Bytes)
  | [] => .ok []
  | s :: rest =>
    match findNul names s.name names.length with
    | none => .error (.value "module section name")
    | some nul =>
      if names.length ≤ s.name then .error (.value "module section name")
      else if slice names s.name nul = modinfoName then do
        let data ← sectionData raw s
        let info ← modinfo raw names rest
        return data :: info
      else modinfo raw names rest

def vermagic : Bytes := ascii "vermagic="

def elfStart : Bytes := [0x7f, 0x45, 0x4c, 0x46, 2, 1, 1]

/-- The values of the `vermagic` entries of a `.modinfo`. -/
def vermagics (info : Bytes) : List Bytes :=
  ((info.splitOn 0).filter fun v => vermagic.isPrefixOf v).map fun v => v.drop vermagic.length

/-- `check_module`; the release comes as its UTF-8. -/
def checkModule (raw release : Bytes) : Except Exn Unit :=
  if raw.length < 64 ∨ raw.take 7 ≠ elfStart then
    .error (.value "module must be AArch64 ELF64 ET_REL")
  else do
    let type ← number raw 16 2
    let machine ← number raw 18 2
    if type ≠ 1 ∨ machine ≠ 183 then .error (.value "module must be AArch64 ELF64 ET_REL")
    else do
      let offset ← number raw 40 8
      let entrySize ← number raw 58 2
      let count ← number raw 60 2
      let stringsIndex ← number raw 62 2
      if entrySize ≠ 64 ∨ ¬(1 ≤ count ∧ count ≤ 4096) ∨ count ≤ stringsIndex ∨
          raw.length < offset + count * 64 then .error (.value "module ELF section bounds")
      else do
        let sections ← sectionHeaders raw offset count
        match sections[stringsIndex]? with
        | none => .error .index
        | some strings => do
          let names ← sectionData raw strings
          let info ← modinfo raw names sections
          match info with
          | [info] =>
            if info.getLast? ≠ some 0 then .error (.value "module .modinfo missing/ambiguous")
            else
              match vermagics info with
              | [value] =>
                if (release ++ ascii " ").isPrefixOf value then .ok ()
                else .error (.value "module vermagic does not match slot kernel")
              | _ => .error (.value "module vermagic does not match slot kernel")
          | _ => .error (.value "module .modinfo missing/ambiguous")

/-! ### What passes -/

/-- The number that stands at an offset. -/
def numberAt (raw : Bytes) (offset size : ℕ) : ℕ :=
  littleEndian (slice raw offset (offset + size))

/-- The section header that stands at an offset. -/
def headerAt (raw : Bytes) (offset : ℕ) : Section := .ofBytes (slice raw offset (offset + 64))

def Section.Inside (s : Section) (raw : Bytes) : Prop := s.start + s.size ≤ raw.length

def Section.data (s : Section) (raw : Bytes) : Bytes := slice raw s.start (s.start + s.size)

/-- The section has this name in the table of names. -/
def Section.Named (s : Section) (names name : Bytes) : Prop :=
  TextAt names s.name names.length name

/-- A module of this kernel: all headers inside the file, the table of names and the one
`.modinfo` too, every section with a name, and in `.modinfo` one `vermagic`, of the release. -/
def ModuleOf (release raw : Bytes) : Prop :=
  64 ≤ raw.length ∧ raw.take 7 = elfStart ∧ numberAt raw 16 2 = 1 ∧ numberAt raw 18 2 = 183 ∧
    ∃ offset count, numberAt raw 40 8 = offset ∧ numberAt raw 60 2 = count ∧
      numberAt raw 58 2 = 64 ∧ 1 ≤ count ∧ offset + count * 64 ≤ raw.length ∧
      ∃ strings before s after,
        (List.range count).map (fun i => headerAt raw (offset + i * 64)) =
          before ++ s :: after ∧
        (before ++ s :: after)[numberAt raw 62 2]? = some strings ∧ strings.Inside raw ∧
        s.Named (strings.data raw) modinfoName ∧ s.Inside raw ∧
        (∀ t ∈ before ++ after, ∃ name, t.Named (strings.data raw) name ∧ name ≠ modinfoName) ∧
        (s.data raw).getLast? = some 0 ∧
        ∃ rest, vermagics (s.data raw) = [release ++ ascii " " ++ rest]

/-- Inside the file a number can be read. -/
theorem number_ok {raw : Bytes} {offset size : ℕ} (h : offset + size ≤ raw.length) :
    number raw offset size = .ok (numberAt raw offset size) := by
  rw [number, unpackFrom_eq h]
  rfl

theorem sectionHeaders_ok {raw : Bytes} (count offset : ℕ)
    (h : offset + count * 64 ≤ raw.length) : sectionHeaders raw offset count =
      .ok ((List.range count).map fun i => headerAt raw (offset + i * 64)) := by
  induction count generalizing offset with
  | zero => rfl
  | succ count ih =>
    have hshift : ∀ i, offset + 64 + i * 64 = offset + (i + 1) * 64 := fun i => by omega
    rw [sectionHeaders, sectionHeader, unpackFrom_eq (by omega), ih (offset + 64) (by omega),
      List.range_succ_eq_map]
    simp [bind, Except.bind, pure, Except.pure, headerAt, hshift, Function.comp_def]

theorem sectionData_cases (raw : Bytes) (s : Section) :
    (∃ msg, sectionData raw s = .error (.value msg)) ∨
      (sectionData raw s = .ok (s.data raw) ∧ s.Inside raw) := by
  rw [sectionData]
  split_ifs with h
  · exact Or.inl ⟨_, rfl⟩
  · exact Or.inr ⟨rfl, Nat.le_of_not_lt h⟩

/-- What is collected of a list of sections. -/
inductive Collected (raw names : Bytes) : List Section → List Bytes → Prop
  | nil : Collected raw names [] []
  | other {s : Section} {rest : List Section} {info : List Bytes} (name : Bytes) :
      s.Named names name → name ≠ modinfoName → Collected raw names rest info →
        Collected raw names (s :: rest) info
  | modinfo {s : Section} {rest : List Section} {info : List Bytes} :
      s.Named names modinfoName → s.Inside raw → Collected raw names rest info →
        Collected raw names (s :: rest) (s.data raw :: info)

theorem modinfo_spec (raw names : Bytes) (sections : List Section) :
    (∃ msg, modinfo raw names sections = .error (.value msg)) ∨
      ∃ info, modinfo raw names sections = .ok info ∧ Collected raw names sections info := by
  induction sections with
  | nil => exact Or.inr ⟨[], rfl, .nil⟩
  | cons s rest ih =>
    rw [modinfo]
    cases hnul : findNul names s.name names.length with
    | none => exact Or.inl ⟨_, rfl⟩
    | some nul =>
      have hnamed : s.Named names (slice names s.name nul) := (findNul_some hnul).2.2
      by_cases hrange : names.length ≤ s.name
      · exact Or.inl ⟨_, if_pos hrange⟩
      simp only [if_neg hrange]
      by_cases hname : slice names s.name nul = modinfoName
      · rw [hname] at hnamed
        obtain ⟨msg, herror⟩ | ⟨hdata, hinside⟩ := sectionData_cases raw s
        · exact Or.inl ⟨msg, by rw [if_pos hname, herror]; rfl⟩
        obtain ⟨msg, herror⟩ | ⟨info, hinfo, hcollected⟩ := ih
        · exact Or.inl ⟨msg, by rw [if_pos hname, hdata, herror]; rfl⟩
        · exact Or.inr ⟨s.data raw :: info, by rw [if_pos hname, hdata, hinfo]; rfl,
            .modinfo hnamed hinside hcollected⟩
      · simp only [if_neg hname]
        obtain herror | ⟨info, hinfo, hcollected⟩ := ih
        · exact Or.inl herror
        · exact Or.inr ⟨info, hinfo, .other _ hnamed hname hcollected⟩

theorem Collected.nil_inv {raw names : Bytes} {sections : List Section}
    (h : Collected raw names sections []) :
    ∀ t ∈ sections, ∃ name, t.Named names name ∧ name ≠ modinfoName := by
  induction sections with
  | nil => simp
  | cons s rest ih =>
    cases h with
    | other name hnamed hne hrest =>
      rw [List.forall_mem_cons]
      exact ⟨⟨name, hnamed, hne⟩, ih hrest⟩

/-- One thing collected came from one section. -/
theorem Collected.single_inv {raw names data : Bytes} {sections : List Section}
    (h : Collected raw names sections [data]) :
    ∃ before s after, sections = before ++ s :: after ∧ s.Named names modinfoName ∧
      s.Inside raw ∧ s.data raw = data ∧
      ∀ t ∈ before ++ after, ∃ name, t.Named names name ∧ name ≠ modinfoName := by
  induction sections with
  | nil => cases h
  | cons t rest ih =>
    cases h with
    | other name hnamed hne hrest =>
      obtain ⟨before, s, after, rfl, hs, hinside, hdata, hothers⟩ := ih hrest
      refine ⟨t :: before, s, after, rfl, hs, hinside, hdata, ?_⟩
      rw [List.cons_append, List.forall_mem_cons]
      exact ⟨⟨name, hnamed, hne⟩, hothers⟩
    | modinfo hnamed hinside hrest =>
      exact ⟨[], t, rest, rfl, hnamed, hinside, rfl, hrest.nil_inv⟩

/-- Of any bytes the check ends in a refusal, or it lets a module of the release pass. -/
theorem checkModule_spec (raw release : Bytes) :
    (∃ msg, checkModule raw release = .error (.value msg)) ∨
      (checkModule raw release = .ok () ∧ ModuleOf release raw) := by
  rw [checkModule]
  by_cases hstart : raw.length < 64 ∨ raw.take 7 ≠ elfStart
  · exact Or.inl ⟨_, if_pos hstart⟩
  have hstart' := hstart
  rw [not_or, Nat.not_lt, not_not] at hstart'
  obtain ⟨hlength, helf⟩ := hstart'
  simp only [if_neg hstart, number_ok (show 16 + 2 ≤ raw.length by omega),
    number_ok (show 18 + 2 ≤ raw.length by omega), bind, Except.bind]
  by_cases hmachine : numberAt raw 16 2 ≠ 1 ∨ numberAt raw 18 2 ≠ 183
  · exact Or.inl ⟨_, if_pos hmachine⟩
  have hmachine' := hmachine
  rw [not_or, not_not, not_not] at hmachine'
  simp only [if_neg hmachine, number_ok (show 40 + 8 ≤ raw.length by omega),
    number_ok (show 58 + 2 ≤ raw.length by omega), number_ok (show 60 + 2 ≤ raw.length by omega),
    number_ok (show 62 + 2 ≤ raw.length by omega)]
  set offset := numberAt raw 40 8 with hoffset
  set count := numberAt raw 60 2 with hcount
  by_cases hbounds : numberAt raw 58 2 ≠ 64 ∨ ¬(1 ≤ count ∧ count ≤ 4096) ∨
      count ≤ numberAt raw 62 2 ∨ raw.length < offset + count * 64
  · exact Or.inl ⟨_, if_pos hbounds⟩
  have hbounds' := hbounds
  rw [not_or, not_or, not_or, not_not, not_not, Nat.not_le, Nat.not_lt] at hbounds'
  obtain ⟨hentry, hone, hindex, hinside⟩ := hbounds'
  set sections := (List.range count).map fun i => headerAt raw (offset + i * 64) with hsections
  obtain ⟨strings, hstrings⟩ : ∃ s, sections[numberAt raw 62 2]? = some s :=
    ⟨_, List.getElem?_eq_getElem (by simpa [hsections] using hindex)⟩
  simp only [if_neg hbounds, sectionHeaders_ok count offset hinside, ← hsections, hstrings]
  obtain ⟨msg, herror⟩ | ⟨hnames, hstringsIn⟩ := sectionData_cases raw strings
  · exact Or.inl ⟨msg, by rw [herror]⟩
  obtain ⟨msg, herror⟩ | ⟨info, hinfo, hcollected⟩ := modinfo_spec raw (strings.data raw) sections
  · exact Or.inl ⟨msg, by simp only [hnames, herror]⟩
  simp only [hnames, hinfo]
  rcases info with _ | ⟨data, _ | ⟨more, info⟩⟩
  · exact Or.inl ⟨_, rfl⟩
  · by_cases hlast : data.getLast? ≠ some 0
    · exact Or.inl ⟨_, if_pos hlast⟩
    simp only [if_neg hlast]
    rcases hvalues : vermagics data with _ | ⟨value, _ | ⟨more, values⟩⟩
    · exact Or.inl ⟨_, rfl⟩
    · by_cases hrelease : (release ++ ascii " ").isPrefixOf value = true
      · obtain ⟨rest, hrest⟩ := List.isPrefixOf_iff_prefix.mp hrelease
        obtain ⟨before, s, after, hsplit, hs, hsIn, rfl, hothers⟩ := hcollected.single_inv
        refine Or.inr ⟨if_pos hrelease, hlength, helf, hmachine'.1, hmachine'.2, offset, count,
          hoffset, hcount, hentry, hone.1, hinside, strings, before, s, after, hsplit,
          by rw [← hsplit, hstrings], hstringsIn, hs, hsIn, hothers, not_not.mp hlast, rest, ?_⟩
        rw [hvalues, hrest]
      · exact Or.inl ⟨_, if_neg hrelease⟩
    · exact Or.inl ⟨_, rfl⟩
  · exact Or.inl ⟨_, rfl⟩

/-- A little-endian field. -/
def field (size n : ℕ) : Bytes := (List.range size).map fun i => UInt8.ofNat (n / 256 ^ i)

def sampleInfo : Bytes := ascii "vermagic=6.6 SMP" ++ [0]

def sampleNames : Bytes := [0] ++ modinfoName ++ [0]

/-- A module with its table of names and its `.modinfo` behind the two headers. -/
def sampleModule : Bytes :=
  elfStart ++ List.replicate 9 0 ++ field 2 1 ++ field 2 183 ++ List.replicate 20 0 ++
    field 8 64 ++ List.replicate 10 0 ++ field 2 64 ++ field 2 2 ++ field 2 0 ++
    field 24 0 ++ field 8 192 ++ field 32 10 ++ field 24 1 ++ field 8 202 ++ field 32 17 ++
    sampleNames ++ sampleInfo

example : checkModule sampleModule (ascii "6.6") = .ok () := by
  decide +kernel

/-- The two checks end on every file, with a refusal or with what they stand for. -/
theorem checks_sound : (∀ raw, (∃ msg, checkDtb raw = .error (.value msg)) ∨
      (checkDtb raw = .ok () ∧ BoardTree raw)) ∧
    ∀ raw release, (∃ msg, checkModule raw release = .error (.value msg)) ∨
      (checkModule raw release = .ok () ∧ ModuleOf release raw) :=
  ⟨checkDtb_spec, checkModule_spec⟩

end Epilykos.SlotLinux
