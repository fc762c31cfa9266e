import Epilykos.PlatformEnv.Commit

/-!
The pair of records a card image is made with: the same values in both, 0xff after the extra
NUL, flags 1 and 2.
-/

namespace Epilykos.PlatformEnv

/-- What fits of a payload and its padding. -/
theorem seed_size (payload : Bytes) :
    ((payload ++ 0 :: List.replicate dataSize 255).take dataSize).length = dataSize := by
  rw [List.length_take, List.length_append, List.length_cons, List.length_replicate]
  omega

/-- `record` of the image builder; the values come sorted by name. -/
def seedRecord (values : List Entry) (flag : UInt8) : Record :=
  Record.setCrc {
    crc := Record.blankCrc
    flag := flag
    data := (lines (values.map Entry.text) ++ 0 :: List.replicate dataSize 255).take dataSize
    size := seed_size _ }

/-- The two records of `build_seed`. -/
def seedDevice (values : List Entry) : Device
  | .a => seedRecord values 1
  | .b => seedRecord values 2

/-- The card as it leaves the factory. -/
structure Seeded (d : Device) : Prop where
  crcValid : ∀ i, (d i).crcValid = true
  parsed : ∃ va vb, parse (d .a) = .ok va ∧ parse (d .b) = .ok vb ∧ va.entries = vb.entries
  flag_a : (d .a).flag = 1
  flag_b : (d .b).flag = 2

theorem parse_seedRecord {values : List Entry} {v : View} (h : Storable values v) (flag : UInt8) :
    parse (seedRecord values flag) = .ok v := by
  have hroom := h.room
  obtain ⟨n, hn⟩ : ∃ n, dataSize = (lines (values.map Entry.text)).length + (n + 1) :=
    ⟨dataSize - (lines (values.map Entry.text)).length - 1, by omega⟩
  rw [seedRecord, parse_setCrc]
  refine h.parse_eq ((List.replicate dataSize 255).take n) ?_
  simp only [hn, List.take_length_add_append, List.take_succ_cons]

theorem seeded_seedDevice {values : List Entry} {v : View} (h : Storable values v) :
    Seeded (seedDevice values) where
  crcValid := by rintro (_ | _) <;> exact Record.setCrc_crcValid _
  parsed := ⟨v, v, parse_seedRecord h 1, parse_seedRecord h 2, rfl⟩
  flag_a := rfl
  flag_b := rfl

theorem choose_seedDevice {values : List Entry} {v : View} (h : Storable values v) :
    (seedDevice values).choose = .ok (.b, v) := by
  refine Device.choose_of_flag (w := v) (Record.setCrc_crcValid _) (parse_seedRecord h 2)
    (Record.setCrc_crcValid _) (parse_seedRecord h 1) rfl (SameCritical.refl v) rfl

/-- A small environment with every protocol-2 field. -/
def sampleValues : List Entry := [
  ⟨ascii "BOOT_A_LEFT", ascii "3"⟩,
  ⟨ascii "BOOT_B_LEFT", ascii "3"⟩,
  ⟨ascii "BOOT_ORDER", ascii "A B"⟩,
  ⟨ascii "epk_os_floor", ascii "12"⟩,
  ⟨ascii "epk_state_generation", ascii "7"⟩,
  ⟨ascii "epk_state_schema", ascii "1"⟩,
  ⟨ascii "epk_trust_epoch", ascii "2"⟩,
  ⟨ascii "epk_trust_policy", ascii "e30="⟩,
  ⟨ascii "epk_trust_policy_sig", List.replicate 86 65 ++ [61, 61]⟩]

def sampleView : View := ⟨sampleValues, 252, 7, 12, 2⟩

theorem storable_sample : Storable sampleValues sampleView where
  wellFormed := by decide +kernel
  length_le := by decide +kernel
  room := by decide +kernel
  fields := by decide +kernel

/-- Raising the floor of the sample card from 12 to 13. -/
def raiseFloor : List Update :=
  [⟨some (.ofBytes (ascii "epk_os_floor")), some (.ofBytes (ascii "13"))⟩]

def raisedValues (generation : String) : List Entry :=
  sampleValues.map fun e =>
    if e.name = ascii "epk_os_floor" then ⟨e.name, ascii "13"⟩
    else if e.name = generationName then ⟨e.name, ascii generation⟩ else e

theorem storable_raised : Storable (raisedValues "8") ⟨raisedValues "8", 252, 8, 13, 2⟩ where
  wellFormed := by decide +kernel
  length_le := by decide +kernel
  room := by decide +kernel
  fields := by decide +kernel

def raiseFloorChanges : List Change :=
  [⟨.ofBytes (ascii "epk_os_floor"), some (.ofBytes (ascii "13"))⟩]

private theorem kept_raiseFloor : keptEntries sampleView raiseFloorChanges
    (toDecimal (sampleView.generation + (changedCritical sampleView raiseFloorChanges).toNat)) ++
      addedEntries sampleView raiseFloorChanges = raisedValues "8" := by
  decide +kernel

private theorem raised_notOlder : NotOlder ⟨raisedValues "8", 252, 8, 13, 2⟩ sampleView :=
  ⟨by decide, by decide, by decide +kernel⟩

theorem build_raiseFloor : build (seedDevice sampleValues .b) raiseFloor =
    .ok (Record.ofText (lines ((raisedValues "8").map Entry.text))).setCrc := by
  have hparse : parse (seedDevice sampleValues .b) = .ok sampleView :=
    parse_seedRecord storable_sample 2
  have hchanges : checkUpdates [] raiseFloor = .ok raiseFloorChanges := by decide +kernel
  exact build_complete hparse hchanges (by decide +kernel) kept_raiseFloor storable_raised
    raised_notOlder

theorem next_raiseFloor : (Op.commit raiseFloor).next (seedDevice sampleValues) =
    .ok (.b, (Record.ofText (lines ((raisedValues "8").map Entry.text))).setCrc) :=
  Op.next_commit (choose_seedDevice storable_sample) (by decide) build_raiseFloor

end Epilykos.PlatformEnv
