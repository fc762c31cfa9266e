import Mathlib.Data.List.Basic
import Mathlib.Data.Nat.Bitwise

/-!
One record of the redundant U-Boot environment as it lies on the card: a little-endian CRC32
of the payload, the incremental active flag, and the payload. The CRC covers the payload
only, so the flag may change under a valid CRC.
-/

namespace Epilykos.PlatformEnv

abbrev Bytes := List UInt8

/-- EPK_ENV_SIZE. -/
def envSize : ℕ := 16384

/-- DATA_SIZE. -/
def dataSize : ℕ := envSize - 5

/-- EPK_ENV_HEADROOM. -/
def headroom : ℕ := 2048

/-- EPK_ENV_MAX_UPDATES. -/
def maxUpdates : ℕ := 64

/-- MAX_ENTRIES. -/
def maxEntries : ℕ := 256

def uint64Max : ℕ := 2 ^ 64 - 1

/-- The bytes of an ASCII literal. -/
def ascii (s : String) : Bytes := s.toList.map fun c => c.toNat.toUInt8

@[ext]
structure Record where
  crc : Vector UInt8 4
  flag : UInt8
  data : Bytes
  size : data.length = dataSize
  deriving DecidableEq

/-! ### The checksum -/

def crcBit (crc : UInt32) : UInt32 :=
  (crc >>> 1) ^^^ (0xedb88320 &&& (0 - (crc &&& 1)))

def crcByte (crc : UInt32) (byte : UInt8) : UInt32 :=
  (List.range 8).foldl (fun c _ => crcBit c) (crc ^^^ byte.toUInt32)

def nativeCrc (data : Bytes) : UInt32 :=
  ~~~(data.foldl crcByte 0xffffffff)

namespace Record

/-- The stored checksum, composed from its four bytes. -/
def stored (r : Record) : UInt32 :=
  r.crc[0].toUInt32 ||| (r.crc[1].toUInt32 <<< 8) |||
    (r.crc[2].toUInt32 <<< 16) ||| (r.crc[3].toUInt32 <<< 24)

def crcValid (r : Record) : Bool := r.stored == nativeCrc r.data

def setCrc (r : Record) : Record :=
  let crc := nativeCrc r.data
  { r with crc := #v[crc.toUInt8, (crc >>> 8).toUInt8, (crc >>> 16).toUInt8, (crc >>> 24).toUInt8] }

def setFlag (r : Record) (flag : UInt8) : Record := { r with flag := flag }

/-- The checksum bytes of a zeroed record. -/
def blankCrc : Vector UInt8 4 := #v[0, 0, 0, 0]

/-- A zeroed record with `text` copied to the start of its payload. -/
def ofText (text : Bytes) : Record where
  crc := blankCrc
  flag := 0
  data := (text ++ List.replicate dataSize 0).take dataSize
  size := by simp

@[simp] theorem setFlag_data (r : Record) (f : UInt8) : (r.setFlag f).data = r.data := rfl

@[simp] theorem setFlag_crc (r : Record) (f : UInt8) : (r.setFlag f).crc = r.crc := rfl

@[simp] theorem setFlag_flag (r : Record) (f : UInt8) : (r.setFlag f).flag = f := rfl

@[simp] theorem setCrc_data (r : Record) : r.setCrc.data = r.data := rfl

@[simp] theorem setFlag_crcValid (r : Record) (f : UInt8) :
    (r.setFlag f).crcValid = r.crcValid := rfl

theorem ofText_data {text : Bytes} (h : text.length ≤ dataSize) :
    (ofText text).data = text ++ List.replicate (dataSize - text.length) 0 := by
  simp only [ofText, List.take_append, List.take_of_length_le h, List.take_replicate]
  rw [Nat.min_eq_left (Nat.sub_le _ _)]

/-- A text that leaves room is followed by a NUL. -/
theorem ofText_data_nul {text : Bytes} (h : text.length < dataSize) :
    ∃ tail, (ofText text).data = text ++ 0 :: tail := by
  obtain ⟨n, hn⟩ : ∃ n, dataSize - text.length = n + 1 := ⟨dataSize - text.length - 1, by omega⟩
  refine ⟨List.replicate n 0, ?_⟩
  rw [ofText_data h.le, hn, List.replicate_succ]

end Record

private theorem or_byte {low high k : ℕ} (h : low < 2 ^ k) :
    low ||| high <<< k = low + high * 2 ^ k := by
  rw [Nat.or_comm, ← Nat.shiftLeft_add_eq_or_of_lt h, Nat.shiftLeft_eq, Nat.add_comm]

private theorem reassemble_bytes (n : ℕ) (h : n < 2 ^ 32) :
    n % 256 ||| (n >>> 8 % 256) <<< 8 % 4294967296 |||
      (n >>> 16 % 256) <<< 16 % 4294967296 ||| (n >>> 24 % 256) <<< 24 % 4294967296 = n := by
  have h1 : (n >>> 8 % 256) <<< 8 % 4294967296 = (n / 256 % 256) <<< 8 := by
    rw [Nat.shiftRight_eq_div_pow, Nat.shiftLeft_eq]
    omega
  have h2 : (n >>> 16 % 256) <<< 16 % 4294967296 = (n / 65536 % 256) <<< 16 := by
    rw [Nat.shiftRight_eq_div_pow, Nat.shiftLeft_eq]
    omega
  have h3 : (n >>> 24 % 256) <<< 24 % 4294967296 = (n / 16777216 % 256) <<< 24 := by
    rw [Nat.shiftRight_eq_div_pow, Nat.shiftLeft_eq]
    omega
  rw [h1, h2, h3, or_byte (k := 8) (by omega), or_byte (k := 16) (by omega),
    or_byte (k := 24) (by omega)]
  omega

/-- A freshly written checksum is read back as written. -/
@[simp] theorem Record.setCrc_crcValid (r : Record) : r.setCrc.crcValid = true := by
  simp only [Record.crcValid, Record.stored, Record.setCrc, beq_iff_eq]
  apply UInt32.toNat_inj.mp
  simpa using reassemble_bytes _ (nativeCrc r.data).toNat_lt

/-- The checksum looks at the payload and its own four bytes only. -/
theorem Record.crcValid_congr {r s : Record} (hcrc : r.crc = s.crc) (hdata : r.data = s.data) :
    r.crcValid = s.crcValid := by
  simp only [Record.crcValid, Record.stored, hcrc, hdata]

end Epilykos.PlatformEnv
