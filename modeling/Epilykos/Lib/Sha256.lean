import Mathlib.Data.Nat.Notation

/-!
SHA-256, executable: padding, message schedule, rounds. Proofs use it as any function of its
bytes.
-/

namespace Sha256

/-- The cube roots of the first primes. -/
def roundKeys : List UInt32 := [
  0x428a2f98, 0x71374491, 0xb5c0fbcf, 0xe9b5dba5, 0x3956c25b, 0x59f111f1, 0x923f82a4, 0xab1c5ed5,
  0xd807aa98, 0x12835b01, 0x243185be, 0x550c7dc3, 0x72be5d74, 0x80deb1fe, 0x9bdc06a7, 0xc19bf174,
  0xe49b69c1, 0xefbe4786, 0x0fc19dc6, 0x240ca1cc, 0x2de92c6f, 0x4a7484aa, 0x5cb0a9dc, 0x76f988da,
  0x983e5152, 0xa831c66d, 0xb00327c8, 0xbf597fc7, 0xc6e00bf3, 0xd5a79147, 0x06ca6351, 0x14292967,
  0x27b70a85, 0x2e1b2138, 0x4d2c6dfc, 0x53380d13, 0x650a7354, 0x766a0abb, 0x81c2c92e, 0x92722c85,
  0xa2bfe8a1, 0xa81a664b, 0xc24b8b70, 0xc76c51a3, 0xd192e819, 0xd6990624, 0xf40e3585, 0x106aa070,
  0x19a4c116, 0x1e376c08, 0x2748774c, 0x34b0bcb5, 0x391c0cb3, 0x4ed8aa4a, 0x5b9cca4f, 0x682e6ff3,
  0x748f82ee, 0x78a5636f, 0x84c87814, 0x8cc70208, 0x90befffa, 0xa4506ceb, 0xbef9a3f7, 0xc67178f2]

structure Digest where
  a : UInt32
  b : UInt32
  c : UInt32
  d : UInt32
  e : UInt32
  f : UInt32
  g : UInt32
  h : UInt32

def Digest.initial : Digest :=
  ⟨0x6a09e667, 0xbb67ae85, 0x3c6ef372, 0xa54ff53a, 0x510e527f, 0x9b05688c, 0x1f83d9ab, 0x5be0cd19⟩

def rotate (x n : UInt32) : UInt32 := (x >>> n) ||| (x <<< (32 - n))

/-- The bytes of a number, most significant first. -/
def bigEndian : ℕ → ℕ → List UInt8
  | 0, _ => []
  | count + 1, n => UInt8.ofNat (n / 256 ^ count) :: bigEndian count n

def pad (message : List UInt8) : List UInt8 :=
  message ++ 0x80 :: List.replicate ((119 - message.length % 64) % 64) 0 ++
    bigEndian 8 (8 * message.length)

def words : List UInt8 → List UInt32
  | a :: b :: c :: d :: rest =>
    UInt32.ofNat (a.toNat * 2 ^ 24 + b.toNat * 2 ^ 16 + c.toNat * 2 ^ 8 + d.toNat) :: words rest
  | _ => []

/-- `count` more words of the schedule, the newest first. -/
def extend : ℕ → List UInt32 → List UInt32
  | 0, schedule => schedule
  | count + 1, schedule =>
    let w := fun i => schedule.getD i 0
    let s₀ := rotate (w 14) 7 ^^^ rotate (w 14) 18 ^^^ (w 14 >>> 3)
    let s₁ := rotate (w 1) 17 ^^^ rotate (w 1) 19 ^^^ (w 1 >>> 10)
    extend count ((w 15 + s₀ + w 6 + s₁) :: schedule)

def round (s : Digest) (key word : UInt32) : Digest :=
  let s₁ := rotate s.e 6 ^^^ rotate s.e 11 ^^^ rotate s.e 25
  let choice := (s.e &&& s.f) ^^^ (~~~ s.e &&& s.g)
  let t₁ := s.h + s₁ + choice + key + word
  let s₀ := rotate s.a 2 ^^^ rotate s.a 13 ^^^ rotate s.a 22
  let majority := (s.a &&& s.b) ^^^ (s.a &&& s.c) ^^^ (s.b &&& s.c)
  ⟨t₁ + (s₀ + majority), s.a, s.b, s.c, s.d + t₁, s.e, s.f, s.g⟩

def compress (s : Digest) (block : List UInt32) : Digest :=
  let schedule := (extend 48 block.reverse).reverse
  let t := (roundKeys.zip schedule).foldl (fun t p => round t p.1 p.2) s
  ⟨s.a + t.a, s.b + t.b, s.c + t.c, s.d + t.d, s.e + t.e, s.f + t.f, s.g + t.g, s.h + t.h⟩

/-- The blocks of a padded message; `count` is how many there are. -/
def digest : ℕ → Digest → List UInt32 → Digest
  | 0, s, _ => s
  | count + 1, s, message => digest count (compress s (message.take 16)) (message.drop 16)

def sha256 (message : List UInt8) : List UInt8 :=
  let padded := words (pad message)
  let s := digest (padded.length / 16) Digest.initial padded
  [s.a, s.b, s.c, s.d, s.e, s.f, s.g, s.h].flatMap fun w => bigEndian 4 w.toNat

example : (sha256 [97, 98, 99]).take 8 = [0xba, 0x78, 0x16, 0xbf, 0x8f, 0x01, 0xcf, 0xea] := by
  decide +kernel

end Sha256
