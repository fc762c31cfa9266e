import Epilykos.Lib.Runs
import Epilykos.Lib.Utf8
import Epilykos.PlatformEnv.Record

/-!
The two readings of `factory-reset.txt`: bytes through `tr` and `grep` early in the boot, and
the text in Python everywhere else. Both look for a line that is ERASE between white space.
They agree line by line except where one of them sees a line that the other does not.
-/

namespace Epilykos.FactoryReset

open Text Utf8
open PlatformEnv (Bytes ascii)

/-! ### The boot step -/

/-- Carriage returns, and the three bytes of a byte-order mark wherever they stand. -/
def isDropped (n : UInt8) : Bool := n == 0x0d || n == 0xef || n == 0xbb || n == 0xbf

/-- `tr -d '\r\357\273\277'`. -/
def tr (data : Bytes) : Bytes := data.filter (!isDropped ·)

/-- `[[:space:]]` of a byte. -/
def isBlank (n : UInt8) : Bool := (9 ≤ n && n ≤ 13) || n == 32

def lower (n : UInt8) : UInt8 := if 65 ≤ n ∧ n ≤ 90 then n + 32 else n

/-- `grep -qix '[[:space:]]*erase[[:space:]]*'` of one line: the word has no white space, so
the line matches when it is the word without the white space at its ends. -/
def grepLine (line : Bytes) : Bool :=
  ((line.dropWhile isBlank).reverse.dropWhile isBlank).reverse.map lower == ascii "erase"

/-- The lines of a file of bytes; the empty one after a last newline never matches. -/
def byteLines (data : Bytes) : List Bytes := data.splitOn 10

/-- What `epilykos-factory-reset-boot` goes ahead on. -/
def asksReset (data : Bytes) : Bool := (byteLines (tr data)).any grepLine

/-! ### The Python reading -/

def erase : List Char := ['E', 'R', 'A', 'S', 'E']

/-- `str.upper` of a character, where that is ASCII text; the other characters stay as they
are here, for no upper case of theirs is ASCII text. -/
def upper (c : Char) : List Char :=
  let n := c.toNat
  if 97 ≤ n ∧ n ≤ 122 then [Char.ofNat (n - 32)]
  else if n = 0xdf then ['S', 'S']
  else if n = 0x131 then ['I']
  else if n = 0x17f then ['S']
  else if n = 0xfb00 then ['F', 'F']
  else if n = 0xfb01 then ['F', 'I']
  else if n = 0xfb02 then ['F', 'L']
  else if n = 0xfb03 then ['F', 'F', 'I']
  else if n = 0xfb04 then ['F', 'F', 'L']
  else if n = 0xfb05 ∨ n = 0xfb06 then ['S', 'T']
  else [c]

def upperText (text : List Char) : List Char := text.flatMap upper

def byteOrderMark : Char := Char.ofNat 0xfeff

/-- `epilykos_reset.confirmed` of the file's bytes. -/
def confirmed (data : Bytes) : Bool :=
  (splitlines ((decodeReplace data).dropWhile (· == byteOrderMark))).any
    fun line => upperText (strip line) == erase

example : confirmed (ascii "note\r\n  Erase \r\n") = true := by
  decide +kernel

/-! ### A line that is the word -/

/-- The boot step's test of one line. -/
def asked (line : Bytes) : Bool := grepLine (tr line)

def chr (n : UInt8) : Char := Char.ofNat n.toNat

/-- ASCII that ends a line, for Python. -/
def Ends (n : UInt8) : Prop := n.toNat < 0x80 ∧ isBreak (chr n) = true

/-- The bytes have ERASE between white space on a line of its own, all of it ASCII. -/
def Plain (line : Bytes) : Prop :=
  ∃ a w b, line = a ++ w ++ b ∧ (∀ n ∈ w, n.toNat < 0x80 ∧ isBreak (chr n) = false) ∧
    (∀ n ∈ a.getLast?, Ends n) ∧ (∀ n ∈ b.head?, Ends n) ∧
    upperText (strip (w.map chr)) = erase

/-- A vertical tab after the word: Python sees a line of its own. -/
example : asksReset (ascii "ERASE\x0bnow") = false ∧ confirmed (ascii "ERASE\x0bnow") = true := by
  decide +kernel

end Epilykos.FactoryReset
