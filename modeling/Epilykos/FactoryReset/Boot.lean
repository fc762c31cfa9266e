import Epilykos.FactoryReset.Request
import Epilykos.Lib.Program
import Epilykos.Lib.Sha256

/-!
A factory reset over many boots: the early script that writes a new filesystem over DATA and
deletes the request, and the later step that forgets what was done. The request is on BOOT and
the mark of it on DATA, and the power may go at any command.
-/

namespace Epilykos.FactoryReset

open PlatformEnv (Bytes ascii)
open Program Prog

/-! ### What the commands see -/

/-- A file as the running system reads it, and as the card has it when the power goes now. -/
structure File (α : Type) where
  now : Option α
  kept : Option α

def File.settled {α : Type} (content : Option α) : File α := ⟨content, content⟩

def File.Holds {α : Type} (file : File α) (content : α) : Prop :=
  file.now = some content ∨ file.kept = some content

/-- A request file; files put on BOOT one after another have different serials. -/
structure Request where
  serial : ℕ
  content : Bytes

inductive Event
  | erasing (r : Request)
  | rewritten (r : Request)
  | completed (r : Request)
  | deleted (r : Request)

/-- `request` is on the card's BOOT partition, mounted on /boot or not; `mark` is DATA's
`.factory-reset-done`. `history` has the newest event first. -/
structure World where
  bootMounted : Bool
  request : File Request
  mark : File Bytes
  mountable : Bool
  serial : ℕ
  history : List Event

def hexDigit (n : ℕ) : UInt8 := if n < 10 then UInt8.ofNat (48 + n) else UInt8.ofNat (87 + n)

/-- `sha256sum | cut -d' ' -f1`. -/
def sha256sum (data : Bytes) : Bytes :=
  (Sha256.sha256 data).flatMap fun n => [hexDigit (n.toNat / 16), hexDigit (n.toNat % 16)]

/-- `$(...)` of a command with this output: no NUL bytes, no newlines at the end. -/
def capture (output : Bytes) : Bytes :=
  (((output.filter (· != 0)).reverse).dropWhile (· == 10)).reverse

/-- What `echo` writes of a sum. -/
def markText (content : Bytes) : Bytes := sha256sum content ++ [10]

/-! ### The commands -/

inductive Command
  | testRequest
  | readRequest
  | findmnt
  | mkdir
  | mountOld
  | statClock
  | catMark
  | umountOld
  | mke2fs
  | mountNew
  | echoMark (sum : Bytes)
  | umountNew
  | date
  | setDate (seconds : ℕ)
  | remountRw
  | rm
  | sync
  | remountRo
  | isdirBoot
  | existsDone
  | existsRequest
  | removeDone

/-- A `Bool` is the success of a command, or what a test says. -/
abbrev Command.Ans : Command → Type
  | .readRequest | .catMark => Bytes
  | .statClock | .date => ℕ
  | .echoMark _ | .sync => Unit
  | _ => Bool

abbrev Commands : Interface := ⟨Command, Command.Ans⟩

def exec (c : Command) : Prog Commands Unit c.Ans := .call c .ret

/-- The files as a new filesystem left half written has them. -/
def torn (w w' : World) : Prop :=
  ∃ r, w.request.now = some r ∧ ∃ mark, (mark = w.mark ∨ mark = .settled none) ∧ ∃ mountable,
    w' = { w with mark, mountable, history := .erasing r :: w.history }

/-- /boot is a directory whether BOOT is mounted on it or not. -/
def does (w : World) : (c : Command) → c.Ans → World → Prop
  | .testRequest, a, w' => a = (w.bootMounted && w.request.now.isSome) ∧ w' = w
  | .readRequest, a, w' => w.request.now.map Request.content = some a ∧ w' = w
  | .findmnt, _, w' => w' = w
  | .mkdir, _, w' => w' = w
  | .mountOld, a, w' => a = w.mountable ∧ w' = w
  | .statClock, _, w' => w' = w
  | .catMark, a, w' => a = capture (w.mark.now.getD []) ∧ w' = w
  | .umountOld, _, w' => w' = w
  | .mke2fs, true, w' => ∃ r, w.request.now = some r ∧
      w' = { w with
        mark := .settled none
        mountable := true
        history := .rewritten r :: .erasing r :: w.history }
  | .mke2fs, false, w' => torn w w'
  | .mountNew, a, w' => a = true ∧ w' = w
  | .echoMark sum, _, w' => w' = { w with mark := ⟨some (sum ++ [10]), w.mark.kept⟩ }
  | .umountNew, a, w' => a = true ∧ ∃ r, w.request.now = some r ∧
      w' = { w with mark := .settled w.mark.now, history := .completed r :: w.history }
  | .date, _, w' => w' = w
  | .setDate _, _, w' => w' = w
  | .remountRw, _, w' => w' = w
  | .rm, true, w' => ∃ r, w.request.now = some r ∧
      w' = { w with request := ⟨none, w.request.kept⟩, history := .deleted r :: w.history }
  | .rm, false, w' => w' = w
  | .sync, _, w' =>
      w' = { w with request := .settled w.request.now, mark := .settled w.mark.now }
  | .remountRo, _, w' => w' = w
  | .isdirBoot, a, w' => a = true ∧ w' = w
  | .existsDone, a, w' => a = w.mark.now.isSome ∧ w' = w
  | .existsRequest, a, w' => a = (w.bootMounted && w.request.now.isSome) ∧ w' = w
  | .removeDone, true, w' => w' = { w with mark := ⟨none, w.mark.kept⟩ }
  | .removeDone, false, w' => w' = w

/-- What a command may leave when the power goes in the middle of it; the others change one
file, which `Lost` covers. -/
def cutWithin (w : World) : Command → World → Prop
  | .mke2fs, w' => torn w w'
  | _, _ => False

/-- What is on the card when the power has gone: of a file changed since it was last synced,
the old or the new content, or the beginning of the new mark. -/
def Lost (w w' : World) : Prop :=
  ∃ request, (request = w.request.now ∨ request = w.request.kept) ∧
    ∃ mark, (mark = w.mark.now ∨ mark = w.mark.kept ∨ w.mark.now ≠ w.mark.kept ∧
        ∃ text part, w.mark.now = some text ∧ part <+: text ∧ mark = some part) ∧
      w' = { w with request := .settled request, mark := .settled mark }

/-! ### epilykos-factory-reset-boot

A command that fails under `set -e` raises.
-/

/-- `delete_request`. -/
def deleteRequest : Prog Commands Unit Unit := do
  raiseIf ((← exec .remountRw) = false) ()
  raiseIf ((← exec .rm) = false) ()
  exec .sync
  let _ ← exec .remountRo

/-- `saved` and `done_sum`, read from the old DATA. -/
def readOld : Prog Commands Unit (ℕ × Bytes) := do
  if (← exec .mountOld) = true then
    let saved ← exec .statClock
    let doneSum ← exec .catMark
    raiseIf ((← exec .umountOld) = false) ()
    return (saved, doneSum)
  else
    return (0, [])

def markDone (sum : Bytes) : Prog Commands Unit Unit := do
  if (← exec .mountNew) = true then
    exec (.echoMark sum)
    raiseIf ((← exec .umountNew) = false) ()

def setClock (saved : ℕ) : Prog Commands Unit Unit := do
  if (← exec .date) < saved then
    let _ ← exec (.setDate saved)

def eraseData (sum : Bytes) (saved : ℕ) : Prog Commands Unit Unit := do
  raiseIf ((← exec .mke2fs) = false) ()
  markDone sum
  setClock saved
  deleteRequest

def resetBoot : Prog Commands Unit Unit := do
  if (← exec .testRequest) = true then
    if asksReset (← exec .readRequest) then
      raiseIf ((← exec .findmnt) = true) ()
      let sum := sha256sum (← exec .readRequest)
      raiseIf ((← exec .mkdir) = false) ()
      let (saved, doneSum) ← readOld
      if doneSum = sum then
        deleteRequest
      else
        eraseData sum saved

/-! ### epilykos-wifi-import

Its other steps write to DATA only files that neither program reads.
-/

/-- `epilykos_reset.forget_done`. -/
def forgetDone : Prog Commands Unit Bool := do
  if (← exec .existsDone) = true then
    if (← exec .existsRequest) = true then
      return false
    else
      raiseIf ((← exec .removeDone) = false) ()
      return true
  else
    return false

/-- `main`, of `forget_factory_reset`. -/
def wifiImport : Prog Commands Unit Unit := do
  if (← exec .isdirBoot) = true then
    Prog.tryCatch (do let _ ← forgetDone) fun _ => ret ()

/-! ### Boots -/

inductive Phase
  | off
  | resetting (p : Prog Commands Unit Unit)
  | up
  | importing (p : Prog Commands Unit Unit)

structure Box where
  world : World
  phase : Phase

/-- A request left by somebody, or taken away: on the card in a computer, or in a running
box with BOOT mounted. -/
inductive Asks (w : World) : World → Prop
  | leaves (content : Bytes) : Asks w { w with
      request := .settled (some ⟨w.serial, content⟩)
      serial := w.serial + 1 }
  | takes : Asks w { w with request := .settled none }

/-- What the rest of a running box may do; a filesystem that was half written is repaired
with what is left of it. -/
inductive Others (w : World) : World → Prop
  | asks {w' : World} : w.bootMounted = true → Asks w w' → Others w w'
  | repairs {mark : File Bytes} : w.mountable = false → (mark = w.mark ∨ mark = .settled none) →
      Others w { w with mark, mountable := true }

inductive Move
  | asks
  | powerOn
  | command
  | ends
  | others
  | imports
  | cut

/-- epilykos-wifi-import needs /data mounted, and comes after BOOT was mounted or not. -/
inductive Step : Box → Move → Box → Prop
  | asks {w w' : World} : Asks w w' → Step ⟨w, .off⟩ .asks ⟨w', .off⟩
  | powerOn {w : World} (bootMounted : Bool) :
      Step ⟨w, .off⟩ .powerOn ⟨{ w with bootMounted }, .resetting resetBoot⟩
  | reset {w w' : World} {c : Command} {k : c.Ans → Prog Commands Unit Unit} {a : c.Ans} :
      does w c a w' → Step ⟨w, .resetting (.call c k)⟩ .command ⟨w', .resetting (k a)⟩
  | resetReturns {w : World} {a : Unit} : Step ⟨w, .resetting (.ret a)⟩ .ends ⟨w, .up⟩
  | resetFails {w : World} {e : Unit} : Step ⟨w, .resetting (.raise e)⟩ .ends ⟨w, .up⟩
  | others {w w' : World} : Others w w' → Step ⟨w, .up⟩ .others ⟨w', .up⟩
  | imports {w : World} : w.mountable = true →
      Step ⟨w, .up⟩ .imports ⟨w, .importing wifiImport⟩
  | import {w w' : World} {c : Command} {k : c.Ans → Prog Commands Unit Unit} {a : c.Ans} :
      does w c a w' → Step ⟨w, .importing (.call c k)⟩ .command ⟨w', .importing (k a)⟩
  | othersImport {w w' : World} {p : Prog Commands Unit Unit} : Others w w' →
      Step ⟨w, .importing p⟩ .others ⟨w', .importing p⟩
  | importReturns {w : World} {a : Unit} : Step ⟨w, .importing (.ret a)⟩ .ends ⟨w, .up⟩
  | importFails {w : World} {e : Unit} : Step ⟨w, .importing (.raise e)⟩ .ends ⟨w, .up⟩
  | cut {w w' : World} {phase : Phase} : Lost w w' → Step ⟨w, phase⟩ .cut ⟨w', .off⟩
  | cutWithin {w w₁ w' : World} {c : Command} {k : c.Ans → Prog Commands Unit Unit} :
      cutWithin w c w₁ → Lost w₁ w' → Step ⟨w, .resetting (.call c k)⟩ .cut ⟨w', .off⟩

/-- A card as it was flashed, with a request on it or without. -/
structure Flashed (b : Box) : Prop where
  phase : b.phase = .off
  request : b.world.request.now = b.world.request.kept
  serial : ∀ r, b.world.request.now = some r → r.serial < b.world.serial
  mark : b.world.mark = .settled none
  history : b.world.history = []

/-- A request is deleted only after DATA was rewritten for one of the same content, and DATA
is never erased for a request whose rewrite and mark were completed. -/
def Fine : List Event → Prop
  | [] => True
  | .erasing r :: old => .completed r ∉ old ∧ Fine old
  | .deleted r :: old => (∃ r', .rewritten r' ∈ old ∧ r'.content = r.content) ∧ Fine old
  | _ :: old => Fine old

end Epilykos.FactoryReset
