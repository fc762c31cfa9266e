import Epilykos.Lib.Program
import Epilykos.Ssh.Keys
import Mathlib.Logic.Function.Basic

/-!
The key actions of the host service, each request in a thread of its own. A file is an inode
with a name; a thread keeps writing to the inode it opened, whatever its name has become.
-/

namespace Epilykos.Ssh

open Program

inductive Fault
  | ssh (e : SshError)
  | notFound
  deriving DecidableEq, Repr

inductive FileCall
  /-- The text of authorized_keys. -/
  | read
  /-- `open(tmp, 'w')`: the inode that answers to the temporary name, now empty. -/
  | openTmp
  | write (inode : ℕ) (text : Line)
  | chmod
  | replace

abbrev FileCall.Ans : FileCall → Type
  | .read => Option Line
  | .openTmp => ℕ
  | .write _ _ => Unit
  | .chmod | .replace => Except Fault Unit

abbrev keyFiles : Interface := ⟨FileCall, FileCall.Ans⟩

abbrev SshProg (α : Type) := Prog keyFiles Fault α

def ask (c : FileCall) : SshProg c.Ans := Prog.call (F := keyFiles) c .ret

/-! ### The actions -/

/-- _read_keys. -/
def readKeys : SshProg (List Key) := do
  return keysOf (← ask .read)

/-- _write_keys. -/
def writeKeys (lines : List Line) : SshProg Unit := do
  let inode ← ask .openTmp
  ask (.write inode (fileText lines))
  Prog.ofExcept (← ask .chmod)
  Prog.ofExcept (← ask .replace)

def Key.fp (key : Key) : Line := fingerprint key.blob

def addKey (line : Line) : SshProg Line := do
  let key ← Prog.ofExcept ((parseKey line).mapError Fault.ssh)
  let fp := fingerprint key.blob
  let keys ← readKeys
  if keys.any fun k => k.fp == fp then return fp
  else
    writeKeys (keys.map Key.line ++ [cleanLine key])
    return fp

def removeKey (fp : Line) : SshProg Unit := do
  let keys ← readKeys
  let kept := keys.filter fun k => k.fp != fp
  .raiseIf (kept.length = keys.length) (.ssh .noSuchKey)
  writeKeys (kept.map Key.line)

inductive Request
  | add (line : Line)
  | remove (fp : Line)
  deriving DecidableEq, Repr

/-- `handle` of a key action: the action, then the keys of the status it replies with. A reply
that is not ok is an exception here. -/
def handle : Request → SshProg (List Key)
  | .add line => do
    let _ ← addKey line
    readKeys
  | .remove fp => do
    removeKey fp
    readKeys

/-! ### The files -/

structure Disk where
  inodes : ℕ → Line
  keys : Option ℕ
  tmp : Option ℕ
  /-- No name leads to this inode or a later one. -/
  next : ℕ
  keys_lt : ∀ n ∈ keys, n < next
  tmp_lt : ∀ n ∈ tmp, n < next
  apart : ∀ n ∈ tmp, n ∉ keys

namespace Disk

def content (d : Disk) : Option Line := d.keys.map d.inodes

def withText (d : Disk) (inode : ℕ) (text : Line) : Disk :=
  { d with inodes := Function.update d.inodes inode text }

/-- A new inode under the temporary name. -/
def created (d : Disk) : Disk where
  inodes := Function.update d.inodes d.next []
  keys := d.keys
  tmp := some d.next
  next := d.next + 1
  keys_lt n hn := Nat.lt_succ_of_lt (d.keys_lt n hn)
  tmp_lt := by simp
  apart n hn hkeys := by
    cases hn
    exact Nat.lt_irrefl _ (d.keys_lt _ hkeys)

/-- The temporary name is gone, its inode is the file. -/
def renamed (d : Disk) (inode : ℕ) (h : inode ∈ d.tmp) : Disk where
  inodes := d.inodes
  keys := some inode
  tmp := none
  next := d.next
  keys_lt n hn := by
    cases hn
    exact d.tmp_lt _ h
  tmp_lt := by simp
  apart := by simp

end Disk

/-- What a call does. A text written over what another request wrote leaves some text. -/
inductive Files (d : Disk) : (c : FileCall) → c.Ans → Disk → Prop
  | read : Files d .read d.content d
  | truncate {inode : ℕ} : inode ∈ d.tmp → Files d .openTmp inode (d.withText inode [])
  | create : d.tmp = none → Files d .openTmp d.next d.created
  | write {inode : ℕ} {text left : Line} : (d.inodes inode = [] → left = text) →
      Files d (.write inode text) () (d.withText inode left)
  | chmod : d.tmp ≠ none → Files d .chmod (.ok ()) d
  | chmodMissing : d.tmp = none → Files d .chmod (.error .notFound) d
  | replace {inode : ℕ} (h : inode ∈ d.tmp) : Files d .replace (.ok ()) (d.renamed inode h)
  | replaceMissing : d.tmp = none → Files d .replace (.error .notFound) d

/-! ### Threads -/

structure Thread where
  request : Request
  prog : SshProg (List Key)
  /-- What its latest reading of the file answered. -/
  seen : Option (Option Line)

structure Host (ι : Type) where
  disk : Disk
  threads : ι → Thread

def Thread.after (t : Thread) (c : FileCall) (a : c.Ans) (rest : SshProg (List Key)) : Thread where
  request := t.request
  prog := rest
  seen := match c, a with
    | .read, a => some a
    | _, _ => t.seen

variable {ι : Type}

def Host.start (disk : Disk) (requests : ι → Request) : Host ι :=
  ⟨disk, fun i => ⟨requests i, handle (requests i), none⟩⟩

/-- One call of one thread, where `may` lets it. -/
inductive Moves [DecidableEq ι] (may : Host ι → ι → Prop) (s : Host ι) : Host ι → Prop
  | call (i : ι) {c : FileCall} {k : c.Ans → SshProg (List Key)} {a : c.Ans} {d : Disk} :
      (s.threads i).prog = .call c k → may s i → Files s.disk c a d →
      Moves may s ⟨d, Function.update s.threads i ((s.threads i).after c a (k a))⟩

/-- Any interleaving. -/
abbrev Interleaved [DecidableEq ι] (may : Host ι → ι → Prop) : Host ι → Host ι → Prop :=
  Relation.ReflTransGen (Moves may)

def Thread.Replied (t : Thread) : Prop :=
  (∃ keys, t.prog = .ret keys) ∨ ∃ e, t.prog = .raise e

/-- Between its opening of the temporary file and its renaming. -/
def Thread.Holds (t : Thread) : Prop :=
  match t.prog with
  | .call (.write _ _) _ => True
  | .call .chmod _ => True
  | .call .replace _ => True
  | _ => False

/-- A request that opens the temporary file finds no other request between its opening and its
renaming, and authorized_keys as it read it. -/
def Exclusive (s : Host ι) (i : ι) : Prop :=
  ∀ k, (s.threads i).prog = .call .openTmp k →
    (∀ j, j ≠ i → ¬ (s.threads j).Holds) ∧ (s.threads i).seen = some s.disk.content

/-- What a request does to the keys when it has them to itself. -/
def Request.apply (keys : List Key) : Request → List Key
  | .add line =>
    match parseKey line with
    | .error _ => keys
    | .ok key =>
      if keys.any fun k => k.fp == fingerprint key.blob then keys else keys ++ [cleanKey key]
  | .remove fp => keys.filter fun k => k.fp != fp

end Epilykos.Ssh
