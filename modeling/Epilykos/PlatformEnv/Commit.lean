import Epilykos.Lib.Program
import Epilykos.PlatformEnv.Build

/-!
The two commits over the io callbacks. The selected record is preserved until the other one is
written and read back, both records are always written, and a commit is acknowledged only
after both have been read again.
-/

namespace Epilykos.PlatformEnv

open Program

inductive IoCall
  | read (index : Index)
  | write (index : Index) (record : Record)

/-- `read` answers with a record or fails; `write` answers whether it succeeded. -/
abbrev io : Interface where
  Call := IoCall
  Ans
    | .read _ => Option Record
    | .write _ _ => Bool

abbrev Io := Prog io EnvError

def ioRead (index : Index) : Io (Option Record) := Prog.perform (F := io) (.read index)

def ioWrite (index : Index) (record : Record) : Io Bool :=
  Prog.perform (F := io) (.write index record)

def readRecord (index : Index) : Io Record := do
  match ← ioRead index with
  | some record => return record
  | none => throw .io

/-- The body of the two passes: write, read back, compare. -/
def writeBack (index : Index) (next : Record) : Io Unit := do
  if !(← ioWrite index next) then throw .io
  let record ← readRecord index
  if record ≠ next then throw .io

def Device.pair (a b : Record) : Device
  | .a => a
  | .b => b

/-- `commit_loaded` from its first write on. -/
def replicate (flag : UInt8) (chosen : Index) (next : Record) : Io Selection := do
  let flag := flag + 1
  writeBack chosen.other (next.setFlag flag)
  let flag := flag + 1
  writeBack chosen (next.setFlag flag)
  let a ← readRecord .a
  let b ← readRecord .b
  let records := Device.pair a b
  if !(records .a).crcValid ∨ !(records .b).crcValid ∨ (records chosen).flag ≠ flag ∨
      (records chosen.other).flag ≠ flag - 1 ∨ (records .a).data ≠ next.data ∨
      (records .b).data ≠ next.data then throw .io
  .ofExcept records.select

def commitLoaded (records : Device) (chosen : Index) (updates : List Update) : Io Selection := do
  let next ← .ofExcept (build (records chosen) updates)
  replicate (records chosen).flag chosen next

def load : Io (Device × Selection) := do
  let a ← readRecord .a
  let b ← readRecord .b
  let records := Device.pair a b
  let chosen ← .ofExcept records.select
  return (records, chosen)

def epkEnvCommit (updates : List Update) : Io Selection := do
  if maxUpdates < updates.length then throw .invalid
  let (records, chosen) ← load
  commitLoaded records chosen.index updates

/-! ### Snapshots -/

/-- The updates so far and the bytes of `names` in use. -/
structure Diff where
  updates : List Update
  used : ℕ
  deriving DecidableEq

def addDiff (diff : Diff) (e : Entry) (value : Option Bytes) : Except EnvError Diff :=
  if diff.updates.length = maxUpdates ∨ envSize - diff.used < e.name.length + 1 then
    .error .capacity
  else .ok {
    updates := diff.updates ++ [⟨some (.ofBytes e.name), value.map .ofBytes⟩]
    used := diff.used + e.name.length + 1 }

/-- Entries of the old record that the new one lacks or holds otherwise. -/
def diffOld (next : View) : Diff → List Entry → Except EnvError Diff
  | diff, [] => .ok diff
  | diff, e :: rest =>
    let value := get next.entries e.name
    if value ≠ some e.value then
      match addDiff diff e value with
      | .error e => .error e
      | .ok diff => diffOld next diff rest
    else diffOld next diff rest

/-- Entries that only the new record has. -/
def diffNew (old : View) : Diff → List Entry → Except EnvError Diff
  | diff, [] => .ok diff
  | diff, e :: rest =>
    if (get old.entries e.name).isNone then
      match addDiff diff e (some e.value) with
      | .error e => .error e
      | .ok diff => diffNew old diff rest
    else diffNew old diff rest

def epkEnvCommitSnapshot (desired : Record) : Io Selection := do
  if !desired.crcValid then throw .invalid
  let next ← .ofExcept (parse desired)
  let (records, chosen) ← load
  if next.generation ≠ chosen.generation then throw .conflict
  let old ← .ofExcept (parse (records chosen.index))
  let diff ← .ofExcept (diffOld next ⟨[], 0⟩ old.entries)
  let diff ← .ofExcept (diffNew old diff next.entries)
  commitLoaded records chosen.index diff.updates

/-- The two entry points with their arguments. -/
inductive Op
  | commit (updates : List Update)
  | snapshot (desired : Record)

def Op.prog : Op → Io Selection
  | .commit updates => epkEnvCommit updates
  | .snapshot desired => epkEnvCommitSnapshot desired

/-! ### Devices -/

@[simp] theorem Device.pair_self (d : Device) : Device.pair (d .a) (d .b) = d := by
  funext i
  cases i <;> rfl

def Device.set (d : Device) (i : Index) (r : Record) : Device := Function.update d i r

@[simp] theorem Device.set_same (d : Device) (i : Index) (r : Record) : d.set i r i = r :=
  Function.update_self ..

@[simp] theorem Device.set_other (d : Device) (i : Index) (r : Record) :
    d.set i r i.other = d i.other :=
  Function.update_of_ne (Index.other_ne i) ..

@[simp] theorem Device.set_of_other (d : Device) (i : Index) (r : Record) :
    d.set i.other r i = d i :=
  Function.update_of_ne (Index.ne_other i) ..

/-! ### What a commit works on -/

/-- The record an operation writes: everything it does before its first write, as a function
of what it reads. -/
def Op.next (d : Device) : Op → Except EnvError (Index × Record)
  | .commit updates => do
    if maxUpdates < updates.length then throw .invalid
    let chosen ← d.select
    let next ← build (d chosen.index) updates
    return (chosen.index, next)
  | .snapshot desired => do
    if !desired.crcValid then throw .invalid
    let next ← parse desired
    let chosen ← d.select
    if next.generation ≠ chosen.generation then throw .conflict
    let old ← parse (d chosen.index)
    let diff ← diffOld next ⟨[], 0⟩ old.entries
    let diff ← diffNew old diff next.entries
    let next ← build (d chosen.index) diff.updates
    return (chosen.index, next)

theorem build_of_choose {d : Device} {c : Index} {v : View} {updates : List Update} {r : Record}
    (hchoose : d.choose = .ok (c, v)) (h : build (d c) updates = .ok r) :
    ∃ changes w, updates = changes.map (fun c => ⟨some c.name, c.value⟩) ∧ Built v changes r w :=
  build_ok (Device.choose_ok hchoose).2.1 h

theorem Op.next_commit {d : Device} {c : Index} {v : View} {updates : List Update} {r : Record}
    (hchoose : d.choose = .ok (c, v)) (hcount : ¬ maxUpdates < updates.length)
    (hbuild : build (d c) updates = .ok r) : (Op.commit updates).next d = .ok (c, r) := by
  simp only [Op.next, if_neg hcount, Device.select_of_choose hchoose, selection, hbuild, pure,
    bind, Except.pure, Except.bind]

theorem Op.next_snapshot {desired : Record} {d : Device} {c : Index} {r : Record}
    (h : (Op.snapshot desired).next d = .ok (c, r)) :
    ∃ next old diff, parse desired = .ok next ∧ d.choose = .ok (c, old) ∧
      next.generation = old.generation ∧
      (diffOld next ⟨[], 0⟩ old.entries >>= fun diff => diffNew old diff next.entries) =
        .ok diff ∧ build (d c) diff.updates = .ok r := by
  simp only [Op.next, pure, bind, Except.pure, Except.bind] at h ⊢
  split_ifs at h
  cases hparse : parse desired with
  | error e => simp [hparse] at h
  | ok next =>
    simp only [hparse] at h
    cases hsel : d.select with
    | error e => simp [hsel] at h
    | ok chosen =>
      simp only [hsel] at h
      split_ifs at h with hgen
      obtain ⟨old, hchoose, heq⟩ := Device.choose_of_select hsel
      rw [(Device.choose_ok hchoose).2.1] at h
      simp only at h
      cases hdiff : diffOld next ⟨[], 0⟩ old.entries with
      | error e => simp [hdiff] at h
      | ok diff =>
        simp only [hdiff] at h
        cases hdiff' : diffNew old diff next.entries with
        | error e => simp [hdiff'] at h
        | ok diff' =>
          simp only [hdiff'] at h
          cases hnext : build (d chosen.index) diff'.updates with
          | error e => simp [hnext] at h
          | ok r' =>
            simp only [hnext, Except.ok.injEq, Prod.mk.injEq] at h
            obtain ⟨rfl, rfl⟩ := h
            rw [heq] at hgen
            refine ⟨next, old, diff', rfl, hchoose, not_not.mp hgen, ?_, hnext⟩
            simp [hdiff, hdiff']

theorem Op.next_of_parse_error {desired : Record} {d : Device} {e : EnvError}
    (hcrc : desired.crcValid = true) (hparse : parse desired = .error e) :
    (Op.snapshot desired).next d = .error e := by
  simp only [Op.next, hcrc, hparse, Bool.not_true, Bool.false_eq_true, if_false, bind, Except.bind]

theorem Op.next_snapshot_complete {desired : Record} {d : Device} {c : Index} {next old : View}
    {diff diff' : Diff} {r : Record} (hcrc : desired.crcValid = true)
    (hparse : parse desired = .ok next) (hchoose : d.choose = .ok (c, old))
    (hgen : next.generation = old.generation) (hdiff : diffOld next ⟨[], 0⟩ old.entries = .ok diff)
    (hdiff' : diffNew old diff next.entries = .ok diff') (hbuild : build (d c) diff'.updates = .ok r) :
    (Op.snapshot desired).next d = .ok (c, r) := by
  have hgen' : ¬ next.generation ≠ old.generation := not_not.mpr hgen
  simp only [Op.next, hcrc, hparse, Device.select_of_choose hchoose, if_neg hgen', pure, bind,
    Except.pure, Except.bind, Bool.not_true, Bool.false_eq_true, if_false, selection,
    (Device.choose_ok hchoose).2.1, hdiff, hdiff', hbuild]

/-- What an operation writes was built from the selected record. -/
theorem Op.next_ok {op : Op} {d : Device} {c : Index} {r : Record}
    (h : op.next d = .ok (c, r)) :
    ∃ v changes w, d.choose = .ok (c, v) ∧ Built v changes r w := by
  cases op with
  | commit updates =>
    simp only [Op.next, pure, bind, Except.pure, Except.bind] at h
    split_ifs at h
    cases hsel : d.select with
    | error e => simp [hsel] at h
    | ok chosen =>
      simp only [hsel] at h
      obtain ⟨v, hchoose, _⟩ := Device.choose_of_select hsel
      cases hnext : build (d chosen.index) updates with
      | error e => simp [hnext] at h
      | ok next =>
        simp only [hnext, Except.ok.injEq, Prod.mk.injEq] at h
        obtain ⟨rfl, rfl⟩ := h
        obtain ⟨changes, w, _, hb⟩ := build_of_choose hchoose hnext
        exact ⟨v, changes, w, hchoose, hb⟩
  | snapshot desired =>
    obtain ⟨next, v, diff, _, hchoose, _, _, hnext⟩ := Op.next_snapshot h
    obtain ⟨changes, w, _, hb⟩ := build_of_choose hchoose hnext
    exact ⟨v, changes, w, hchoose, hb⟩

section Rules

/-- A backend whose reads, when they succeed, return what the device holds. -/
def ReadsDevice (W : Behaviour io Device) : Prop :=
  ∀ d i a d', W d (.read i) a d' → d' = d ∧ (a = none ∨ a = some (d i))

variable {W : Behaviour io Device} {allowed : Device → IoCall → Prop} {d : Device}
  {E : EnvError → Device → Prop}

theorem safe_readRecord (hW : ReadsDevice W) {Q : Record → Device → Prop} {i : Index}
    (hallowed : allowed d (.read i)) (hQ : Q (d i) d)
    (hE : W d (.read i) none d → E .io d) :
    Safe (· = ·) W allowed (readRecord i) Q E d := by
  rintro _ rfl
  refine ⟨hallowed, fun a d' hw => ?_⟩
  obtain ⟨rfl, rfl | rfl⟩ := hW _ _ _ _ hw
  · exact hE hw
  · exact hQ

theorem safe_readBoth (hW : ReadsDevice W) {α : Type} {Q : α → Device → Prop}
    {f : Record → Record → Io α} (hallowed : ∀ i, allowed d (.read i))
    (hE : ∀ i, W d (.read i) none d → E .io d)
    (hf : Safe (· = ·) W allowed (f (d .a) (d .b)) Q E d) :
    Safe (· = ·) W allowed (do let a ← readRecord .a; let b ← readRecord .b; f a b) Q E d :=
  Safe.bind (safe_readRecord hW (hallowed _)
    (Safe.bind (safe_readRecord hW (hallowed _) hf (hE _))) (hE _))

theorem safe_ofExcept {α : Type} {Q : α → Device → Prop} {x : Except EnvError α}
    (hok : ∀ a, x = .ok a → Q a d) (herror : ∀ e, x = .error e → E e d) :
    Safe (· = ·) W allowed (Prog.ofExcept x) Q E d := by
  cases x with
  | ok a => exact hok a rfl
  | error e => exact herror e rfl

theorem safe_commitLoaded {Q : Selection → Device → Prop} {c : Index} {updates : List Update}
    (herror : ∀ e, build (d c) updates = .error e → E e d)
    (hok : ∀ next, build (d c) updates = .ok next →
      Safe (· = ·) W allowed (replicate (d c).flag c next) Q E d) :
    Safe (· = ·) W allowed (commitLoaded d c updates) Q E d :=
  Safe.bind (safe_ofExcept hok herror)

theorem safe_load (hW : ReadsDevice W) {Q : Device × Selection → Device → Prop}
    (hallowed : ∀ i, allowed d (.read i))
    (hio : ∀ i, W d (.read i) none d → E .io d)
    (herror : ∀ e, d.select = .error e → E e d)
    (hok : ∀ chosen, d.select = .ok chosen → Q (d, chosen) d) :
    Safe (· = ·) W allowed load Q E d := by
  refine safe_readBoth hW hallowed hio (Safe.bind ?_)
  rw [Device.pair_self]
  exact safe_ofExcept hok herror

/-- An operation reads both records and then refuses, or replicates the record it built. -/
theorem Op.prog_safe (hW : ReadsDevice W) {op : Op} {Q : Selection → Device → Prop}
    (hallowed : ∀ i, allowed d (.read i))
    (hio : ∀ i, W d (.read i) none d → E .io d)
    (herror : ∀ e, op.next d = .error e → E e d)
    (hok : ∀ c next, op.next d = .ok (c, next) →
      Safe (· = ·) W allowed (replicate (d c).flag c next) Q E d) :
    Safe (· = ·) W allowed op.prog Q E d := by
  cases op with
  | commit updates =>
    simp only [Op.prog, epkEnvCommit]
    by_cases hcount : maxUpdates < updates.length
    · rw [if_pos hcount]
      exact herror .invalid (by simp [Op.next, hcount]; rfl)
    rw [if_neg hcount]
    simp only [Op.next, if_neg hcount, pure, bind, Except.pure, Except.bind] at herror hok
    refine Safe.bind (safe_load hW hallowed hio (fun e he => herror e (by simp [he])) ?_)
    intro chosen hchosen
    simp only [hchosen] at herror hok
    refine safe_commitLoaded (fun e he => herror e (by simp [he])) fun next hnext => ?_
    exact hok _ next (by simp [hnext])
  | snapshot desired =>
    simp only [Op.prog, epkEnvCommitSnapshot]
    by_cases hcrc : (!desired.crcValid) = true
    · rw [if_pos hcrc]
      exact herror .invalid (by simp only [Op.next, if_pos hcrc]; rfl)
    rw [if_neg hcrc]
    simp only [Op.next, if_neg hcrc, pure, bind, Except.pure, Except.bind] at herror hok
    refine Safe.bind (safe_ofExcept (fun next hparse => ?_) fun e he => herror e (by simp [he]))
    simp only [hparse] at herror hok
    refine Safe.bind (safe_load hW hallowed hio (fun e he => herror e (by simp [he])) ?_)
    intro chosen hchosen
    simp only [hchosen] at herror hok
    by_cases hgen : next.generation ≠ chosen.generation
    · simp only [if_pos hgen]
      exact herror .conflict (by simp only [if_pos hgen]; rfl)
    simp only [if_neg hgen] at herror hok ⊢
    refine Safe.bind (safe_ofExcept (fun old hold => ?_) fun e he => herror e (by simp [he]))
    simp only [hold] at herror hok
    refine Safe.bind (safe_ofExcept (fun diff hdiff => ?_) fun e he => herror e (by simp [he]))
    simp only [hdiff] at herror hok
    refine Safe.bind (safe_ofExcept (fun diff' hdiff' => ?_) fun e he => herror e (by simp [he]))
    simp only [hdiff'] at herror hok
    refine safe_commitLoaded (fun e he => herror e (by simp [he])) fun next hnext => ?_
    exact hok _ next (by simp [hnext])

end Rules

end Epilykos.PlatformEnv
