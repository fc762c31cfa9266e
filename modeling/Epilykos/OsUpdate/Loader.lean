import Epilykos.OsUpdate.Trust

/-!
The slot loader, boot-slot.cmd: it refuses an environment it does not understand, starts the
first slot of BOOT_ORDER that has attempts left, and spends the attempt before the launch.
-/

namespace Epilykos.OsUpdate

/-! ### The guard of the native commands -/

def lowerHex (c : Char) : Bool := c.isDigit || ('a' ≤ c && c ≤ 'f')

def jobUuid (value : JobId) : Bool :=
  let chars := value.toList
  chars.length == 36 && chars.getD 14 ' ' == '4' &&
    ['8', '9', 'a', 'b'].contains (chars.getD 19 ' ') &&
    (List.range 36).all fun i =>
      if i = 8 ∨ i = 13 ∨ i = 18 ∨ i = 23 then chars.getD i ' ' == '-'
      else lowerHex (chars.getD i ' ')

/-- epk_boot_guard: the syntax of the pending identity. -/
def bootGuard (env : Env) : Bool :=
  match env.osPending with
  | none => true
  | some pending => jobUuid pending &&
      (env.osTargetSequence.any fun n => 0 < n && n ≤ PlatformEnv.uint64Max) &&
      env.osTargetSha256.any isDigest

/-! ### The script -/

namespace Env

def orderValid (env : Env) : Bool :=
  [[Slot.a, .b], [.b, .a], [.a], [.b]].contains env.bootOrder

def countersValid (env : Env) : Bool := env.left .a ≤ 3 && env.left .b ≤ 3

/-- The pending variables agree with each other, or none of them is set. -/
def pendingValid (env : Env) : Bool :=
  match env.osPending with
  | some pending =>
    (env.osTarget.any fun t => env.osFrom == some t.other) &&
      env.osTargetSequence.isSome && env.osTargetSha256.isSome && env.osPhase.isSome &&
      (env.osTrialStarted.all fun t => t == pending) &&
      !(env.osPhase == some .ready && env.osTrialStarted.isSome)
  | none =>
    env.osPhase.isNone && env.osTrialStarted.isNone && env.osTarget.isNone &&
      env.osFrom.isNone && env.osTargetSequence.isNone && env.osTargetSha256.isNone

/-- What the script checks before it looks for a slot. -/
def accepted (env : Env) : Bool :=
  bootGuard env && env.orderValid && env.countersValid && env.pendingValid

/-- A slot the script may start; a ready job's target is passed over. -/
def eligible (env : Env) (s : Slot) : Bool :=
  !(env.osPending.isSome && env.osPhase == some .ready && env.osTarget == some s) &&
    env.left s != 0

def select (env : Env) : Option Slot := env.bootOrder.find? env.eligible

/-- The attempt is spent, and the launch of the pending job's target marks the trial. -/
def launch (env : Env) (s : Slot) : Env :=
  let env := env.setLeft s (env.left s - 1)
  if env.osPending.isSome && env.osTarget == some s then
    { env with osTrialStarted := env.osPending }
  else env

end Env

/-- The slot started and the environment saved for it; `none` is the diagnostic halt. -/
def bootSlot (env : Env) : Option (Slot × Env) :=
  if env.accepted then env.select.map fun s => (s, env.launch s) else none

theorem bootSlot_eq_some {env env' : Env} {s : Slot} :
    bootSlot env = some (s, env') ↔
      env.accepted = true ∧ env.select = some s ∧ env' = env.launch s := by
  unfold bootSlot
  by_cases h : env.accepted = true
  · simp only [h, ↓reduceIte, Option.map_eq_some_iff, Prod.mk.injEq, true_and]
    exact ⟨fun ⟨t, ht, hs, he⟩ => ⟨hs ▸ ht, hs ▸ he.symm⟩, fun ⟨hs, he⟩ => ⟨s, hs, rfl, he.symm⟩⟩
  · simp [h]

theorem bootSlot_eq_none {env : Env} :
    bootSlot env = none ↔ env.accepted = false ∨ env.select = none := by
  unfold bootSlot
  by_cases h : env.accepted = true <;> simp [h]

namespace Env

@[simp] theorem launch_osPending (env : Env) (s : Slot) :
    (env.launch s).osPending = env.osPending := by
  simp only [launch]; split <;> rfl

@[simp] theorem launch_osTarget (env : Env) (s : Slot) :
    (env.launch s).osTarget = env.osTarget := by
  simp only [launch]; split <;> rfl

@[simp] theorem launch_osFrom (env : Env) (s : Slot) : (env.launch s).osFrom = env.osFrom := by
  simp only [launch]; split <;> rfl

@[simp] theorem launch_osTargetSequence (env : Env) (s : Slot) :
    (env.launch s).osTargetSequence = env.osTargetSequence := by
  simp only [launch]; split <;> rfl

@[simp] theorem launch_osTargetSha256 (env : Env) (s : Slot) :
    (env.launch s).osTargetSha256 = env.osTargetSha256 := by
  simp only [launch]; split <;> rfl

@[simp] theorem launch_osPhase (env : Env) (s : Slot) : (env.launch s).osPhase = env.osPhase := by
  simp only [launch]; split <;> rfl

@[simp] theorem launch_osFloor (env : Env) (s : Slot) : (env.launch s).osFloor = env.osFloor := by
  simp only [launch]; split <;> rfl

@[simp] theorem launch_bootOrder (env : Env) (s : Slot) :
    (env.launch s).bootOrder = env.bootOrder := by
  simp only [launch]; split <;> rfl

@[simp] theorem launch_left (env : Env) (s : Slot) :
    (env.launch s).left = Function.update env.left s (env.left s - 1) := by
  simp only [launch]; split <;> rfl

/-- A launch of the pending job's target is marked as its trial. -/
theorem launch_trial {env : Env} {s : Slot} {id : JobId} (hp : env.osPending = some id)
    (ht : env.osTarget = some s) : (env.launch s).osTrialStarted = some id := by
  simp [launch, setLeft, hp, ht]

/-- No other launch touches the mark. -/
theorem launch_other {env : Env} {s : Slot} (h : env.osPending = none ∨ env.osTarget ≠ some s) :
    (env.launch s).osTrialStarted = env.osTrialStarted := by
  rcases h with h | h <;> simp [launch, setLeft, h]

theorem select_left {env : Env} {s : Slot} (h : env.select = some s) : env.left s ≠ 0 := by
  have := List.find?_some h
  simp only [eligible, Bool.and_eq_true, bne_iff_ne] at this
  exact this.2

theorem accepted_left {env : Env} (h : env.accepted = true) (s : Slot) : env.left s ≤ 3 := by
  simp only [accepted, countersValid, Bool.and_eq_true, decide_eq_true_eq] at h
  cases s
  · exact h.1.2.1
  · exact h.1.2.2

end Env

/-! ### A boot -/

/-- Two states that differ at most in what a restart or the world outside changes. -/
structure SameDurable (w w' : World) : Prop where
  env : w'.env = w.env
  booted : w'.booted = w.booted
  journal : w'.journal = w.journal
  guard : w'.guard = w.guard
  cancel : w'.cancel = w.cancel
  checked : w'.checked = w.checked
  staging : w'.staging = w.staging
  app : w'.app = w.app
  platforms : w'.platforms = w.platforms
  baselines : w'.baselines = w.baselines
  slots : w'.slots = w.slots

/-- The box starts again, and the loader launches slot `s`. -/
structure Boots (w : World) (s : Slot) (w' : World) : Prop where
  accepted : w.env.accepted = true
  select : w.env.select = some s
  rest : SameDurable { w with env := w.env.launch s, booted := s } w'

theorem boots_iff {w w' : World} {s : Slot} :
    Boots w s w' ↔ ∃ env', bootSlot w.env = some (s, env') ∧
      SameDurable { w with env := env', booted := s } w' := by
  simp only [bootSlot_eq_some]
  constructor
  · intro ⟨ha, hs, hrest⟩
    exact ⟨_, ⟨ha, hs, rfl⟩, hrest⟩
  · rintro ⟨_, ⟨ha, hs, rfl⟩, hrest⟩
    exact ⟨ha, hs, hrest⟩

end Epilykos.OsUpdate
