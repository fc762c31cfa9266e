import Epilykos.Lib.Program
import Epilykos.Lib.Text
import Mathlib.Data.Nat.Cast.Defs
import Mathlib.Logic.Function.Basic

/-!
The boot-health supervisor as it is written: one object polled by its service, with commands
it starts and looks at again on a later tick. The object's attributes are reached by calls
like everything else outside a step, so a step that ends in an exception leaves what it had
assigned by then. Time is any type with comparisons, a sum and a difference; no law of them is
used.
-/

namespace Epilykos.BootHealth

open Program

/-- A spawned process, with the arguments it runs. -/
structure Process where
  pid : ℕ
  args : List String
  deriving DecidableEq, Repr

inductive SupState
  | checking
  | confirming
  | done
  | rebooting
  deriving DecidableEq, Repr

/-- `timeout` stands where the source returns the word in place of a return code. -/
inductive Code
  | exit (code : ℤ)
  | timeout
  deriving DecidableEq, Repr

inductive Raised
  | osError
  | other
  deriving DecidableEq, Repr

structure Command (T : Type) where
  argv : List String
  bound : ℕ
  started : T
  process : Option Process
  deriving Repr

/-- The attributes that hold a command between ticks. -/
inductive Attr
  | mountCheck
  | podman
  | health
  | envRead
  | finish
  | stopping
  deriving DecidableEq, Repr

/-- What `fw_printenv` prints, by name; the newest assignment first. -/
abbrev EnvText := List (List Char × List Char)

def EnvText.get (env : EnvText) (name : String) : Option (List Char) :=
  (env.find? fun p => p.1 == name.toList).map Prod.snd

def parseEnv (text : List Char) : EnvText :=
  ((Text.splitlines text).filterMap (Text.partition '=')).reverse

/-- The attributes of the supervisor other than `state`. -/
structure Sup (T : Type) where
  deadline : T
  slot : Option (List Char)
  commands : Attr → Option (Command T)
  mountChecked : Option T
  dataFailed : Bool
  env : Option EnvText
  reason : Option String
  rebootAt : Option T
  stage : ℕ

inductive SupCall (T : Type)
  | state
  | enter (s : SupState)
  | attributes
  | assign (self : Sup T)
  | clock
  | notify (text : String)
  | isMount (path : String)
  | coordinatorExists
  | spawn (argv : List String)
  | poll (p : Process)
  | read (p : Process)
  | kill (p : Process)
  | record (slot : Option (List Char))
  | sysrq

abbrev SupCall.Ans {T : Type} : SupCall T → Type
  | .state => SupState
  | .attributes => Sup T
  | .clock => T
  | .notify _ => Except Raised Unit
  | .isMount _ => Bool
  | .coordinatorExists => Bool
  | .spawn _ => Except Raised Process
  | .poll _ => Option ℤ
  | .read _ => Except Raised (List Char)
  | .enter _ | .assign _ | .kill _ | .record _ | .sysrq => Unit

abbrev supervision (T : Type) : Interface := ⟨SupCall T, SupCall.Ans⟩

abbrev SupProg (T α : Type) := Prog (supervision T) Raised α

variable {T : Type}

def ask (c : SupCall T) : SupProg T c.Ans := Prog.call (F := supervision T) c .ret

def deadlineS : ℕ := 1200

def rebootForceS : ℕ := 120

def rebootSysrqS : ℕ := 60

inductive Bound
  | podmanInfo
  | health
  | markGood
  | confirm
  | env
  | stopApp

/-- BOUNDS. -/
def Bound.seconds : Bound → ℕ
  | podmanInfo => 60
  | health => 20
  | markGood => 60
  | confirm => 300
  | env => 15
  | stopApp => 60

def isFailedArgs : List String := ["systemctl", "is-failed", "--quiet", "data.mount"]

def podmanArgs : List String := ["podman", "info", "--format", "\x7b\x7b.Host.Arch\x7d\x7d"]

def healthArgs : List String :=
  ["podman", "inspect", "--format", "\x7b\x7b.State.Health.Status\x7d\x7d", "epilykos"]

def envArgs : List String := ["fw_printenv"]

def markGoodArgs : List String := ["rauc", "status", "mark-good"]

def confirmArgs (coordinator : String) (pending : List Char) : List String :=
  [coordinator, "--job", String.ofList pending]

def stopAppArgs : List String := ["systemctl", "stop", "epilykos.service"]

def rebootArgs : List String := ["systemctl", "--no-block", "reboot"]

def forceArgs : List String := ["systemctl", "reboot", "--force"]

/-! ### Commands -/

/-- Supervisor.command: a program that cannot be started is a command without a process. -/
def command (key : Bound) (argv : List String) : SupProg T (Command T) := do
  let started ← ask .clock
  match ← ask (.spawn argv) with
  | .ok p => return ⟨argv, key.seconds, started, some p⟩
  | .error .osError => return ⟨argv, key.seconds, started, none⟩
  | .error .other => throw .other

def update (f : Sup T → Sup T) : SupProg T Unit := do
  let self ← ask .attributes
  ask (.assign (f self))

def Sup.withCommand (self : Sup T) (a : Attr) (c : Option (Command T)) : Sup T :=
  { self with commands := Function.update self.commands a c }

/-- `if not hasattr(self, a): self.a = ...`, and the command. -/
def lazily (a : Attr) (key : Bound) (argv : List String) : SupProg T (Command T) := do
  let self ← ask .attributes
  match self.commands a with
  | some c => return c
  | none =>
    let c ← command key argv
    update (·.withCommand a (some c))
    return c

def delete (a : Attr) : SupProg T Unit := update (·.withCommand a none)

section

variable [LE T] [DecidableLE T] [LT T] [DecidableLT T] [Add T] [Sub T] [NatCast T]

/-- `none` while the command runs. -/
def Command.result (c : Command T) : SupProg T (Option (Code × List Char)) :=
  match c.process with
  | none => return some (.exit 127, [])
  | some p => do
    match ← ask (.poll p) with
    | some code =>
      let out ← Prog.ofExcept (← ask (.read p))
      return some (.exit code, out)
    | none =>
      let now ← ask .clock
      if (c.bound : T) < now - c.started then
        ask (.kill p)
        return some (.timeout, [])
      else return none

/-! ### One tick -/

def mountCheckDue (self : Sup T) (now : T) : Bool :=
  (self.commands .mountCheck).isNone &&
    self.mountChecked.all fun checked => decide (((10 : ℕ) : T) ≤ now - checked)

def pollMountCheck (now : T) : SupProg T Bool := do
  let self ← ask .attributes
  match self.commands .mountCheck with
  | none => return self.dataFailed
  | some check =>
    match ← check.result with
    | none => return self.dataFailed
    | some (code, _) =>
      let failed := code == .exit 0
      update fun self =>
        { self.withCommand .mountCheck none with mountChecked := some now, dataFailed := failed }
      return failed

def startMountCheck : SupProg T Unit := do
  let check ← command .env isFailedArgs
  update (·.withCommand .mountCheck (some check))

def dataMountFailed (now : T) : SupProg T Bool := do
  if ← ask (.isMount "/data") then return false
  else
    let self ← ask .attributes
    .when (mountCheckDue self now) startMountCheck
    pollMountCheck now

/-- Whether the environment makes the booted slot the trial of its pending job. -/
def isTrial (env : EnvText) (slot : Option (List Char)) : Bool :=
  let pending := (env.get "epk_os_pending").getD []
  pending ≠ [] && slot == env.get "epk_os_target" && env.get "epk_os_trial_started" == some pending

def finishConfirm (finish : Command T) : SupProg T SupState := do
  match ← finish.result with
  | none => return .confirming
  | some (code, _) =>
    .when (code = .exit 0) do
      let self ← ask .attributes
      ask (.record self.slot)
    ask (.enter .done)
    return .done

/-- The end of `confirm`, with the environment of this boot. -/
def confirmWith (coordinator : String) (env : EnvText) : SupProg T SupState := do
  let self ← ask .attributes
  match self.commands .finish with
  | some finish => finishConfirm finish
  | none =>
    if isTrial env self.slot then
      if ← ask .coordinatorExists then
        let finish ← lazily .finish .confirm
          (confirmArgs coordinator ((env.get "epk_os_pending").getD []))
        finishConfirm finish
      else
        ask (.enter .done)
        return .done
    else
      let finish ← lazily .finish .markGood markGoodArgs
      finishConfirm finish

def confirm (coordinator : String) : SupProg T SupState := do
  let self ← ask .attributes
  match self.env with
  | some env => confirmWith coordinator env
  | none =>
    let envRead ← lazily .envRead .env envArgs
    match ← envRead.result with
    | none => return .confirming
    | some (code, out) =>
      if code ≠ .exit 0 then
        ask (.enter .done)
        return .done
      else
        let env := parseEnv out
        update fun self => { self with env := some env }
        confirmWith coordinator env

/-- The end of `check`, once Podman works. -/
def checkHealth (coordinator : String) : SupProg T SupState := do
  let health ← lazily .health .health healthArgs
  match ← health.result with
  | none => return .checking
  | some (code, out) =>
    delete .health
    if code ≠ .exit 0 ∨ Text.strip out ≠ "healthy".toList then return .checking
    else
      ask (.enter .confirming)
      confirm coordinator

def check (coordinator : String) : SupProg T SupState := do
  if ← ask (.isMount "/data") then
    let podman ← lazily .podman .podmanInfo podmanArgs
    match ← podman.result with
    | none => return .checking
    | some (code, _) =>
      if code ≠ .exit 0 then
        delete .podman
        return .checking
      else checkHealth coordinator
  else return .checking

/-! ### Reboot -/

def startReboot (now : T) (reason : String) : SupProg T SupState := do
  ask (.enter .rebooting)
  update fun self => { self with reason := some reason, rebootAt := some now, stage := 0 }
  let stopping ← command .stopApp stopAppArgs
  update (·.withCommand .stopping (some stopping))
  return .rebooting

def overdue (self : Sup T) (now : T) (bound : ℕ) : Bool :=
  self.rebootAt.any fun at_ => decide ((bound : T) < now - at_)

/-- The next stage of the reboot. Before `start_reboot` has assigned `stopping` the source
raises. -/
def continueReboot (now : T) : SupProg T SupState := do
  let self ← ask .attributes
  match self.stage with
  | 0 =>
    match self.commands .stopping with
    | none => throw .other
    | some stopping =>
      match ← stopping.result with
      | none => return .rebooting
      | some _ =>
        let _ ← Prog.ofExcept (← ask (.spawn rebootArgs))
        update fun self => { self with stage := 1, rebootAt := some now }
        return .rebooting
  | 1 =>
    if overdue self now rebootForceS then
      let _ ← Prog.ofExcept (← ask (.spawn forceArgs))
      update fun self => { self with stage := 2, rebootAt := some now }
      return .rebooting
    else return .rebooting
  | 2 =>
    if overdue self now rebootSysrqS then
      ask .sysrq
      update fun self => { self with stage := 3 }
      return .rebooting
    else return .rebooting
  | _ => return .rebooting

/-- A tick while the state is `checking`. -/
def stepChecking (coordinator : String) (now : T) : SupProg T SupState := do
  if ← dataMountFailed now then
    startReboot now "DATA failed to mount (shared damage; not formatting it)"
  else
    let self ← ask .attributes
    if self.deadline ≤ now then
      startReboot now "not healthy within 1200 s of userspace start"
    else check coordinator

/-- Supervisor.step, from the clock's reading on. -/
def stepAt (coordinator : String) (now : T) : SupProg T SupState := do
  let _ ← Prog.ofExcept (← ask (.notify "WATCHDOG=1"))
  match ← ask .state with
  | .rebooting => continueReboot now
  | .done => return .done
  | .checking => stepChecking coordinator now
  | .confirming => confirm coordinator

def step (coordinator : String) : SupProg T SupState := do
  let now ← ask .clock
  stepAt coordinator now

/-! ### Over a boot -/

def bootedSlot (cmdline : List Char) : Option (List Char) :=
  ((Text.words cmdline).find? ("rauc.slot=".toList.isPrefixOf ·)).map (·.drop 10)

/-- A call with its answer. -/
abbrev Event (T : Type) := Σ c : SupCall T, c.Ans

/-- What has been done, the newest event first. -/
abbrev Trace (T : Type) := List (Event T)

/-- The supervisor's object and what it has done in this boot. -/
structure Boot (T : Type) where
  state : SupState
  self : Sup T
  trace : Trace T

/-- Supervisor.__init__. -/
def supervisor (start : T) (cmdline : List Char) : Boot T where
  state := .checking
  self := {
    deadline := start + ((deadlineS : ℕ) : T)
    slot := bootedSlot cmdline
    commands := fun _ => none
    mountChecked := none
    dataFailed := false
    env := none
    reason := none
    rebootAt := none
    stage := 0
  }
  trace := []

def Boot.after (b : Boot T) (c : SupCall T) (a : c.Ans) : Boot T where
  state := match c with
    | .enter s => s
    | _ => b.state
  self := match c with
    | .assign self => self
    | _ => b.self
  trace := ⟨c, a⟩ :: b.trace

/-- An attribute reads as last assigned; a process runs the arguments it was started with. -/
def Possible (b : Boot T) : (c : SupCall T) → c.Ans → Prop
  | .state, s => s = b.state
  | .attributes, self => self = b.self
  | .spawn argv, r => ∀ p, r = .ok p → p.args = argv
  | _, _ => True

/-- Any clock, any processes, any mounts. -/
def anything : Behaviour (supervision T) (Boot T) := fun b c a b' =>
  Possible b c a ∧ b' = b.after c a

/-- Any number of steps, each with its clock's reading and how it ended, the newest first. -/
inductive Supervised (coordinator : String) (start : T) (cmdline : List Char) :
    List (T × Except Raised SupState) → Boot T → Prop
  | start : Supervised coordinator start cmdline [] (supervisor start cmdline)
  | step {ticks : List (T × Except Raised SupState)} {b b' : Boot T} {now : T}
      {r : Except Raised SupState} : Supervised coordinator start cmdline ticks b →
      Runs (· = ·) anything (b.after .clock now, stepAt coordinator now) (b', .ofExcept r) →
      Supervised coordinator start cmdline ((now, r) :: ticks) b'

end

end Epilykos.BootHealth
