import Epilykos.OsUpdate.Activate

/-!
The end of the boot-health supervision of one boot: a healthy ordinary boot is marked good,
a healthy trial is handed to the confirmation coordinator.
-/

namespace Epilykos.OsUpdate

open Program

/-- The pending job this boot is the trial of. -/
def isTrial (env : Env) (slot : Slot) : Option JobId :=
  env.osPending.filter fun pending =>
    env.osTarget == some slot && env.osTrialStarted == some pending

/-- The confirming command: the coordinator of a trial, RAUC of any other boot. -/
def confirmBoot (coordinatorExists : Bool) (env : Env) (slot : Slot) : OsProg Bool :=
  match isTrial env slot with
  | some pending =>
    if coordinatorExists then do return (← confirmMain pending 3) == 0 else return false
  | none => run "rauc" (ask .markGoodBooted)

/-- Supervisor.confirm: whether the slot was recorded as confirmed. An unreadable environment
never confirms, and a trial without the coordinator is left to fall back. -/
def superviseConfirm (coordinatorExists : Bool) : OsProg Bool := do
  let slot ← bootedSlot
  match ← ask .readEnv with
  | none => return false
  | some env =>
    let confirmed ← confirmBoot coordinatorExists env slot
    .when confirmed do let _ ← ask (.recordHealthy slot)
    return confirmed

end Epilykos.OsUpdate
