import Epilykos.OsUpdate.Loader

/-!
The slot loader as it is written, boot-slot.cmd over U-Boot variables that hold text: an
unset variable reads as the empty string. The variables of the session are passed along;
only a save reaches the card.
-/

namespace Epilykos.OsUpdate

open Program PlatformEnv

/-- The U-Boot environment of one session. -/
abbrev Vars := String → String

namespace Vars

def set (ram : Vars) (name value : String) : Vars := Function.update ram name value

@[simp] theorem set_same (ram : Vars) (name value : String) : ram.set name value name = value := by
  simp [set]

@[simp] theorem set_other (ram : Vars) {name other : String} (value : String) (h : other ≠ name) :
    ram.set name value other = ram other := by
  simp [set, h]

end Vars

/-! ### The guard command -/

/-- strcmp of two texts: whether the first is the greater one. -/
def strGreater : List Char → List Char → Bool
  | [], _ => false
  | _ :: _, [] => true
  | a :: as, b :: bs => if a = b then strGreater as bs else b.toNat < a.toNat

def positiveSequence (value : String) : Bool :=
  match value.toList with
  | [] => false
  | c :: cs =>
    let length := cs.length + 1
    '1' ≤ c && c ≤ '9' &&
      !(20 < length || length == 20 && strGreater (c :: cs) "18446744073709551615".toList) &&
      cs.all fun d => '0' ≤ d && d ≤ '9'

/-- do_epk_boot_guard. -/
def doBootGuard (ram : Vars) : Bool :=
  let hash := ram "epk_os_target_sha256"
  if ram "epk_os_pending" = "" then true
  else jobUuid (ram "epk_os_pending") && positiveSequence (ram "epk_os_target_sequence") &&
    hash.length == 64 && hash.toList.all lowerHex

/-! ### The script -/

/-- What the script asks of U-Boot and the card. -/
inductive UbootCall
  /-- epk_env_guard: the record of the card was imported. -/
  | envGuard
  | setexpr
  | saveenv (ram : Vars)
  | ext4load (part file : String)
  | booti (ram : Vars)

abbrev Uboot : Interface :=
  ⟨UbootCall, fun | .envGuard | .setexpr | .saveenv _ | .ext4load _ _ => Bool | .booti _ => Unit⟩

/-- A part of the script; its exception is the diagnostic halt with the message before it. -/
abbrev Hush := Prog Uboot String

abbrev uboot (c : UbootCall) : Hush (Uboot.Ans c) := Prog.call (F := Uboot) c .ret

/-- `if cond; then true; else echo msg; run epb_halt; fi`. -/
def orHalt (cond : Bool) (msg : String) : Hush Unit := .raiseIf (!cond) msg

def oneOf (value : String) (values : List String) : Bool := values.contains value

def checkPending (ram : Vars) : Hush Unit :=
  if ram "epk_os_pending" ≠ "" then do
    orHalt (ram "epk_os_target" == "A" && ram "epk_os_from" == "B" ||
      ram "epk_os_target" == "B" && ram "epk_os_from" == "A") "invalid pending slots"
    orHalt (!(ram "epk_os_target_sequence" == "" || ram "epk_os_target_sha256" == ""))
      "incomplete pending identity"
    orHalt (oneOf (ram "epk_os_phase")
      ["ready", "activation_intent", "activated", "trying", "confirming", "promoting"])
      "unknown pending phase"
    orHalt (!(ram "epk_os_trial_started" != "" &&
      ram "epk_os_trial_started" != ram "epk_os_pending")) "conflicting trial job"
    orHalt (!(ram "epk_os_phase" == "ready" && ram "epk_os_trial_started" != ""))
      "trial marker on unactivated job"
  else
    orHalt (!(ram "epk_os_phase" != "" || ram "epk_os_trial_started" != "" ||
      ram "epk_os_target" != "" || ram "epk_os_from" != "" ||
      ram "epk_os_target_sequence" != "" || ram "epk_os_target_sha256" != ""))
      "orphaned pending state"

/-- Everything before the search for a slot. -/
def checkState (ram : Vars) : Hush Unit := do
  orHalt ((← uboot .envGuard) && doBootGuard ram) "native state unavailable"
  orHalt (oneOf (ram "BOOT_ORDER") ["A B", "B A", "A", "B"]) "invalid boot order"
  orHalt (oneOf (ram "BOOT_A_LEFT") ["0", "1", "2", "3"]) "invalid A counter"
  orHalt (oneOf (ram "BOOT_B_LEFT") ["0", "1", "2", "3"]) "invalid B counter"
  checkPending ram

/-- The fields of a value, as `for` splits them. -/
def fields (value : String) : List String :=
  (value.toList.splitOn ' ').filterMap fun w => if w = [] then none else some (String.ofList w)

/-- The body of the search: the first slot that may start is kept. -/
def trySlot (ram : Vars) (slot : String) : Vars :=
  if ram "epb_slot" = "" then
    if ram "epk_os_pending" ≠ "" ∧ ram "epk_os_phase" = "ready" ∧ slot = ram "epk_os_target" then ram
    else if slot = "A" ∧ ram "BOOT_A_LEFT" ≠ "0" then (ram.set "epb_slot" "A").set "epb_part" "2"
    else if slot = "B" ∧ ram "BOOT_B_LEFT" ≠ "0" then (ram.set "epb_slot" "B").set "epb_part" "3"
    else ram
  else ram

def findSlot (ram : Vars) : Vars :=
  (fields (ram "BOOT_ORDER")).foldl trySlot ((ram.set "epb_slot" "").set "epb_part" "")

def hexValue (c : Char) : ℕ :=
  if c.isDigit then c.toNat - 48 else if 'a' ≤ c then c.toNat - 87 else c.toNat - 55

/-- `setexpr x <value> - 1`: 64-bit arithmetic over hexadecimal text. -/
def minusOne (value : String) : String :=
  let n := (value.toList.takeWhile fun c => lowerHex c || ('A' ≤ c && c ≤ 'F')).foldl
    (fun (n : ℕ) c => n * 16 + hexValue c) 0
  String.ofList (Nat.toDigits 16 ((n + (2 ^ 64 - 1)) % 2 ^ 64))

def spendAttempt (ram : Vars) : Hush Vars := do
  let counter := if ram "epb_slot" = "A" then "BOOT_A_LEFT" else "BOOT_B_LEFT"
  .raiseIf (!(← uboot .setexpr)) ""
  return ram.set counter (minusOne (ram counter))

/-- The marker shares the save of the counter; confirmation intent is never overwritten. -/
def markTrial (ram : Vars) : Vars :=
  if ram "epk_os_pending" ≠ "" ∧ ram "epb_slot" = ram "epk_os_target" ∧
      ram "epk_os_trial_started" ≠ ram "epk_os_pending" then
    ram.set "epk_os_trial_started" (ram "epk_os_pending")
  else ram

def bootargs (ram : Vars) : String :=
  "root=PARTUUID=45504c4b-0" ++ ram "epb_part" ++ " rauc.slot=" ++ ram "epb_slot" ++
    " rootfstype=ext4 rootwait ro fsck.repair=yes" ++
    (if ram "machine_id" ≠ "" then " systemd.machine_id=" ++ ram "machine_id" else "") ++
    " console=tty1 console=ttyS1,115200"

/-- Load the two files of the slot and start the kernel; a start that returns is a failure. -/
def launchSlot (ram : Vars) : Hush Unit := do
  let ram := ram.set "bootargs" (bootargs ram)
  if ← uboot (.ext4load ("0:" ++ ram "epb_part") "/usr/lib/epilykos/boot/Image") then
    if ← uboot (.ext4load ("0:" ++ ram "epb_part") "/usr/lib/epilykos/boot/bcm2837-rpi-3-b.dtb") then
      uboot (.booti ram)
    else return ()
  else return ()

/-- boot-slot.cmd. It returns when it resets the board. -/
def bootScript (ram : Vars) : Hush Unit := do
  let ram := (ram.set "epb_halt" "epk_boot_halt; while true; do sleep 1; done").set
    "epb_reset" "reset; run epb_halt"
  checkState ram
  let ram := findSlot ram
  orHalt (ram "epb_slot" != "") "no eligible slot; counters retained"
  let ram ← spendAttempt ram
  let ram := markTrial ram
  orHalt (← uboot (.saveenv ram)) "attempt/intent save failed; refusing launch"
  launchSlot ram

/-! ### The card -/

/-- What a session leaves: the saved variables, every launch so far, and whether this session
has called for a save and been told that it succeeded. -/
structure Card where
  flash : Vars
  launches : List String
  saving : Bool
  acknowledged : Bool

namespace Card

/-- A save that fails may have reached the card. -/
def Does (c : Card) : (call : UbootCall) → Uboot.Ans call → Card → Prop
  | .saveenv ram, ok, c' =>
    c' = { c with flash := ram, saving := true, acknowledged := ok } ∨
      (ok = false ∧ c' = { c with saving := true })
  | .booti ram, _, c' => c' = { c with launches := ram "epb_slot" :: c.launches }
  | _, _, c' => c' = c

def start (c : Card) : Card := { c with saving := false, acknowledged := false }

/-- One boot of the loader, to its end or to a reset anywhere in it. -/
def Boot (c c' : Card) : Prop := Stops Does (bootScript c.flash) c.start c'

end Card

def Slot.text : Slot → String
  | .a => "A"
  | .b => "B"

def Slot.part : Slot → String
  | .a => "2"
  | .b => "3"

def Slot.counter : Slot → String
  | .a => "BOOT_A_LEFT"
  | .b => "BOOT_B_LEFT"

/-- The attempts a counter stands for. -/
def digit (value : String) : ℕ :=
  if value = "1" then 1 else if value = "2" then 2 else if value = "3" then 3 else 0

namespace Vars

def attempts (v : Vars) (s : Slot) : ℕ := digit (v s.counter)

/-- A ready job's target. -/
def ReadyTarget (v : Vars) (s : Slot) : Prop :=
  v "epk_os_pending" ≠ "" ∧ v "epk_os_phase" = "ready" ∧ v "epk_os_target" = s.text

/-- The trial marker a launch of the slot leaves. -/
def trialAfter (v : Vars) (s : Slot) : String :=
  if v "epk_os_pending" ≠ "" ∧ v "epk_os_target" = s.text then v "epk_os_pending"
  else v "epk_os_trial_started"

/-- The variables of the script, and those a launch of the slot changes. -/
def touched (s : Slot) : List String :=
  [s.counter, "epk_os_trial_started", "epb_halt", "epb_reset", "epb_slot", "epb_part"]

/-- The variables saved for a launch: one attempt of the slot is spent, the trial of a
pending job is marked, and nothing else of the record differs. -/
structure Spends (before : Vars) (s : Slot) (after : Vars) : Prop where
  chosen : findSlot before "epb_slot" = s.text
  slot : after "epb_slot" = s.text
  counter : after s.counter ∈ ["0", "1", "2"]
  spent : after.attempts s + 1 = before.attempts s
  trial : after "epk_os_trial_started" = before.trialAfter s
  notReady : ¬ before.ReadyTarget s
  rest : ∀ name, name ∉ touched s → after name = before name

end Vars

/-! ### One boot -/

/-- The search keeps the variables, and what it found may start. -/
structure Found (ram ram₁ : Vars) : Prop where
  rest : ∀ name, name ≠ "epb_slot" → name ≠ "epb_part" → ram₁ name = ram name
  slot : ram₁ "epb_slot" = "" ∨
    ∃ s : Slot, ram₁ "epb_slot" = s.text ∧ ram s.counter ≠ "0" ∧ ¬ ram.ReadyTarget s

theorem Found.choose {ram ram₁ : Vars} (h : Found ram ram₁) {s : Slot}
    (hready : ¬ (ram₁ "epk_os_pending" ≠ "" ∧ ram₁ "epk_os_phase" = "ready" ∧
      s.text = ram₁ "epk_os_target"))
    (hleft : ram₁ s.counter ≠ "0") :
    Found ram ((ram₁.set "epb_slot" s.text).set "epb_part" s.part) := by
  refine ⟨fun name h₁ h₂ => ?_, Or.inr ⟨s, ?_, ?_, ?_⟩⟩
  · rw [Vars.set_other _ _ h₂, Vars.set_other _ _ h₁]
    exact h.rest name h₁ h₂
  · rw [Vars.set_other _ _ (by decide), Vars.set_same]
  · rwa [h.rest _ (by cases s <;> decide) (by cases s <;> decide)] at hleft
  · intro ⟨hpending, hphase, htarget⟩
    refine hready ⟨?_, ?_, ?_⟩
    · rwa [h.rest _ (by decide) (by decide)]
    · rwa [h.rest _ (by decide) (by decide)]
    · rw [h.rest _ (by decide) (by decide), htarget]

theorem Found.trySlot {ram ram₁ : Vars} (h : Found ram ram₁) (word : String) :
    Found ram (trySlot ram₁ word) := by
  unfold OsUpdate.trySlot
  split_ifs with hnone hready ha hb
  · exact h
  · obtain ⟨rfl, hleft⟩ := ha
    exact h.choose (s := .a) hready hleft
  · obtain ⟨rfl, hleft⟩ := hb
    exact h.choose (s := .b) hready hleft
  · exact h
  · exact h

theorem findSlot_found (ram : Vars) : Found ram (findSlot ram) := by
  have hrun : ∀ (words : List String) (ram₁ : Vars), Found ram ram₁ →
      Found ram (words.foldl trySlot ram₁) := by
    intro words
    induction words with
    | nil => exact fun _ h => h
    | cons word words ih => exact fun ram₁ h => ih _ (h.trySlot word)
  refine hrun _ _ ⟨fun name h₁ h₂ => ?_, Or.inl ?_⟩
  · rw [Vars.set_other _ _ h₂, Vars.set_other _ _ h₁]
  · rw [Vars.set_other _ _ (by decide), Vars.set_same]

/-- Two sessions that differ at most in the two commands. -/
def SameButCommands (ram ram₁ : Vars) : Prop :=
  ∀ name, name ≠ "epb_halt" → name ≠ "epb_reset" → ram name = ram₁ name

theorem SameButCommands.set {ram ram₁ : Vars} (h : SameButCommands ram ram₁)
    (name value : String) : SameButCommands (ram.set name value) (ram₁.set name value) := by
  intro other h₁ h₂
  by_cases hne : other = name
  · rw [hne, Vars.set_same, Vars.set_same]
  · rw [Vars.set_other _ _ hne, Vars.set_other _ _ hne]
    exact h other h₁ h₂

theorem SameButCommands.trySlot {ram ram₁ : Vars} (h : SameButCommands ram ram₁)
    (word : String) : SameButCommands (trySlot ram word) (trySlot ram₁ word) := by
  unfold OsUpdate.trySlot
  rw [h "epb_slot" (by decide) (by decide), h "epk_os_pending" (by decide) (by decide),
    h "epk_os_phase" (by decide) (by decide), h "epk_os_target" (by decide) (by decide),
    h "BOOT_A_LEFT" (by decide) (by decide), h "BOOT_B_LEFT" (by decide) (by decide)]
  split_ifs
  · exact h
  · exact (h.set _ _).set _ _
  · exact (h.set _ _).set _ _
  · exact h
  · exact h

/-- The search does not look at the commands. -/
theorem SameButCommands.findSlot {ram ram₁ : Vars} (h : SameButCommands ram ram₁) :
    SameButCommands (findSlot ram) (findSlot ram₁) := by
  have hfold : ∀ (words : List String) (ram ram₁ : Vars), SameButCommands ram ram₁ →
      SameButCommands (words.foldl OsUpdate.trySlot ram) (words.foldl OsUpdate.trySlot ram₁) := by
    intro words
    induction words with
    | nil => exact fun _ _ h => h
    | cons word words ih => exact fun _ _ h => ih _ _ (h.trySlot word)
  unfold OsUpdate.findSlot
  rw [h "BOOT_ORDER" (by decide) (by decide)]
  exact hfold _ _ _ ((h.set _ _).set _ _)

theorem orHalt_safe {allowed : Card → UbootCall → Prop} {cond : Bool} {msg : String}
    {Q : Unit → Card → Prop} {E : String → Card → Prop} {c : Card} (hE : E msg c)
    (hQ : cond = true → Q () c) :
    Safe (F := Uboot) (· = ·) Card.Does allowed (orHalt cond msg) Q E c := by
  refine safe_raiseIf.mpr ⟨fun _ => hE, fun h => hQ (by simpa using h)⟩

/-- A valid counter that is not zero, one less. -/
theorem minusOne_digit {value : String} (hvalid : value ∈ ["0", "1", "2", "3"])
    (hzero : value ≠ "0") :
    minusOne value ∈ ["0", "1", "2"] ∧ digit (minusOne value) + 1 = digit value := by
  simp only [List.mem_cons, List.not_mem_nil, or_false] at hvalid
  rcases hvalid with rfl | rfl | rfl | rfl
  · exact (hzero rfl).elim
  · decide +kernel
  · decide +kernel
  · decide +kernel

/-- Marking the trial changes that variable only. -/
theorem markTrial_other (ram : Vars) {name : String} (h : name ≠ "epk_os_trial_started") :
    markTrial ram name = ram name := by
  unfold markTrial
  split_ifs
  · exact Vars.set_other _ _ h
  · rfl

/-- The marker names the pending job when its target starts, and stays as it was otherwise. -/
theorem markTrial_trial {ram : Vars} {s : Slot} (hslot : ram "epb_slot" = s.text) :
    markTrial ram "epk_os_trial_started" = ram.trialAfter s := by
  unfold markTrial Vars.trialAfter
  rw [hslot]
  by_cases hp : ram "epk_os_pending" = ""
  · simp [hp]
  · by_cases ht : s.text = ram "epk_os_target"
    · by_cases hm : ram "epk_os_trial_started" = ram "epk_os_pending"
      · simp [hp, ht, hm]
      · simp [hp, ht, hm]
    · simp [hp, ht, Ne.symm ht]

/-- The variables as the script passes them to the save. -/
theorem spends_save {v ram : Vars} {s : Slot} (hchosen : findSlot v "epb_slot" = s.text)
    (hram : ∀ name, name ∉ ["epb_halt", "epb_reset", "epb_slot", "epb_part"] → ram name = v name)
    (hslot : ram "epb_slot" = s.text) (hvalid : v s.counter ∈ ["0", "1", "2", "3"])
    (hzero : v s.counter ≠ "0") (hready : ¬ v.ReadyTarget s) :
    Vars.Spends v s (markTrial (ram.set s.counter (minusOne (ram s.counter)))) := by
  have hcounter : ram s.counter = v s.counter := hram _ (by cases s <;> decide)
  obtain ⟨hmem, hdigit⟩ := minusOne_digit hvalid hzero
  have hset : ∀ name, name ≠ s.counter →
      ram.set s.counter (minusOne (ram s.counter)) name = ram name :=
    fun name h => Vars.set_other _ _ h
  have hslot' : ram.set s.counter (minusOne (ram s.counter)) "epb_slot" = s.text := by
    rw [hset _ (by cases s <;> decide), hslot]
  have hleft : markTrial (ram.set s.counter (minusOne (ram s.counter))) s.counter =
      minusOne (v s.counter) := by
    rw [markTrial_other _ (by cases s <;> decide), Vars.set_same, hcounter]
  refine ⟨hchosen, ?_, ?_, ?_, ?_, hready, fun name h => ?_⟩
  · rw [markTrial_other _ (by decide), hslot']
  · rw [hleft]
    exact hmem
  · rw [Vars.attempts, hleft]
    exact hdigit
  · rw [markTrial_trial hslot']
    unfold Vars.trialAfter
    rw [hset _ (by cases s <;> decide), hset _ (by cases s <;> decide),
      hset _ (by cases s <;> decide), hram _ (by decide), hram _ (by decide), hram _ (by decide)]
  · simp only [Vars.touched, List.mem_cons, List.not_mem_nil, or_false, not_or] at h
    rw [markTrial_other _ h.2.1, hset _ h.1]
    exact hram _ (by simp [h])

/-! ### The calls of one boot -/

namespace Card

/-- Before the save the card is as it was; a save spends an attempt of the slot it names; a
launch follows an acknowledged one for its own slot. -/
def Attests (c c₁ : Card) : UbootCall → Prop
  | .saveenv ram => c₁.saving = false ∧ c₁.flash = c.flash ∧ ∃ s, Vars.Spends c.flash s ram
  | .booti ram => c₁.acknowledged = true ∧
      ∃ s : Slot, ram "epb_slot" = s.text ∧ Vars.Spends c.flash s c₁.flash
  | _ => True

/-- What a boot has done to the card so far: nothing, or one attempt is spent and at most one
kernel was started. -/
def Within (c c₁ : Card) : Prop :=
  (c₁.flash = c.flash ∧ c₁.launches = c.launches) ∨
    c₁.saving = true ∧ (∃ s, Vars.Spends c.flash s c₁.flash) ∧
      c₁.launches.length ≤ c.launches.length + 1

theorem within_start (c : Card) : c.Within c.start := Or.inl ⟨rfl, rfl⟩

/-- Every call of a boot is one of these, made in one of these states. -/
abbrev Session (c : Card) {α : Type} (p : Hush α) (Q : α → Card → Prop) (c₁ : Card) : Prop :=
  Safe (F := Uboot) (· = ·) Does (fun c₁ call => c.Attests c₁ call ∧ c.Within c₁) p Q
    (fun _ => c.Within) c₁

variable {c : Card}

theorem orHalt_session {cond : Bool} {msg : String} {Q : Unit → Card → Prop} {c₁ : Card}
    (hc : c.Within c₁) (hQ : cond = true → Q () c₁) : c.Session (orHalt cond msg) Q c₁ :=
  orHalt_safe hc hQ

/-- The checks make no call and keep the card. -/
theorem checkPending_session {ram : Vars} {Q : Unit → Card → Prop} {c₁ : Card}
    (hc : c.Within c₁) (hQ : Q () c₁) : c.Session (checkPending ram) Q c₁ := by
  unfold checkPending
  split_ifs
  · refine Safe.bind (orHalt_session hc fun _ => ?_)
    refine Safe.bind (orHalt_session hc fun _ => ?_)
    refine Safe.bind (orHalt_session hc fun _ => ?_)
    refine Safe.bind (orHalt_session hc fun _ => ?_)
    exact orHalt_session hc fun _ => hQ
  · exact orHalt_session hc fun _ => hQ

/-- Past the checks both counters are valid. -/
theorem checkState_session {ram : Vars} {Q : Unit → Card → Prop} {c₁ : Card} (hc : c.Within c₁)
    (hQ : (∀ s : Slot, ram s.counter ∈ ["0", "1", "2", "3"]) → Q () c₁) :
    c.Session (checkState ram) Q c₁ := by
  refine Safe.bind (safe_call.mpr ⟨⟨trivial, hc⟩, fun answer c₂ hdoes => ?_⟩)
  obtain rfl : c₂ = c₁ := hdoes
  refine Safe.bind (orHalt_session hc fun _ => ?_)
  refine Safe.bind (orHalt_session hc fun _ => ?_)
  refine Safe.bind (orHalt_session hc fun ha => ?_)
  refine Safe.bind (orHalt_session hc fun hb => ?_)
  refine checkPending_session hc (hQ fun s => ?_)
  cases s with
  | a => exact List.contains_iff_mem.mp ha
  | b => exact List.contains_iff_mem.mp hb

/-- A launch comes after the save, and is at most one. -/
theorem launchSlot_session {ram : Vars} {s : Slot} {c₁ : Card} (hslot : ram "epb_slot" = s.text)
    (hspent : Vars.Spends c.flash s c₁.flash) (hsaving : c₁.saving = true)
    (hsaved : c₁.acknowledged = true) (hlaunches : c₁.launches = c.launches) :
    c.Session (launchSlot ram) (fun _ c₂ => (∃ s, Vars.Spends c.flash s c₂.flash) ∧ c.Within c₂)
      c₁ := by
  have hc : c.Within c₁ := Or.inr ⟨hsaving, ⟨s, hspent⟩, by rw [hlaunches]; omega⟩
  have hdone : (∃ s, Vars.Spends c.flash s c₁.flash) ∧ c.Within c₁ := ⟨⟨s, hspent⟩, hc⟩
  unfold launchSlot
  refine Safe.bind (safe_call.mpr ⟨⟨trivial, hc⟩, fun image c₂ hdoes => ?_⟩)
  obtain rfl : c₁ = _ := Eq.symm hdoes
  cases image with
  | false => exact hdone
  | true =>
    refine Safe.bind (safe_call.mpr ⟨⟨trivial, hc⟩, fun tree c₂ hdoes => ?_⟩)
    obtain rfl : c₁ = _ := Eq.symm hdoes
    cases tree with
    | false => exact hdone
    | true =>
      have hattests : c.Attests c₁ (.booti (ram.set "bootargs" (bootargs ram))) := by
        refine ⟨hsaved, s, ?_, hspent⟩
        rw [Vars.set_other _ _ (by decide), hslot]
      rw [safe_ret, if_pos rfl]
      refine safe_call.mpr ⟨⟨hattests, hc⟩, fun _ c₂ hdoes => ?_⟩
      rw [show c₂ = _ from hdoes]
      exact ⟨⟨s, hspent⟩, Or.inr ⟨hsaving, ⟨s, hspent⟩, by simp [hlaunches]⟩⟩

/-- The save, and what follows it. -/
theorem save_session {ram : Vars} {s : Slot} (hspends : Vars.Spends c.flash s ram) :
    c.Session (do
        orHalt (← uboot (.saveenv ram)) "attempt/intent save failed; refusing launch"
        launchSlot ram)
      (fun _ c₂ => (∃ s, Vars.Spends c.flash s c₂.flash) ∧ c.Within c₂) c.start := by
  refine Safe.bind (safe_call.mpr ⟨⟨⟨rfl, rfl, s, hspends⟩, c.within_start⟩, fun ok c₂ hdoes => ?_⟩)
  rw [safe_ret]
  rcases hdoes with rfl | ⟨rfl, rfl⟩
  · refine Safe.bind (orHalt_session (Or.inr ⟨rfl, ⟨s, hspends⟩, Nat.le_succ _⟩) fun hok => ?_)
    exact launchSlot_session hspends.slot hspends rfl hok rfl
  · exact Or.inl ⟨rfl, rfl⟩

theorem bootScript_session (c : Card) :
    c.Session (bootScript c.flash)
      (fun _ c₂ => (∃ s, Vars.Spends c.flash s c₂.flash) ∧ c.Within c₂) c.start := by
  unfold bootScript
  refine Safe.bind (checkState_session c.within_start fun hvalid => ?_)
  have hstart : SameButCommands
      ((c.flash.set "epb_halt" "epk_boot_halt; while true; do sleep 1; done").set "epb_reset"
        "reset; run epb_halt") c.flash := fun name h₁ h₂ => by
    rw [Vars.set_other _ _ h₂, Vars.set_other _ _ h₁]
  generalize (c.flash.set "epb_halt" "epk_boot_halt; while true; do sleep 1; done").set "epb_reset"
    "reset; run epb_halt" = ram at hstart hvalid ⊢
  have hfound := findSlot_found ram
  have hchosen := hstart.findSlot "epb_slot" (by decide) (by decide)
  generalize findSlot ram = found at hfound hchosen ⊢
  refine Safe.bind (orHalt_session c.within_start fun hslot => ?_)
  obtain hnone | ⟨s, hs, hzero, hready⟩ := hfound.slot
  · simp [hnone] at hslot
  have hcounter : ram s.counter = c.flash s.counter :=
    hstart _ (by cases s <;> decide) (by cases s <;> decide)
  have hspends : Vars.Spends c.flash s (markTrial (found.set s.counter
      (minusOne (found s.counter)))) := by
    refine spends_save (hchosen.symm.trans hs) (fun name h => ?_) hs (hcounter ▸ hvalid s) (hcounter ▸ hzero) ?_
    · simp only [List.mem_cons, List.not_mem_nil, or_false, not_or] at h
      rw [hfound.rest _ h.2.2.1 h.2.2.2, hstart _ h.1 h.2.1]
    · unfold Vars.ReadyTarget at hready ⊢
      rwa [hstart _ (by decide) (by decide), hstart _ (by decide) (by decide),
        hstart _ (by decide) (by decide)] at hready
  refine Safe.bind (safe_call.mpr ⟨⟨trivial, c.within_start⟩, fun ok c₁ hdoes => ?_⟩)
  obtain rfl : c₁ = c.start := hdoes
  rw [Prog.bind_ret]
  refine Safe.bind (safe_raiseIf.mpr ⟨fun _ => c.within_start, fun _ => ?_⟩)
  have hname : (if found "epb_slot" = "A" then "BOOT_A_LEFT" else "BOOT_B_LEFT") = s.counter := by
    cases s with
    | a => exact if_pos hs
    | b => exact if_neg (by rw [hs]; decide)
  simp only [hname]
  exact save_session hspends

end Card

/-! ### Any number of boots -/

namespace Vars

/-- The attempts left of both slots. -/
def total (v : Vars) : ℕ := v.attempts .a + v.attempts .b

/-- No counter is higher, and one that changed is a valid lower one. -/
def Lowered (before after : Vars) : Prop :=
  ∀ s : Slot, after s.counter = before s.counter ∨
    after s.counter ∈ ["0", "1", "2"] ∧ after.attempts s < before.attempts s

theorem Lowered.refl (v : Vars) : v.Lowered v := fun _ => Or.inl rfl

theorem Lowered.trans {v₁ v₂ v₃ : Vars} (h : v₁.Lowered v₂) (h' : v₂.Lowered v₃) :
    v₁.Lowered v₃ := by
  intro s
  rcases h' s with hsame' | ⟨hmem', hless'⟩
  · rcases h s with hsame | ⟨hmem, hless⟩
    · exact Or.inl (hsame'.trans hsame)
    · refine Or.inr ⟨hsame' ▸ hmem, ?_⟩
      rwa [attempts, hsame']
  · refine Or.inr ⟨hmem', ?_⟩
    rcases h s with hsame | ⟨hmem, hless⟩
    · rwa [attempts, attempts, hsame] at hless'
    · omega

theorem Spends.other {before after : Vars} {s t : Slot} (h : before.Spends s after)
    (hne : t ≠ s) : after t.counter = before t.counter :=
  h.rest _ (by cases s <;> cases t <;> first | exact (hne rfl).elim | decide)

theorem Spends.lowered {before after : Vars} {s : Slot} (h : before.Spends s after) :
    before.Lowered after := by
  intro t
  by_cases hne : t = s
  · subst hne
    have := h.spent
    exact Or.inr ⟨h.counter, by omega⟩
  · exact Or.inl (h.other hne)

theorem Spends.total {before after : Vars} {s : Slot} (h : before.Spends s after) :
    after.total + 1 = before.total := by
  have hspent := h.spent
  unfold Vars.total
  cases s with
  | a =>
    have hother : after.attempts .b = before.attempts .b :=
      congrArg digit (h.other (t := .b) (by decide))
    omega
  | b =>
    have hother : after.attempts .a = before.attempts .a :=
      congrArg digit (h.other (t := .a) (by decide))
    omega

end Vars

namespace Card

variable {c c' : Card}

theorem Boot.within (h : Boot c c') : c.Within c' :=
  (((bootScript_session c).mono (fun _ _ h => h.2) fun _ _ h => h).weaken fun _ _ h => h.2).stops h

theorem Boot.lowered (h : Boot c c') : c.flash.Lowered c'.flash := by
  rcases h.within with ⟨hflash, -⟩ | ⟨-, ⟨s, hspends⟩, -⟩
  · rw [hflash]
    exact .refl _
  · exact hspends.lowered

theorem Boot.spends (h : Boot c c') :
    c'.launches.length + c'.flash.total ≤ c.launches.length + c.flash.total := by
  rcases h.within with ⟨hflash, hlaunches⟩ | ⟨-, ⟨s, hspends⟩, hlaunches⟩
  · rw [hflash, hlaunches]
  · have := hspends.total
    omega

theorem boots_lowered (hrun : Relation.ReflTransGen Boot c c') : c.flash.Lowered c'.flash := by
  induction hrun with
  | refl => exact .refl _
  | tail _ hboot ih => exact ih.trans hboot.lowered

theorem boots_spend (hrun : Relation.ReflTransGen Boot c c') :
    c'.launches.length + c'.flash.total ≤ c.launches.length + c.flash.total := by
  induction hrun with
  | refl => exact le_rfl
  | tail _ hboot ih => exact hboot.spends.trans ih

/-- A boot without attempts left does nothing and cannot return: it halts. -/
theorem exhausted_halts (htotal : c.flash.total = 0) {c₁ : Card} {p : Hush Unit}
    (hrun : Runs (· = ·) Does (c.start, bootScript c.flash) (c₁, p)) :
    (∀ u, p ≠ .ret u) ∧ c₁.flash = c.flash ∧ c₁.launches = c.launches := by
  have hnone : ∀ s after, ¬ c.flash.Spends s after := fun s after h => by
    have := h.total
    omega
  have hwithin : c.Within c₁ := Boot.within (.between hrun)
  refine ⟨fun u hret => ?_, ?_⟩
  · subst hret
    obtain ⟨⟨s, hspends⟩, -⟩ := (bootScript_session c).result hrun
    exact hnone _ _ hspends
  · rcases hwithin with h | ⟨-, ⟨s, hspends⟩, -⟩
    · exact h
    · exact (hnone _ _ hspends).elim

/-- After any boots of the loader, each cut anywhere: no counter has gone up, the launches are
at most the attempts there were, every call the next boot makes is attested, a boot that has
not called for a save wrote nothing, and once the attempts are spent, as they are after so
many launches, every boot halts. -/
theorem loader_bounded (hrun : Relation.ReflTransGen Boot c c') :
    c.flash.Lowered c'.flash ∧
    c'.launches.length ≤ c.launches.length + c.flash.total ∧
    (∀ c₁ call k, Runs (· = ·) Does (c'.start, bootScript c'.flash) (c₁, .call call k) →
      c'.Attests c₁ call) ∧
    (∀ c₁, Boot c' c₁ → c₁.saving = false → c₁.flash = c'.flash) ∧
    (c'.launches.length = c.launches.length + c.flash.total → c'.flash.total = 0) ∧
    (c'.flash.total = 0 → ∀ c₁ p,
      Runs (· = ·) Does (c'.start, bootScript c'.flash) (c₁, p) →
        (∀ u, p ≠ .ret u) ∧ c₁.flash = c'.flash ∧ c₁.launches = c'.launches) := by
  have hspend := boots_spend hrun
  refine ⟨boots_lowered hrun, by omega, ?_, ?_, fun _ => by omega, ?_⟩
  · intro c₁ call k hcall
    exact ((bootScript_session c').allows (fun _ => rfl) hcall).1
  · intro c₁ hboot hsaving
    rcases hboot.within with ⟨hflash, -⟩ | ⟨hsaved, -⟩
    · exact hflash
    · simp [hsaving] at hsaved
  · intro hspent c₁ p hruns
    exact exhausted_halts hspent hruns

/-- A card on which every call works. -/
def serve (c : Card) : (call : UbootCall) → Uboot.Ans call × Card
  | .saveenv ram => (true, { c with flash := ram, saving := true, acknowledged := true })
  | .booti ram => ((), { c with launches := ram "epb_slot" :: c.launches })
  | .envGuard | .setexpr | .ext4load _ _ => (true, c)

theorem serve_does : Follows (F := Uboot) serve Does := by
  intro c call
  cases call with
  | saveenv ram => exact Or.inl rfl
  | _ => rfl

/-- One attempt of slot A is left. -/
def sample : Card :=
  { flash := fun name => if name = "BOOT_ORDER" then "A B" else if name = "BOOT_A_LEFT" then "1"
      else if name = "BOOT_B_LEFT" then "0" else "",
    launches := [], saving := false, acknowledged := false }

/-- The card after one boot. -/
def sampleBooted : Card := ((bootScript sample.flash).run serve sample.start).2

theorem loader_bounded_sample : sampleBooted.launches = ["A"] ∧
    ∀ c₁ p, Runs (· = ·) Does (sampleBooted.start, bootScript sampleBooted.flash) (c₁, p) →
      (∀ u, p ≠ .ret u) ∧ c₁.flash = sampleBooted.flash ∧
        c₁.launches = sampleBooted.launches := by
  have hboot : Boot sample sampleBooted := .between (runs_run serve_does _ _)
  have hlaunched : sampleBooted.launches = ["A"] := by decide +kernel
  obtain ⟨-, -, -, -, hspent, hhalts⟩ := loader_bounded (.single hboot)
  refine ⟨hlaunched, hhalts (hspent ?_)⟩
  rw [hlaunched]
  decide +kernel

end Card

end Epilykos.OsUpdate
