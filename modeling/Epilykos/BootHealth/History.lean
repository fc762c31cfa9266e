import Epilykos.BootHealth.Supervisor

/-!
The history of a boot: what it shows of the commands and of the app's health, when it lets
a call be made, and how the supervisor's attributes agree with it. Most events are quiet:
they keep the agreement.
-/

namespace Epilykos.BootHealth

open Program

variable {T : Type}

/-! ### What a history shows -/

/-- The confirming commands: `rauc status mark-good` and the coordinator. -/
def confirms (coordinator : String) (argv : List String) : Bool :=
  argv == markGoodArgs || argv.take 2 == [coordinator, "--job"]

def reboots (argv : List String) : Bool :=
  argv == stopAppArgs || argv == rebootArgs || argv == forceArgs

/-- A command of the kind was started. -/
def starts (kind : List String → Bool) : Event T → Bool
  | ⟨.spawn argv, .ok _⟩ => kind argv
  | _ => false

/-- The heartbeat each step begins with. -/
def isBeat : Event T → Bool
  | ⟨.notify _, _⟩ => true
  | _ => false

def Entered (s : SupState) (history : Trace T) : Prop := (⟨.enter s, ()⟩ : Event T) ∈ history

def Started (p : Process) (history : Trace T) : Prop :=
  (⟨.spawn p.args, Except.ok p⟩ : Event T) ∈ history

def Exited (p : Process) (code : ℤ) (history : Trace T) : Prop :=
  (⟨.poll p, some code⟩ : Event T) ∈ history

def Printed (p : Process) (out : List Char) (history : Trace T) : Prop :=
  (⟨.read p, Except.ok out⟩ : Event T) ∈ history

/-- What the current step has done since its heartbeat. -/
def thisTick (history : Trace T) : Trace T := history.takeWhile fun e => !isBeat e

/-- The clock's reading the current step goes by. -/
def tickTime (history : Trace T) : Option T :=
  match history.dropWhile fun e => !isBeat e with
  | _ :: ⟨.clock, now⟩ :: _ => some now
  | _ => none

/-- Podman worked and the app reported itself healthy. -/
structure Healthy (history : Trace T) : Prop where
  podman : ∃ p, p.args = podmanArgs ∧ Exited p 0 history
  app : ∃ p out, p.args = healthArgs ∧ Exited p 0 history ∧ Printed p out history ∧
    Text.strip out = "healthy".toList

/-- The app was healthy in one step that began before the deadline. -/
def Reported [LE T] (deadline : T) (history : Trace T) : Prop :=
  ∃ moment now, moment <:+ history ∧ tickTime moment = some now ∧ ¬ deadline ≤ now ∧
    Healthy (thisTick moment)

/-- The environment was read. -/
def EnvRead (text : List Char) (history : Trace T) : Prop :=
  ∃ p, p.args = envArgs ∧ Started p history ∧ Exited p 0 history ∧ Printed p text history

/-- The environment this boot read does not make the slot the trial of a pending job. -/
def Ordinary (slot : Option (List Char)) (history : Trace T) : Prop :=
  (∃ text, EnvRead text history) ∧
    ∀ text, EnvRead text history → isTrial (parseEnv text) slot = false

/-- When a call may be made. -/
def Lawful [LE T] (coordinator : String) (deadline : T) (slot : Option (List Char))
    (history : Trace T) : SupCall T → Prop
  | .spawn argv =>
    (confirms coordinator argv = true → (∀ e ∈ history, starts (confirms coordinator) e = false) ∧
      Reported deadline history ∧ Entered .confirming history) ∧
    (argv = markGoodArgs → Ordinary slot history) ∧
    (reboots argv = true → Entered .rebooting history)
  | .enter .confirming => ¬ Entered .rebooting history
  | .enter .rebooting => ¬ Entered .confirming history
  | .sysrq => Entered .rebooting history
  | .record _ => ∃ p, confirms coordinator p.args = true ∧ Started p history ∧ Exited p 0 history
  | _ => True

theorem Reported.mono [LE T] {deadline : T} {history history' : Trace T}
    (h : Reported deadline history) (hle : history <:+ history') : Reported deadline history' := by
  obtain ⟨moment, now, hsuffix, hrest⟩ := h
  exact ⟨moment, now, hsuffix.trans hle, hrest⟩

theorem thisTick_cons {e : Event T} (he : isBeat e = false) (history : Trace T) :
    thisTick (e :: history) = e :: thisTick history := by
  simp [thisTick, he]

theorem tickTime_cons {e : Event T} (he : isBeat e = false) (history : Trace T) :
    tickTime (e :: history) = tickTime history := by
  simp [tickTime, he]

/-! ### The supervisor agrees with its history -/

/-- The command an attribute is for. -/
def Attr.runs (coordinator : String) : Attr → List String → Prop
  | .mountCheck, argv => argv = isFailedArgs
  | .podman, argv => argv = podmanArgs
  | .health, argv => argv = healthArgs
  | .envRead, argv => argv = envArgs
  | .finish, argv => confirms coordinator argv = true
  | .stopping, argv => argv = stopAppArgs

/-- The process of a command, if it has one, was started for this attribute. -/
def Command.Fits (coordinator : String) (a : Attr) (c : Command T) (history : Trace T) : Prop :=
  ∀ p, c.process = some p → Started p history ∧ a.runs coordinator p.args

def NoEnv (history : Trace T) : Prop :=
  ∀ p out, p.args = envArgs → ¬ Printed p out history

/-- What is kept of the environment is what the one reading printed. -/
def EnvFits (env : Option EnvText) (history : Trace T) : Prop :=
  match env with
  | none => NoEnv history
  | some env => ∃ text, EnvRead text history ∧ env = parseEnv text ∧
      ∀ p out, p.args = envArgs → Printed p out history → out = text

structure Agrees [LE T] (coordinator : String) (deadline : T) (slot : Option (List Char))
    (b : Boot T) : Prop where
  deadline_eq : b.self.deadline = deadline
  slot_eq : b.self.slot = slot
  commands : ∀ a c, b.self.commands a = some c → c.Fits coordinator a b.trace
  env : b.state ≠ .done → EnvFits b.self.env b.trace
  finish : b.self.commands .finish = none →
    ∀ e ∈ b.trace, starts (confirms coordinator) e = false
  checking : b.state = .checking → ¬ Entered .confirming b.trace ∧ ¬ Entered .rebooting b.trace
  confirming : b.state = .confirming →
    Entered .confirming b.trace ∧ Reported deadline b.trace
  rebooting : b.state = .rebooting → Entered .rebooting b.trace

/-- An event that changes nothing the laws look at, but for commands not of the kind. -/
def Quiet (kind : List String → Bool) : Event T → Prop
  | ⟨.enter _, _⟩ => False
  | ⟨.spawn argv, .ok _⟩ => kind argv = false
  | ⟨.notify _, _⟩ => False
  | ⟨.read p, .ok _⟩ => p.args ≠ envArgs
  | _ => True

theorem quiet_keeps {kind : List String → Bool} {e : Event T} (he : Quiet kind e) :
    isBeat e = false ∧ starts kind e = false ∧
      (∀ s, e ≠ ⟨.enter s, ()⟩) ∧ ∀ p out, p.args = envArgs → e ≠ ⟨.read p, .ok out⟩ := by
  obtain ⟨c, a⟩ := e
  cases c with
  | enter s => exact he.elim
  | notify text => exact he.elim
  | spawn argv =>
    cases a with
    | ok p => exact ⟨rfl, he, by simp, by simp⟩
    | error e => exact ⟨rfl, rfl, by simp, by simp⟩
  | read p =>
    cases a with
    | ok out =>
      refine ⟨rfl, rfl, by simp, ?_⟩
      rintro p' out' hargs hp
      cases hp
      exact he hargs
    | error e => exact ⟨rfl, rfl, by simp, by simp⟩
  | _ => exact ⟨rfl, rfl, by simp, by simp⟩

/-- Nothing but quiet events from here to there. -/
def Calm (kind : List String → Bool) (b b' : Boot T) : Prop :=
  b'.state = b.state ∧
    ∃ events, b'.trace = events ++ b.trace ∧ ∀ e ∈ events, Quiet kind e

section Calm

variable {kind : List String → Bool} {b b' b'' : Boot T}

theorem Calm.refl (b : Boot T) : Calm kind b b := ⟨rfl, [], rfl, by simp⟩

theorem Calm.trans (h : Calm kind b b') (h' : Calm kind b' b'') :
    Calm kind b b'' := by
  obtain ⟨hs, events, htrace, hquiet⟩ := h
  obtain ⟨hs', events', htrace', hquiet'⟩ := h'
  refine ⟨hs'.trans hs, events' ++ events, by rw [htrace', htrace, List.append_assoc], ?_⟩
  intro e he
  rcases List.mem_append.mp he with he | he
  · exact hquiet' e he
  · exact hquiet e he

theorem Calm.call (b : Boot T) {c : SupCall T} {a : c.Ans} (hq : Quiet kind ⟨c, a⟩) :
    Calm kind b (b.after c a) := by
  refine ⟨?_, [⟨c, a⟩], rfl, by simpa using hq⟩
  cases c with
  | enter s => exact hq.elim
  | _ => rfl

theorem Calm.suffix (h : Calm kind b b') : b.trace <:+ b'.trace := by
  obtain ⟨-, events, htrace, -⟩ := h
  exact ⟨events, htrace.symm⟩

/-- A fact that no quiet event is, is not made true by them. -/
theorem Calm.not_mem (h : Calm kind b b') {e : Event T} (he : ¬ Quiet kind e)
    (hb : e ∉ b.trace) : e ∉ b'.trace := by
  obtain ⟨-, events, htrace, hquiet⟩ := h
  rw [htrace]
  intro hmem
  rcases List.mem_append.mp hmem with hmem | hmem
  · exact he (hquiet e hmem)
  · exact hb hmem

theorem Calm.thisTick (h : Calm kind b b') :
    ∃ events, thisTick b'.trace = events ++ thisTick b.trace := by
  obtain ⟨-, events, htrace, hquiet⟩ := h
  refine ⟨events, ?_⟩
  rw [htrace]
  clear htrace
  induction events with
  | nil => rfl
  | cons e events ih =>
    have hbeat := (quiet_keeps (hquiet e List.mem_cons_self)).1
    rw [List.cons_append, thisTick_cons hbeat, ih fun e he => hquiet e (.tail _ he)]
    rfl

theorem Calm.tickTime (h : Calm kind b b') : tickTime b'.trace = tickTime b.trace := by
  obtain ⟨-, events, htrace, hquiet⟩ := h
  rw [htrace]
  clear htrace
  induction events with
  | nil => rfl
  | cons e events ih =>
    have hbeat := (quiet_keeps (hquiet e List.mem_cons_self)).1
    rw [List.cons_append, tickTime_cons hbeat, ih fun e he => hquiet e (.tail _ he)]

/-- Whatever was started, nothing else changed. -/
theorem Calm.weaken (h : Calm kind b b') : Calm (fun _ => false) b b' := by
  obtain ⟨hs, events, htrace, hquiet⟩ := h
  refine ⟨hs, events, htrace, fun e he => ?_⟩
  have hq := hquiet e he
  obtain ⟨c, a⟩ := e
  cases c with
  | spawn argv => cases a <;> trivial
  | read p => cases a <;> exact hq
  | _ => exact hq

theorem Calm.not_started (h : Calm kind b b') (hb : ∀ e ∈ b.trace, starts kind e = false) :
    ∀ e ∈ b'.trace, starts kind e = false := by
  obtain ⟨-, events, htrace, hquiet⟩ := h
  intro e he
  rw [htrace] at he
  rcases List.mem_append.mp he with he | he
  · exact (quiet_keeps (hquiet e he)).2.1
  · exact hb e he

end Calm

section Agreement

variable {coordinator : String} {b b' : Boot T}

theorem Command.Fits.mono {a : Attr} {c : Command T} {history history' : Trace T}
    (h : c.Fits coordinator a history) (hle : history <:+ history') :
    c.Fits coordinator a history' :=
  fun p hp => ⟨hle.mem (h p hp).1, (h p hp).2⟩

theorem EnvRead.mono {text : List Char} {history history' : Trace T} (h : EnvRead text history)
    (hle : history <:+ history') : EnvRead text history' := by
  obtain ⟨p, hargs, hstarted, hexited, hprinted⟩ := h
  exact ⟨p, hargs, hle.mem hstarted, hle.mem hexited, hle.mem hprinted⟩

theorem EnvFits.calm {env : Option EnvText} (h : EnvFits env b.trace)
    (hcalm : Calm (fun _ => false) b b') : EnvFits env b'.trace := by
  have hnew : ∀ p out, p.args = envArgs → Printed p out b'.trace → Printed p out b.trace := by
    intro p out hargs hprinted
    by_contra hnot
    exact hcalm.not_mem (e := ⟨.read p, .ok out⟩) (fun hq => hq hargs) hnot hprinted
  cases env with
  | none => exact fun p out hargs hprinted => h p out hargs (hnew p out hargs hprinted)
  | some env =>
    obtain ⟨text, hread, henv, hall⟩ := h
    exact ⟨text, hread.mono hcalm.suffix, henv,
      fun p out hargs hprinted => hall p out hargs (hnew p out hargs hprinted)⟩

variable [LE T] {deadline : T} {slot : Option (List Char)}

omit [LE T] in
/-- Any event but a reading of the environment. -/
theorem EnvFits.cons {env : Option EnvText} {history : Trace T} (h : EnvFits env history)
    {e : Event T} (he : ∀ p out, e ≠ ⟨.read p, .ok out⟩) : EnvFits env (e :: history) := by
  have hold : ∀ p out, Printed p out (e :: history) → Printed p out history := by
    intro p out hprinted
    rcases List.mem_cons.mp hprinted with heq | hmem
    · exact absurd heq.symm (he p out)
    · exact hmem
  cases env with
  | none => exact fun p out hargs hprinted => h p out hargs (hold p out hprinted)
  | some env =>
    obtain ⟨text, hread, hparse, hall⟩ := h
    exact ⟨text, hread.mono (List.suffix_cons _ _), hparse,
      fun p out hargs hprinted => hall p out hargs (hold p out hprinted)⟩

/-- Quiet events, and assignments of commands that fit. -/
theorem Agrees.calm (h : Agrees coordinator deadline slot b) (hcalm : Calm (fun _ => false) b b')
    (hdeadline : b'.self.deadline = b.self.deadline) (hslot : b'.self.slot = b.self.slot)
    (henv : b'.self.env = b.self.env)
    (hfinish : b'.self.commands .finish = none →
      ∀ e ∈ b'.trace, starts (confirms coordinator) e = false)
    (hcommands : ∀ a c, b'.self.commands a = some c →
      b.self.commands a = some c ∨ c.Fits coordinator a b'.trace) :
    Agrees coordinator deadline slot b' := by
  have hentered : ∀ s, ¬ Entered s b.trace → ¬ Entered s b'.trace :=
    fun s => hcalm.not_mem (e := ⟨.enter s, ()⟩) (fun hq => hq)
  have hstate := hcalm.1
  refine ⟨hdeadline.trans h.deadline_eq, hslot.trans h.slot_eq, ?_, ?_, hfinish, ?_, ?_, ?_⟩
  · intro a c hc
    rcases hcommands a c hc with hc | hc
    · exact (h.commands a c hc).mono hcalm.suffix
    · exact hc
  · intro hdone
    rw [hstate] at hdone
    rw [henv]
    exact (h.env hdone).calm hcalm
  · intro hs
    rw [hstate] at hs
    exact ⟨hentered _ (h.checking hs).1, hentered _ (h.checking hs).2⟩
  · intro hs
    rw [hstate] at hs
    exact ⟨hcalm.suffix.mem (h.confirming hs).1, (h.confirming hs).2.mono hcalm.suffix⟩
  · intro hs
    rw [hstate] at hs
    exact hcalm.suffix.mem (h.rebooting hs)

/-- Quiet events that assign nothing. -/
theorem Agrees.still (h : Agrees coordinator deadline slot b)
    (hcalm : Calm (confirms coordinator) b b') (hself : b'.self = b.self) :
    Agrees coordinator deadline slot b' := by
  refine h.calm hcalm.weaken (by rw [hself]) (by rw [hself]) (by rw [hself]) ?_ ?_
  · intro hnone
    rw [hself] at hnone
    exact hcalm.not_started (h.finish hnone)
  · intro a c hc
    rw [hself] at hc
    exact .inl hc

/-- A quiet call that assigns nothing. -/
theorem Agrees.call (h : Agrees coordinator deadline slot b) {c : SupCall T} {a : c.Ans}
    (hq : Quiet (confirms coordinator) ⟨c, a⟩) (hself : (b.after c a).self = b.self) :
    Agrees coordinator deadline slot (b.after c a) := h.still (.call b hq) hself

/-- Whatever state is entered, once the app was reported healthy where it must be. -/
theorem Agrees.enter (h : Agrees coordinator deadline slot b) {s : SupState}
    (henv : s ≠ .done → b.state ≠ .done) (hchecking : s ≠ .checking)
    (hreported : s = .confirming → Reported deadline b.trace) :
    Agrees coordinator deadline slot (b.after (.enter s) ()) := by
  have hsuffix : b.trace <:+ (b.after (.enter s) ()).trace := List.suffix_cons _ _
  refine ⟨h.deadline_eq, h.slot_eq, fun a c hc => (h.commands a c hc).mono hsuffix, ?_, ?_, ?_,
    ?_, ?_⟩
  · exact fun hs => (h.env (henv hs)).cons (by simp)
  · intro hnone e he
    rcases List.mem_cons.mp he with rfl | he
    · rfl
    · exact h.finish hnone e he
  · intro hs
    exact absurd hs hchecking
  · intro hs
    obtain rfl : s = .confirming := hs
    exact ⟨.head _, (hreported rfl).mono hsuffix⟩
  · intro hs
    obtain rfl : s = .rebooting := hs
    exact .head _

/-- The heartbeat of a step. -/
theorem Agrees.beat (h : Agrees coordinator deadline slot b) {text : String}
    (r : Except Raised Unit) : Agrees coordinator deadline slot (b.after (.notify text) r) := by
  have hsuffix : b.trace <:+ (b.after (.notify text) r).trace := List.suffix_cons _ _
  have hentered : ∀ s, ¬ Entered s b.trace → ¬ Entered s (b.after (.notify text) r).trace := by
    intro s hnot hmem
    rcases List.mem_cons.mp hmem with heq | hmem
    · cases heq
    · exact hnot hmem
  refine ⟨h.deadline_eq, h.slot_eq, fun a c hc => (h.commands a c hc).mono hsuffix, ?_, ?_, ?_,
    ?_, ?_⟩
  · exact fun hs => (h.env hs).cons (by simp)
  · intro hnone e he
    rcases List.mem_cons.mp he with rfl | he
    · rfl
    · exact h.finish hnone e he
  · exact fun hs => ⟨hentered _ (h.checking hs).1, hentered _ (h.checking hs).2⟩
  · exact fun hs => ⟨hsuffix.mem (h.confirming hs).1, (h.confirming hs).2.mono hsuffix⟩
  · exact fun hs => hsuffix.mem (h.rebooting hs)

end Agreement

end Epilykos.BootHealth
