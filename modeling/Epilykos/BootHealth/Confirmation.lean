import Epilykos.BootHealth.History

/-!
What the supervisor does over a boot, whatever its clock reads and its processes do. A step
from a state that agrees with its history makes only lawful calls and keeps the agreement,
so every boot does.
-/

namespace Epilykos.BootHealth

open Program

variable {T : Type}

/-! ### One step keeps to the law -/

section Keeps

variable {coordinator : String} {slot : Option (List Char)} {b : Boot T} {α β : Type}

/-- What a new command is, and what has been done to start it. -/
def Spawned (argv : List String) (b : Boot T) (c : Command T) (b' : Boot T) : Prop :=
  ∃ now r, b' = (b.after .clock now).after (.spawn argv) r ∧
    (∀ p, r = .ok p → p.args = argv) ∧ c.process = r.toOption

theorem Spawned.calm {argv : List String} {c : Command T} {b' : Boot T}
    (h : Spawned argv b c b') (hargv : confirms coordinator argv = false) :
    Calm (confirms coordinator) b b' ∧ b'.self = b.self := by
  obtain ⟨now, r, rfl, hr, hc⟩ := h
  refine ⟨.trans (.call b (c := .clock) trivial) (.call _ ?_), rfl⟩
  cases r with
  | ok p => exact hargv
  | error e => trivial

theorem Spawned.fits {argv : List String} {c : Command T} {b' : Boot T} {a : Attr}
    (h : Spawned argv b c b') (ha : a.runs coordinator argv) :
    c.Fits coordinator a b'.trace := by
  obtain ⟨now, r, rfl, hr, hc⟩ := h
  intro p hp
  cases r with
  | error e => cases hc.symm.trans hp
  | ok q =>
    obtain rfl : q = p := Option.some.inj (hc.symm.trans hp)
    have hargs := hr q rfl
    refine ⟨?_, hargs ▸ ha⟩
    unfold Started
    rw [hargs]
    exact List.mem_cons_self

def assigned (f : Sup T → Sup T) (b : Boot T) : Boot T :=
  (b.after .attributes b.self).after (.assign (f b.self)) ()

theorem assigned_calm {kind : List String → Bool} (f : Sup T → Sup T) (b : Boot T) :
    Calm kind b (assigned f b) :=
  .trans (.call b (c := .attributes) trivial) (.call _ (c := .assign (f b.self)) trivial)

/-- How one look at a command ends. -/
inductive Polled (c : Command T) (b : Boot T) : Option (Code × List Char) → Boot T → Prop
  | unstarted : c.process = none → Polled c b (some (.exit 127, [])) b
  | exited {p : Process} (code : ℤ) (out : List Char) : c.process = some p →
      Polled c b (some (.exit code, out)) ((b.after (.poll p) (some code)).after (.read p) (.ok out))
  | running {p : Process} (now : T) : c.process = some p →
      Polled c b none ((b.after (.poll p) none).after .clock now)
  | overdue {p : Process} (now : T) : c.process = some p →
      Polled c b (some (.timeout, [])) (((b.after (.poll p) none).after .clock now).after (.kill p) ())

section Polled

variable {c : Command T} {r : Option (Code × List Char)} {b' : Boot T}

theorem Polled.self_eq (h : Polled c b r b') : b'.self = b.self := by
  cases h <;> rfl

theorem Polled.calm (h : Polled c b r b') (hargs : ∀ p, c.process = some p → p.args ≠ envArgs) :
    Calm (confirms coordinator) b b' := by
  cases h with
  | unstarted => exact .refl b
  | exited code out hp =>
    exact .trans (.call b (c := .poll _) trivial) (.call _ (c := .read _) (hargs _ hp))
  | running now => exact .trans (.call b (c := .poll _) trivial) (.call _ (c := .clock) trivial)
  | overdue now =>
    exact .trans (.trans (.call b (c := .poll _) trivial) (.call _ (c := .clock) trivial))
      (.call _ (c := .kill _) trivial)

theorem Polled.trace (h : Polled c b r b') (kind : List String → Bool) :
    ∃ events, b'.trace = events ++ b.trace ∧ ∀ e ∈ events, starts kind e = false := by
  cases h with
  | unstarted => exact ⟨[], rfl, by simp⟩
  | exited code out hp => exact ⟨[_, _], rfl, by simp [starts]⟩
  | running now hp => exact ⟨[_, _], rfl, by simp [starts]⟩
  | overdue now hp => exact ⟨[_, _, _], rfl, by simp [starts]⟩

/-- A command ends well only if its process exits so. -/
theorem Polled.exit_zero {out : List Char} (h : Polled c b (some (.exit 0, out)) b') :
    ∃ p, c.process = some p ∧ Exited p 0 (thisTick b'.trace) ∧
      Printed p out (thisTick b'.trace) := by
  cases h with
  | exited code out hp =>
    refine ⟨_, hp, ?_, ?_⟩
    · exact .tail _ (.head _)
    · exact .head _

end Polled

variable [LE T] {deadline : T}

/-- Every call is lawful where it is made, and an exception leaves the agreement. -/
abbrev Keeps (coordinator : String) (deadline : T) (slot : Option (List Char))
    (p : SupProg T α) (Q : α → Boot T → Prop) (b : Boot T) : Prop :=
  Safe (· = ·) anything (fun b c => Lawful coordinator deadline slot b.trace c) p Q
    (fun _ => Agrees coordinator deadline slot) b

theorem keeps_call {c : SupCall T} {k : c.Ans → SupProg T α} {Q : α → Boot T → Prop}
    (hc : Lawful coordinator deadline slot b.trace c)
    (hk : ∀ a, Possible b c a → Keeps coordinator deadline slot (k a) Q (b.after c a)) :
    Keeps coordinator deadline slot (.call c k) Q b := by
  refine safe_call.mpr ⟨hc, ?_⟩
  rintro a _ ⟨ha, rfl⟩
  exact hk a ha

theorem keeps_ask {c : SupCall T} {f : c.Ans → SupProg T α} {Q : α → Boot T → Prop}
    (hc : Lawful coordinator deadline slot b.trace c)
    (hf : ∀ a, Possible b c a → Keeps coordinator deadline slot (f a) Q (b.after c a)) :
    Keeps coordinator deadline slot (ask c >>= f) Q b := keeps_call hc hf

theorem keeps_bind {p : SupProg T α} {f : α → SupProg T β} {Q : β → Boot T → Prop}
    (h : Keeps coordinator deadline slot p (fun a b' => Keeps coordinator deadline slot (f a) Q b') b) :
    Keeps coordinator deadline slot (p >>= f) Q b := Safe.bind h

/-- Every call of a history was lawful when it was made. -/
def KeptLaw (coordinator : String) (deadline : T) (slot : Option (List Char))
    (history : Trace T) : Prop :=
  ∀ e earlier, e :: earlier <:+ history → Lawful coordinator deadline slot earlier e.1

theorem KeptLaw.cons {history : Trace T} (h : KeptLaw coordinator deadline slot history)
    {e : Event T} (he : Lawful coordinator deadline slot history e.1) :
    KeptLaw coordinator deadline slot (e :: history) := by
  intro e' earlier hsuffix
  rcases List.suffix_cons_iff.mp hsuffix with heq | hsuffix
  · obtain ⟨rfl, rfl⟩ := List.cons.inj heq
    exact he
  · exact h e' earlier hsuffix

theorem Keeps.law {p : SupProg T α} {Q : α → Boot T → Prop}
    (h : Keeps coordinator deadline slot p Q b)
    (hlaw : KeptLaw coordinator deadline slot b.trace) :
    Safe (· = ·) anything (fun b c => Lawful coordinator deadline slot b.trace c) p
      (fun a b' => Q a b' ∧ KeptLaw coordinator deadline slot b'.trace)
      (fun _ b' => Agrees coordinator deadline slot b' ∧
        KeptLaw coordinator deadline slot b'.trace) b := by
  induction p generalizing b with
  | ret a => exact ⟨h, hlaw⟩
  | raise e => exact ⟨h, hlaw⟩
  | call c k ih =>
    obtain ⟨hc, hk⟩ := safe_call.mp h
    refine safe_call.mpr ⟨hc, ?_⟩
    rintro a _ ⟨ha, rfl⟩
    exact ih a (hk a _ ⟨ha, rfl⟩) (hlaw.cons hc)

/-- The law restricts two kinds of commands only. -/
theorem lawful_spawn (history : Trace T) {argv : List String}
    (hconfirms : confirms coordinator argv = false) (hreboots : reboots argv = false) :
    Lawful coordinator deadline slot history (.spawn argv) := by
  refine ⟨by simp [hconfirms], ?_, by simp [hreboots]⟩
  intro hmark
  simp [confirms, hmark] at hconfirms

theorem command_keeps (h : Agrees coordinator deadline slot b) (key : Bound) {argv : List String}
    (hlaw : ∀ now, Lawful coordinator deadline slot (⟨.clock, now⟩ :: b.trace) (.spawn argv)) :
    Keeps coordinator deadline slot (command key argv) (Spawned argv b) b := by
  refine keeps_ask trivial fun now _ => keeps_ask (hlaw now) fun r hr => ?_
  cases r with
  | ok p => exact ⟨now, .ok p, rfl, hr, rfl⟩
  | error e =>
    cases e with
    | osError => exact ⟨now, .error .osError, rfl, hr, rfl⟩
    | other => exact (h.call (c := .clock) trivial rfl).call (c := .spawn argv) trivial rfl

theorem update_keeps {f : Sup T → Sup T} {Q : Unit → Boot T → Prop} (hQ : Q () (assigned f b)) :
    Keeps coordinator deadline slot (update f) Q b := by
  refine keeps_ask trivial fun self hself => ?_
  obtain rfl : self = b.self := hself
  exact keeps_call trivial fun _ _ => hQ

/-- Assigning a command that fits its attribute, and other attributes than the confirming
command. -/
theorem Agrees.assign (h : Agrees coordinator deadline slot b) {f : Sup T → Sup T}
    (hdeadline : (f b.self).deadline = b.self.deadline) (hslot : (f b.self).slot = b.self.slot)
    (henv : (f b.self).env = b.self.env)
    (hfinish : (f b.self).commands .finish = b.self.commands .finish)
    (hcommands : ∀ a c, (f b.self).commands a = some c →
      b.self.commands a = some c ∨ c.Fits coordinator a b.trace) :
    Agrees coordinator deadline slot (assigned f b) := by
  have hcalm : Calm (confirms coordinator) b (assigned f b) := assigned_calm f b
  refine h.calm hcalm.weaken hdeadline hslot henv ?_ fun a c hc => ?_
  · intro hnone
    exact hcalm.not_started (h.finish (hfinish.symm.trans hnone))
  · rcases hcommands a c hc with hc | hc
    · exact .inl hc
    · exact .inr (hc.mono hcalm.suffix)

/-- Any attribute but the confirming command may be assigned a command that fits, or none. -/
theorem Agrees.withCommand (h : Agrees coordinator deadline slot b) {a : Attr}
    (ha : a ≠ .finish) {c : Option (Command T)}
    (hc : ∀ c', c = some c' → c'.Fits coordinator a b.trace) :
    Agrees coordinator deadline slot (assigned (Sup.withCommand · a c) b) := by
  refine h.assign rfl rfl rfl (Function.update_of_ne ha.symm _ _) fun a' c' hc' => ?_
  by_cases haa : a' = a
  · subst haa
    exact .inr (hc c' (by simpa [Sup.withCommand] using hc'))
  · exact .inl (by simpa [Sup.withCommand, haa] using hc')

theorem lazily_keeps (h : Agrees coordinator deadline slot b) {a : Attr} (ha : a ≠ .finish)
    (key : Bound) {argv : List String} (hargv : a.runs coordinator argv)
    (hconfirms : confirms coordinator argv = false) (hreboots : reboots argv = false) :
    Keeps coordinator deadline slot (lazily a key argv)
      (fun c b' => Agrees coordinator deadline slot b' ∧ Calm (confirms coordinator) b b' ∧
        c.Fits coordinator a b'.trace ∧ b'.self.env = b.self.env) b := by
  refine keeps_ask trivial fun self hself => ?_
  obtain rfl : self = b.self := hself
  have hcall : Calm (confirms coordinator) b (b.after .attributes b.self) := .call b trivial
  have h₁ : Agrees coordinator deadline slot (b.after .attributes b.self) := h.call trivial rfl
  cases hcommand : b.self.commands a with
  | some c => exact ⟨h₁, hcall, h₁.commands a c hcommand, rfl⟩
  | none =>
    have hnew := command_keeps h₁ key fun _ => lawful_spawn _ hconfirms hreboots
    refine keeps_bind (hnew.mono ?_ fun _ _ he => he)
    intro c b₂ hspawned
    obtain ⟨hcalm, hself⟩ := hspawned.calm hconfirms
    have h₂ : Agrees coordinator deadline slot b₂ := h₁.still hcalm hself
    refine keeps_bind (update_keeps ?_)
    have hfits := hspawned.fits hargv
    refine ⟨h₂.withCommand ha ?_, (hcall.trans hcalm).trans (assigned_calm _ b₂), ?_, ?_⟩
    · rintro c' hc'
      cases hc'
      exact hfits
    · have hkept : Calm (confirms coordinator) b₂ (assigned (Sup.withCommand · a (some c)) b₂) :=
        assigned_calm _ b₂
      exact hfits.mono hkept.suffix
    · change b₂.self.env = _
      rw [hself]
      rfl

theorem Agrees.polled (h : Agrees coordinator deadline slot b) {c : Command T} {a : Attr}
    (hc : c.Fits coordinator a b.trace) (ha : a ≠ .envRead) {r : Option (Code × List Char)}
    {b' : Boot T} (hr : Polled c b r b') :
    Agrees coordinator deadline slot b' ∧ Calm (confirms coordinator) b b' := by
  have hargs : ∀ p, c.process = some p → p.args ≠ envArgs := by
    intro p hp hargs
    have hruns := (hc p hp).2
    rw [hargs] at hruns
    cases a with
    | envRead => exact ha rfl
    | _ =>
      simp [Attr.runs, confirms, envArgs, isFailedArgs, podmanArgs, healthArgs, stopAppArgs,
        markGoodArgs] at hruns
  have hcalm : Calm (confirms coordinator) b b' := hr.calm hargs
  exact ⟨h.still hcalm hr.self_eq, hcalm⟩

theorem startMountCheck_keeps (h : Agrees coordinator deadline slot b) :
    Keeps coordinator deadline slot startMountCheck
      (fun _ b' => Agrees coordinator deadline slot b' ∧ Calm (confirms coordinator) b b') b := by
  have hquiet : confirms coordinator isFailedArgs = false := by
    simp [confirms, isFailedArgs, markGoodArgs]
  have hreboots : reboots isFailedArgs = false := by
    simp [reboots, isFailedArgs, stopAppArgs, rebootArgs, forceArgs]
  have hnew := command_keeps h .env fun _ => lawful_spawn _ hquiet hreboots
  refine keeps_bind (hnew.mono ?_ fun _ _ he => he)
  intro c b₁ hspawned
  obtain ⟨hcalm, hself⟩ := hspawned.calm hquiet
  refine update_keeps ⟨(h.still hcalm hself).withCommand (by simp) ?_,
    hcalm.trans (assigned_calm _ b₁)⟩
  rintro c' hc'
  cases hc'
  exact hspawned.fits rfl

/-- The confirming command is kept as soon as it is started. -/
theorem Agrees.finishStarted (h : Agrees coordinator deadline slot b) {argv : List String}
    {c : Command T} {b' : Boot T} (hspawned : Spawned argv b c b')
    (hargv : confirms coordinator argv = true) :
    Agrees coordinator deadline slot (assigned (Sup.withCommand · .finish (some c)) b') := by
  have hfits : c.Fits coordinator .finish b'.trace := hspawned.fits hargv
  have hself : b'.self = b.self := by
    obtain ⟨now, r, rfl, -⟩ := hspawned
    rfl
  have hcalm : Calm (fun _ => false) b b' := by
    obtain ⟨now, r, rfl, -⟩ := hspawned
    refine .trans (.call b (c := .clock) trivial) (.call _ ?_)
    cases r <;> trivial
  have hkept : Calm (fun _ => false) b' (assigned (Sup.withCommand · .finish (some c)) b') :=
    assigned_calm _ b'
  refine h.calm (hcalm.trans hkept) ?_ ?_ ?_ ?_ ?_
  · change b'.self.deadline = _
    rw [hself]
  · change b'.self.slot = _
    rw [hself]
  · change b'.self.env = _
    rw [hself]
  · intro hnone
    simp [assigned, Boot.after, Sup.withCommand] at hnone
  · intro a c' hc'
    by_cases ha : a = .finish
    · subst ha
      obtain rfl : c = c' := by simpa [assigned, Boot.after, Sup.withCommand] using hc'
      exact .inr (hfits.mono hkept.suffix)
    · refine .inl ?_
      simpa [assigned, Boot.after, Sup.withCommand, ha, hself] using hc'

theorem confirming_lawful (h : Agrees coordinator deadline slot b) (hs : b.state = .confirming)
    (hnone : b.self.commands .finish = none) {argv : List String}
    (hmark : argv = markGoodArgs →
      ∃ env, b.self.env = some env ∧ isTrial env slot = false)
    (hreboots : reboots argv = false) :
    Lawful coordinator deadline slot b.trace (.spawn argv) := by
  refine ⟨fun _ => ⟨h.finish hnone, (h.confirming hs).2, (h.confirming hs).1⟩, ?_,
    by simp [hreboots]⟩
  intro heq
  obtain ⟨env, henv, htrial⟩ := hmark heq
  have hfits := h.env (by simp [hs])
  rw [henv] at hfits
  obtain ⟨text, hread, rfl, hall⟩ := hfits
  refine ⟨⟨text, hread⟩, ?_⟩
  rintro text' ⟨p, hargs, -, -, hprinted⟩
  rw [hall p text' hargs hprinted]
  exact htrial

/-- Nothing but the commands is asked of a supervisor that is done. -/
theorem Agrees.finished (h : Agrees coordinator deadline slot b) {b' : Boot T}
    (hstate : b'.state = .done) (hself : b'.self = b.self)
    (htrace : ∃ events, b'.trace = events ++ b.trace ∧
      ∀ e ∈ events, starts (confirms coordinator) e = false) :
    Agrees coordinator deadline slot b' := by
  obtain ⟨events, htrace, hstarts⟩ := htrace
  refine ⟨by rw [hself, h.deadline_eq], by rw [hself, h.slot_eq], ?_, by simp [hstate], ?_,
    by simp [hstate], by simp [hstate], by simp [hstate]⟩
  · intro a c hc
    rw [hself] at hc
    exact (h.commands a c hc).mono ⟨events, htrace.symm⟩
  · intro hnone e he
    rw [hself] at hnone
    rw [htrace] at he
    rcases List.mem_append.mp he with he | he
    · exact hstarts e he
    · exact h.finish hnone e he

/-- The environment is kept as it was printed. -/
theorem Agrees.envKept (h : Agrees coordinator deadline slot b) (hs : b.state = .confirming)
    (hnone : b.self.env = none) {c : Command T} (hc : c.Fits coordinator .envRead b.trace)
    {out : List Char} {b' : Boot T} (hr : Polled c b (some (.exit 0, out)) b') :
    Agrees coordinator deadline slot
      (assigned (fun self => { self with env := some (parseEnv out) }) b') := by
  have hfits := h.env (by simp [hs])
  rw [hnone] at hfits
  cases hr with
  | exited code out hp =>
    rename_i p
    obtain ⟨hstarted, hargs⟩ := hc p hp
    have hsuffix : b.trace <:+ (assigned (fun self => { self with env := some (parseEnv out) })
        ((b.after (.poll p) (some 0)).after (.read p) (.ok out))).trace := ⟨[_, _, _, _], rfl⟩
    have hconfirming := h.confirming hs
    refine ⟨h.deadline_eq, h.slot_eq, fun a c hc => (h.commands a c hc).mono hsuffix, ?_, ?_, ?_,
      ?_, ?_⟩
    · refine fun _ => ⟨out, ⟨p, hargs, hsuffix.mem hstarted, ?_, ?_⟩, rfl, ?_⟩
      · simp [Exited, assigned, Boot.after]
      · simp [Printed, assigned, Boot.after]
      · intro q out' hq hprinted
        simp only [Printed, assigned, Boot.after, List.mem_cons, Sigma.mk.injEq, reduceCtorEq,
          false_and, false_or, SupCall.read.injEq] at hprinted
        rcases hprinted with ⟨rfl, hout⟩ | hprinted
        · simpa using hout
        · exact absurd hprinted (hfits q out' hq)
    · intro hfinish e he
      simp only [assigned, Boot.after, List.mem_cons] at he
      rcases he with rfl | rfl | rfl | rfl | he
      · rfl
      · rfl
      · rfl
      · rfl
      · exact h.finish hfinish e he
    · exact fun hchecking => absurd (hs.symm.trans hchecking) (by simp)
    · refine fun _ => ⟨?_, hconfirming.2.mono hsuffix⟩
      simpa [Entered, assigned, Boot.after] using hconfirming.1
    · exact fun hrebooting => absurd (hs.symm.trans hrebooting) (by simp)

theorem reboot_lawful {argv : List String} {history : Trace T}
    (hargv : confirms coordinator argv = false) (h : Entered .rebooting history) :
    Lawful coordinator deadline slot history (.spawn argv) := by
  refine ⟨by simp [hargv], ?_, fun _ => h⟩
  intro hmark
  simp [confirms, hmark] at hargv

theorem startReboot_keeps (h : Agrees coordinator deadline slot b) (hs : b.state = .checking)
    (now : T) (reason : String) :
    Keeps coordinator deadline slot (startReboot now reason)
      (fun _ b' => Agrees coordinator deadline slot b' ∧ b'.state = .rebooting) b := by
  refine keeps_ask (h.checking hs).1 fun _ _ => ?_
  have h₁ : Agrees coordinator deadline slot (b.after (.enter .rebooting) ()) :=
    h.enter (by simp [hs]) (by simp) (by simp)
  refine keeps_bind (update_keeps ?_)
  have h₂ : Agrees coordinator deadline slot (assigned
      (fun self => { self with reason := some reason, rebootAt := some now, stage := 0 })
      (b.after (.enter .rebooting) ())) := h₁.assign rfl rfl rfl rfl fun _ _ hc => .inl hc
  have hquiet : confirms coordinator stopAppArgs = false := by
    simp [confirms, stopAppArgs, markGoodArgs]
  have hnew := command_keeps h₂ .stopApp fun _ =>
    reboot_lawful hquiet (.tail _ (.tail _ (.tail _ (.head _))))
  refine keeps_bind (hnew.mono ?_ fun _ _ he => he)
  intro c b₃ hspawned
  obtain ⟨hcalm, hself⟩ := hspawned.calm hquiet
  have h₃ : Agrees coordinator deadline slot b₃ := h₂.still hcalm hself
  refine keeps_bind (update_keeps ⟨h₃.withCommand (by simp) ?_, hcalm.1⟩)
  rintro c' hc'
  cases hc'
  exact hspawned.fits rfl

/-- Any further command of the reboot. -/
theorem spawnReboot_keeps (h : Agrees coordinator deadline slot b) (hs : b.state = .rebooting)
    {argv : List String} (hargv : confirms coordinator argv = false)
    {k : Process → SupProg T α} {Q : α → Boot T → Prop}
    (hk : ∀ p, Agrees coordinator deadline slot (b.after (.spawn argv) (.ok p)) →
      Keeps coordinator deadline slot (k p) Q (b.after (.spawn argv) (.ok p))) :
    Keeps coordinator deadline slot (ask (.spawn argv) >>= fun r => Prog.ofExcept r >>= k) Q b := by
  have hlaw : Lawful coordinator deadline slot b.trace (.spawn argv) :=
    reboot_lawful hargv (h.rebooting hs)
  refine keeps_call hlaw ?_
  rintro (e | p) -
  · exact h.call (c := .spawn argv) (a := .error e) trivial rfl
  · exact hk p (h.call hargv rfl)

variable [LT T] [DecidableLT T] [Sub T] [NatCast T]

theorem result_keeps (h : Agrees coordinator deadline slot b) (c : Command T) :
    Keeps coordinator deadline slot c.result (Polled c b) b := by
  unfold Command.result
  cases hprocess : c.process with
  | none => exact .unstarted hprocess
  | some p =>
    refine keeps_ask trivial fun code _ => ?_
    have hpoll : Agrees coordinator deadline slot (b.after (.poll p) code) := h.call trivial rfl
    cases code with
    | some code =>
      refine keeps_ask trivial fun out _ => ?_
      cases out with
      | ok out => exact .exited code out hprocess
      | error e => exact hpoll.call (c := .read p) trivial rfl
    | none =>
      refine keeps_ask trivial fun now _ => ?_
      split_ifs
      · exact keeps_ask trivial fun _ _ => .overdue now hprocess
      · exact .running now hprocess

/-! ### Mounting -/

theorem pollMountCheck_keeps (h : Agrees coordinator deadline slot b) (now : T) :
    Keeps coordinator deadline slot (pollMountCheck now)
      (fun _ b' => Agrees coordinator deadline slot b' ∧ Calm (confirms coordinator) b b') b := by
  refine keeps_ask trivial fun self hself => ?_
  obtain rfl : self = b.self := hself
  have hcall : Calm (confirms coordinator) b (b.after .attributes b.self) := .call b trivial
  have h₁ : Agrees coordinator deadline slot (b.after .attributes b.self) := h.call trivial rfl
  cases hcheck : b.self.commands .mountCheck with
  | none => exact ⟨h₁, hcall⟩
  | some check =>
    refine keeps_bind ((result_keeps h₁ check).mono ?_ fun _ _ he => he)
    intro r b₂ hr
    obtain ⟨h₂, hcalm⟩ := h₁.polled (h₁.commands .mountCheck check hcheck) (by simp) hr
    cases r with
    | none => exact ⟨h₂, hcall.trans hcalm⟩
    | some r =>
      refine keeps_bind (update_keeps ?_)
      refine ⟨h₂.assign rfl rfl rfl ?_ ?_, (hcall.trans hcalm).trans (assigned_calm _ b₂)⟩
      · simp [Sup.withCommand]
      · intro a c hc
        by_cases ha : a = .mountCheck
        · subst ha
          simp [Sup.withCommand] at hc
        · exact .inl (by simpa [Sup.withCommand, ha] using hc)

/-! ### Confirming -/

theorem finishConfirm_keeps (h : Agrees coordinator deadline slot b) (hs : b.state = .confirming)
    {c : Command T} (hc : c.Fits coordinator .finish b.trace) :
    Keeps coordinator deadline slot (finishConfirm c)
      (fun _ b' => Agrees coordinator deadline slot b' ∧ b'.state ≠ .checking) b := by
  refine keeps_bind ((result_keeps h c).mono ?_ fun _ _ he => he)
  intro r b₁ hr
  obtain ⟨h₁, hcalm⟩ := h.polled hc (by simp) hr
  have hs₁ : b₁.state = .confirming := hcalm.1.trans hs
  have hdone : ∀ {b₂ : Boot T}, Agrees coordinator deadline slot b₂ →
      Keeps coordinator deadline slot (ask (.enter .done) >>= fun _ => pure SupState.done)
        (fun _ b' => Agrees coordinator deadline slot b' ∧ b'.state ≠ .checking) b₂ := by
    intro b₂ h₂
    refine keeps_ask trivial fun _ _ => ⟨h₂.enter ?_ ?_ ?_, ?_⟩ <;> simp [Boot.after]
  cases r with
  | none =>
    refine ⟨h₁, ?_⟩
    rw [hs₁]
    simp
  | some r =>
    obtain ⟨code, out⟩ := r
    refine keeps_bind ?_
    by_cases hcode : code = .exit 0
    · subst hcode
      obtain ⟨p, hp, hexited, -⟩ := hr.exit_zero
      rw [Prog.when_pos rfl]
      refine keeps_ask trivial fun self _ => ?_
      have h₂ := h₁.call (c := .attributes) (a := self) trivial rfl
      refine keeps_call ?_ fun _ _ => ?_
      · have hstarted := (hc p hp).1
        refine ⟨p, (hc p hp).2, ?_, ?_⟩
        · exact .tail _ (hcalm.suffix.mem hstarted)
        · exact .tail _ ((List.takeWhile_prefix _).subset hexited)
      · exact hdone (h₂.call (c := .record self.slot) trivial rfl)
    · rw [Prog.when_neg hcode]
      exact hdone h₁

theorem finishWith_keeps (h : Agrees coordinator deadline slot b) (hs : b.state = .confirming)
    (hnone : b.self.commands .finish = none) (key : Bound) {argv : List String}
    (hconfirms : confirms coordinator argv = true)
    (hmark : argv = markGoodArgs →
      ∃ env, b.self.env = some env ∧ isTrial env slot = false)
    (hreboots : reboots argv = false) :
    Keeps coordinator deadline slot (lazily .finish key argv >>= finishConfirm)
      (fun _ b' => Agrees coordinator deadline slot b' ∧ b'.state ≠ .checking) b := by
  refine keeps_bind (keeps_ask trivial fun self hself => ?_)
  obtain rfl : self = b.self := hself
  have h₁ : Agrees coordinator deadline slot (b.after .attributes b.self) := h.call trivial rfl
  have hlaw : ∀ now, Lawful coordinator deadline slot
      (⟨.clock, now⟩ :: (b.after .attributes b.self).trace) (.spawn argv) := by
    intro now
    have h₂ := h₁.call (c := .clock) (a := now) trivial rfl
    exact confirming_lawful h₂ hs hnone hmark hreboots
  simp only [hnone]
  refine keeps_bind ((command_keeps h₁ key hlaw).mono ?_ fun _ _ he => he)
  intro c b₂ hspawned
  have hs₂ : b₂.state = .confirming := by
    obtain ⟨now, r, rfl, -⟩ := hspawned
    exact hs
  refine keeps_bind (update_keeps ?_)
  refine finishConfirm_keeps (h₁.finishStarted hspawned hconfirms) hs₂ ?_
  have hkept : Calm (confirms coordinator) b₂ (assigned (Sup.withCommand · .finish (some c)) b₂) :=
    assigned_calm _ b₂
  exact (hspawned.fits (a := .finish) hconfirms).mono hkept.suffix

theorem confirmWith_keeps (h : Agrees coordinator deadline slot b) (hs : b.state = .confirming)
    {env : EnvText} (henv : b.self.env = some env) :
    Keeps coordinator deadline slot (confirmWith coordinator env)
      (fun _ b' => Agrees coordinator deadline slot b' ∧ b'.state ≠ .checking) b := by
  refine keeps_ask trivial fun self hself => ?_
  obtain rfl : self = b.self := hself
  have h₁ : Agrees coordinator deadline slot (b.after .attributes b.self) := h.call trivial rfl
  cases hfinish : b.self.commands .finish with
  | some c => exact finishConfirm_keeps h₁ hs (h₁.commands .finish c hfinish)
  | none =>
    dsimp only
    split_ifs with htrial
    · refine keeps_ask trivial fun coordinatorExists _ => ?_
      have h₂ := h₁.call (c := .coordinatorExists) (a := coordinatorExists) trivial rfl
      cases coordinatorExists with
      | true =>
        refine finishWith_keeps h₂ hs hfinish .confirm ?_ ?_ ?_
        · simp [confirms, confirmArgs]
        · simp [confirmArgs, markGoodArgs]
        · simp [reboots, confirmArgs, stopAppArgs, rebootArgs, forceArgs]
      | false =>
        refine keeps_ask trivial fun _ _ => ⟨h₂.enter ?_ ?_ ?_, ?_⟩ <;> simp [Boot.after]
    · rw [h.slot_eq] at htrial
      refine finishWith_keeps h₁ hs hfinish .markGood ?_ ?_ ?_
      · simp [confirms]
      · exact fun _ => ⟨env, henv, by simpa using htrial⟩
      · simp [reboots, markGoodArgs, stopAppArgs, rebootArgs, forceArgs]

theorem confirm_keeps (h : Agrees coordinator deadline slot b) (hs : b.state = .confirming) :
    Keeps coordinator deadline slot (confirm coordinator)
      (fun _ b' => Agrees coordinator deadline slot b' ∧ b'.state ≠ .checking) b := by
  refine keeps_ask trivial fun self hself => ?_
  obtain rfl : self = b.self := hself
  have h₁ : Agrees coordinator deadline slot (b.after .attributes b.self) := h.call trivial rfl
  cases henv : b.self.env with
  | some env => exact confirmWith_keeps h₁ hs henv
  | none =>
    have hread : Keeps coordinator deadline slot (lazily .envRead .env envArgs) _ _ :=
      lazily_keeps h₁ (a := .envRead) (by simp) .env rfl (by simp [confirms, envArgs, markGoodArgs])
        (by simp [reboots, envArgs, stopAppArgs, rebootArgs, forceArgs])
    refine keeps_bind (hread.mono ?_ fun _ _ he => he)
    rintro c b₂ ⟨h₂, hcalm₂, hfits, henv₂⟩
    have hs₂ : b₂.state = .confirming := hcalm₂.1.trans hs
    refine keeps_bind ((result_keeps h₂ c).mono ?_ fun _ _ he => he)
    intro r b₃ hr
    cases r with
    | none =>
      cases hr with
      | running now hp =>
        rename_i p
        have h₃ := (h₂.call (c := .poll p) (a := none) trivial rfl).call (c := .clock) (a := now)
          trivial rfl
        exact ⟨h₃, by simp [Boot.after, hs₂]⟩
    | some r =>
      obtain ⟨code, out⟩ := r
      dsimp only
      split_ifs with hcode
      · refine keeps_ask trivial fun _ _ => ⟨h₂.finished rfl hr.self_eq ?_, by simp [Boot.after]⟩
        obtain ⟨events, htrace, hstarts⟩ := hr.trace (confirms coordinator)
        refine ⟨⟨.enter .done, ()⟩ :: events, congrArg (List.cons _) htrace, ?_⟩
        simpa [starts] using hstarts
      · obtain rfl : code = .exit 0 := by simpa using hcode
        refine keeps_bind (update_keeps ?_)
        have hs₃ : b₃.state = .confirming := by
          cases hr
          exact hs₂
        exact confirmWith_keeps (h₂.envKept hs₂ (henv₂.trans henv) hfits hr) hs₃ rfl

/-! ### Checking -/

theorem checkHealth_keeps (h : Agrees coordinator deadline slot b) (hs : b.state = .checking)
    {now : T} (htick : tickTime b.trace = some now) (hnow : ¬ deadline ≤ now)
    (hpodman : ∃ p, p.args = podmanArgs ∧ Exited p 0 (thisTick b.trace)) :
    Keeps coordinator deadline slot (checkHealth coordinator)
      (fun _ b' => Agrees coordinator deadline slot b') b := by
  have hhealth : Keeps coordinator deadline slot (lazily .health .health healthArgs) _ _ :=
    lazily_keeps h (a := .health) (by simp) .health rfl (by simp [confirms, healthArgs, markGoodArgs])
      (by simp [reboots, healthArgs, stopAppArgs, rebootArgs, forceArgs])
  refine keeps_bind (hhealth.mono ?_ fun _ _ he => he)
  rintro c b₁ ⟨h₁, hcalm₁, hfits, -⟩
  refine keeps_bind ((result_keeps h₁ c).mono ?_ fun _ _ he => he)
  intro r b₂ hr
  obtain ⟨h₂, hcalm₂⟩ := h₁.polled hfits (by simp) hr
  cases r with
  | none => exact h₂
  | some r =>
    obtain ⟨code, out⟩ := r
    refine keeps_bind (update_keeps ?_)
    have h₃ : Agrees coordinator deadline slot (assigned (Sup.withCommand · .health none) b₂) :=
      h₂.withCommand (by simp) (by simp)
    have hcalm : Calm (confirms coordinator) b (assigned (Sup.withCommand · .health none) b₂) :=
      (hcalm₁.trans hcalm₂).trans (assigned_calm _ b₂)
    split_ifs with hbad
    · exact h₃
    · obtain ⟨rfl, hout⟩ : code = .exit 0 ∧ Text.strip out = "healthy".toList := by
        simpa [not_or] using hbad
      obtain ⟨q, hq, hexited, hprinted⟩ := hr.exit_zero
      obtain ⟨p, hp, hpodman⟩ := hpodman
      have hnew : thisTick (assigned (Sup.withCommand · .health none) b₂).trace =
          ⟨.assign (b₂.self.withCommand .health none), ()⟩ :: ⟨.attributes, b₂.self⟩ ::
            thisTick b₂.trace :=
        (thisTick_cons rfl _).trans (congrArg _ (thisTick_cons rfl _))
      have hreported : Reported deadline
          (assigned (Sup.withCommand · .health none) b₂).trace := by
        obtain ⟨events, hevents⟩ := hcalm.thisTick
        refine ⟨_, now, List.suffix_refl _, hcalm.tickTime.trans htick, hnow, ⟨p, hp, ?_⟩, q, out,
          (hfits q hq).2, ?_, ?_, hout⟩
        · unfold Exited
          rw [hevents]
          exact List.mem_append_right _ hpodman
        · unfold Exited
          rw [hnew]
          exact .tail _ (.tail _ hexited)
        · unfold Printed
          rw [hnew]
          exact .tail _ (.tail _ hprinted)
      have hs₃ : (assigned (Sup.withCommand · .health none) b₂).state = .checking :=
        hcalm.1.trans hs
      have hnot := h₃.checking hs₃
      refine keeps_ask hnot.2 fun _ _ => ?_
      refine (confirm_keeps (h₃.enter ?_ ?_ ?_) rfl).mono (fun _ _ hq => hq.1) fun _ _ he => he
      · simp [hs₃]
      · simp
      · exact fun _ => hreported

theorem check_keeps (h : Agrees coordinator deadline slot b) (hs : b.state = .checking)
    {now : T} (htick : tickTime b.trace = some now) (hnow : ¬ deadline ≤ now) :
    Keeps coordinator deadline slot (check coordinator)
      (fun _ b' => Agrees coordinator deadline slot b') b := by
  refine keeps_ask trivial fun mounted _ => ?_
  have h₁ : Agrees coordinator deadline slot (b.after (.isMount "/data") mounted) :=
    h.call trivial rfl
  have hcall : Calm (confirms coordinator) b (b.after (.isMount "/data") mounted) := .call b trivial
  cases mounted with
  | false => exact h₁
  | true =>
    have hpodman : Keeps coordinator deadline slot (lazily .podman .podmanInfo podmanArgs) _ _ :=
      lazily_keeps h₁ (a := .podman) (by simp) .podmanInfo rfl
        (by simp [confirms, podmanArgs, markGoodArgs])
        (by simp [reboots, podmanArgs, stopAppArgs, rebootArgs, forceArgs])
    refine keeps_bind (hpodman.mono ?_ fun _ _ he => he)
    rintro c b₂ ⟨h₂, hcalm₂, hfits, -⟩
    refine keeps_bind ((result_keeps h₂ c).mono ?_ fun _ _ he => he)
    intro r b₃ hr
    obtain ⟨h₃, hcalm₃⟩ := h₂.polled hfits (by simp) hr
    have hcalm : Calm (confirms coordinator) b b₃ := (hcall.trans hcalm₂).trans hcalm₃
    cases r with
    | none => exact h₃
    | some r =>
      obtain ⟨code, out⟩ := r
      dsimp only
      split_ifs with hcode
      · exact keeps_bind (update_keeps (h₃.withCommand (by simp) (by simp)))
      · obtain rfl : code = .exit 0 := by simpa using hcode
        obtain ⟨p, hp, hexited, -⟩ := hr.exit_zero
        exact checkHealth_keeps h₃ (hcalm.1.trans hs) (hcalm.tickTime.trans htick) hnow
          ⟨p, (hfits p hp).2, hexited⟩

/-! ### Rebooting -/

theorem continueReboot_keeps (h : Agrees coordinator deadline slot b)
    (hs : b.state = .rebooting) (now : T) :
    Keeps coordinator deadline slot (continueReboot now)
      (fun _ b' => Agrees coordinator deadline slot b' ∧ b'.state ≠ .checking) b := by
  refine keeps_ask trivial fun self hself => ?_
  obtain rfl : self = b.self := hself
  have h₁ : Agrees coordinator deadline slot (b.after .attributes b.self) := h.call trivial rfl
  have hstay : Agrees coordinator deadline slot (b.after .attributes b.self) ∧
      (b.after .attributes b.self).state ≠ .checking := ⟨h₁, by simp [Boot.after, hs]⟩
  split
  · cases hstopping : b.self.commands .stopping with
    | none => exact h₁
    | some c =>
      refine keeps_bind ((result_keeps h₁ c).mono ?_ fun _ _ he => he)
      intro r b₂ hr
      obtain ⟨h₂, hcalm⟩ := h₁.polled (h₁.commands .stopping c hstopping) (by simp) hr
      have hs₂ : b₂.state = .rebooting := hcalm.1.trans hs
      cases r with
      | none => exact ⟨h₂, by simp [hs₂]⟩
      | some r =>
        refine spawnReboot_keeps h₂ hs₂ ?_ fun _ h₃ => keeps_bind (update_keeps ⟨?_, ?_⟩)
        · simp [confirms, rebootArgs, markGoodArgs]
        · exact h₃.assign rfl rfl rfl rfl fun _ _ hc => .inl hc
        · simp [assigned, Boot.after, hs₂]
  · split_ifs
    · refine spawnReboot_keeps h₁ hs ?_ fun _ h₂ => keeps_bind (update_keeps ⟨?_, ?_⟩)
      · simp [confirms, forceArgs, markGoodArgs]
      · exact h₂.assign rfl rfl rfl rfl fun _ _ hc => .inl hc
      · simp [assigned, Boot.after, hs]
    · exact hstay
  · split_ifs
    · refine keeps_ask (h₁.rebooting hs) fun _ _ => ?_
      have h₂ := h₁.call (c := .sysrq) (a := ()) trivial rfl
      refine keeps_bind (update_keeps ⟨h₂.assign rfl rfl rfl rfl fun _ _ hc => .inl hc, ?_⟩)
      exact hstay.2
    · exact hstay
  · exact hstay

/-! ### A step and a boot -/

variable [DecidableLE T]

theorem dataMountFailed_keeps (h : Agrees coordinator deadline slot b) (now : T) :
    Keeps coordinator deadline slot (dataMountFailed now)
      (fun _ b' => Agrees coordinator deadline slot b' ∧ Calm (confirms coordinator) b b') b := by
  refine keeps_ask trivial fun mounted _ => ?_
  have h₁ : Agrees coordinator deadline slot (b.after (.isMount "/data") mounted) :=
    h.call trivial rfl
  have hcall : Calm (confirms coordinator) b (b.after (.isMount "/data") mounted) := .call b trivial
  cases mounted with
  | true => exact ⟨h₁, hcall⟩
  | false =>
    refine keeps_ask trivial fun self hself => ?_
    have h₂ := h₁.call (c := .attributes) (a := self) trivial rfl
    have hcall₂ : Calm (confirms coordinator) b _ :=
      hcall.trans (.call _ (c := .attributes) (a := self) trivial)
    refine keeps_bind ?_
    by_cases hdue : mountCheckDue self now = true
    · rw [Prog.when_pos hdue]
      refine (startMountCheck_keeps h₂).mono ?_ fun _ _ he => he
      rintro _ b₃ ⟨h₃, hcalm₃⟩
      refine (pollMountCheck_keeps h₃ now).mono ?_ fun _ _ he => he
      rintro _ b₄ ⟨h₄, hcalm₄⟩
      exact ⟨h₄, (hcall₂.trans hcalm₃).trans hcalm₄⟩
    · rw [Prog.when_neg hdue]
      refine (pollMountCheck_keeps h₂ now).mono ?_ fun _ _ he => he
      rintro _ b₃ ⟨h₃, hcalm₃⟩
      exact ⟨h₃, hcall₂.trans hcalm₃⟩

theorem stepChecking_keeps (h : Agrees coordinator deadline slot b) (hs : b.state = .checking)
    {now : T} (htick : tickTime b.trace = some now) :
    Keeps coordinator deadline slot (stepChecking coordinator now)
      (fun _ b' => Agrees coordinator deadline slot b' ∧
        (deadline ≤ now → b'.state ≠ .checking)) b := by
  have hreboot : ∀ {b₁ : Boot T} (reason : String), Agrees coordinator deadline slot b₁ →
      b₁.state = .checking → Keeps coordinator deadline slot (startReboot now reason)
        (fun _ b' => Agrees coordinator deadline slot b' ∧
          (deadline ≤ now → b'.state ≠ .checking)) b₁ := by
    intro b₁ reason h₁ hs₁
    refine (startReboot_keeps h₁ hs₁ now reason).mono ?_ fun _ _ he => he
    rintro _ b₂ ⟨h₂, hs₂⟩
    exact ⟨h₂, fun _ => by simp [hs₂]⟩
  refine keeps_bind ((dataMountFailed_keeps h now).mono ?_ fun _ _ he => he)
  rintro failed b₁ ⟨h₁, hcalm⟩
  have hs₁ : b₁.state = .checking := hcalm.1.trans hs
  cases failed with
  | true => exact hreboot _ h₁ hs₁
  | false =>
    refine keeps_ask trivial fun self hself => ?_
    obtain rfl : self = b₁.self := hself
    have h₂ : Agrees coordinator deadline slot (b₁.after .attributes b₁.self) := h₁.call trivial rfl
    rw [h₁.deadline_eq]
    split_ifs with hnow
    · exact hreboot _ h₂ hs₁
    · have hcalm₂ : Calm (confirms coordinator) b (b₁.after .attributes b₁.self) :=
        hcalm.trans (.call b₁ trivial)
      refine (check_keeps h₂ hs₁ (hcalm₂.tickTime.trans htick) hnow).mono ?_ fun _ _ he => he
      exact fun _ b' hb' => ⟨hb', fun hle => absurd hle hnow⟩

theorem stepAt_keeps (h : Agrees coordinator deadline slot b) {now : T}
    (hclock : ∃ earlier, b.trace = ⟨.clock, now⟩ :: earlier) :
    Keeps coordinator deadline slot (stepAt coordinator now)
      (fun _ b' => Agrees coordinator deadline slot b' ∧
        (deadline ≤ now → b'.state ≠ .checking)) b := by
  refine keeps_call trivial ?_
  rintro (e | ⟨⟩) -
  · exact h.beat _
  have h₁ : Agrees coordinator deadline slot (b.after (.notify "WATCHDOG=1") (.ok ())) := h.beat _
  have htick : tickTime (b.after (.notify "WATCHDOG=1") (.ok ())).trace = some now := by
    obtain ⟨earlier, htrace⟩ := hclock
    simp [Boot.after, htrace, tickTime, isBeat]
  generalize b.after (.notify "WATCHDOG=1") (.ok ()) = b₁ at h₁ htick
  refine keeps_ask trivial fun s hs => ?_
  have h₂ : Agrees coordinator deadline slot (b₁.after .state s) := h₁.call trivial rfl
  have hs₂ : (b₁.after .state s).state = s := hs.symm
  have htick₂ : tickTime (b₁.after .state s).trace = some now :=
    (tickTime_cons rfl _).trans htick
  cases s with
  | checking => exact stepChecking_keeps h₂ hs₂ htick₂
  | rebooting =>
    refine (continueReboot_keeps h₂ hs₂ now).mono ?_ fun _ _ he => he
    exact fun _ b' hb' => ⟨hb'.1, fun _ => hb'.2⟩
  | done => exact ⟨h₂, fun _ => by simp [hs₂]⟩
  | confirming =>
    refine (confirm_keeps h₂ hs₂).mono ?_ fun _ _ he => he
    exact fun _ b' hb' => ⟨hb'.1, fun _ => hb'.2⟩

variable [Add T]

omit [LT T] [DecidableLT T] [Sub T] [DecidableLE T] in
theorem supervisor_agrees (start : T) (cmdline : List Char) :
    Agrees coordinator (start + ((deadlineS : ℕ) : T)) (bootedSlot cmdline)
      (supervisor start cmdline) := by
  refine ⟨rfl, rfl, ?_, ?_, ?_, ?_, ?_, ?_⟩ <;>
    simp [supervisor, EnvFits, NoEnv, Entered, Printed]

/-- What holds after any number of steps. -/
theorem Supervised.agrees {start : T} {cmdline : List Char}
    {ticks : List (T × Except Raised SupState)}
    (h : Supervised coordinator start cmdline ticks b) :
    Agrees coordinator (start + ((deadlineS : ℕ) : T)) (bootedSlot cmdline) b ∧
      KeptLaw coordinator (start + ((deadlineS : ℕ) : T)) (bootedSlot cmdline) b.trace ∧
      ∀ now s earlier, ticks = (now, .ok s) :: earlier → start + ((deadlineS : ℕ) : T) ≤ now →
        b.state ≠ .checking := by
  induction h with
  | start =>
    refine ⟨supervisor_agrees start cmdline, ?_, by simp⟩
    intro e earlier hsuffix
    simp [supervisor] at hsuffix
  | @step ticks b b' now r _ hrun ih =>
    obtain ⟨hagrees, hlaw, -⟩ := ih
    have hclock : Agrees coordinator _ _ (b.after .clock now) := hagrees.call trivial rfl
    have hstep := (stepAt_keeps hclock ⟨b.trace, rfl⟩).law (hlaw.cons trivial)
    cases r with
    | error e =>
      obtain ⟨hend, hlaw'⟩ := hstep.exception hrun
      exact ⟨hend, hlaw', by simp⟩
    | ok s =>
      obtain ⟨⟨hend, hchecking⟩, hlaw'⟩ := hstep.result hrun
      refine ⟨hend, hlaw', ?_⟩
      intro now' s' earlier heq
      obtain ⟨⟨rfl, rfl⟩, rfl⟩ : (now = now' ∧ s = s') ∧ ticks = earlier := by simpa using heq
      exact hchecking

end Keeps

/-! ### Of one boot -/

section Law

variable [LE T] {coordinator : String} {deadline : T} {slot : Option (List Char)}
  {history : Trace T}

theorem KeptLaw.tail {e : Event T} (h : KeptLaw coordinator deadline slot (e :: history)) :
    Lawful coordinator deadline slot history e.1 ∧ KeptLaw coordinator deadline slot history :=
  ⟨h e history (List.suffix_refl _), fun e' earlier hsuffix =>
    h e' earlier (hsuffix.trans (List.suffix_cons _ _))⟩

/-- A boot is left by confirming or by rebooting, not by both. -/
theorem KeptLaw.apart (h : KeptLaw coordinator deadline slot history)
    (hconfirming : Entered .confirming history) : ¬ Entered .rebooting history := by
  induction history with
  | nil => cases hconfirming
  | cons e history ih =>
    obtain ⟨he, hlaw⟩ := h.tail
    intro hrebooting
    rcases List.mem_cons.mp hconfirming with rfl | hconfirmed
    · rcases List.mem_cons.mp hrebooting with heq | hrebooted
      · cases heq
      · exact he hrebooted
    · rcases List.mem_cons.mp hrebooting with rfl | hrebooted
      · exact he hconfirmed
      · exact ih hlaw hconfirmed hrebooted

end Law

/-- The calls that begin or go on with a reboot. -/
def startsReboot : SupCall T → Bool
  | .enter .rebooting => true
  | .spawn argv => reboots argv
  | .sysrq => true
  | _ => false

/-- The calls that begin or go on with confirming. -/
def startsConfirmation (coordinator : String) : SupCall T → Bool
  | .enter .confirming => true
  | .spawn argv => confirms coordinator argv
  | _ => false

section Apart

variable [LE T] {coordinator : String} {deadline : T} {slot : Option (List Char)}
  {history : Trace T} {e : Event T}

theorem KeptLaw.rebooting (h : KeptLaw coordinator deadline slot history) (he : e ∈ history)
    (hreboot : startsReboot e.1 = true) : Entered .rebooting history := by
  obtain ⟨later, earlier, rfl⟩ := List.append_of_mem he
  have hlaw := h e earlier (List.suffix_append _ _)
  have hsuffix : e :: earlier <:+ later ++ e :: earlier := List.suffix_append _ _
  obtain ⟨c, a⟩ := e
  cases c with
  | enter s =>
    cases s with
    | rebooting => exact he
    | _ => cases hreboot
  | spawn argv => exact hsuffix.mem (.tail _ (hlaw.2.2 hreboot))
  | sysrq => exact hsuffix.mem (.tail _ hlaw)
  | _ => cases hreboot

theorem KeptLaw.confirming (h : KeptLaw coordinator deadline slot history) (he : e ∈ history)
    (hconfirm : startsConfirmation coordinator e.1 = true) : Entered .confirming history := by
  obtain ⟨later, earlier, rfl⟩ := List.append_of_mem he
  have hlaw := h e earlier (List.suffix_append _ _)
  have hsuffix : e :: earlier <:+ later ++ e :: earlier := List.suffix_append _ _
  obtain ⟨c, a⟩ := e
  cases c with
  | enter s =>
    cases s with
    | confirming => exact he
    | _ => cases hconfirm
  | spawn argv => exact hsuffix.mem (.tail _ (hlaw.1 hconfirm).2.2)
  | _ => cases hconfirm

end Apart

end Epilykos.BootHealth
