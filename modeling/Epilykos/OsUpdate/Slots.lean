import Epilykos.Lib.Parties
import Epilykos.OsUpdate.Provenance
import Epilykos.OsUpdate.Refinement

/-!
The loader starts no slot but of a trusted image, whatever runs beside what. Requests, the
supervisor and the confirmation come and go beside one worker, and the RAUC service takes up
installs, marks, writes, ends and dies as it likes. Every program may be cut at any call.

Of RAUC: an install marks the other slot bad before it writes it and activates nothing; what the
service answers about its operation, it answers after every install that was asked for before.
One program at a time is assumed of the worker, Restart and reconcile_boot: Restart refuses while
the worker is active, and reconcile_boot runs before the box serves requests.
-/

namespace Epilykos.OsUpdate

open Program World

variable {O : Oracles} {g : Origin}

/-! ### The RAUC service -/

/-- Installs asked for and not taken up yet, and whether the running one has marked its slot. -/
structure Installer where
  asked : List JobId
  marked : Bool

abbrev Machine := World × Installer

/-- The slot RAUC installs into. -/
def World.spare (w : World) : Slot := w.booted.other

/-- What the service does by itself. -/
inductive RaucStep : Machine → Machine → Prop
  | takes {w : World} {i : Installer} {id : JobId} {rest : List JobId} (hasked : i.asked = id :: rest)
    (hidle : w.rauc.operation = .idle) :
    RaucStep (w, i) ({ w with rauc := { w.rauc with operation := .installing, lastError := "" } },
      { asked := rest, marked := false })
  | refuses {w : World} {i : Installer} {id : JobId} {rest : List JobId}
    (hasked : i.asked = id :: rest) : RaucStep (w, i) (w, { i with asked := rest })
  | marks {w : World} {i : Installer} (hruns : w.rauc.operation = .installing) :
    RaucStep (w, i) ({ w with env := w.env.setLeft w.spare 0 }, { i with marked := true })
  | writes {w : World} {i : Installer} (hruns : w.rauc.operation = .installing)
    (hmarked : i.marked = true) (written : SlotState) :
    RaucStep (w, i) (w.setSlot w.spare fun _ => written, i)
  | ends {w : World} {i : Installer} (lastError : String) :
    RaucStep (w, i) ({ w with rauc := { w.rauc with operation := .idle, lastError } },
      { i with marked := false })
  | restarts {w : World} {i : Installer} (owner : Option String) (invocation : String)
    (asked : List JobId) (hasked : asked = i.asked ∨ asked = []) :
    RaucStep (w, i) ({ w with rauc := { owner, invocation, operation := .idle, lastError := "" } },
      { asked, marked := false })

/-- Answers about an operation that has come to its end. -/
def HostCall.settled : (c : HostCall) → Ans c → Prop
  | .raucOperation, x => ∃ out, x = .answered out
  | .raucWait, x => x = true
  | _, _ => False

/-- What a call may come to beside the service. -/
structure RaucOutcome (O : Oracles) (x : Machine) (c : HostCall) (a : Ans c) (y : Machine) :
    Prop where
  world : Outcome O x.1 c a y.1
  asks : y.2 = x.2 ∨ ∃ id, c = .raucInstall id ∧ y.2 = { x.2 with asked := x.2.asked ++ [id] }
  settled : c.settled a → x.2.asked = []

/-- Neither an install nor one on its way. -/
structure Quiet (x : Machine) : Prop where
  asked : x.2.asked = []
  operation : x.1.rauc.operation = .idle

/-- The box besides: DATA may be lost, the rest of it and the world outside change. -/
structure Elsewhere (x y : Machine) : Prop where
  env : y.1.env = x.1.env
  booted : y.1.booted = x.1.booted
  rootPem : y.1.rootPem = x.1.rootPem
  slots : y.1.slots = x.1.slots
  rauc : y.1.rauc = x.1.rauc
  installer : y.2 = x.2
  journal : y.1.journal = x.1.journal ∨ y.1.journal = none

/-- The power was cut, or the box restarts: the loader starts a slot, whose image has its own root
key, and RAUC has nothing to do. -/
structure Restarts (g : Origin) (x y : Machine) : Prop where
  boots : ∃ s, Boots x.1 s y.1
  rootPem : y.1.rootPem = g.rootOf (y.1.slots y.1.booted).content
  operation : y.1.rauc.operation = .idle
  installer : y.2 = { asked := [], marked := false }

/-! ### What all of them keep -/

/-- No restart begins from the record on DATA. -/
def World.Unarmed (w : World) : Prop := ∀ job, w.journal = some job → job.Unarmed

/-- What can start is trusted, RAUC writes only what cannot start, and where a restart may begin
RAUC has nothing to do. -/
structure Kept (O : Oracles) (g : Origin) (x : Machine) : Prop where
  root : x.1.rootPem = g.rootOf (x.1.slots x.1.booted).content
  running : Trusted O g (x.1.slots x.1.booted).content
  bootable : ∀ s, x.1.env.left s ≠ 0 → Trusted O g (x.1.slots s).content
  writing : x.1.rauc.operation = .installing → x.2.marked = true → x.1.env.left x.1.spare = 0
  journal : ∀ job, x.1.journal = some job → job.Backed O g
  armed : ∀ job, x.1.journal = some job → ¬ job.Unarmed → Quiet x

/-- What the worker relies on. -/
structure Steady (x y : Machine) : Prop where
  quiet : Quiet x → Quiet y
  content : Quiet x → ∀ s, (y.1.slots s).content = (x.1.slots s).content
  unarmed : x.1.Unarmed → y.1.Unarmed

theorem Steady.refl (x : Machine) : Steady x x := ⟨id, fun _ _ => rfl, id⟩

theorem Steady.trans {x y z : Machine} (h : Steady x y) (h' : Steady y z) : Steady x z := by
  refine ⟨fun hx => h'.quiet (h.quiet hx), fun hx s => ?_, fun hx => h'.unarmed (h.unarmed hx)⟩
  exact (h'.content (h.quiet hx) s).trans (h.content hx s)

variable {x y : Machine}

theorem World.spare_ne (w : World) : w.spare ≠ w.booted := by
  unfold World.spare
  cases w.booted <;> decide

theorem Kept.armed_or (h : Kept O g x) : Quiet x ∨ x.1.Unarmed := by
  by_cases hquiet : Quiet x
  · exact Or.inl hquiet
  · exact Or.inr fun job hjob => not_not.mp fun harmed => hquiet (h.armed job hjob harmed)

/-- While RAUC is busy no restart can begin. -/
theorem Kept.armed_busy (hx : Kept O g x) (hbusy : ¬ Quiet x) (hjournal : y.1.journal = x.1.journal) :
    ∀ job, y.1.journal = some job → ¬ job.Unarmed → Quiet y :=
  fun job hjob harmed => (harmed (hx.armed_or.resolve_left hbusy job (hjournal ▸ hjob))).elim

theorem Steady.busy (hbusy : ¬ Quiet x) (hjournal : y.1.journal = x.1.journal) : Steady x y :=
  ⟨fun hq => (hbusy hq).elim, fun hq => (hbusy hq).elim, fun hu job hjob => hu job (hjournal ▸ hjob)⟩

/-- RAUC writes only the slot it has marked. -/
theorem RaucStep.kept (h : RaucStep x y) (hx : Kept O g x) : Kept O g y ∧ Steady x y := by
  have hidle : Operation.idle ≠ .installing := by decide
  cases h with
  | @takes w i id rest hasked _ =>
    have hbusy : ¬ Quiet (w, i) := fun hq => by cases hasked.symm.trans hq.asked
    exact ⟨⟨hx.root, hx.running, hx.bootable, fun _ h => (Bool.false_ne_true h).elim, hx.journal,
      hx.armed_busy hbusy rfl⟩, .busy hbusy rfl⟩
  | @refuses w i id rest hasked =>
    have hbusy : ¬ Quiet (w, i) := fun hq => by cases hasked.symm.trans hq.asked
    exact ⟨⟨hx.root, hx.running, hx.bootable, hx.writing, hx.journal, hx.armed_busy hbusy rfl⟩, .busy hbusy rfl⟩
  | @marks w i hruns =>
    have hbusy : ¬ Quiet (w, i) := fun hq => by cases hruns.symm.trans hq.operation
    refine ⟨⟨hx.root, hx.running, fun s hs => ?_, fun _ _ => ?_, hx.journal, hx.armed_busy hbusy rfl⟩, .busy hbusy rfl⟩
    · by_cases hspare : s = w.spare
      · simp [Env.setLeft, hspare] at hs
      · refine hx.bootable s ?_
        simpa [Env.setLeft, hspare] using hs
    · simp [Env.setLeft, World.spare]
  | @writes w i hruns hmarked written =>
    have hbusy : ¬ Quiet (w, i) := fun hq => by cases hruns.symm.trans hq.operation
    have hleft : w.env.left w.spare = 0 := hx.writing hruns hmarked
    have hother : ∀ s, s ≠ w.spare →
        ((w.setSlot w.spare fun _ => written).slots s).content = (w.slots s).content := by
      intro s hs
      simp [setSlot, hs]
    have hbooted := hother w.booted (World.spare_ne w).symm
    refine ⟨⟨?_, ?_, fun s hs => ?_, hx.writing, hx.journal, hx.armed_busy hbusy rfl⟩, .busy hbusy rfl⟩
    · exact hx.root.trans (congrArg g.rootOf hbooted.symm)
    · exact hbooted.symm ▸ hx.running
    · have hs' : s ≠ w.spare := by
        rintro rfl
        exact hs hleft
      exact (hother s hs').symm ▸ hx.bootable s hs
  | ends lastError =>
    refine ⟨⟨hx.root, hx.running, hx.bootable, fun h => (hidle h).elim, hx.journal, ?_⟩, ?_⟩
    · exact fun job hjob harmed => ⟨(hx.armed job hjob harmed).asked, rfl⟩
    · exact ⟨fun hq => ⟨hq.asked, rfl⟩, fun _ _ => rfl, id⟩
  | @restarts w i owner invocation asked hasked =>
    have hnone : i.asked = [] → asked = [] := fun h => hasked.elim (fun h' => h'.trans h) id
    refine ⟨⟨hx.root, hx.running, hx.bootable, fun h => (hidle h).elim, hx.journal, ?_⟩, ?_⟩
    · exact fun job hjob harmed => ⟨hnone (hx.armed job hjob harmed).asked, rfl⟩
    · exact ⟨fun hq => ⟨hnone hq.asked, rfl⟩, fun _ _ => rfl, id⟩

theorem Elsewhere.kept (h : Elsewhere x y) (hx : Kept O g x) : Kept O g y ∧ Steady x y := by
  have hquiet : Quiet x → Quiet y := fun hq => ⟨h.installer ▸ hq.asked, h.rauc ▸ hq.operation⟩
  have hjournal : ∀ job, y.1.journal = some job → x.1.journal = some job := by
    intro job hjob
    obtain hsame | hnone := h.journal
    · exact hsame ▸ hjob
    · rw [hnone] at hjob
      cases hjob
  refine ⟨⟨?_, ?_, fun s hs => ?_, ?_, fun job hjob => hx.journal job (hjournal job hjob), ?_⟩, ?_⟩
  · rw [h.rootPem, h.slots, h.booted]
    exact hx.root
  · rw [h.slots, h.booted]
    exact hx.running
  · rw [h.slots]
    rw [h.env] at hs
    exact hx.bootable s hs
  · unfold World.spare
    rw [h.env, h.rauc, h.installer, h.booted]
    exact hx.writing
  · exact fun job hjob harmed => hquiet (hx.armed job (hjournal job hjob) harmed)
  · exact ⟨hquiet, fun _ s => by rw [h.slots], fun hu job hjob => hu job (hjournal job hjob)⟩

theorem Restarts.kept (h : Restarts g x y) (hx : Kept O g x) : Kept O g y := by
  obtain ⟨s, hboots⟩ := h.boots
  have hslots : y.1.slots = x.1.slots := hboots.rest.slots
  have hbooted : y.1.booted = s := hboots.rest.booted
  have htrusted := hx.bootable s (Env.select_left hboots.select)
  have hquiet : Quiet y := ⟨by rw [h.installer], h.operation⟩
  refine ⟨h.rootPem, ?_, fun t ht => ?_, fun hruns => ?_, fun job hjob => ?_, fun _ _ _ => hquiet⟩
  · rw [hslots, hbooted]
    exact htrusted
  · rw [hslots]
    rw [hboots.rest.env, Env.launch_left] at ht
    refine hx.bootable t fun hzero => ht ?_
    by_cases hts : t = s
    · subst hts
      simp [hzero]
    · simp [hts, hzero]
  · rw [h.operation] at hruns
    cases hruns
  · exact hx.journal job (hboots.rest.journal ▸ hjob)

/-! ### Calls -/

section Calls

variable {c : HostCall} {a : Ans c} {arms installs : Prop}

theorem effect_content (w : World) (c : HostCall) (s : Slot) :
    ((w.effect c).slots s).content = (w.slots s).content := by
  cases c with
  | markActive t => by_cases hs : s = t <;> simp [effect, World.activate, setSlot, hs]
  | markActiveBooted => by_cases hs : s = w.booted <;> simp [effect, World.activate, setSlot, hs]
  | verified id t => by_cases hs : s = t <;> simp [effect, setSlot, hs]
  | startWorker =>
    unfold effect
    split_ifs <;> rfl
  | _ => rfl

theorem effect_rauc (w : World) (c : HostCall) : (w.effect c).rauc = w.rauc := by
  cases c <;> first | rfl | skip
  unfold effect
  split_ifs <;> rfl

theorem effect_rootPem (w : World) (c : HostCall) : (w.effect c).rootPem = w.rootPem := by
  cases c <;> first | rfl | skip
  unfold effect
  split_ifs <;> rfl

/-- Besides RAUC's mark for an activation, a call lets no slot start but the running one. -/
theorem effect_left {w : World} (hc : c.keeps O g arms installs) {s : Slot}
    (hs : (w.effect c).env.left s ≠ 0) : w.env.left s ≠ 0 ∨ s = w.booted := by
  by_cases hkeeps : c.keepsEnv = true
  · have henv := congrArg Shared.env (effect_shared w hkeeps)
    exact Or.inl (by rwa [show (w.effect c).env = w.env from henv] at hs)
  · by_cases hbooted : s = w.booted
    · exact Or.inr hbooted
    refine Or.inl fun hzero => hs ?_
    cases c with
    | setEnv batch => rw [effect, Env.write_left, hzero]
    | markBad t => by_cases hst : s = t <;> simp [effect, Env.setLeft, hst, hzero]
    | markActive t => exact hc.elim
    | markActiveBooted => simp [effect, World.activate, Env.setLeft, hbooted, hzero]
    | markGoodBooted => simp [effect, Env.setLeft, hbooted, hzero]
    | _ => exact (hkeeps rfl).elim

/-- In the state it is made in, the call keeps what all of them keep. -/
structure Able (O : Oracles) (g : Origin) (arms installs : Prop) (x : Machine) : Prop where
  kept : Kept O g x
  quiet : arms → Quiet x
  unarmed : installs → x.1.Unarmed

theorem RaucOutcome.journal (h : RaucOutcome O x c a y) {job : Job} (hjob : y.1.journal = some job) :
    x.1.journal = some job ∨ c = .writeJournal job := by
  obtain heffect | ⟨hsame, -⟩ := h.world.2
  · rw [heffect] at hjob
    by_cases hkeeps : c.keepsJournal = true
    · exact Or.inl ((effect_journal x.1 hkeeps).symm.trans hjob)
    · cases c with
      | writeJournal j => exact Or.inr (congrArg HostCall.writeJournal (Option.some.inj hjob))
      | removeJournal => cases hjob
      | _ => exact (hkeeps rfl).elim
  · exact Or.inl (hsame ▸ hjob)

theorem RaucOutcome.rauc (h : RaucOutcome O x c a y) : y.1.rauc = x.1.rauc := by
  obtain heffect | ⟨hsame, -⟩ := h.world.2
  · rw [heffect, effect_rauc]
  · rw [hsame]

theorem RaucOutcome.content (h : RaucOutcome O x c a y) (s : Slot) :
    (y.1.slots s).content = (x.1.slots s).content := by
  obtain heffect | ⟨hsame, -⟩ := h.world.2
  · rw [heffect, effect_content]
  · rw [hsame]

theorem RaucOutcome.rootPem (h : RaucOutcome O x c a y) : y.1.rootPem = x.1.rootPem := by
  obtain heffect | ⟨hsame, -⟩ := h.world.2
  · rw [heffect, effect_rootPem]
  · rw [hsame]

theorem RaucOutcome.quiet (h : RaucOutcome O x c a y) (hc : ∀ id, c ≠ .raucInstall id)
    (hx : Quiet x) : Quiet y := by
  refine ⟨?_, h.rauc ▸ hx.operation⟩
  obtain hsame | ⟨id, hid, -⟩ := h.asks
  · exact hsame ▸ hx.asked
  · exact (hc id hid).elim

/-- The same slots, of which at most trusted ones have become startable, and the one RAUC writes
only where RAUC has nothing to do. -/
theorem Kept.moved (hx : Kept O g x) (h : RaucOutcome O x c a y)
    (hleft : ∀ s, y.1.env.left s ≠ 0 → x.1.env.left s ≠ 0 ∨ Trusted O g (x.1.slots s).content)
    (hspare : ¬ Quiet x → y.1.env.left x.1.spare ≠ 0 → x.1.env.left x.1.spare ≠ 0)
    (hjournal : ∀ job, y.1.journal = some job → job.Backed O g)
    (harmed : ∀ job, y.1.journal = some job → ¬ job.Unarmed → Quiet y) : Kept O g y := by
  have hbooted : y.1.booted = x.1.booted := h.world.booted
  refine ⟨?_, ?_, fun s hs => ?_, fun hruns hmarked => ?_, hjournal, harmed⟩
  · rw [h.rootPem, h.content, hbooted]
    exact hx.root
  · rw [h.content, hbooted]
    exact hx.running
  · rw [h.content]
    exact (hleft s hs).elim (hx.bootable s) id
  · have hsame : y.2.marked = x.2.marked := by
      obtain hsame | ⟨_, _, hsame⟩ := h.asks <;> rw [hsame]
    have hruns' : x.1.rauc.operation = .installing := h.rauc ▸ hruns
    have hzero := hx.writing hruns' (hsame ▸ hmarked)
    rw [show y.1.spare = x.1.spare from congrArg Slot.other hbooted]
    by_contra hne
    exact hspare (fun hq => by cases hruns'.symm.trans hq.operation) hne hzero

theorem Able.outcome (hx : Able O g arms installs x) (hone : ¬ (arms ∧ installs))
    (hc : c.keeps O g arms installs) (h : RaucOutcome O x c a y) :
    Able O g arms installs y ∧ (¬ arms → ¬ installs → Steady x y) := by
  have hquiet : ¬ installs → Quiet x → Quiet y := fun hno => h.quiet fun id hid => by
    subst hid
    exact hno hc
  have hunarmed : ¬ arms → x.1.Unarmed → y.1.Unarmed := by
    intro hno hu job hjob
    obtain hsame | rfl := h.journal hjob
    · exact hu job hsame
    · exact hc.2.resolve_left hno
  have hkept : Kept O g y := by
    have hleft : ∀ s, y.1.env.left s ≠ 0 → x.1.env.left s ≠ 0 ∨ s = x.1.booted := by
      intro s hs
      obtain heffect | ⟨hsame, -⟩ := h.world.2
      · exact effect_left hc (heffect ▸ hs)
      · exact Or.inl (hsame ▸ hs)
    refine hx.kept.moved h (fun s hs => (hleft s hs).imp_right fun (hbooted : s = _) =>
      hbooted ▸ hx.kept.running)
      (fun _ hs => (hleft _ hs).resolve_right (World.spare_ne x.1)) (fun job hjob => ?_)
      fun job hjob harmed => ?_
    · obtain hsame | rfl := h.journal hjob
      · exact hx.kept.journal job hsame
      · exact hc.1
    · by_cases harms : arms
      · exact hquiet (fun hinstalls => hone ⟨harms, hinstalls⟩) (hx.quiet harms)
      · obtain hsame | rfl := h.journal hjob
        · refine hquiet (fun hinstalls => harmed (hx.unarmed hinstalls job hsame)) ?_
          exact hx.kept.armed job hsame harmed
        · exact (harmed (hc.2.resolve_left harms)).elim
  refine ⟨⟨hkept, fun harms => ?_, fun hinstalls => ?_⟩, fun harms hinstalls => ?_⟩
  · exact hquiet (fun hinstalls => hone ⟨harms, hinstalls⟩) (hx.quiet harms)
  · exact hunarmed (fun harms => hone ⟨harms, hinstalls⟩) (hx.unarmed hinstalls)
  · exact ⟨hquiet hinstalls, fun _ s => h.content s, hunarmed harms⟩

theorem Able.told (hx : Kept O g x) (h : RaucOutcome O x c a y) : c.toldBacked O g a := by
  have htruth := h.world.1
  cases c with
  | readJournal =>
    intro job ha
    obtain hbad | hread := htruth
    · cases hbad.symm.trans ha
    · rw [hread] at ha
      cases hj : x.1.journal with
      | none => simp [journalRead, hj] at ha
      | some j =>
        obtain rfl : j = job := by simpa [journalRead, hj] using ha
        exact hx.journal j hj
  | rootPem =>
    intro root ha
    obtain hnone | hsome := htruth
    · cases hnone.symm.trans ha
    · obtain rfl := Option.some.inj (hsome.symm.trans ha)
      exact ⟨_, hx.running, hx.root.symm⟩
  | openssl q => exact htruth
  | cms sig cas => exact htruth
  | _ => trivial

end Calls

/-! ### The parties -/

/-- One of the worker, Restart and reconcile_boot, or one of the other programs. -/
inductive Role
  | main
  | side
  deriving DecidableEq

def slotsContract (O : Oracles) (g : Origin) : Contract Role Machine where
  inv := Kept O g
  rely
    | .main => fun x y => Kept O g x → Kept O g y ∧ Steady x y
    | .side => fun x y => Kept O g x → Kept O g y
  guar
    | .main => fun _ y => Kept O g y
    | .side => fun x y => Kept O g y ∧ Steady x y

section Parties

variable {ε α β : Type} {arms installs : Prop} {job : Job}

theorem Able.moved (hx : Able O g arms installs x)
    (h : Kept O g x → Kept O g y ∧ Steady x y) : Able O g arms installs y := by
  obtain ⟨hkept, hsteady⟩ := h hx.kept
  exact ⟨hkept, fun harms => hsteady.quiet (hx.quiet harms),
    fun hinstalls => hsteady.unarmed (hx.unarmed hinstalls)⟩

/-- A program that leaves restarts and installs alone may run beside all others. -/
theorem side_keeps {p : OsProg α} {P : α → Prop} (hp : Bears O g False False p P)
    (hx : Kept O g x) : (slotsContract O g).Keeps (RaucOutcome O) ⟨.side, p⟩ x := by
  have hable : ∀ {t : Machine}, Kept O g t → Able O g False False t :=
    fun ht => ⟨ht, False.elim, False.elim⟩
  refine (Local.safe (I := Kept O g) hp ?_ ?_ ?_ hx).mono (fun _ _ h => h.2) fun _ _ h => h.2
  · exact fun _ _ h ht => h ht
  · exact fun t c a t' ht ho => Able.told ht ho
  · intro t c hc ht
    refine ⟨⟨ht, fun a t' ho => ?_⟩, fun a t' ho => ?_⟩
    · obtain ⟨hnext, hsteady⟩ := (hable ht).outcome (fun h => h.1) hc ho
      exact ⟨hnext.kept, hsteady id id⟩
    · exact ((hable ht).outcome (fun h => h.1) hc ho).1.kept

/-- A program that relies on the others to leave RAUC and the records at rest. -/
abbrev Mains (O : Oracles) (g : Origin) (p : Prog Host ε α) (Q : α → Machine → Prop)
    (E : ε → Machine → Prop) (x : Machine) : Prop :=
  Safe (F := Host) (fun s t => Kept O g s → Kept O g t ∧ Steady s t) (RaucOutcome O)
    (fun t c => Kept O g t ∧ ∀ a t', RaucOutcome O t c a t' → Kept O g t') p
    (fun a t => Q a t ∧ Kept O g t) (fun e t => E e t ∧ Kept O g t) x

theorem main_keeps {p : OsProg α} (hp : Mains O g p (fun _ _ => True) (fun _ _ => True) x) :
    (slotsContract O g).Keeps (RaucOutcome O) ⟨.main, p⟩ x :=
  hp.mono (fun _ _ h => h.2) fun _ _ h => h.2

theorem mains_bind {Q : α → Machine → Prop} {R : β → Machine → Prop} {E : ε → Machine → Prop}
    {p : Prog Host ε α} {f : α → Prog Host ε β} (hp : Mains O g p Q E x)
    (hf : ∀ a y, Q a y → Kept O g y → Mains O g (f a) R E y) : Mains O g (p >>= f) R E x :=
  Safe.bind (hp.mono (fun a y h => hf a y h.1 h.2) fun _ _ h => h)

/-- What such a program was able to do, it stays able to do. -/
theorem mains_of_local {p : Prog Host ε α} {P : α → Prop} {E : ε → Prop}
    (hp : Local (F := Host) (HostCall.toldBacked O g) (HostCall.keeps O g arms installs) p P E)
    (hone : ¬ (arms ∧ installs)) (hx : Able O g arms installs x) :
    Mains O g p (fun a y => P a ∧ Able O g arms installs y)
      (fun e y => E e ∧ Able O g arms installs y) x := by
  refine (Local.safe (I := Able O g arms installs) hp ?_ ?_ ?_ hx).mono
    (fun _ _ h => ⟨h, h.2.kept⟩) fun _ _ h => ⟨h, h.2.kept⟩
  · exact fun _ _ h ht => ht.moved h
  · exact fun t c a t' ht ho => Able.told ht.kept ho
  · intro t c hc ht
    exact ⟨⟨ht.kept, fun a t' ho => (ht.outcome hone hc ho).1.kept⟩,
      fun a t' ho => (ht.outcome hone hc ho).1⟩

theorem able_any (hx : Kept O g x) : Able O g False False x := ⟨hx, False.elim, False.elim⟩

/-- A program with nothing to be able to. -/
theorem mains_of_bears {p : OsProg α} {P : α → Prop} (hp : Bears O g False False p P)
    (hx : Kept O g x) : Mains O g p (fun a _ => P a) (fun _ _ => True) x :=
  (mains_of_local hp (fun h => h.1) (able_any hx)).mono (fun _ _ h => ⟨h.1.1, h.2⟩)
    fun _ _ h => ⟨trivial, h.2⟩

/-- One step of a program that keeps an ability. -/
theorem able_bind {P : α → Prop} {R : β → Machine → Prop} {E : ε → Machine → Prop} {E' : ε → Prop}
    {p : Prog Host ε α} {f : α → Prog Host ε β}
    (hp : Local (F := Host) (HostCall.toldBacked O g) (HostCall.keeps O g arms installs) p P E')
    (hone : ¬ (arms ∧ installs)) (hx : Able O g arms installs x)
    (hE : ∀ e y, E' e → Able O g arms installs y → E e y)
    (hf : ∀ a y, P a → Able O g arms installs y → Mains O g (f a) R E y) :
    Mains O g (p >>= f) R E x :=
  Safe.bind ((mains_of_local hp hone hx).mono (fun a y h => hf a y h.1.1 h.1.2)
    fun e y h => ⟨hE e y h.1.1 h.1.2, h.2⟩)

end Parties

end Epilykos.OsUpdate
