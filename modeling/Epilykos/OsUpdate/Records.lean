import Epilykos.OsUpdate.Accepted

/-!
What is true of the record of every job. A property that a new job has, that a rebuilt one has
and that the stages of a job keep is a property of every record the programs write, as long as
they are told of such records. Which calls they make besides is left open.
-/

namespace Epilykos.OsUpdate

open Program World

variable {O : Oracles}

/-- Calls besides records, batches, installs and the marks that let a slot start. -/
def HostCall.common : HostCall → Prop
  | .writeJournal _ | .setEnv _ | .raucInstall _ => False
  | .markActive _ | .markActiveBooted | .markGoodBooted => False
  | _ => True

/-- The record of the same job at another stage; what it is about stands. -/
def Job.Stage (job j : Job) : Prop :=
  ∃ state progress error validator rauc, j = { job with state, progress, error, validator, rauc }

theorem Job.Stage.step (job : Job) (phase : JobState) : job.Stage (job.step phase) :=
  ⟨_, _, _, _, _, rfl⟩

theorem Job.Stage.finished (job : Job) (state : JobState) (error : Option String) :
    job.Stage (job.finished state error) := ⟨_, _, _, _, _, rfl⟩

/-- No restart begins from the record. -/
structure Job.Unarmed (job : Job) : Prop where
  ready : job.state ≠ .ready
  restarting : job.state ≠ .restarting

theorem Job.Unarmed.step {job : Job} {phase : JobState} (hready : phase ≠ .ready)
    (hrestarting : phase ≠ .restarting) : (job.step phase).Unarmed := ⟨hready, hrestarting⟩

/-- A property of records that the programs keep, where the answers are of the kind `A` and the
calls of the kind `K`. Where a record that a restart begins from may be written is left open. -/
structure Records (O : Oracles) (A : (c : HostCall) → Ans c → Prop) (K : HostCall → Prop)
    (R : Job → Prop) : Prop where
  told : ∀ job, A .readJournal (.job job) → R job
  common : ∀ {c}, c.common → K c
  clear : K (.setEnv clearBatch)
  save : ∀ {job}, R job → job.Unarmed → K (.writeJournal job)
  stage : ∀ {job j}, R job → job.Stage j → R j
  admitted : ∀ {id requestId entry slot files plat policy key},
    readEntry O files.entry plat policy = .ok (entry, key) →
      R (newJob id requestId entry slot files)
  rebuilt : ∀ env pending sequence, R (rebuiltJob env pending sequence)

/-- The records may be written whatever their state. -/
abbrev Anytime (K : HostCall → Prop) (R : Job → Prop) : Prop := ∀ job, R job → K (.writeJournal job)

namespace Records

variable {A : (c : HostCall) → Ans c → Prop} {K : HostCall → Prop} {R : Job → Prop}
  {α β : Type} {job : Job}

theorem looks (h : Records O A K R) {p : OsProg α} (hp : p.Makes (F := Host) HostCall.looks) :
    p.Makes (F := Host) K := by
  refine hp.mono fun c hc => h.common ?_
  obtain hc | ⟨id, s, rfl⟩ := hc
  · cases c <;> trivial
  · trivial

/-! ### Programs of such calls -/

/-- The program keeps the property. -/
abbrev Runs (_ : Records O A K R) (p : OsProg α) (P : α → Prop) : Prop :=
  Local (F := Host) A K p P fun _ => True

theorem bind (h : Records O A K R) {P : α → Prop} {Q : β → Prop} {p : OsProg α} {f : α → OsProg β}
    (hp : h.Runs p P) (hf : ∀ a, P a → h.Runs (f a) Q) : h.Runs (p >>= f) Q :=
  local_bind (hp.mono (fun a _ => hf a) fun _ _ h => h)

theorem makes (h : Records O A K R) {p : OsProg α} (hp : p.Makes (F := Host) K) :
    h.Runs p fun _ => True := hp.loc fun _ => trivial

theorem gives (h : Records O A K R) {P : α → Prop} {p : OsProg α} (hp : p.Makes (F := Host) K)
    (hgives : p.Gives P) : h.Runs p P :=
  ((h.makes hp).and hgives.safe).mono (fun _ _ h => h.2) fun _ _ _ => trivial

theorem ask (h : Records O A K R) {c : HostCall} (hc : c.common) :
    h.Runs (OsUpdate.ask c) fun _ => True := h.makes (makes_ask (h.common hc) fun _ => trivial)

theorem journal (h : Records O A K R) :
    h.Runs OsUpdate.journal fun found => ∀ job, found = some job → R job := by
  refine local_bind (local_call (h.common trivial) fun x hx => ?_)
  cases x with
  | absent =>
    intro job hjob
    cases hjob
  | unreadable => trivial
  | job j =>
    intro job hjob
    obtain rfl := Option.some.inj hjob
    exact h.told _ hx

theorem finish (h : Records O A K R) (hjob : R job) {state : JobState} {error : Option String}
    (hready : state ≠ .ready) (hrestarting : state ≠ .restarting) :
    (OsUpdate.finish job state error).Makes (F := Host) K :=
  finish_makes (h.save (h.stage hjob (.finished _ _ _)) ⟨hready, hrestarting⟩) (h.common trivial)
    (h.common trivial)

theorem clearPending (h : Records O A K R) : OsUpdate.clearPending.Makes (F := Host) K :=
  setEnv_makes h.clear (h.common trivial)

theorem targetBad (h : Records O A K R) (target : Option Slot) :
    (OsUpdate.targetBad target).Makes (F := Host) K :=
  targetBad_makes (fun _ _ => h.common trivial) (h.common trivial)

theorem setGuard (h : Records O A K R) (state : GuardState) (id : Option JobId) :
    (OsUpdate.setGuard state id).Makes (F := Host) K := setGuard_makes (h.common trivial)

theorem backToReady (h : Records O A K R) (hany : Anytime K R) (hjob : R job) (error : String) :
    (OsUpdate.backToReady job error).Makes (F := Host) K := by
  refine .bind (.tryCatch ?_ fun e => ?_) fun safe => ?_
  · exact .bind (h.targetBad _) fun safe => .bind (.when (.bind h.clearPending fun _ => trivial))
      fun _ => trivial
  · cases e <;> trivial
  · split_ifs
    · exact .bind (save_makes (hany _ (h.stage hjob ⟨_, _, _, _, _, rfl⟩))) fun _ =>
        .bind (h.setGuard _ _) fun _ => trivial
    · exact .bind (save_makes (hany _ (h.stage hjob ⟨_, _, _, _, _, rfl⟩))) fun _ =>
        .bind (h.setGuard _ _) fun _ => trivial

theorem ensureWorker (h : Records O A K R) (job : Option Job) :
    (OsUpdate.ensureWorker job).Makes (F := Host) K := by
  cases job with
  | none => trivial
  | some job =>
    unfold OsUpdate.ensureWorker
    dsimp only
    split_ifs
    · exact .bind (workerActive_makes (h.common trivial)) fun _ =>
        (startWorker_makes (h.common trivial)).when
    · trivial

theorem view (h : Records O A K R) (resume : Bool) :
    (OsUpdate.view resume).Makes (F := Host) K := by
  refine .bind (sentenceOr_makes (h.looks platform_makes)) fun plat => ?_
  cases plat with
  | error msg => trivial
  | ok plat =>
    cases plat with
    | none => trivial
    | some plat =>
      refine .bind (.bind (makes_ask (h.common trivial) fun _ => trivial) fun _ => trivial)
        fun guard => .bind (sentenceOr_makes ?_) fun _ => trivial
      exact .bind (journal_makes (h.common trivial)) fun job => .bind (h.ensureWorker job).when
        fun _ => trivial

theorem bootedSlot (h : Records O A K R) : OsUpdate.bootedSlot.Makes (F := Host) K :=
  .bind (makes_ask (h.common trivial) fun _ => trivial) fun x => by cases x <;> trivial

theorem healthBlockers (h : Records O A K R) (slot : Slot) (env : Env) :
    (OsUpdate.healthBlockers slot env).Makes (F := Host) K :=
  .bind (makes_ask (h.common trivial) fun _ => trivial) fun _ => trivial

/-! ### Requests -/

theorem admitEntry (h : Records O A K R) (plat : Platform) (files : Files) (seq : ℤ)
    (sha256 : Digest) : h.Runs (OsUpdate.admitEntry O plat files seq sha256) fun entry =>
      ∃ plat policy key, readEntry O files.entry plat policy = .ok (entry, key) := by
  refine h.bind (h.makes (h.looks (currentState_makes _))) fun state _ => ?_
  have hgives : (verifyRelease O files plat state).Gives fun released =>
      ∃ plat policy key, readEntry O files.entry plat policy = .ok (released.1, key) := by
    refine (gives_true _).bind fun policy _ => (verifyOsRelease_gives _ _ _ _).bind ?_
    rintro entry ⟨key, hentry⟩
    exact ⟨plat, policy, key, hentry⟩
  refine h.bind (h.gives (h.looks (verifyRelease_makes _ _ _)) hgives) ?_
  rintro ⟨entry, policy, newer⟩ hentry
  refine h.bind (h.makes (makes_raiseIf _)) fun _ _ => ?_
  exact h.bind (h.makes (makes_raiseIf _)) fun _ _ => hentry

theorem admission (h : Records O A K R) (plat : Platform) (seq : ℤ) (sha256 : Digest)
    (requestId : String) : h.Runs (OsUpdate.admission O plat seq sha256 requestId) fun _ => True := by
  refine h.bind (P := fun _ => True) ?_ fun guard _ => ?_
  · exact h.bind (h.ask (c := .readGuard) trivial) fun _ _ => trivial
  refine h.bind (h.makes (makes_raiseIf _)) fun _ _ => ?_
  refine h.bind (h.makes (.bind (makes_ask (h.common trivial) fun _ => trivial) fun x => ?_))
    fun files _ => ?_
  · cases x <;> trivial
  refine h.bind (h.admitEntry plat files seq sha256) fun entry hentry => ?_
  refine h.bind (h.makes h.bootedSlot) fun slot _ => ?_
  refine h.bind (h.makes (h.looks readEnv_makes)) fun env _ => ?_
  refine h.bind (h.makes (h.healthBlockers slot env)) fun health _ => ?_
  refine h.bind (h.makes (h.looks appBlockers_makes)) fun app _ => ?_
  refine h.bind (h.makes (makes_raiseIf _)) fun _ _ => ?_
  refine h.bind (h.makes (h.looks (storageAdmit_makes _))) fun _ _ => ?_
  refine h.bind (h.ask (c := .newId) trivial) fun id _ => ?_
  refine h.bind (h.ask (c := .removeCancel) trivial) fun x _ => ?_
  refine h.bind (h.makes (stored_makes x)) fun _ _ => ?_
  obtain ⟨plat', policy, key, hread⟩ := hentry
  refine h.bind (h.makes (save_makes (h.save (h.admitted hread) ⟨nofun, nofun⟩))) fun _ _ => ?_
  exact h.makes (startWorker_makes (h.common trivial))

theorem install (h : Records O A K R) (seq sha256 requestId : Json) :
    h.Runs (OsUpdate.install O seq sha256 requestId) fun _ => True := by
  unfold OsUpdate.install
  split
  · split_ifs
    · refine h.bind (h.makes (h.looks platform_makes)) fun plat _ => ?_
      cases plat with
      | none => trivial
      | some plat =>
        refine h.bind h.journal fun found _ => ?_
        cases found with
        | none => exact h.admission _ _ _ _
        | some job =>
          dsimp only
          split_ifs
          · exact h.bind (h.makes (makes_raiseIf _)) fun _ _ =>
              h.bind (h.makes (h.view true)) fun _ _ => trivial
          · exact h.admission _ _ _ _
          · trivial
    · trivial
  · trivial

theorem check (h : Records O A K R) : (OsUpdate.check O).Makes (F := Host) K := by
  refine .bind (h.looks platform_makes) fun plat => ?_
  cases plat with
  | none => exact .bind (h.view true) fun _ => trivial
  | some plat =>
    refine .bind (h.looks (currentState_makes _)) fun state => .bind ?_ fun files =>
      .bind (h.looks (verifyRelease_makes _ _ _)) fun released =>
      .bind (h.view true) fun shown => .bind ?_ fun newer => ?_
    · have hfetch : ∀ f, (fetch f).Makes (F := Host) K := fun f =>
        .bind (makes_ask (h.common trivial) fun _ => trivial) fun x => by cases x <;> trivial
      exact .bind (hfetch _) fun _ => .bind (hfetch _) fun _ => .bind (hfetch _) fun _ =>
        .bind (hfetch _) fun _ => trivial
    · refine .tryCatch (.bind (makes_raiseIf _) fun _ => trivial) fun e => ?_
      split_ifs <;> trivial
    · split_ifs
      · refine .bind (h.looks readEnv_makes) fun env => .bind h.bootedSlot fun slot =>
          .bind (h.healthBlockers _ _) fun _ => .bind (h.looks appBlockers_makes) fun _ =>
          .bind (.bind (makes_ask (h.common trivial) fun _ => trivial) fun x => ?_) fun _ =>
          .bind (layout_makes (h.common trivial)) fun _ =>
          .bind (makes_ask (h.common trivial) fun _ => trivial) fun x =>
          .bind (written_makes x) fun _ => trivial
        cases x <;> trivial
      · trivial

theorem restart (h : Records O A K R) (hany : Anytime K R) (id : JobId) :
    h.Runs (OsUpdate.restart id) fun _ => True := by
  refine h.bind h.journal fun found hfound => ?_
  cases found with
  | none => trivial
  | some job =>
    exact h.makes (.bind (makes_raiseIf _) fun _ => .bind (workerActive_makes (h.common trivial))
      fun _ => .bind (makes_raiseIf _) fun _ =>
      .bind (save_makes (hany _ (h.stage (hfound job rfl) ⟨_, _, _, _, _, rfl⟩))) fun _ =>
      startWorker_makes (h.common trivial))

theorem request (h : Records O A K R) (r : Request) (hrestart : ∀ id, r = .restart id → Anytime K R) :
    h.Runs (r.prog O) fun _ => True := by
  cases r with
  | install seq sha256 requestId => exact h.install _ _ _
  | cancel id =>
    refine h.bind h.journal fun found hfound => ?_
    cases found with
    | none => trivial
    | some job =>
      refine h.makes (.bind (makes_raiseIf _) fun _ => .bind (makes_raiseIf _) fun _ =>
        .bind (makes_ask (h.common trivial) fun _ => trivial) fun x => .bind (stored_makes x) fun _ =>
        .bind (workerActive_makes (h.common trivial)) fun active => ?_)
      split_ifs
      · trivial
      · exact h.finish (hfound job rfl) (by decide) (by decide)
  | dismiss id =>
    refine h.bind h.journal fun found _ => ?_
    cases found with
    | none => trivial
    | some job =>
      exact h.makes (.bind (makes_raiseIf _) fun _ => .bind (makes_ask (h.common trivial)
        fun _ => trivial) fun x => .bind (stored_makes x) fun _ => .bind (h.view true)
        fun _ => trivial)
  | restart id => exact h.restart (hrestart id rfl) id
  | discard id =>
    refine h.bind h.journal fun found hfound => ?_
    cases found with
    | none => trivial
    | some job =>
      exact h.makes (.bind (makes_raiseIf _) fun _ => .bind (workerActive_makes (h.common trivial))
        fun _ => .bind (makes_raiseIf _) fun _ => .bind (h.looks readEnv_makes) fun _ =>
        .bind (makes_raiseIf _) fun _ => .bind (h.targetBad _)
        fun _ => .bind (makes_raiseIf _) fun _ => h.finish (hfound job rfl) (by decide) (by decide))
  | check => exact h.makes (.bind h.check fun _ => trivial)
  | view => exact h.makes (.bind (h.view true) fun _ => trivial)

/-! ### The confirmation -/

theorem promoteApp (h : Records O A K R) : OsUpdate.promoteApp.Makes (F := Host) K := by
  have hask : ∀ {γ : Type} {c : HostCall} {f : Ans c → OsProg γ}, c.common →
      (∀ x, (f x).Makes (F := Host) K) → (OsUpdate.ask c >>= f).Makes (F := Host) K :=
    fun hc hf => .bind (makes_ask (h.common hc) fun _ => trivial) hf
  have hover : ∀ base same, (promoteOver base same).Makes (F := Host) K := by
    intro base same
    unfold promoteOver
    split_ifs
    · trivial
    · refine .bind ?_ fun _ => hask trivial fun _ => .bind (stored_makes _) fun _ =>
        hask trivial fun _ => hask trivial fun _ => .bind (stored_makes _) fun _ =>
        hask trivial fun _ => stored_makes _
      cases same with
      | none => trivial
      | some r => exact hask trivial fun _ => stored_makes _
  refine hask trivial fun base => ?_
  split_ifs
  · trivial
  · exact hask trivial fun _ => hover _ _

theorem rebuild (h : Records O A K R) {env : Env} {found : Option Job}
    (hfound : ∀ job, found = some job → R job) : h.Runs (OsUpdate.rebuild env found) R := by
  refine h.bind (h.makes (need_makes _)) fun pending _ => ?_
  cases hjob : found.filter fun job => job.id == pending with
  | some job => exact hfound job (Option.filter_eq_some_iff.mp hjob).1
  | none =>
    refine h.bind (h.makes (need_makes _)) fun sequence _ => ?_
    exact h.bind (h.makes (save_makes (h.save (h.rebuilt _ _ _) ⟨nofun, nofun⟩))) fun _ _ =>
      h.rebuilt _ _ _

theorem confirmJob (h : Records O A K R) (env : Env) (slot : Slot) :
    h.Runs (OsUpdate.confirmJob env slot) fun _ => True := by
  refine h.bind (h.makes (makes_raiseIf _)) fun _ _ => ?_
  refine h.bind (h.makes h.promoteApp) fun _ _ => ?_
  refine h.bind h.journal fun found hfound => ?_
  refine h.bind (h.rebuild hfound) fun job hjob => ?_
  exact h.makes (h.finish hjob (by decide) (by decide))

/-! ### Every boot -/

theorem reconcile (h : Records O A K R) : OsUpdate.reconcile.Makes (F := Host) K := by
  refine .bind (layout_makes (h.common trivial)) fun _ =>
    .bind (.tryCatch (journal_makes (h.common trivial)) fun e => ?_) fun found => ?_
  · exact .bind (h.setGuard _ _).when fun _ => trivial
  · cases found with
    | none => exact h.setGuard _ _
    | some job =>
      dsimp only
      split_ifs
      · exact h.setGuard _ _
      · split
        · exact h.setGuard _ _
        · exact h.setGuard _ _
        · exact .bind (h.setGuard _ _) fun _ => .bind (workerActive_makes (h.common trivial))
            fun _ => (startWorker_makes (h.common trivial)).when

theorem reconcileSettled (h : Records O A K R) {env : Env} {found : Option Job} {slot : Slot}
    (hfound : ∀ job, found = some job → R job)
    (hany : ∀ job, found = some job → job.state = .restarting → Anytime K R) :
    h.Runs (OsUpdate.reconcileSettled env found slot) fun _ => True := by
  unfold OsUpdate.reconcileSettled
  cases found with
  | none => exact h.makes (.bind h.reconcile fun _ => trivial)
  | some job =>
    have hjob := hfound job rfl
    dsimp only
    split
    · rename_i hstate
      exact h.makes (.bind (h.backToReady (hany job rfl hstate) hjob _) fun _ =>
        .bind (journal_makes (h.common trivial)) fun _ => .bind (need_makes _) fun _ => trivial)
    · split_ifs
      · exact h.makes (.bind (h.finish hjob (by decide) (by decide)) fun _ => trivial)
      · exact h.makes (.bind (h.finish hjob (by decide) (by decide)) fun _ => trivial)
    · exact h.makes (.bind h.reconcile fun _ => trivial)

theorem reconcileTrial (h : Records O A K R) {env : Env} {found : Option Job}
    (hfound : ∀ job, found = some job → R job) :
    h.Runs (OsUpdate.reconcileTrial env found) fun _ => True := by
  refine h.bind (h.rebuild hfound) fun job hjob => ?_
  split_ifs
  · exact h.makes (.bind h.clearPending fun _ => .bind (h.setGuard _ _) fun _ => trivial)
  · exact h.makes (.bind (save_makes (h.save (h.stage hjob (.step _ _)) ⟨nofun, nofun⟩)) fun _ =>
      .bind (h.setGuard _ _) fun _ => trivial)

theorem reconcileUntried (h : Records O A K R) {env : Env} {found : Option Job} {pending : JobId}
    (hfound : ∀ job, found = some job → R job)
    (hany : ∀ job, found = some job → job.state = .restarting ∨ job.state = .ready → Anytime K R) :
    h.Runs (OsUpdate.reconcileUntried env found pending) fun _ => True := by
  unfold OsUpdate.reconcileUntried
  cases hjob : found.filter fun job =>
      job.id == pending && (job.state == .restarting || job.state == .ready) with
  | some job =>
    obtain ⟨hsome, hstate⟩ := Option.filter_eq_some_iff.mp hjob
    simp only [Bool.and_eq_true, beq_iff_eq, Bool.or_eq_true] at hstate
    exact h.makes (.bind (h.backToReady (hany job hsome hstate.2) (hfound job hsome) _)
      fun _ => trivial)
  | none =>
    refine h.bind (h.rebuild hfound) fun job hjob => ?_
    refine h.bind (h.makes (h.targetBad _)) fun safe _ => ?_
    split_ifs
    · exact h.makes (.bind (h.finish hjob (by decide) (by decide)) fun _ => .bind h.clearPending
        fun _ => trivial)
    · exact h.makes (.bind (h.setGuard _ _) fun _ => trivial)

/-! ### The worker, up to RAUC -/

/-- A part of the worker that keeps the property, also in the record an exception carries. -/
abbrev Carries (_ : Records O A K R) (p : JobProg α) (P : α → Prop) : Prop :=
  Local (F := Host) A K p P fun e => R e.2 ∧ e.2.Unarmed

theorem cbind (h : Records O A K R) {P : α → Prop} {Q : β → Prop} {p : JobProg α}
    {f : α → JobProg β} (hp : h.Carries p P) (hf : ∀ a, P a → h.Carries (f a) Q) :
    h.Carries (p >>= f) Q := local_bind (hp.mono (fun a _ => hf a) fun _ _ h => h)

theorem withJob (h : Records O A K R) {P : α → Prop} {p : OsProg α} (hp : h.Runs p P)
    (hjob : R job) (hstate : job.Unarmed) : h.Carries (OsUpdate.withJob job p) P :=
  Safe.tryCatch (hp.mono (fun _ _ h => h) fun _ _ _ => ⟨hjob, hstate⟩)

theorem withMakes (h : Records O A K R) {p : OsProg α} (hp : p.Makes (F := Host) K)
    (hjob : R job) (hstate : job.Unarmed) : h.Carries (OsUpdate.withJob job p) fun _ => True :=
  h.withJob (h.makes hp) hjob hstate

theorem query (h : Records O A K R) {c : HostCall} (hc : c.common) :
    h.Carries (OsUpdate.query c) fun _ => True := local_call (h.common hc) fun _ _ => trivial

theorem raises (h : Records O A K R) {bad : Prop} [Decidable bad] {e : Err} (hjob : R job)
    (hstate : job.Unarmed) : h.Carries (Prog.raiseIf bad (e, job)) fun _ => True :=
  safe_raiseIf.mpr ⟨fun _ => ⟨hjob, hstate⟩, fun _ => trivial⟩

theorem saveStep (h : Records O A K R) (hjob : R job) {phase : JobState} (hready : phase ≠ .ready)
    (hrestarting : phase ≠ .restarting) :
    (OsUpdate.save (job.step phase)).Makes (F := Host) K :=
  save_makes (h.save (h.stage hjob (.step _ _)) ⟨hready, hrestarting⟩)

theorem cancelled (h : Records O A K R) (job : Job) :
    (OsUpdate.cancelled job).Makes (F := Host) K :=
  .bind (makes_ask (h.common trivial) fun _ => trivial) fun _ => trivial

theorem pour (h : Records O A K R) (hjob : R job) (hstate : job.Unarmed) (size fuel got : ℕ) :
    h.Carries (OsUpdate.pour job size fuel got) fun _ => True := by
  induction fuel generalizing got with
  | zero => exact ⟨hjob, hstate⟩
  | succ fuel ih =>
    refine h.cbind (h.withMakes (h.cancelled job) hjob hstate) fun stop _ => ?_
    refine h.cbind (h.raises hjob hstate) fun _ _ => ?_
    refine h.cbind (h.query trivial) fun chunk _ => ?_
    cases chunk with
    | connection => exact ⟨hjob, hstate⟩
    | failed => exact ⟨hjob, hstate⟩
    | bytes data =>
      dsimp only
      split_ifs
      · trivial
      · refine h.cbind (h.raises hjob hstate) fun _ _ => h.cbind (h.query trivial) fun ok _ =>
          h.cbind (h.raises hjob hstate) fun _ _ => h.cbind (h.query trivial) fun passed _ =>
          h.cbind (P := fun _ => True) ?_ fun _ _ => ih _
        cases passed with
        | false => trivial
        | true =>
          refine h.cbind (h.query trivial) fun refusal _ => ?_
          cases refusal with
          | some refusal => exact ⟨hjob, hstate⟩
          | none => exact h.withMakes (h.saveStep hjob (by decide) (by decide)) hjob hstate

theorem responseStart (h : Records O A K R) (hjob : R job) (hstate : job.Unarmed) (size offset : ℕ)
    (r : Response) : h.Carries (OsUpdate.responseStart job size offset r)
      fun x => R x.1 ∧ x.1.Unarmed := by
  unfold OsUpdate.responseStart
  split_ifs
  · exact ⟨hjob, hstate⟩
  · refine h.cbind (h.query trivial) fun ok _ => ?_
    exact h.cbind (h.raises hjob hstate) fun _ _ => ⟨hjob, hstate⟩
  · have hjob' : R { job with validator := r.validator } := h.stage hjob ⟨_, _, _, _, _, rfl⟩
    have hstate' : ({ job with validator := r.validator } : Job).Unarmed := ⟨hstate.1, hstate.2⟩
    exact h.cbind (h.withMakes (save_makes (h.save hjob' hstate')) hjob' hstate')
      fun _ _ => ⟨hjob', hstate'⟩
  · exact ⟨hjob, hstate⟩

theorem transfer (h : Records O A K R) (hjob : R job) (hstate : job.Unarmed) (entry : Entry) :
    h.Carries (OsUpdate.transfer job entry) fun j => R j ∧ j.Unarmed := by
  refine h.cbind (h.query trivial) fun held _ => ?_
  cases held with
  | none => exact ⟨hjob, hstate⟩
  | some held =>
    refine h.cbind (h.query trivial) fun opened _ => ?_
    cases opened with
    | connection => exact ⟨hjob, hstate⟩
    | failed => exact ⟨hjob, hstate⟩
    | response r =>
      refine h.cbind (h.responseStart hjob hstate _ _ r) ?_
      rintro ⟨j, offset⟩ ⟨hj, hjstate⟩
      refine h.cbind (h.query trivial) fun ok _ => h.cbind (h.raises hj hjstate) fun _ _ =>
        h.cbind (P := fun _ => True) ?_ fun got _ => ?_
      · have hclose : h.Carries (do .raiseIf (!(← OsUpdate.query (.closePart j.id))) (.os, j))
            fun _ => True := h.cbind (h.query trivial) fun _ _ => h.raises hj hjstate
        refine Safe.ensure ((h.pour hj hjstate _ _ _).mono (fun _ _ _ => ?_) fun _ _ he => ?_)
        · exact hclose.mono (fun _ _ _ => trivial) fun _ _ h => h
        · exact hclose.mono (fun _ _ _ => he) fun _ _ h => h
      · have hj' : R (j.step .downloading) := h.stage hj (.step _ _)
        refine h.cbind (h.raises hj hjstate) fun _ _ => ?_
        exact h.cbind (h.withMakes (h.saveStep hj (by decide) (by decide)) hj' ⟨nofun, nofun⟩)
          fun _ _ => ⟨hj', nofun, nofun⟩

theorem attempts (h : Records O A K R) (entry : Entry) (n : ℕ) (hjob : R job)
    (hstate : job.Unarmed) : h.Carries (OsUpdate.attempts entry n job) fun j => R j ∧ j.Unarmed := by
  induction n generalizing job with
  | zero => exact ⟨hjob, hstate⟩
  | succ n ih =>
    refine Safe.tryCatch ((h.transfer hjob hstate entry).mono (fun _ _ h => h) ?_)
    rintro ⟨e, j⟩ _ ⟨hj, hjstate⟩
    dsimp only
    split_ifs
    · exact ih hj hjstate
    · exact ⟨hj, hjstate⟩

theorem download (h : Records O A K R) (hjob : R job) (hstate : job.Unarmed) (entry : Entry) :
    h.Carries (OsUpdate.download job entry) fun j => R j ∧ j.Unarmed := by
  refine h.cbind (h.withMakes (layout_makes (h.common trivial)) hjob hstate) fun _ _ =>
    h.cbind (h.query trivial) fun size _ => ?_
  split_ifs
  · exact ⟨hjob, hstate⟩
  · have hjob' : R (job.step .downloading) := h.stage hjob (.step _ _)
    have hdownloading : (job.step .downloading).Unarmed := .step (by decide) (by decide)
    refine h.cbind (h.query trivial) fun part _ => h.cbind (h.raises hjob hstate) fun _ _ =>
      h.cbind (h.withMakes (h.saveStep hjob (by decide) (by decide)) hjob' hdownloading) fun _ _ =>
      h.cbind (h.attempts entry _ hjob' hdownloading) ?_
    rintro j ⟨hj, hjstate⟩
    exact h.cbind (h.query trivial) fun ok _ => h.cbind (h.raises hj hjstate) fun _ _ => ⟨hj, hjstate⟩

theorem raucOperation (h : Records O A K R) : OsUpdate.raucOperation.Makes (F := Host) K := by
  refine .bind (runReply_makes (h.common trivial)) fun owner => ?_
  cases owner with
  | none => trivial
  | some owner => exact .bind (runReply_makes (h.common trivial)) fun _ => trivial

theorem restartRauc (h : Records O A K R) : OsUpdate.restartRauc.Makes (F := Host) K :=
  .bind h.raucOperation fun _ => .bind (makes_raiseIf _) fun _ =>
    .bind (run_makes (h.common trivial)) fun _ => makes_raiseIf _

theorem raucIdentity (h : Records O A K R) : OsUpdate.raucIdentity.Makes (F := Host) K := by
  refine .bind (run_makes (h.common trivial)) fun _ => .bind (makes_raiseIf _) fun _ =>
    .bind h.raucOperation fun x => .bind (runReply_makes (h.common trivial)) fun invocation => ?_
  obtain ⟨operation, owner⟩ := x
  dsimp only
  split
  · exact .bind (makes_raiseIf _) fun _ => trivial
  · trivial

/-! ### The ends of an install -/

theorem failInstall (h : Records O A K R) (hjob : R job) (hstate : job.Unarmed) (message : String) :
    h.Carries (OsUpdate.failInstall job message) fun _ => True := by
  refine h.cbind (h.withMakes (need_makes _) hjob hstate) fun target _ =>
    h.cbind (h.withMakes (run_makes (h.common trivial)) hjob hstate) fun _ _ =>
    h.cbind (h.withMakes (.tryCatch (.bind (h.looks readEnv_makes) fun _ => trivial)
      fun e => ?_) hjob hstate) fun safe _ => ?_
  · split_ifs <;> trivial
  · split_ifs
    · have hfinish : (OsUpdate.finish job .failed (some message)).Makes (F := Host) K :=
        h.finish hjob (by decide) (by decide)
      exact h.cbind (h.withMakes hfinish (h.stage hjob (.finished _ _ _)) ⟨nofun, nofun⟩)
        fun _ _ => trivial
    · have hjob' := h.stage hjob (j := { job.step .reconciling with
        error := some (message ++ "; the other system slot needs checking") }) ⟨_, _, _, _, _, rfl⟩
      refine h.cbind (h.withMakes (.bind (save_makes (h.save hjob' ⟨nofun, nofun⟩)) fun _ =>
        h.setGuard _ _) hjob' ⟨nofun, nofun⟩) fun _ _ => trivial

theorem dropJob (h : Records O A K R) {P : α → Prop} {p : JobProg α} (hp : h.Carries p P) :
    h.Runs (OsUpdate.dropJob p) P :=
  Safe.tryCatch (hp.mono (fun _ _ h => h) fun _ _ _ => trivial)

/-- A job becomes ready only here. -/
theorem completeInstall (h : Records O A K R) (hany : Anytime K R) (hjob : R job) (hstate : job.Unarmed) :
    Local (F := Host) A K (OsUpdate.completeInstall job) (fun _ => True) fun e => R e.2 := by
  have hfail := fun msg => h.failInstall hjob hstate msg
  refine local_bind ((h.withMakes (p := targetRefusal job) (.tryCatch (.bind
    (h.looks (verifyTarget_makes _)) fun _ => trivial) fun e => ?_) hjob hstate).mono
    (fun refusal _ _ => ?_) fun _ _ h => h.1)
  · cases e <;> trivial
  · cases refusal with
    | some msg => exact (hfail msg).mono (fun _ _ h => h) fun _ _ h => h.1
    | none =>
      have hjob' : R (job.step .ready) := h.stage hjob (.step _ _)
      have hready : (do OsUpdate.save (job.step .ready); OsUpdate.setGuard .pending (some job.id) : OsProg Unit).Makes
          (F := Host) K := .bind (save_makes (hany _ hjob')) fun _ => h.setGuard _ _
      exact local_bind (Safe.tryCatch ((h.makes hready).mono (fun _ _ _ => trivial)
        fun _ _ _ => hjob'))

theorem waitInstall (h : Records O A K R) (hjob : R job) :
    (OsUpdate.waitInstall job).Makes (F := Host) K := by
  have hwatch : ∀ (fuel : ℕ) (last : String),
      (watchInstall job fuel last).Makes (F := Host) K := by
    intro fuel
    induction fuel with
    | zero => exact fun _ => trivial
    | succ fuel ih =>
      intro last
      refine .bind (makes_ask (h.common trivial) fun _ => trivial) fun line => ?_
      cases line with
      | none => trivial
      | some line => exact .bind (h.saveStep hjob (by decide) (by decide)).when fun _ => ih _
  refine .bind (makes_ask (h.common trivial) fun _ => trivial) fun fuel =>
    (hwatch _ _).tryCatch fun e => ?_
  split_ifs
  · trivial
  · exact .bind (makes_ask (h.common trivial) fun _ => trivial) fun _ => trivial

theorem workFailed (h : Records O A K R) (e : Err × Job) (hjob : R e.2) :
    h.Runs (OsUpdate.workFailed e) fun _ => True := by
  obtain ⟨e, job⟩ := e
  have hfailed : h.Runs (if job.state = .installing then
      OsUpdate.dropJob (OsUpdate.failInstall job e.sentence)
      else do OsUpdate.finish job .failed (some e.sentence); return 1) fun _ => True := by
    split_ifs with hstate
    · exact h.dropJob (h.failInstall hjob ⟨hstate ▸ nofun, hstate ▸ nofun⟩ _)
    · exact h.makes (.bind (h.finish hjob (by decide) (by decide)) fun _ => trivial)
  cases e with
  | cancelled => exact h.makes (.bind (h.finish hjob (by decide) (by decide)) fun _ => trivial)
  | key => trivial
  | killed => trivial
  | _ => exact hfailed

theorem watchRauc (h : Records O A K R) (fuel : ℕ) :
    (OsUpdate.watchRauc job fuel).Makes (F := Host) K := by
  induction fuel with
  | zero => trivial
  | succ fuel ih =>
    refine .bind h.raucOperation fun x => .bind (runReply_makes (h.common trivial))
      fun invocation => ?_
    dsimp only
    split_ifs
    · refine .bind (makes_ask (h.common trivial) fun _ => trivial) fun passed => ?_
      split_ifs
      · trivial
      · exact ih
    · trivial

theorem takeLease (h : Records O A K R) (fuel : ℕ) :
    (OsUpdate.takeLease job fuel).Makes (F := Host) K := by
  induction fuel with
  | zero => trivial
  | succ fuel ih =>
    refine .bind (makes_ask (h.common trivial) fun _ => trivial) fun acquired => ?_
    cases acquired with
    | lease => trivial
    | osError => trivial
    | busy msg =>
      dsimp only
      split_ifs
      · exact ih
      · trivial

theorem stopRequested (h : Records O A K R) :
    (OsUpdate.stopRequested job).Makes (F := Host) K := by
  unfold OsUpdate.stopRequested
  split_ifs
  · exact h.cancelled job
  · trivial

end Records

end Epilykos.OsUpdate
