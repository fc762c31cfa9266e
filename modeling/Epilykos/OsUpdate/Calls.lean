import Epilykos.OsUpdate.Activation
import Epilykos.OsUpdate.Requests

/-!
What the worker of a job may write, whatever it is told: records of the same job, batches of a
few kinds, marks of its own target. The claims about runs take from here what one call of a
worker can change.
-/

namespace Epilykos.OsUpdate

open Program World

variable {O : Oracles}

/-! ### One job -/

/-- The record of the same job, further on; the image is what a verified bundle carries. -/
structure Job.Continues (job j : Job) : Prop where
  id : j.id = job.id
  requestId : j.requestId = job.requestId
  sequence : j.sequence = job.sequence
  sha256 : j.sha256 = job.sha256
  source : j.source = job.source
  target : j.target = job.target
  files : j.files = job.files
  image : j.image = job.image ∨
    ∃ size d, j.image = some { size := some size, sha256 := some d } ∧ isDigest d = true

namespace Job.Continues

variable {job j k : Job}

theorem refl (job : Job) : job.Continues job := ⟨rfl, rfl, rfl, rfl, rfl, rfl, rfl, Or.inl rfl⟩

theorem trans (h : job.Continues j) (h' : j.Continues k) : job.Continues k := by
  refine ⟨h'.id.trans h.id, h'.requestId.trans h.requestId, h'.sequence.trans h.sequence,
    h'.sha256.trans h.sha256, h'.source.trans h.source, h'.target.trans h.target,
    h'.files.trans h.files, ?_⟩
  rcases h'.image with hi | hi
  · rw [hi]
    exact h.image
  · exact Or.inr hi

/-- What a stage of the job changes besides its image. -/
theorem progressed (h : job.Continues j) (state : JobState) (progress : Progress)
    (error : Option String) (validator : Option String) (rauc : Option RaucIdentity) :
    job.Continues { j with state, progress, error, validator, rauc } :=
  ⟨h.id, h.requestId, h.sequence, h.sha256, h.source, h.target, h.files, h.image⟩

theorem step (h : job.Continues j) (phase : JobState) : job.Continues (j.step phase) :=
  h.progressed _ _ _ _ _

theorem finished (h : job.Continues j) (state : JobState) (error : Option String) :
    job.Continues (j.finished state error) := h.progressed _ _ _ _ _

end Job.Continues

/-! ### The calls of a worker -/

/-- The batch that advances the trust policy. -/
def trustBatch (raw sig : Bytes) (epoch : ℕ) : List Assign :=
  [.trustPolicy raw, .trustPolicySig sig, .trustEpoch epoch]

namespace HostCall

/-- The calls of the worker of a job; `B` says which batches, activations and reboots are
among them. -/
def ofWorker (job : Job) (B : HostCall → Prop) : HostCall → Prop
  | .setEnv batch => B (.setEnv batch)
  | .markActive s => B (.markActive s)
  | .reboot => B .reboot
  | .writeJournal j => job.Continues j
  | .markBad s => job.target = some s
  | .raucInstall id | .removeStaging id => id = job.id
  | .openPart id _ | .appendPart id _ | .renamePart id => id = job.id
  | .writeGuard g => g = { state := .idle, job := none } ∨ g.state ≠ .idle ∧ g.job = some job.id
  | .markActiveBooted | .markGoodBooted | .recordHealthy _ | .startWorker => False
  | .removeJournal | .writeCancel _ | .removeCancel | .writeChecked _ => False
  | .writePrevious _ | .writeCurrent _ | .writeAppFloor _ | .writeActive _ => False
  | _ => True

/-- An install only advances the trust policy. -/
def advances : HostCall → Prop
  | .setEnv batch => ∃ raw sig epoch, batch = trustBatch raw sig epoch
  | _ => False

/-- What an activation adds to that. -/
inductive Activates (job : Job) : HostCall → Prop
  | trust (raw sig : Bytes) (epoch : ℕ) : Activates job (.setEnv (trustBatch raw sig epoch))
  | intent {image : Image} : job.image = some image →
    Activates job (.setEnv (intentBatch job image))
  | activated : Activates job (.setEnv [.osPhase (some .activated)])
  | clear : Activates job (.setEnv clearBatch)
  | target {s : Slot} : job.target = some s → Activates job (.markActive s)
  | reboot : Activates job .reboot

theorem advances.activates {job : Job} {c : HostCall} (h : c.advances) : c.Activates job := by
  cases c with
  | setEnv batch =>
    obtain ⟨raw, sig, epoch, rfl⟩ := h
    exact .trust raw sig epoch
  | _ => exact h.elim

theorem ofWorker_of_looks {job : Job} {B : HostCall → Prop} {c : HostCall} (h : c.looks) :
    c.ofWorker job B := by
  rcases h with h | ⟨id, s, rfl⟩
  · cases c <;> trivial
  · trivial

end HostCall

/-! ### The parts every program is made of -/

section Parts

variable {α β : Type} {K : HostCall → Prop}

theorem makes_ask {ε : Type} {c : HostCall} {k : Ans c → Prog Host ε α} (hc : K c)
    (hk : ∀ x, (k x).Makes (F := Host) K) : (Prog.call (F := Host) c k).Makes K := ⟨hc, hk⟩

theorem written_makes (x : Wrote) : (written x).Makes (F := Host) K := by cases x <;> trivial

theorem run_makes {program : String} {c : HostCall} {g : Ans c → Ran} (hc : K c) :
    (run program (.call c fun x => .ret (g x))).Makes (F := Host) K :=
  .bind (makes_ask hc fun _ => trivial) fun x => by cases x <;> trivial

theorem runReply_makes {program : String} {c : HostCall} {g : Ans c → Reply α} (hc : K c) :
    (runReply program (.call c fun x => .ret (g x))).Makes (F := Host) K :=
  .bind (makes_ask hc fun _ => trivial) fun x => by cases x <;> trivial

theorem need_bind_makes {x : Option α} {f : α → OsProg β}
    (h : ∀ a, x = some a → (f a).Makes (F := Host) K) : (need x >>= f).Makes (F := Host) K := by
  cases x with
  | none => trivial
  | some a => exact h a rfl

theorem layout_makes (h : K .layout) : layout.Makes (F := Host) K :=
  .bind (makes_ask h fun _ => trivial) fun x => written_makes x

theorem journal_makes (h : K .readJournal) : journal.Makes (F := Host) K :=
  .bind (makes_ask h fun _ => trivial) fun x => by cases x <;> trivial

theorem save_makes {job : Job} (h : K (.writeJournal job)) : (save job).Makes (F := Host) K :=
  .bind (makes_ask h fun _ => trivial) fun x => written_makes x

theorem setGuard_makes {state : GuardState} {id : Option JobId}
    (h : K (.writeGuard { state, job := id })) : (setGuard state id).Makes (F := Host) K :=
  .bind (makes_ask h fun _ => trivial) fun x => written_makes x

theorem finish_makes {job : Job} {state : JobState} {error : Option String}
    (hsave : K (.writeJournal (job.finished state error))) (hstaging : K (.removeStaging job.id))
    (hguard : K (.writeGuard { state := .idle, job := none })) :
    (finish job state error).Makes (F := Host) K := by
  refine .bind (save_makes hsave) fun _ => Prog.Makes.when ?_
  refine .bind (.bind (makes_ask hstaging fun _ => trivial) fun x => stored_makes x) fun _ => ?_
  exact setGuard_makes hguard

theorem workerActive_makes (h : K .workerActive) : workerActive.Makes (F := Host) K := run_makes h

theorem startWorker_makes (h : K .startWorker) : startWorker.Makes (F := Host) K :=
  .bind (run_makes h) fun _ => makes_raiseIf _

theorem readEnv_makes_any (h : K .readEnv) : readEnv.Makes (F := Host) K :=
  .bind (makes_ask h fun _ => trivial) fun x => by cases x <;> trivial

theorem setEnv_makes {batch : List Assign} (h : K (.setEnv batch)) (hread : K .readEnv) :
    (setEnv batch).Makes (F := Host) K :=
  .bind (run_makes h) fun _ => .bind (makes_raiseIf _) fun _ => .bind (readEnv_makes_any hread)
    fun _ => .bind (makes_raiseIf _) fun _ => trivial

theorem targetBad_makes {target : Option Slot} (h : ∀ s, target = some s → K (.markBad s))
    (hread : K .readEnv) : (targetBad target).Makes (F := Host) K :=
  need_bind_makes fun s hs => .bind (run_makes (h s hs)) fun _ =>
    .bind (readEnv_makes_any hread) fun _ => trivial

end Parts

/-- A part of the worker that carries the record of the job. -/
abbrev Carries {α : Type} (job : Job) (B : HostCall → Prop) (p : JobProg α) (P : α → Prop) : Prop :=
  Local (F := Host) (fun _ _ => True) (HostCall.ofWorker job B) p P fun e => job.Continues e.2

/-- A part of the worker that does not. -/
abbrev Serves {α : Type} (job : Job) (B : HostCall → Prop) (p : OsProg α) : Prop :=
  p.Makes (F := Host) (HostCall.ofWorker job B)

section Worker

variable {α β : Type} {job j : Job} {B : HostCall → Prop}

theorem serves_of_looks {p : OsProg α} (hp : p.Makes (F := Host) HostCall.looks) : Serves job B p :=
  hp.mono fun _ => HostCall.ofWorker_of_looks

theorem carries_bind {P : α → Prop} {Q : β → Prop} {p : JobProg α} {f : α → JobProg β}
    (hp : Carries job B p P) (hf : ∀ a, P a → Carries job B (f a) Q) : Carries job B (p >>= f) Q :=
  local_bind (hp.mono (fun a _ => hf a) fun _ _ h => h)

theorem carries_call {c : HostCall} {k : Ans c → JobProg α} {P : α → Prop} (hc : c.ofWorker job B)
    (hk : ∀ x, Carries job B (k x) P) : Carries job B (.call c k) P :=
  local_call hc fun x _ => hk x

theorem carries_raiseIf {bad : Prop} [Decidable bad] {e : Err} (hj : job.Continues j) :
    Carries job B (Prog.raiseIf bad (e, j)) fun _ => True :=
  safe_raiseIf.mpr ⟨fun _ => hj, fun _ => trivial⟩

theorem withJob_carries {P : α → Prop} {p : OsProg α} (hp : Serves job B p) (hgives : p.Gives P)
    (hj : job.Continues j) : Carries job B (withJob j p) P := by
  induction p with
  | ret a => exact hgives
  | raise e => exact hj
  | call c k ih => exact carries_call hp.1 fun x => ih x (hp.2 x) (hgives x)

theorem withJob_serves {p : OsProg α} (hp : Serves job B p) (hj : job.Continues j) :
    Carries job B (withJob j p) fun _ => True := withJob_carries hp (gives_true p) hj

/-- The handler of a part that carries the job sees a record of the same job. -/
theorem serves_handled {P : α → Prop} {p : JobProg α} {f : Err × Job → OsProg α}
    (hp : Carries job B p P) (hf : ∀ e, job.Continues e.2 → Serves job B (f e)) :
    Serves job B (p.tryCatch f) := by
  induction p with
  | ret a => trivial
  | raise e => exact hf e hp
  | call c k ih =>
    obtain ⟨hc, hnext⟩ := safe_call.mp hp
    exact ⟨hc, fun x => ih x (hnext x () trivial)⟩

theorem dropJob_serves {P : α → Prop} {p : JobProg α} (hp : Carries job B p P) :
    Serves job B (dropJob p) := serves_handled hp fun _ _ => trivial

theorem finish_serves (hj : job.Continues j) (state : JobState) (error : Option String) :
    Serves job B (finish j state error) :=
  finish_makes (hj.finished _ _) hj.id (Or.inl rfl)

theorem cancelled_serves (j : Job) : Serves job B (cancelled j) :=
  .bind (makes_ask trivial fun _ => trivial) fun _ => trivial

theorem readEnv_serves : Serves job B readEnv := serves_of_looks readEnv_makes

/-! ### The worker of a job that is not installed yet -/

theorem verifyRelease_makes (files : Files) (plat : Platform) (state : TrustState) :
    (verifyRelease O files plat state).Makes (F := Host) HostCall.looks :=
  .bind (rethrow_makes (.bind readRoot_makes fun _ => verifyPolicy_makes _ _ _ _ _ _)) fun _ =>
    .bind (verifyOsRelease_makes _ _ _ _) fun _ => trivial

theorem raucOperation_serves : Serves job B raucOperation := by
  refine .bind (runReply_makes trivial) fun owner => ?_
  cases owner with
  | none => trivial
  | some owner => exact .bind (runReply_makes trivial) fun _ => trivial

theorem restartRauc_serves : Serves job B restartRauc :=
  .bind raucOperation_serves fun _ => .bind (makes_raiseIf _) fun _ =>
    .bind (run_makes trivial) fun _ => makes_raiseIf _

theorem admitPolicy_serves (hB : ∀ c, HostCall.advances c → B c) (raw sig : Bytes) (plat : Platform) (state : TrustState) :
    Serves job B (admitPolicy O raw sig plat state) :=
  .bind (serves_of_looks readRoot_makes) fun _ =>
    .bind (rethrow_makes (serves_of_looks (verifyPolicy_makes _ _ _ _ _ _))) fun _ =>
    .bind (makes_ask (hB _ ⟨_, _, _, rfl⟩) fun _ => trivial) fun _ => .bind (makes_raiseIf _) fun _ =>
    .bind (serves_of_looks (currentState_makes _)) fun _ => .bind (makes_raiseIf _) fun _ => trivial

theorem admitNewer_serves (hB : ∀ c, HostCall.advances c → B c) (files : Files) (plat : Platform) (state : TrustState) (newer : Bool) :
    Serves job B (admitNewer O files plat state newer) := by
  cases newer with
  | true => exact .bind (admitPolicy_serves hB _ _ _ _) fun _ => .bind restartRauc_serves fun _ => trivial
  | false => trivial

theorem pour_carries (hj : job.Continues j) (size fuel got : ℕ) :
    Carries job B (pour j size fuel got) fun _ => True := by
  induction fuel generalizing got with
  | zero => exact hj
  | succ fuel ih =>
    refine carries_bind (withJob_serves (cancelled_serves j) hj) fun stop _ => ?_
    refine carries_bind (carries_raiseIf hj) fun _ _ => ?_
    refine carries_bind (carries_call trivial fun _ => trivial) fun chunk _ => ?_
    cases chunk with
    | connection => exact hj
    | failed => exact hj
    | bytes data =>
      dsimp only
      split_ifs with hdata
      · trivial
      · refine carries_bind (carries_raiseIf hj) fun _ _ => ?_
        refine carries_bind (carries_call hj.id fun _ => trivial) fun ok _ => ?_
        refine carries_bind (carries_raiseIf hj) fun _ _ => ?_
        refine carries_bind (carries_call trivial fun _ => trivial) fun passed _ => ?_
        refine carries_bind (P := fun _ => True) ?_ fun _ _ => ih _
        cases passed with
        | false => trivial
        | true =>
          refine carries_bind (carries_call trivial fun _ => trivial) fun refusal _ => ?_
          cases refusal with
          | some refusal => exact hj
          | none => exact withJob_serves (save_makes (hj.step _)) hj

theorem responseStart_carries (hj : job.Continues j) (size offset : ℕ) (r : Response) :
    Carries job B (responseStart j size offset r) fun x => job.Continues x.1 := by
  unfold responseStart
  split_ifs
  · exact hj
  · refine carries_bind (carries_call hj.id fun _ => trivial) fun ok _ => ?_
    exact carries_bind (carries_raiseIf hj) fun _ _ => hj
  · have hj' := hj.progressed j.state j.progress j.error r.validator j.rauc
    exact carries_bind (withJob_serves (save_makes hj') hj') fun _ _ => hj'
  · exact hj

theorem ensure_carries {P : α → Prop} {p : JobProg α} {fin : JobProg Unit} (hp : Carries job B p P)
    (hfin : Carries job B fin fun _ => True) : Carries job B (p.ensure fin) P := by
  refine Safe.ensure (hp.mono (fun a _ ha => ?_) fun e _ he => ?_)
  · exact hfin.mono (fun _ _ _ => ha) fun _ _ h => h
  · exact hfin.mono (fun _ _ _ => he) fun _ _ h => h

theorem transfer_carries (hj : job.Continues j) (entry : Entry) :
    Carries job B (transfer j entry) fun j' => job.Continues j' := by
  refine carries_bind (carries_call trivial fun _ => trivial) fun held _ => ?_
  cases held with
  | none => exact hj
  | some held =>
    refine carries_bind (carries_call trivial fun _ => trivial) fun opened _ => ?_
    cases opened with
    | connection => exact hj
    | failed => exact hj
    | response r =>
      refine carries_bind (responseStart_carries hj _ _ r) fun x hx => ?_
      refine carries_bind (carries_call hx.id fun _ => trivial) fun ok _ => ?_
      refine carries_bind (carries_raiseIf hx) fun _ _ => ?_
      refine carries_bind (ensure_carries (pour_carries hx _ _ _) ?_) fun got _ => ?_
      · exact carries_bind (carries_call trivial fun _ => trivial) fun _ _ => carries_raiseIf hx
      · refine carries_bind (carries_raiseIf hx) fun _ _ => ?_
        exact carries_bind (withJob_serves (save_makes (hx.step _)) (hx.step _))
          fun _ _ => hx.step _

theorem attempts_carries (entry : Entry) (n : ℕ) (hj : job.Continues j) :
    Carries job B (attempts entry n j) fun j' => job.Continues j' := by
  induction n generalizing j with
  | zero => exact hj
  | succ n ih =>
    refine Safe.tryCatch ((transfer_carries hj entry).mono (fun _ _ h => h) fun e _ he => ?_)
    obtain ⟨e, j'⟩ := e
    dsimp only
    split_ifs
    · exact ih he
    · exact he

theorem download_carries (hj : job.Continues j) (entry : Entry) :
    Carries job B (download j entry) fun j' => job.Continues j' := by
  refine carries_bind (withJob_serves (layout_makes trivial) hj) fun _ _ => ?_
  refine carries_bind (carries_call trivial fun _ => trivial) fun size _ => ?_
  split_ifs
  · exact hj
  · refine carries_bind (carries_call trivial fun _ => trivial) fun part _ => ?_
    refine carries_bind (carries_raiseIf hj) fun _ _ => ?_
    refine carries_bind (withJob_serves (save_makes (hj.step _)) (hj.step _)) fun _ _ => ?_
    refine carries_bind (attempts_carries entry _ (hj.step _)) fun j' hj' => ?_
    refine carries_bind (carries_call hj'.id fun _ => trivial) fun ok _ => ?_
    exact carries_bind (carries_raiseIf hj') fun _ _ => hj'

theorem verifyBundle_serves (bundle : Bytes) (entry : Entry) (policy : Policy) :
    Serves job B (verifyBundle O bundle entry policy) := by
  have hsigner : ∀ cas, Serves job B (bundleSigner O bundle cas) := by
    intro cas
    refine .bind (makes_ofExcept _) fun sig => .bind (makes_ask trivial fun _ => trivial) fun x => ?_
    rcases x with _ | ⟨manifest, spki⟩
    · trivial
    · exact .bind (serves_of_looks (openssl_makes _)) fun _ => .bind (makes_raiseIf _) fun _ =>
        .bind (makes_raiseIf _) fun _ => trivial
  have hcheck : Serves job B (checkBundle O bundle entry policy) :=
    .bind (makes_raiseIf _) fun _ => .bind (hsigner _) fun _ => .bind (makes_raiseIf _) fun _ =>
      .bind (makes_ofExcept _) fun _ => trivial
  refine .bind (makes_ask trivial fun _ => trivial) fun ok => .bind (makes_raiseIf _) fun _ =>
    .bind (Prog.Makes.ensure ?_ ?_) fun manifest => .bind (makes_ofExcept _) fun ini => ?_
  · exact .bind hcheck fun _ => .bind (hsigner _) fun _ => trivial
  · exact .bind (makes_ask trivial fun _ => trivial) fun _ => makes_raiseIf _
  · cases pyInt (ini.get "image.rootfs" "size" "0") with
    | none => trivial
    | some size => exact .bind (makes_raiseIf _) fun _ => trivial

/-- The image of a verified bundle has a size and a digest. -/
theorem verifyBundle_gives (bundle : Bytes) (entry : Entry) (policy : Policy) :
    (verifyBundle O bundle entry policy).Gives fun image =>
      ∃ size d, image = { size := some size, sha256 := some d } ∧ isDigest d = true := by
  refine (gives_true _).bind fun ok _ => (gives_true _).bind fun _ _ =>
    (gives_true _).bind fun manifest _ => (gives_true _).bind fun ini _ => ?_
  cases pyInt (ini.get "image.rootfs" "size" "0") with
  | none => trivial
  | some size =>
    by_cases hbad : ¬ (0 < size ∧ size ≤ slotBytes) ∨
        !isDigest (ini.get "image.rootfs" "sha256" "")
    · show ((Prog.raiseIf _ _ : OsProg Unit) >>= _).Gives _
      rw [Prog.raiseIf_pos hbad]
      trivial
    · show ((Prog.raiseIf _ _ : OsProg Unit) >>= _).Gives _
      rw [Prog.raiseIf_neg hbad]
      refine ⟨_, _, rfl, ?_⟩
      simpa using (not_or.mp hbad).2

theorem finishJob_carries (hj : job.Continues j) (state : JobState) (error : Option String) :
    Carries job B (finishJob j state error) fun _ => True :=
  withJob_serves (finish_serves hj state error) (hj.finished _ _)

theorem failInstall_carries (hj : job.Continues j) (message : String) :
    Carries job B (failInstall j message) fun _ => True := by
  refine carries_bind (withJob_carries (P := fun target => j.target = some target) (need_makes _) ?_ hj)
    fun target htarget => ?_
  · cases j.target <;> trivial
  have hbad : (HostCall.markBad target).ofWorker job B := hj.target.symm.trans htarget
  refine carries_bind (withJob_serves (run_makes hbad) hj) fun _ _ => ?_
  refine carries_bind (withJob_serves (.tryCatch (.bind readEnv_serves fun _ => trivial)
    fun e => ?_) hj) fun safe _ => ?_
  · split_ifs <;> trivial
  · split_ifs
    · exact carries_bind (finishJob_carries hj _ _) fun _ _ => trivial
    · have hj' := hj.progressed .reconciling (.of .reconciling)
        (some (message ++ "; the other system slot needs checking")) j.validator j.rauc
      refine carries_bind (withJob_serves (.bind (save_makes hj') fun _ => setGuard_makes ?_) hj')
        fun _ _ => trivial
      exact Or.inr ⟨nofun, congrArg some hj.id⟩

theorem completeInstall_carries (hj : job.Continues j) :
    Carries job B (completeInstall j) fun _ => True := by
  refine carries_bind (withJob_serves (.tryCatch (.bind (serves_of_looks (verifyTarget_makes _))
    fun _ => trivial) fun e => ?_) hj) fun refusal _ => ?_
  · cases e <;> trivial
  · cases refusal with
    | some msg => exact failInstall_carries hj msg
    | none =>
      refine carries_bind (withJob_serves (.bind (save_makes (hj.step _)) fun _ =>
        setGuard_makes ?_) (hj.step _)) fun _ _ => trivial
      exact Or.inr ⟨nofun, congrArg some hj.id⟩

theorem raucIdentity_serves : Serves job B raucIdentity := by
  refine .bind (run_makes trivial) fun _ => .bind (makes_raiseIf _) fun _ =>
    .bind raucOperation_serves fun x => .bind (runReply_makes trivial) fun invocation => ?_
  obtain ⟨operation, owner⟩ := x
  dsimp only
  split
  · exact .bind (makes_raiseIf _) fun _ => trivial
  · trivial

theorem watchInstall_serves (hj : job.Continues j) (fuel : ℕ) (last : String) :
    Serves job B (watchInstall j fuel last) := by
  induction fuel generalizing last with
  | zero => trivial
  | succ fuel ih =>
    refine .bind (makes_ask trivial fun _ => trivial) fun line => ?_
    cases line with
    | none => trivial
    | some line => exact .bind (save_makes (hj.step _)).when fun _ => ih _

theorem waitInstall_serves (hj : job.Continues j) : Serves job B (waitInstall j) := by
  refine .bind (makes_ask trivial fun _ => trivial) fun fuel =>
    (watchInstall_serves hj _ _).tryCatch fun e => ?_
  split_ifs
  · trivial
  · exact .bind (makes_ask trivial fun _ => trivial) fun _ => trivial

theorem installBundle_carries (hj : job.Continues j) :
    Carries job B (installBundle j) fun _ => True := by
  refine carries_bind (withJob_serves raucIdentity_serves hj) fun identity _ => ?_
  have hj' : job.Continues { j with rauc := some { identity with transaction := some j.id } } :=
    hj.progressed _ _ _ _ _
  refine carries_bind (withJob_serves (save_makes (hj'.step _)) (hj'.step _)) fun _ _ => ?_
  refine carries_bind (carries_call hj.id fun _ => trivial) fun started _ => ?_
  refine carries_bind (carries_raiseIf (hj'.step _)) fun _ _ => ?_
  refine carries_bind (withJob_serves (waitInstall_serves (hj'.step _)) (hj'.step _))
    fun last _ => ?_
  refine carries_bind (carries_call trivial fun _ => trivial) fun ok _ => ?_
  split_ifs
  · exact completeInstall_carries (hj'.step _)
  · exact failInstall_carries (hj'.step _) _
  · exact failInstall_carries (hj'.step _) _

theorem workOn_carries (hB : ∀ c, HostCall.advances c → B c) (plat : Option Platform) (hj : job.Continues j) :
    Carries job B (workOn O plat j) fun _ => True := by
  refine carries_bind (withJob_serves (need_makes _) hj) fun plat _ => ?_
  refine carries_bind (withJob_serves (serves_of_looks (currentState_makes _)) hj) fun state _ => ?_
  refine carries_bind (withJob_serves (need_makes _) hj) fun files _ => ?_
  refine carries_bind (withJob_serves (serves_of_looks (verifyRelease_makes _ _ _)) hj)
    fun released _ => ?_
  refine carries_bind (withJob_serves (admitNewer_serves hB _ _ _ _) hj) fun state _ => ?_
  refine carries_bind (withJob_serves (serves_of_looks (verifyOsRelease_makes _ _ _ _)) hj)
    fun entry _ => ?_
  refine carries_bind (withJob_serves (makes_raiseIf _) hj) fun _ _ => ?_
  refine carries_bind (carries_raiseIf hj) fun _ _ => ?_
  refine carries_bind (download_carries hj entry) fun j₁ hj₁ => ?_
  refine carries_bind (withJob_serves (save_makes (hj₁.step _)) (hj₁.step _)) fun _ _ => ?_
  refine carries_bind (carries_call trivial fun _ => trivial) fun bundle _ => ?_
  cases bundle with
  | none => exact hj₁.step _
  | some bundle =>
    refine carries_bind (withJob_carries (verifyBundle_serves _ _ _) (verifyBundle_gives _ _ _)
      (hj₁.step _)) fun image himage => ?_
    have hj₂ : job.Continues { j₁.step .verifying with image := some image } := by
      obtain ⟨size, d, rfl, hd⟩ := himage
      exact ⟨hj₁.id, hj₁.requestId, hj₁.sequence, hj₁.sha256, hj₁.source, hj₁.target, hj₁.files,
        Or.inr ⟨size, d, rfl, hd⟩⟩
    refine carries_bind (withJob_serves (cancelled_serves _) hj₂) fun stop _ => ?_
    exact carries_bind (carries_raiseIf hj₂) fun _ _ => installBundle_carries hj₂

theorem workFailed_serves (e : Err × Job) (he : job.Continues e.2) :
    Serves job B (workFailed e) := by
  obtain ⟨e, j⟩ := e
  have hfailed : Serves job B (if j.state = .installing then dropJob (failInstall j e.sentence)
      else do finish j .failed (some e.sentence); return 1) := by
    split_ifs
    · exact dropJob_serves (failInstall_carries he _)
    · exact .bind (finish_serves he _ _) fun _ => trivial
  cases e with
  | cancelled => exact .bind (finish_serves he _ _) fun _ => trivial
  | key => trivial
  | killed => trivial
  | _ => exact hfailed

theorem work_serves (hB : ∀ c, HostCall.advances c → B c) (hj : job.Continues j) : Serves job B (work O j) :=
  .bind (serves_of_looks platform_makes) fun _ =>
    serves_handled (workOn_carries hB _ hj) workFailed_serves

/-! ### The worker of an installing or restarting job -/

theorem watchRauc_serves (j : Job) (fuel : ℕ) : Serves job B (watchRauc j fuel) := by
  induction fuel with
  | zero => trivial
  | succ fuel ih =>
    refine .bind raucOperation_serves fun x => .bind (runReply_makes trivial) fun invocation => ?_
    dsimp only
    split_ifs
    · refine .bind (makes_ask trivial fun _ => trivial) fun passed => ?_
      split_ifs
      · trivial
      · exact ih
    · trivial

theorem reconcileInstall_serves (hj : job.Continues j) : Serves job B (reconcileInstall j) := by
  refine .bind (makes_ask trivial fun _ => trivial) fun fuel =>
    .bind (watchRauc_serves j _) fun x => ?_
  obtain ⟨operation, same⟩ := x
  dsimp only
  split_ifs
  · refine .bind (runReply_makes trivial) fun last => ?_
    split_ifs
    · exact dropJob_serves (completeInstall_carries hj)
    · exact dropJob_serves (failInstall_carries hj _)
  · exact dropJob_serves (failInstall_carries hj _)
  · exact dropJob_serves (failInstall_carries hj _)

theorem targetBad_serves : Serves job B (targetBad job.target) :=
  targetBad_makes (fun _ h => h) trivial

theorem backToReady_serves (hB : B (.setEnv clearBatch)) (error : String) :
    Serves job B (backToReady job error) := by
  refine .bind (Prog.Makes.tryCatch ?_ fun e => ?_) fun safe => ?_
  · refine .bind targetBad_serves fun safe => .bind (Prog.Makes.when ?_) fun _ => trivial
    exact .bind (setEnv_makes hB trivial) fun _ => trivial
  · cases e <;> trivial
  · have hready := (Job.Continues.refl job).progressed .ready (.of .ready) (some error)
      job.validator job.rauc
    have hchecking := (Job.Continues.refl job).progressed .reconciling (.of .reconciling)
      (some (error ++ "; the system state needs checking")) job.validator job.rauc
    split_ifs
    · exact .bind (save_makes hready) fun _ => .bind (setGuard_makes (Or.inr ⟨nofun, rfl⟩))
        fun _ => trivial
    · exact .bind (save_makes hchecking) fun _ => .bind (setGuard_makes (Or.inr ⟨nofun, rfl⟩))
        fun _ => trivial

theorem reboot_serves : Serves job (HostCall.Activates job) reboot :=
  .bind (run_makes HostCall.Activates.reboot) fun _ => trivial

theorem intend_serves : Serves job (HostCall.Activates job) (intend O job) := by
  refine Prog.Makes.tryCatch ?_ fun e => ?_
  · refine .bind (serves_of_looks (revalidate_makes job)) fun _ => .bind readEnv_serves fun env =>
      .bind (makes_raiseIf _) fun _ => need_bind_makes fun image himage => ?_
    exact .bind (setEnv_makes (.intent himage) trivial) fun _ => trivial
  · cases e <;> trivial

theorem activateTarget_serves : Serves job (HostCall.Activates job) (activateTarget job) := by
  refine need_bind_makes fun target htarget =>
    .bind (run_makes (HostCall.Activates.target htarget)) fun _ => .bind readEnv_serves fun env => ?_
  split_ifs
  · exact backToReady_serves .clear _
  · refine .bind (setEnv_makes .activated trivial) fun _ => .bind (save_makes ?_) fun _ => reboot_serves
    exact (Job.Continues.refl job).progressed _ _ _ _ _

theorem activate_serves : Serves job (HostCall.Activates job) (activate O job) := by
  refine .bind ?_ fun already => ?_
  · unfold alreadyActivated
    split_ifs
    · exact .bind readEnv_serves fun _ => trivial
    · trivial
  · split_ifs
    · exact reboot_serves
    · refine .bind intend_serves fun refusal => ?_
      cases refusal with
      | some error => exact backToReady_serves .clear error
      | none => exact activateTarget_serves

theorem holdingLease_serves : Serves job (HostCall.Activates job) (holdingLease O job) := by
  refine .bind (setGuard_makes (Or.inr ⟨nofun, rfl⟩)) fun _ => ?_
  split
  · exact reconcileInstall_serves (.refl job)
  · exact activate_serves
  · exact work_serves (fun c hc => hc.activates) (.refl job)

theorem takeLease_serves (fuel : ℕ) : Serves job B (takeLease job fuel) := by
  induction fuel with
  | zero => trivial
  | succ fuel ih =>
    refine .bind (makes_ask trivial fun _ => trivial) fun acquired => ?_
    cases acquired with
    | lease => trivial
    | osError => trivial
    | busy msg =>
      dsimp only
      split_ifs
      · exact ih
      · trivial

/-- Every call of the worker of a job, whatever it is told. -/
theorem takeUp_serves : Serves job (HostCall.Activates job) (takeUp O job) := by
  refine .bind ?_ fun stop => ?_
  · unfold stopRequested
    split_ifs
    · exact cancelled_serves job
    · trivial
  · split_ifs
    · exact .bind (finish_serves (.refl job) _ _) fun _ => trivial
    · refine .bind (makes_ask trivial fun _ => trivial) fun fuel =>
        .bind (takeLease_serves _) fun refusal => ?_
      cases refusal with
      | some msg => exact .bind (finish_serves (.refl job) _ _) fun _ => trivial
      | none => exact .ensure holdingLease_serves (makes_ask trivial fun _ => trivial)

end Worker

end Epilykos.OsUpdate
