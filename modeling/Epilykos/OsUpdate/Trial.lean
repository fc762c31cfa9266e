import Epilykos.OsUpdate.Accepted
import Epilykos.OsUpdate.Confirm

/-!
The trial of an activated target, between the activation and its end. The loader and the
supervisor take every launch of the pending target for the trial, the confirmation only that of
a target whose activation got as far as its last batch. A trial that is never confirmed comes
back to the source as long as the source has an attempt left, which nothing looks at before the
target is activated.
-/

namespace Epilykos.OsUpdate

open Program World

variable {O : Oracles} {w w' : World} {job : Job} {t : Slot} {id : JobId}

/-! ### What an activation leaves in the environment -/

/-- The record of a pending job is that of an activation. -/
def Recorded (w : World) : Prop :=
  ∀ id, w.env.osPending = some id →
    w.env.osPhase = some .activationIntent ∨ w.env.osPhase = some .activated

theorem Recorded.congr (h : Recorded w) (hpending : w'.env.osPending = w.env.osPending)
    (hphase : w'.env.osPhase = w.env.osPhase) : Recorded w' := by
  intro id hid
  rw [hphase]
  exact h id (hpending ▸ hid)

theorem Recorded.activates {c : HostCall} {x : Ans c} (h : Recorded w)
    (hc : c.ofWorker job (HostCall.Activates job)) (ho : Outcome O w c x w') : Recorded w' := by
  obtain rfl | ⟨rfl, -⟩ := ho.2
  · by_cases hkeeps : c.keepsEnv = true
    · have henv := ho.env hkeeps
      exact h.congr (congrArg Env.osPending henv) (congrArg Env.osPhase henv)
    · cases c with
      | setEnv batch =>
        change Recorded { w with env := w.env.write batch }
        have hbatch : HostCall.Activates job (.setEnv batch) := hc
        cases hbatch with
        | trust raw sig epoch => exact h.congr rfl rfl
        | intent himage => exact fun _ _ => Or.inl rfl
        | activated => exact fun _ _ => Or.inr rfl
        | clear =>
          intro id hid
          rw [(noJob_clear w.env).pending] at hid
          cases hid
      | markBad s => exact h.congr rfl rfl
      | markActive s => exact h.congr rfl rfl
      | markActiveBooted => exact (hc : False).elim
      | markGoodBooted => exact (hc : False).elim
      | _ => exact (hkeeps rfl).elim
  · exact h

/-- A cut activation of a job, or a start of the box by the loader. -/
inductive TrialStep (O : Oracles) (w w' : World) : Prop
  | activation (job : Job) (h : Stops (Outcome O) (activate O job) w w')
  | boots (s : Slot) (h : Boots w s w')

theorem Recorded.trialStep (h : Recorded w) (hstep : TrialStep O w w') : Recorded w' := by
  cases hstep with
  | activation job hcut =>
    have hsafe : Alone O (fun w _ => Recorded w) (activate O job) (fun _ => Recorded)
        (fun _ => Recorded) w := by
      refine activate_serves.safe ?_ ?_ h
      · rintro w₁ _ rfl h₁
        exact h₁
      · exact fun w₁ c hc h₁ => ⟨h₁, fun x w₂ ho => h₁.activates hc ho⟩
    exact hsafe.stops hcut
  | boots s hboots =>
    refine h.congr ?_ ?_
    · rw [hboots.rest.env, Env.launch_osPending]
    · rw [hboots.rest.env, Env.launch_osPhase]

theorem recorded_reached (hstart : w.env.NoJob)
    (hreach : Relation.ReflTransGen (TrialStep O) w w') : Recorded w' := by
  induction hreach with
  | refl =>
    intro id hid
    rw [hstart.pending] at hid
    cases hid
  | tail _ hstep ih => exact ih.trialStep hstep

/-! ### What the confirmation refuses -/

/-- Whatever it is answered, the program does not say that this is not the trial. -/
abbrev Accepts {α : Type} (p : OsProg α) : Prop :=
  Local (F := Host) (fun _ _ => True) (fun _ => True) p (fun _ => True)
    fun e => e ≠ .osUpdate notTheTrial

section Accepts

variable {α β : Type}

theorem accepts_bind {p : OsProg α} {f : α → OsProg β} (hp : Accepts p) (hf : ∀ a, Accepts (f a)) :
    Accepts (p >>= f) := local_bind (hp.mono (fun a _ _ => hf a) fun _ _ h => h)

theorem accepts_ask {c : HostCall} {k : Ans c → OsProg α} (hk : ∀ x, Accepts (k x)) :
    Accepts (.call c k) := local_call trivial fun x _ => hk x

theorem accepts_raiseIf {bad : Prop} [Decidable bad] {e : Err} (he : e ≠ .osUpdate notTheTrial) :
    Accepts (Prog.raiseIf bad e) := safe_raiseIf.mpr ⟨fun _ => he, fun _ => trivial⟩

theorem accepts_need (x : Option α) : Accepts (need x) := by
  cases x with
  | none => exact nofun
  | some a => trivial

theorem accepts_run {program : String} {c : HostCall} {g : Ans c → Ran}
    (hne : Err.osUpdate (program ++ " did not answer") ≠ .osUpdate notTheTrial) :
    Accepts (run program (.call c fun x => .ret (g x))) :=
  accepts_bind (accepts_ask fun _ => trivial) fun x => by
    cases x with
    | noAnswer => exact hne
    | _ => trivial

theorem accepts_written (x : Wrote) : Accepts (written x) := by
  cases x with
  | done => trivial
  | failed => exact nofun
  | noLayout => exact by simp [written, notTheTrial]

theorem accepts_stored (x : Bool) : Accepts (stored x) := by
  cases x with
  | true => trivial
  | false => exact nofun

theorem accepts_readEnv : Accepts readEnv :=
  accepts_bind (accepts_ask fun _ => trivial) fun x => by
    cases x with
    | none => exact nofun
    | some env => trivial

theorem accepts_setEnv (batch : List Assign) : Accepts (setEnv batch) :=
  accepts_bind (accepts_run (by decide)) fun _ =>
    accepts_bind (accepts_raiseIf (by decide)) fun _ => accepts_bind accepts_readEnv fun _ =>
    accepts_bind (accepts_raiseIf (by decide)) fun _ => trivial

theorem accepts_save (job : Job) : Accepts (save job) :=
  accepts_bind (accepts_ask fun _ => trivial) accepts_written

theorem accepts_journal : Accepts journal :=
  accepts_bind (accepts_ask fun _ => trivial) fun x => by
    cases x with
    | unreadable => exact by simp [notTheTrial]
    | _ => trivial

theorem accepts_finish (job : Job) (state : JobState) (error : Option String) :
    Accepts (finish job state error) := by
  refine accepts_bind (accepts_save _) fun _ => ?_
  by_cases hterminal : state.terminal = true
  · rw [Prog.when_pos hterminal]
    exact accepts_bind (accepts_bind (accepts_ask fun _ => trivial) accepts_stored) fun _ =>
      accepts_bind (accepts_ask fun _ => trivial) accepts_written
  · rw [Prog.when_neg hterminal]
    trivial

theorem accepts_call (c : HostCall) : Accepts (ask c) := accepts_ask fun _ => trivial

theorem accepts_promoteApp : Accepts promoteApp := by
  have hover : ∀ base same, Accepts (promoteOver base same) := by
    intro base same
    unfold promoteOver
    split_ifs
    · trivial
    · refine accepts_bind ?_ fun _ => accepts_bind (accepts_call _) fun _ =>
        accepts_bind (accepts_stored _) fun _ => accepts_bind (accepts_call _) fun _ =>
        accepts_bind (accepts_call _) fun _ => accepts_bind (accepts_stored _) fun _ =>
        accepts_bind (accepts_call _) fun _ => accepts_stored _
      cases same with
      | none => trivial
      | some r => exact accepts_bind (accepts_call _) fun _ => accepts_stored _
  refine accepts_bind (accepts_call _) fun base => ?_
  split_ifs
  · trivial
  · exact accepts_bind (accepts_call _) fun _ => hover _ _

theorem accepts_rebuild (env : Env) (found : Option Job) : Accepts (rebuild env found) := by
  refine accepts_bind (accepts_need _) fun pending => ?_
  split
  · trivial
  · exact accepts_bind (accepts_need _) fun _ => accepts_bind (accepts_save _) fun _ => trivial

theorem accepts_confirmIntent (env : Env) : Accepts (confirmIntent env) := by
  unfold confirmIntent
  split_ifs
  · exact accepts_setEnv _
  · trivial

theorem accepts_confirmSlot (env : Env) (sequence : ℕ) : Accepts (confirmSlot env sequence) := by
  unfold confirmSlot
  split_ifs
  · exact accepts_bind (accepts_run (by decide)) fun _ =>
      accepts_bind (accepts_raiseIf (by decide)) fun _ => accepts_setEnv _
  · trivial

theorem accepts_confirmJob (env : Env) (slot : Slot) : Accepts (confirmJob env slot) :=
  accepts_bind (accepts_raiseIf (by decide)) fun _ => accepts_bind accepts_promoteApp fun _ =>
    accepts_bind accepts_journal fun _ => accepts_bind (accepts_rebuild _ _) fun _ =>
    accepts_finish _ _ _

end Accepts

/-- The supervisor hands the job to the confirmation, which may say that this is not its
trial. -/
def Refused (O : Oracles) (id : JobId) (w : World) : Prop :=
  isTrial w.env w.booted = some id ∧
    ∃ w', Runs (· = ·) (Outcome O) (w, confirmCandidate id) (w', .raise (.osUpdate notTheTrial))

/-- The target of the pending job just started. -/
structure Started (id : JobId) (t : Slot) (w : World) : Prop where
  booted : w.booted = t
  pending : w.env.osPending = some id
  target : w.env.osTarget = some t
  trial : w.env.osTrialStarted = some id

theorem Boots.started (h : Boots w t w') (hpending : w.env.osPending = some id)
    (htarget : w.env.osTarget = some t) : Started id t w' := by
  refine ⟨h.rest.booted, ?_, ?_, ?_⟩
  · rw [h.rest.env, Env.launch_osPending]
    exact hpending
  · rw [h.rest.env, Env.launch_osTarget]
    exact htarget
  · rw [h.rest.env]
    exact Env.launch_trial hpending htarget

theorem Started.refused (h : Started id t w) (hphase : trialPhase w.env.osPhase = false) :
    Refused O id w := by
  refine ⟨?_, w, ?_⟩
  · simp [isTrial, h.booted, h.pending, h.target, h.trial]
  · have hrun := runs_run (serve_follows O) (confirmCandidate id) w
    have hrefuse : (confirmCandidate id).run (serve O) w = (.error (.osUpdate notTheTrial), w) := by
      simp [confirmCandidate, readEnv, bootedSlot, serve, answer, effect, hphase]
    rw [hrefuse] at hrun
    exact hrun

theorem Started.not_refused (h : Started id t w) (hphase : trialPhase w.env.osPhase = true) :
    ¬ Refused O id w := by
  rintro ⟨-, w', hrun⟩
  have hsafe : Alone O (fun _ _ => True) (confirmCandidate id) (fun _ _ => True)
      (fun e _ => e ≠ .osUpdate notTheTrial) w := by
    refine Safe.bind (readEnv_alone trivial (fun _ => nofun) ?_)
    refine Safe.bind (Safe.bind (safe_call.mpr ⟨trivial, fun x w₁ ho => ?_⟩))
    obtain rfl : w = w₁ := (ho.reads rfl).symm
    obtain rfl | rfl : x = none ∨ x = some w.booted := ho.1
    · exact by simp [notTheTrial]
    refine safe_ret.mpr ?_
    have htrial : ¬ (w.env.osPending ≠ some id ∨ w.env.osTarget ≠ some w.booted ∨
        w.env.osTrialStarted ≠ some id ∨ (!trialPhase w.env.osPhase) = true) := by
      simp [h.booted, h.pending, h.target, h.trial, hphase]
    refine Safe.bind (safe_raiseIf.mpr ⟨fun hno => absurd hno htrial, fun _ => ?_⟩)
    have hrest : Accepts (do
        let sequence ← need w.env.osTargetSequence
        let env ← confirmIntent w.env
        let env ← confirmSlot env sequence
        confirmJob env w.booted
        let _ ← clearPending
        return 0 : OsProg ℕ) :=
      accepts_bind (accepts_need _) fun sequence => accepts_bind (accepts_confirmIntent _) fun _ =>
        accepts_bind (accepts_confirmSlot _ sequence) fun _ =>
        accepts_bind (accepts_confirmJob _ _) fun _ => accepts_bind (accepts_setEnv _) fun _ => trivial
    refine (hrest.safe (I := fun _ => True) (fun _ _ _ _ => trivial) (fun _ _ _ _ _ _ => trivial)
      (fun _ _ _ _ => ⟨trivial, fun _ _ _ => trivial⟩) trivial).mono (fun _ _ _ => trivial) ?_
    exact fun _ _ he => he.1
  exact hsafe.exception hrun rfl

/-- After any cut activations and starts of the box, the trial that the loader launches is one
the confirmation takes exactly when the activation got as far as its last batch. -/
theorem trial_confirmable_iff {w₀ : World} (hstart : w₀.env.NoJob)
    (hreach : Relation.ReflTransGen (TrialStep O) w₀ w) (hlaunch : Boots w t w')
    (hpending : w.env.osPending = some id) (htarget : w.env.osTarget = some t) :
    ¬ Refused O id w' ↔ w.env.osPhase = some .activated := by
  have hstarted := hlaunch.started hpending htarget
  have hsame : w'.env.osPhase = w.env.osPhase := by
    rw [hlaunch.rest.env, Env.launch_osPhase]
  obtain hphase | hphase := recorded_reached hstart hreach id hpending
  · rw [hphase] at hsame
    constructor
    · intro hnot
      exact absurd (hstarted.refused (by rw [hsame]; rfl)) hnot
    · intro hactivated
      rw [hphase] at hactivated
      cases hactivated
  · rw [hphase] at hsame
    exact ⟨fun _ => hphase, fun _ => hstarted.not_refused (by rw [hsame]; rfl)⟩

/-- The loader launches slot B after the activation was cut. -/
def cutTrial (n : ℕ) : World :=
  { signedCut n with env := (signedCut n).env.launch .b, booted := .b }

theorem cutTrial_boots {n : ℕ} (haccepted : (signedCut n).env.accepted = true)
    (hselect : (signedCut n).env.select = some .b) : Boots (signedCut n) .b (cutTrial n) :=
  ⟨haccepted, hselect, ⟨rfl, rfl, rfl, rfl, rfl, rfl, rfl, rfl, rfl, rfl, rfl⟩⟩

theorem trial_confirmable_sample :
    ¬ Refused signedOracles sampleId (cutTrial 20) ↔
      (signedCut 20).env.osPhase = some .activated := by
  obtain ⟨hpending, htarget, -, -, haccepted, hselect⟩ := signedCut_activated
  have hstart : signedWorld.env.NoJob := ⟨rfl, rfl, rfl, rfl, rfl, rfl, rfl⟩
  exact trial_confirmable_iff hstart (.single (.activation _ (signedCut_stops 20)))
    (cutTrial_boots haccepted hselect) hpending htarget

/-- Power lost between the mark and the last batch: the trial is launched and refused. -/
theorem trial_refused :
    signedWorld.env.NoJob ∧
    Relation.ReflTransGen (TrialStep signedOracles) signedWorld (signedCut 18) ∧
    Boots (signedCut 18) .b (cutTrial 18) ∧ Refused signedOracles sampleId (cutTrial 18) := by
  obtain ⟨-, hpending, htarget, hphase, -, -, haccepted, hselect⟩ := signedCut_marked
  have hboots : Boots (signedCut 18) .b (cutTrial 18) := cutTrial_boots haccepted hselect
  refine ⟨⟨rfl, rfl, rfl, rfl, rfl, rfl, rfl⟩, .single (.activation _ (signedCut_stops 18)),
    hboots, (hboots.started hpending htarget).refused ?_⟩
  change trialPhase ((signedCut 18).env.launch .b).osPhase = false
  rw [Env.launch_osPhase, hphase]
  rfl

end Epilykos.OsUpdate
