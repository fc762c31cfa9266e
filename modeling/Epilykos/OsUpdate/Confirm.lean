import Epilykos.OsUpdate.Rules

/-!
Confirmation across power losses. What a cut confirmation leaves is a trial in one of three
phases, or a finished confirmation. After the next boot the first two phases are completed by
another confirmation. `promoting` is not: the boot has spent an attempt, and only the phase
before it asks RAUC to restore them.
-/

namespace Epilykos.OsUpdate

open Program World

variable {O : Oracles} {id : JobId} {slot : Slot} {seq : ℕ} {w w' : World}

/-- The box runs the target of the pending job as its trial. -/
structure Trial (id : JobId) (slot : Slot) (seq : ℕ) (w : World) : Prop where
  booted : w.booted = slot
  pending : w.env.osPending = some id
  target : w.env.osTarget = some slot
  trial : w.env.osTrialStarted = some id
  sequence : w.env.osTargetSequence = some seq

/-- The trial just launched: an attempt is spent, nothing is confirmed. -/
structure Launched (id : JobId) (slot : Slot) (seq : ℕ) (w : World) : Prop
    extends Trial id slot seq w where
  phase : w.env.osPhase = some .activated
  spent : w.env.left slot < 3

/-- The end of a confirmation. -/
structure Confirmed (id : JobId) (seq : ℕ) (w : World) : Prop where
  journal : ∃ job, w.journal = some job ∧ job.id = id ∧ job.state = .confirmed
  floor : seq ≤ w.env.osFloor
  vars : w.env.NoJob
  guard : w.guard = some { state := .idle, job := none }

/-- Power is lost somewhere in a confirmation, and the loader starts the slot again. -/
def PowerLoss (O : Oracles) (id : JobId) (slot : Slot) (w w' : World) : Prop :=
  ∃ cut, Stops (Outcome O) (confirmCandidate id) w cut ∧ Boots cut slot w'

/-- A trial depends on the environment and the running slot only. -/
theorem Trial.congr (h : Trial id slot seq w) (henv : w'.env = w.env)
    (hbooted : w'.booted = w.booted) : Trial id slot seq w' where
  booted := hbooted.trans h.booted
  pending := henv ▸ h.pending
  target := henv ▸ h.target
  trial := henv ▸ h.trial
  sequence := henv ▸ h.sequence

/-! ### The uninterrupted confirmation -/

theorem run_promoteOver (base : Release) (same : Option Release) (w : World) :
    ∃ app, (promoteOver base same).run (serve O) w = (.ok (), { w with app }) := by
  unfold promoteOver
  split_ifs
  · exact ⟨w.app, rfl⟩
  · cases same with
    | none => exact ⟨_, rfl⟩
    | some r => exact ⟨_, rfl⟩

theorem run_promoteApp (w : World) :
    ∃ app, promoteApp.run (serve O) w = (.ok (), { w with app }) := by
  by_cases hbase : (w.baselines w.booted).imageId = "" ∨ (w.baselines w.booted).sequence = 0
  · refine ⟨w.app, ?_⟩
    simp [promoteApp, serve, answer, effect, hbase]
  · obtain ⟨app, happ⟩ := run_promoteOver (O := O) (w.baselines w.booted)
      (w.app.current.filter fun current => current.channel == (w.baselines w.booted).channel) w
    refine ⟨app, ?_⟩
    rw [← happ]
    simp [promoteApp, serve, answer, effect, hbase]

theorem run_rebuild {env : Env} {found : Option Job} (hid : env.osPending = some id)
    (hseq : env.osTargetSequence = some seq) :
    ∃ job journal, (rebuild env found).run (serve O) w = (.ok job, { w with journal }) ∧
      job.id = id := by
  cases hfound : found.filter fun job => job.id == id with
  | some job =>
    refine ⟨job, w.journal, ?_, ?_⟩
    · simp [rebuild, need, hid, hfound]
    · simpa using (Option.filter_eq_some_iff.mp hfound).2
  | none =>
    refine ⟨rebuiltJob env id seq, some (rebuiltJob env id seq), ?_, rfl⟩
    simp [rebuild, need, save, written, serve, answer, effect, hid, hseq, hfound]

theorem run_clearPending :
    clearPending.run (serve O) w =
      (.ok (w.env.write clearBatch), { w with env := w.env.write clearBatch }) :=
  run_setEnv (by simp [clearBatch, Env.assign, Env.holds])

theorem run_confirmIntent (h : Trial id slot seq w)
    (hphase : w.env.osPhase = some .activated ∨ w.env.osPhase = some .confirming) :
    ∃ w', (confirmIntent w.env).run (serve O) w = (.ok w'.env, w') ∧ Trial id slot seq w' ∧
      w'.env.osPhase = some .confirming := by
  rcases hphase with hp | hp
  · refine ⟨{ w with env := w.env.write [.osPhase (some .confirming)] }, ?_, ?_, rfl⟩
    · rw [confirmIntent, if_pos hp]
      exact run_setEnv (by simp [Env.assign, Env.holds])
    · exact ⟨h.booted, h.pending, h.target, h.trial, h.sequence⟩
  · refine ⟨w, ?_, h, hp⟩
    rw [confirmIntent, if_neg (by rw [hp]; decide)]
    rfl

theorem run_confirmSlot (h : Trial id slot seq w) (hphase : w.env.osPhase = some .confirming) :
    ∃ w', (confirmSlot w.env seq).run (serve O) w = (.ok w'.env, w') ∧ Trial id slot seq w' ∧
      w'.env.left slot = 3 ∧ seq ≤ w'.env.osFloor := by
  let marked : World := { w with env := w.env.setLeft w.booted 3 }
  let batch : List Assign := [.osFloor (max w.env.osFloor seq), .osPhase (some .promoting)]
  refine ⟨{ marked with env := marked.env.write batch }, ?_, ?_, ?_, ?_⟩
  · have hset : (setEnv batch).run (serve O) marked = _ :=
      run_setEnv (by simp [batch, Env.assign, Env.holds])
    simp only [confirmSlot, if_pos hphase, run, Prog.call_bind, Prog.ret_bind, run_call, serve,
      answer, effect, Prog.pure_eq, Bool.not_true, Bool.false_eq_true, not_false_eq_true,
      Prog.raiseIf_neg]
    exact hset
  · exact ⟨h.booted, h.pending, h.target, h.trial, h.sequence⟩
  · simp [marked, Env.setLeft, h.booted]
  · simpa [batch, marked, Env.assign] using le_max_right w.env.osFloor seq

theorem run_confirmJob (h : Trial id slot seq w) (hleft : w.env.left slot = 3) :
    ∃ w', (confirmJob w.env slot).run (serve O) w = (.ok (), w') ∧ w'.env = w.env ∧
      (∃ job, w'.journal = some job ∧ job.id = id ∧ job.state = .confirmed) ∧
      w'.guard = some { state := .idle, job := none } := by
  obtain ⟨app, happ⟩ := run_promoteApp (O := O) w
  obtain ⟨job, journal, hjob, hid⟩ : ∃ job journal, (rebuild w.env w.journal).run (serve O)
      { w with app } = (.ok job, { w with app, journal }) ∧ job.id = id :=
    run_rebuild h.pending h.sequence
  have hrun : (confirmJob w.env slot).run (serve O) w =
      (finish job .confirmed none).run (serve O) { w with app, journal } := by
    rw [confirmJob, Prog.raiseIf_neg (by simp [hleft]), Prog.ret_bind, run_bind_ok happ,
      run_bind_ok run_journal, run_bind_ok hjob]
  exact ⟨_, hrun.trans (run_finish rfl), rfl, ⟨job.finished .confirmed none, rfl, hid, rfl⟩, rfl⟩

/-- An uninterrupted confirmation from either of the first two phases. -/
theorem run_confirmCandidate (h : Trial id slot seq w)
    (hphase : w.env.osPhase = some .activated ∨ w.env.osPhase = some .confirming) :
    ∃ w', (confirmCandidate id).run (serve O) w = (.ok 0, w') ∧ Confirmed id seq w' := by
  obtain ⟨w₁, hintent, h₁, hp₁⟩ := run_confirmIntent (O := O) h hphase
  obtain ⟨w₂, hslot, h₂, hleft, hfloor⟩ := run_confirmSlot (O := O) h₁ hp₁
  obtain ⟨w₃, hjob, henv, hjournal, hguard⟩ := run_confirmJob (O := O) h₂ hleft
  have htrial : trialPhase w.env.osPhase = true := by rcases hphase with hp | hp <;> rw [hp] <;> rfl
  refine ⟨{ w₃ with env := w₃.env.write clearBatch }, ?_, hjournal, ?_, noJob_clear _, hguard⟩
  · have hstart : (confirmCandidate id).run (serve O) w = (do
        let env ← confirmIntent w.env
        let env ← confirmSlot env seq
        confirmJob env slot
        let _ ← clearPending
        return 0 : OsProg ℕ).run (serve O) w := by
      simp [confirmCandidate, readEnv, bootedSlot, need, serve, answer, effect, h.pending, h.target,
        h.trial, h.sequence, h.booted, htrial]
    rw [hstart, run_bind_ok hintent, run_bind_ok hslot, run_bind_ok hjob,
      run_bind_ok run_clearPending]
    rfl
  · rw [← henv] at hfloor
    simpa [clearBatch, Env.assign] using hfloor

/-- In the last phase the slot is not marked good again. -/
theorem run_confirmCandidate_promoting (h : Trial id slot seq w)
    (hphase : w.env.osPhase = some .promoting) (hleft : w.env.left slot ≠ 3) :
    (confirmCandidate id).run (serve O) w =
      (.error (.osUpdate "The confirmed system did not keep its attempts"), w) := by
  simp [confirmCandidate, confirmIntent, confirmSlot, confirmJob, readEnv, bootedSlot, need, serve,
    answer, effect, h.pending, h.target, h.trial, h.sequence, h.booted, hphase, hleft, trialPhase]

/-- Without a pending job there is nothing to confirm. -/
theorem run_confirmCandidate_settled (h : w.env.osPending = none) :
    (confirmCandidate id).run (serve O) w = (.error (.osUpdate notTheTrial), w) := by
  simp [confirmCandidate, readEnv, bootedSlot, serve, answer, effect, h]

/-! ### What a cut leaves -/

/-- A confirmation that has begun, and not ended. -/
structure Confirming (id : JobId) (slot : Slot) (seq : ℕ) (w : World) : Prop
    extends Trial id slot seq w where
  phase : trialPhase w.env.osPhase = true
  floor : w.env.osPhase = some .promoting → seq ≤ w.env.osFloor

/-- Wherever a confirmation stands. -/
def Underway (id : JobId) (slot : Slot) (seq : ℕ) (w : World) : Prop :=
  Confirming id slot seq w ∨ Confirmed id seq w

theorem Launched.confirming (h : Launched id slot seq w) : Confirming id slot seq w where
  toTrial := h.toTrial
  phase := by rw [h.phase]; rfl
  floor := by rw [h.phase]; intro hp; cases hp

theorem Confirming.phases (h : Confirming id slot seq w) :
    w.env.osPhase = some .activated ∨ w.env.osPhase = some .confirming ∨
      w.env.osPhase = some .promoting := by
  have hphase := h.phase
  cases hp : w.env.osPhase with
  | none => simp [hp, trialPhase] at hphase
  | some p => cases p <;> simp [hp, trialPhase] at hphase ⊢

theorem Confirming.congr (h : Confirming id slot seq w) (henv : w'.env = w.env)
    (hbooted : w'.booted = w.booted) : Confirming id slot seq w' where
  toTrial := h.toTrial.congr henv hbooted
  phase := henv ▸ h.phase
  floor := henv ▸ h.floor

theorem Confirming.mark {x : Ran} (h : Confirming id slot seq w)
    (hw : Outcome O w .markGoodBooted x w') : Confirming id slot seq w' := by
  rcases hw.2 with rfl | ⟨rfl, _⟩
  · exact ⟨⟨h.booted, h.pending, h.target, h.trial, h.sequence⟩, h.phase, h.floor⟩
  · exact h

variable {allowed : World → HostCall → Prop}

theorem promoteApp_makes : promoteApp.Makes (F := Host) fun c => c.keepsEnv = true := by
  have hover : ∀ base same, (promoteOver base same).Makes (F := Host) fun c => c.keepsEnv = true := by
    intro base same
    unfold promoteOver
    split_ifs
    · trivial
    · refine .bind ?_ fun _ => .bind ⟨rfl, fun _ => trivial⟩ fun _ => .bind (stored_makes _) fun _ =>
        .bind ⟨rfl, fun _ => trivial⟩ fun _ => .bind ⟨rfl, fun _ => trivial⟩ fun _ =>
        .bind (stored_makes _) fun _ => .bind ⟨rfl, fun _ => trivial⟩ fun _ => stored_makes _
      cases same with
      | none => trivial
      | some r => exact .bind ⟨rfl, fun _ => trivial⟩ fun _ => stored_makes _
  refine .bind ⟨rfl, fun _ => trivial⟩ fun base => ?_
  split_ifs
  · trivial
  · exact .bind ⟨rfl, fun _ => trivial⟩ fun _ => hover _ _

/-- The intent batch changes nothing but the phase. -/
theorem confirmIntent_alone (hC : ∀ w c, Confirming id slot seq w → allowed w c)
    (h : Confirming id slot seq w) :
    Alone O allowed (confirmIntent w.env)
      (fun env w' => env = w'.env ∧ Confirming id slot seq w' ∧ w'.env.osPhase ≠ some .activated)
      (fun _ => Confirming id slot seq) w := by
  unfold confirmIntent
  split_ifs with hp
  · have hset : Confirming id slot seq
        { w with env := w.env.write [.osPhase (some .confirming)] } :=
      ⟨⟨h.booted, h.pending, h.target, h.trial, h.sequence⟩, rfl, by intro hp; cases hp⟩
    refine setEnv_alone (hC _ _ h) (fun w' hw' => ?_) ⟨rfl, hset, by intro hp; cases hp⟩
    have h' : Confirming id slot seq w' := by
      rcases hw' with rfl | rfl
      · exact h
      · exact hset
    exact ⟨hC _ _ h', fun _ => h', fun _ => h'⟩
  · exact ⟨rfl, h, hp⟩

/-- The floor is raised in the batch that says `promoting`. -/
theorem confirmSlot_alone (hC : ∀ w c, Confirming id slot seq w → allowed w c)
    (h : Confirming id slot seq w) (hphase : w.env.osPhase ≠ some .activated) :
    Alone O allowed (confirmSlot w.env seq)
      (fun env w' => env = w'.env ∧ Confirming id slot seq w' ∧ w'.env.osPhase = some .promoting)
      (fun _ => Confirming id slot seq) w := by
  unfold confirmSlot
  split_ifs with hp
  · refine Safe.bind (run_alone (hC _ _ h) fun x w₁ hw₁ => ?_)
    have h₁ : Confirming id slot seq w₁ := h.mark hw₁
    refine ⟨fun _ => h₁, fun b => ?_⟩
    refine Safe.bind (safe_raiseIf.mpr ⟨fun _ => h₁, fun _ => ?_⟩)
    have hset : Confirming id slot seq
        { w₁ with env := w₁.env.write [.osFloor (max w.env.osFloor seq),
          .osPhase (some .promoting)] } :=
      ⟨⟨h₁.booted, h₁.pending, h₁.target, h₁.trial, h₁.sequence⟩, rfl,
        fun _ => le_max_right w.env.osFloor seq⟩
    refine setEnv_alone (hC _ _ h₁) (fun w' hw' => ?_) ⟨rfl, hset, rfl⟩
    have h' : Confirming id slot seq w' := by
      rcases hw' with rfl | rfl
      · exact h₁
      · exact hset
    exact ⟨hC _ _ h', fun _ => h', fun _ => h'⟩
  · rcases h.phases with hp' | hp' | hp'
    · exact (hphase hp').elim
    · exact (hp hp').elim
    · exact ⟨rfl, h, hp'⟩

/-- The journal says `confirmed`, and the guard is idle, before the variables go. -/
theorem confirmJob_alone (hC : ∀ w c, Confirming id slot seq w → allowed w c)
    (h : Confirming id slot seq w) :
    Alone O allowed (confirmJob w.env slot)
      (fun _ w' => Confirming id slot seq w' ∧ w'.env.osPhase = w.env.osPhase ∧
        (∃ job, w'.journal = some job ∧ job.id = id ∧ job.state = .confirmed) ∧
        w'.guard = some { state := .idle, job := none })
      (fun _ => Confirming id slot seq) w := by
  refine Safe.bind (safe_raiseIf.mpr ⟨fun _ => h, fun _ => ?_⟩)
  have hpromote := keepsEnv_alone (O := O) promoteApp_makes fun w' c he hb => hC w' c (h.congr he hb)
  refine Safe.bind (hpromote.mono (fun _ w₁ h₁ => ?_) fun _ w₁ h₁ => h.congr h₁.1 h₁.2)
  have hc₁ := h.congr h₁.1 h₁.2
  refine Safe.bind (journal_alone (hC _ _ hc₁) (fun _ => hc₁) ?_)
  have hrec : ∀ w₂, OnlyRecords w₁ w₂ → Confirming id slot seq w₂ :=
    fun w₂ h₂ => hc₁.congr h₂.env h₂.booted
  refine Safe.bind (rebuild_alone h.pending (fun c => hC _ c hc₁) (fun _ w₂ => hrec w₂) ?_)
  intro job w₂ hid hrebuilt
  have h₂ := hrebuilt.onlyRecords
  refine finish_alone rfl (fun w₃ c h₃ => hC w₃ c (hrec w₃ (h₂.trans h₃)))
    (fun _ w₃ h₃ => hrec w₃ (h₂.trans h₃)) fun w₃ h₃ hj hg => ?_
  refine ⟨hrec w₃ (h₂.trans h₃), ?_, ⟨_, hj, hid, rfl⟩, hg⟩
  rw [(h₂.trans h₃).env, h₁.1]

/-- The variables go last. -/
theorem clearConfirmed_alone (h : Confirming id slot seq w) (hfloor : seq ≤ w.env.osFloor)
    (hjournal : ∃ job, w.journal = some job ∧ job.id = id ∧ job.state = .confirmed)
    (hguard : w.guard = some { state := .idle, job := none }) :
    Alone O (fun t _ => Underway id slot seq t) clearPending
      (fun _ => Underway id slot seq) (fun _ => Underway id slot seq) w := by
  have hset : Underway id slot seq { w with env := w.env.write clearBatch } := by
    refine Or.inr ⟨hjournal, ?_, noJob_clear w.env, hguard⟩
    simpa [clearBatch, Env.assign] using hfloor
  refine clearPending_alone (Or.inl h) (fun w' hw' => ?_) hset
  have h' : Underway id slot seq w' := by
    rcases hw' with rfl | rfl
    · exact Or.inl h
    · exact hset
  exact ⟨h', fun _ => h', fun _ => h'⟩

/-- Wherever a confirmation is, it is underway. -/
theorem confirmCandidate_alone (h : Underway id slot seq w) :
    Alone O (fun t _ => Underway id slot seq t) (confirmCandidate id)
      (fun _ => Underway id slot seq) (fun _ => Underway id slot seq) w := by
  have hC : ∀ w (c : HostCall), Confirming id slot seq w → Underway id slot seq w :=
    fun _ _ => Or.inl
  refine Safe.bind (readEnv_alone h (fun _ => h) ?_)
  refine Safe.bind (bootedSlot_alone h (fun _ => h) ?_)
  refine Safe.bind (safe_raiseIf.mpr ⟨fun _ => h, fun hno => ?_⟩)
  rcases h with h | h
  · refine Safe.bind (need_alone (fun _ => hC _ .readEnv h) fun n hn => ?_)
    obtain rfl : seq = n := by simpa [h.sequence] using hn
    refine Safe.bind ((confirmIntent_alone hC h).mono ?_ fun _ _ => Or.inl)
    rintro env w₁ ⟨rfl, h₁, hp₁⟩
    refine Safe.bind ((confirmSlot_alone hC h₁ hp₁).mono ?_ fun _ _ => Or.inl)
    rintro env w₂ ⟨rfl, h₂, hp₂⟩
    have hbooted : w.booted = slot := h.booted
    rw [hbooted]
    refine Safe.bind ((confirmJob_alone hC h₂).mono ?_ fun _ _ => Or.inl)
    rintro _ w₃ ⟨h₃, hp₃, hjournal, hguard⟩
    exact Safe.bind (clearConfirmed_alone h₃ (h₃.floor (hp₃.trans hp₂)) hjournal hguard)
  · simp [h.vars.pending] at hno

/-! ### Power losses -/

/-- The start of the slot keeps what a cut left, and spends an attempt. -/
theorem Underway.boots (h : Underway id slot seq w) (hb : Boots w slot w') :
    Underway id slot seq w' ∧ w'.env.left slot < 3 := by
  have henv : w'.env = w.env.launch slot := hb.rest.env
  refine ⟨?_, ?_⟩
  · rcases h with h | h
    · have hphase : w'.env.osPhase = w.env.osPhase := by simp [henv]
      refine Or.inl ⟨⟨hb.rest.booted, ?_, ?_, ?_, ?_⟩, ?_, ?_⟩
      · simpa [henv] using h.pending
      · simpa [henv] using h.target
      · simpa [henv] using Env.launch_trial h.pending h.target
      · simpa [henv] using h.sequence
      · rw [hphase]
        exact h.phase
      · rw [hphase]
        simpa [henv] using h.floor
    · have hvars := h.vars
      refine Or.inr ⟨?_, ?_, ⟨?_, ?_, ?_, ?_, ?_, ?_, ?_⟩, ?_⟩
      · simpa [hb.rest.journal] using h.journal
      · simpa [henv] using h.floor
      · simpa [henv] using hvars.pending
      · simpa [henv] using hvars.target
      · simpa [henv] using hvars.from_
      · simpa [henv] using hvars.sequence
      · simpa [henv] using hvars.sha256
      · simpa [henv] using hvars.phase
      · simpa [henv, Env.launch_other (Or.inl hvars.pending)] using hvars.trial
      · simpa [hb.rest.guard] using h.guard
  · have hle := Env.accepted_left hb.accepted slot
    have hpos := Env.select_left hb.select
    simp only [henv, Env.launch_left, Function.update_self]
    omega

theorem Underway.powerLoss (h : Underway id slot seq w) (hloss : PowerLoss O id slot w w') :
    Underway id slot seq w' ∧ w'.env.left slot < 3 := by
  obtain ⟨cut, hcut, hboots⟩ := hloss
  exact ((confirmCandidate_alone h).stops hcut).boots hboots

/-- Any number of power losses. -/
theorem Launched.powerLosses (h : Launched id slot seq w)
    (hlosses : Relation.ReflTransGen (PowerLoss O id slot) w w') :
    Underway id slot seq w' ∧ w'.env.left slot < 3 := by
  induction hlosses with
  | refl => exact ⟨Or.inl h.confirming, h.spent⟩
  | tail _ hloss ih => exact ih.1.powerLoss hloss

/-- After any number of power losses the next confirmation completes the job exactly when
the last one that was cut had not reached the batch that says `promoting`. When that batch
was followed by the last one, the job is already complete and there is nothing to resume. -/
theorem confirmation_resumes (h : Launched id slot seq w)
    (hlosses : Relation.ReflTransGen (PowerLoss O id slot) w w') :
    ((∃ w'', (confirmCandidate id).run (serve O) w' = (.ok 0, w'') ∧ Confirmed id seq w'') ↔
      w'.env.osPhase = some .activated ∨ w'.env.osPhase = some .confirming) ∧
    (w'.env.osPhase = none → Confirmed id seq w') := by
  obtain ⟨hunder, hspent⟩ := h.powerLosses hlosses
  rcases hunder with hc | hdone
  · refine ⟨⟨?_, run_confirmCandidate hc.toTrial⟩, fun hp => ?_⟩
    · rintro ⟨w'', hrun, _⟩
      rcases hc.phases with hp | hp | hp
      · exact Or.inl hp
      · exact Or.inr hp
      · rw [run_confirmCandidate_promoting hc.toTrial hp (by omega)] at hrun
        cases hrun
    · have hphase := hc.phase
      simp [hp, trialPhase] at hphase
  · refine ⟨⟨?_, ?_⟩, fun _ => hdone⟩
    · rintro ⟨w'', hrun, _⟩
      rw [run_confirmCandidate_settled hdone.vars.pending] at hrun
      cases hrun
    · simp [hdone.vars.phase]

/-- The first boot of a trial of slot B. -/
def sampleTrial : World :=
  sampleWorld { sampleEnv with
    bootOrder := [.b, .a], left := fun | .a => 3 | .b => 2, osPending := some sampleId,
    osTarget := some .b, osFrom := some .a, osTargetSequence := some 12,
    osTargetSha256 := some sampleDigest, osPhase := some .activated,
    osTrialStarted := some sampleId } .b

theorem sampleTrial_launched : Launched sampleId .b 12 sampleTrial :=
  ⟨⟨rfl, rfl, rfl, rfl, rfl⟩, rfl, by decide⟩

/-- The state after the batch that says `promoting`. -/
def sampleCut : World := ((confirmCandidate sampleId).after (serve sampleOracles) 6 sampleTrial).1

/-- The same after the next start of slot B. -/
def sampleLost : World := { sampleCut with env := sampleCut.env.launch .b, booted := .b }

theorem sampleLost_powerLoss : PowerLoss sampleOracles sampleId .b sampleTrial sampleLost :=
  ⟨sampleCut, stops_after (serve_follows _) _ _ _,
    ⟨by decide +kernel, by decide +kernel, rfl, rfl, rfl, rfl, rfl, rfl, rfl, rfl, rfl, rfl, rfl⟩⟩

theorem confirmation_resumes_sample :
    ((∃ w, (confirmCandidate sampleId).run (serve sampleOracles) sampleLost = (.ok 0, w) ∧
        Confirmed sampleId 12 w) ↔
      sampleLost.env.osPhase = some .activated ∨ sampleLost.env.osPhase = some .confirming) ∧
    (sampleLost.env.osPhase = none → Confirmed sampleId 12 sampleLost) :=
  confirmation_resumes sampleTrial_launched (.single sampleLost_powerLoss)

/-- Power lost right after the floor is raised: the confirmation does not resume. -/
theorem confirmation_not_resumed :
    Launched sampleId .b 12 sampleTrial ∧
    Relation.ReflTransGen (PowerLoss sampleOracles sampleId .b) sampleTrial sampleLost ∧
    sampleLost.env.osFloor = 12 ∧
    ¬ ∃ w, (confirmCandidate sampleId).run (serve sampleOracles) sampleLost = (.ok 0, w) ∧
      Confirmed sampleId 12 w := by
  refine ⟨sampleTrial_launched, .single sampleLost_powerLoss, by decide +kernel, ?_⟩
  rintro ⟨w, hrun, _⟩
  have htrial : Trial sampleId .b 12 sampleLost := ⟨rfl, rfl, rfl, rfl, rfl⟩
  rw [run_confirmCandidate_promoting htrial rfl (by decide +kernel)] at hrun
  cases hrun

end Epilykos.OsUpdate
