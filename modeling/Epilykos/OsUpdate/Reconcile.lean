import Epilykos.OsUpdate.Rules

/-!
The guard after a start of hostd. Every branch of reconcile_boot that returns writes the
guard that belongs to the journal, but for one: a rollback that an earlier, cut run already
saved is not finished again, and finishing is what makes the guard idle.
-/

namespace Epilykos.OsUpdate

open Program World

variable {O : Oracles} {w w' : World} {job : Job} {slot : Slot} {pending : JobId}

/-! ### Going back to ready -/

/-- The target may have been marked bad. -/
def Marked (target : Option Slot) (env env' : Env) : Prop :=
  env' = env ∨ ∃ s, target = some s ∧ env' = env.setLeft s 0

/-- What stands when the target has been shown non-bootable, and when it has not. -/
def Shown (w : World) (target : Option Slot) (w' : World) : Bool → Prop
  | true => ∃ s env, target = some s ∧ Marked target w.env env ∧ env.left s = 0 ∧
      w' = { w with env := env.write clearBatch }
  | false => ∃ env, w' = { w with env }

/-- An activation that did not happen ends ready with a target that cannot start and no job
variable, or reconciling. -/
theorem backToReady_ends {error : String} {Q : ℕ → World → Prop}
    (hready : ∀ s env, job.target = some s → Marked job.target w.env env → env.left s = 0 →
      Q 1 { w with
        env := env.write clearBatch
        journal := some { job.step .ready with error := some error }
        guard := some { state := .pending, job := some job.id } })
    (hrec : ∀ env msg, Q 1 { w with
      env
      journal := some { job.step .reconciling with error := some msg }
      guard := some { state := .reconciling, job := some job.id } }) :
    Ends O (backToReady job error) Q w := by
  refine Safe.bind (Safe.mono (Q := fun safe w' => Shown w job.target w' safe)
    (E := fun _ _ => True) ?_ ?_ fun _ _ _ => trivial)
  · refine Safe.tryCatch (Safe.mono (Q := fun safe w' => Shown w job.target w' safe)
      (E := fun _ w' => ∃ env, w' = { w with env }) ?_ (fun _ _ h => h) ?_)
    · cases htarget : job.target with
      | none => exact ⟨w.env, rfl⟩
      | some s =>
        refine Safe.bind (targetBad_alone trivial fun w₁ hw₁ => ?_)
        have henv : ∃ env, Marked job.target w.env env ∧ w₁ = { w with env } := by
          rcases hw₁ with rfl | rfl
          · exact ⟨w₁.env, Or.inl rfl, rfl⟩
          · exact ⟨_, Or.inr ⟨s, htarget, rfl⟩, rfl⟩
        obtain ⟨env, hmarked, rfl⟩ := henv
        refine ⟨trivial, fun _ => ⟨env, rfl⟩, fun _ => ⟨env, rfl⟩, ?_⟩
        by_cases hleft : env.left s = 0
        · have hsafe : (env.left s == 0) = true := by simpa using hleft
          simp only [hsafe, Prog.when_pos]
          refine Safe.bind (Safe.bind (clearPending_alone trivial (fun w₂ hw₂ => ?_) ?_))
          · have hback : ∃ env, w₂ = { w with env } := by
              rcases hw₂ with rfl | rfl
              · exact ⟨env, rfl⟩
              · exact ⟨_, rfl⟩
            exact ⟨trivial, fun _ => hback, fun _ => hback⟩
          · exact ⟨s, env, rfl, htarget ▸ hmarked, hleft, rfl⟩
        · have hsafe : (env.left s == 0) = false := by simpa using hleft
          simp only [hsafe, Bool.false_eq_true, not_false_eq_true, Prog.when_neg]
          exact ⟨env, rfl⟩
    · rintro e w₁ ⟨env, rfl⟩
      cases e with
      | osUpdate msg => exact ⟨env, rfl⟩
      | trust msg => exact ⟨env, rfl⟩
      | _ => trivial
  · intro safe w₁ hshown
    cases safe with
    | true =>
      obtain ⟨s, env, htarget, hmarked, hleft, rfl⟩ := hshown
      exact Safe.bind (save_ends (Safe.bind (setGuard_ends (hready s env htarget hmarked hleft))))
    | false =>
      obtain ⟨env, rfl⟩ := hshown
      exact Safe.bind (save_ends (Safe.bind (setGuard_ends (hrec env _))))

/-! ### The guard and the journal -/

/-- The state the guard reads as. -/
def World.guardState (w : World) : GuardState :=
  (w.guard.getD { state := .reconciling, job := none }).state

/-- The guard that belongs to a journal. -/
def guardFor : Option Job → GuardState
  | none => .idle
  | some job =>
    if job.state.terminal then .idle
    else if job.state = .ready ∨ job.state = .trying then .pending
    else if job.state = .reconciling then .reconciling
    else .active

/-- The guard says what the journal says, or that the target could not be shown
non-bootable. -/
def GuardAgrees (w : World) : Prop :=
  w.guardState = guardFor w.journal ∨
    (w.guardState = .reconciling ∧ ∃ s, w.env.osTarget = some s ∧ w.env.left s ≠ 0)

/-- A rollback that was saved, and cut before the guard was. -/
structure RollbackSaved (w : World) : Prop where
  rollback : ∃ pending, w.env.osPending = some pending ∧ w.env.osTrialStarted = some pending ∧
    ∃ job, w.journal = some job ∧ job.id = pending ∧ job.state = .rolledBack
  target : w.env.osTarget ≠ some w.booted
  source : w.env.osFrom = some w.booted
  guard : w.guardState ≠ .idle

theorem GuardAgrees.of_records {g : Guard} (hguard : w.guard = some g)
    (h : g.state = guardFor w.journal) : GuardAgrees w := by
  refine Or.inl ?_
  rw [World.guardState, hguard]
  exact h

/-- Starting the worker touches neither the journal nor the guard. -/
theorem startWorker_ends (h : GuardAgrees w) : Ends O startWorker (fun _ => GuardAgrees) w := by
  refine Safe.bind (run_ends fun b w' hw' => ?_)
  refine safe_raiseIf.mpr ⟨fun _ => trivial, fun _ => ?_⟩
  rcases hw' with rfl | rfl
  · exact h
  · simp only [effect]
    split_ifs <;> exact h

/-- An interrupted job resumes, unless it is a trial. -/
theorem reconcile_ends (hworker : w.workerActive = false)
    (htrying : ∀ job, w.journal = some job → job.state ≠ .trying) :
    Ends O reconcile (fun _ => GuardAgrees) w := by
  refine Safe.bind (layout_ends (Safe.bind (Safe.tryCatch ?_)))
  refine journal_alone trivial (fun msg => ?_) ?_
  · exact raises_ends
  · cases hj : w.journal with
    | none => exact setGuard_ends (.of_records rfl (by simp [guardFor, hj]))
    | some job =>
      by_cases hterm : job.state.terminal = true
      · simp only [hterm, ↓reduceIte]
        exact setGuard_ends (.of_records rfl (by simp [guardFor, hj, hterm]))
      · simp only [hterm, Bool.false_eq_true, ↓reduceIte]
        have hactive : job.state ≠ .ready → job.state ≠ .reconciling →
            Ends O (do
              setGuard .active (some job.id)
              .when (!(← workerActive)) startWorker) (fun _ => GuardAgrees) w := by
          intro hready hrec
          have hagrees : GuardAgrees { w with guard := some { state := .active, job := some job.id } } :=
            .of_records rfl (by simp [guardFor, hj, hterm, hready, hrec, htrying job hj])
          refine Safe.bind (setGuard_ends (Safe.bind (workerActive_ends ?_)))
          simp only [hworker, Bool.not_false, Prog.when_pos]
          exact startWorker_ends hagrees
        cases hstate : job.state with
        | ready =>
          exact setGuard_ends (.of_records rfl (by simp [guardFor, hj, hstate, JobState.terminal]))
        | reconciling =>
          exact setGuard_ends (.of_records rfl (by simp [guardFor, hj, hstate, JobState.terminal]))
        | _ => exact hactive (by simp [hstate]) (by simp [hstate])

/-! ### The branches of a boot -/

theorem backToReady_agrees {error : String} :
    Ends O (backToReady job error) (fun _ => GuardAgrees) w := by
  refine backToReady_ends (fun s env _ _ _ => ?_) fun env msg => ?_
  · exact .of_records rfl (by simp [guardFor, Job.step, JobState.terminal])
  · exact .of_records rfl (by simp [guardFor, Job.step, JobState.terminal])

theorem finish_agrees {state : JobState} {error : Option String} (hstate : state.terminal = true) :
    Ends O (finish job state error) (fun _ => GuardAgrees) w := by
  refine finish_ends hstate fun w' _ hjournal hguard => ?_
  exact GuardAgrees.of_records hguard (by simp [hjournal, guardFor, Job.finished, hstate])

theorem reconcileTrial_agrees (hid : w.env.osPending = some pending) :
    Ends O (reconcileTrial w.env w.journal) (fun _ => GuardAgrees) w := by
  refine Safe.bind (rebuild_ends hid fun job w₁ _ hrebuilt => ?_)
  have hj := hrebuilt.journal
  by_cases hconfirmed : job.state = .confirmed
  · simp only [hconfirmed, ↓reduceIte]
    refine Safe.bind (clearPending_ends (Safe.bind (setGuard_ends ?_)))
    exact GuardAgrees.of_records rfl (by simp [guardFor, hj, hconfirmed, JobState.terminal])
  · simp only [hconfirmed, ↓reduceIte]
    refine Safe.bind (save_ends (Safe.bind (setGuard_ends ?_)))
    exact GuardAgrees.of_records rfl (by simp [guardFor, Job.step, JobState.terminal])

/-- A guard left in `reconciling` because the target could still start. -/
theorem GuardAgrees.of_unshown {s : Slot} {id : Option JobId} (htarget : w.env.osTarget = some s)
    (hleft : (w.env.left s == 0) = false) :
    GuardAgrees { w with guard := some { state := .reconciling, job := id } } :=
  Or.inr ⟨rfl, s, htarget, by simpa using hleft⟩

/-- Marking a slot bad leaves the job variables. -/
theorem osTarget_marked {s : Slot} {w₁ : World}
    (h : w₁ = w ∨ w₁ = { w with env := w.env.setLeft s 0 }) : w₁.env.osTarget = w.env.osTarget := by
  rcases h with rfl | rfl <;> rfl

/-- The journal has ended and the guard is idle. -/
def Settled (w : World) : Prop := w.guardState = .idle ∧ guardFor w.journal = .idle

theorem Settled.congr (h : Settled w) (hjournal : w'.journal = w.journal)
    (hguard : w'.guard = w.guard) : Settled w' := by
  rw [Settled, World.guardState, hjournal, hguard]
  exact h

theorem Settled.agrees (h : Settled w) : GuardAgrees w := Or.inl (h.1.trans h.2.symm)

theorem finish_settled {state : JobState} {error : Option String} (hstate : state.terminal = true) :
    Ends O (finish job state error) (fun _ => Settled) w := by
  refine finish_ends hstate fun w' _ hjournal hguard => ?_
  exact ⟨by simp [World.guardState, hguard], by simp [hjournal, guardFor, Job.finished, hstate]⟩

theorem clearPending_settled (h : Settled w) : Ends O clearPending (fun _ => Settled) w :=
  clearPending_ends (h.congr rfl rfl)

/-- A rollback ends with an idle guard, when one that was already saved finds it idle. -/
theorem reconcileRollback_agrees (hid : w.env.osPending = some pending)
    (hrolled : ∀ job, w.journal = some job → job.id = pending → job.state = .rolledBack →
      w.guardState = .idle) :
    Ends O (reconcileRollback w.env w.journal w.booted pending) (fun _ => GuardAgrees) w := by
  refine Safe.bind (rebuild_ends hid fun job w₁ hjob hrebuilt => ?_)
  have henv := hrebuilt.onlyRecords.env
  refine Safe.bind (targetBad_ends fun s w₂ htarget hw₂ => ?_)
  have htarget₂ : w₂.env.osTarget = some s := by rw [osTarget_marked hw₂, henv, htarget]
  cases hleft : w₂.env.left s == 0 with
  | false =>
    refine Safe.bind (setGuard_ends ?_)
    exact .of_unshown htarget₂ hleft
  | true =>
    have hend : ∀ w₃ : World, w₃.journal = w₂.journal → w₃.guard = w₂.guard →
        Ends O (do
          .when (job.state ≠ .rolledBack) do
            finish job .rolledBack
              (some "The new version did not start properly, so the previous one is running")
          let _ ← clearPending
          return some JobState.rolledBack) (fun _ => GuardAgrees) w₃ := by
      intro w₃ hj₃ hg₃
      by_cases hstate : job.state = .rolledBack
      · have hsame : w₃.journal = some job ∧ w₃.guardState = .idle := by
          rcases hrebuilt with ⟨hfound, rfl⟩ | ⟨htrying, _⟩
          · have hrec : w₂.journal = w₁.journal ∧ w₂.guard = w₁.guard := by
              rcases hw₂ with rfl | rfl <;> exact ⟨rfl, rfl⟩
            refine ⟨hj₃.trans (hrec.1.trans hfound), ?_⟩
            rw [World.guardState, hg₃, hrec.2]
            exact hrolled job hfound hjob hstate
          · rw [hstate] at htrying
            cases htrying
        have hsettled : Settled w₃ := ⟨hsame.2, by simp [hsame.1, guardFor, hstate, JobState.terminal]⟩
        simp only [hstate, ne_eq, not_true_eq_false, not_false_eq_true, Prog.when_neg, Prog.ret_bind]
        exact Safe.bind ((clearPending_settled hsettled).mono (fun _ _ h => h.agrees) fun _ _ h => h)
      · simp only [hstate, ne_eq, not_false_eq_true, Prog.when_pos]
        refine Safe.bind ((finish_settled rfl).mono (fun _ w₄ h₄ => ?_) fun _ _ h => h)
        exact Safe.bind ((clearPending_settled h₄).mono (fun _ _ h => h.agrees) fun _ _ h => h)
    simp only [Bool.not_true, Bool.false_eq_true, ↓reduceIte]
    by_cases hfirst : w.env.bootOrder.head? = some w.booted
    · simp only [hfirst, ne_eq, not_true_eq_false, not_false_eq_true, Prog.when_neg, Prog.ret_bind]
      exact hend w₂ rfl rfl
    · simp only [hfirst, ne_eq, not_false_eq_true, Prog.when_pos]
      refine Safe.bind (Safe.bind (run_ends fun b w₃ hw₃ => ?_))
      rcases hw₃ with rfl | rfl
      · exact hend _ rfl rfl
      · exact hend _ rfl rfl

/-- Activation never reached a trial. -/
theorem reconcileUntried_agrees (hid : w.env.osPending = some pending) :
    Ends O (reconcileUntried w.env w.journal pending) (fun _ => GuardAgrees) w := by
  unfold reconcileUntried
  split
  · exact Safe.bind (backToReady_agrees.mono (fun _ _ h => h) fun _ _ h => h)
  · refine Safe.bind (rebuild_ends hid fun job w₁ _ hrebuilt => ?_)
    have henv := hrebuilt.onlyRecords.env
    refine Safe.bind (targetBad_ends fun s w₂ htarget hw₂ => ?_)
    have htarget₂ : w₂.env.osTarget = some s := by rw [osTarget_marked hw₂, henv, htarget]
    cases hleft : w₂.env.left s == 0 with
    | false =>
      refine Safe.bind (setGuard_ends ?_)
      exact .of_unshown htarget₂ hleft
    | true =>
      refine Safe.bind ((finish_settled rfl).mono (fun _ w₃ h₃ => ?_) fun _ _ h => h)
      exact Safe.bind ((clearPending_settled h₃).mono (fun _ _ h => h.agrees) fun _ _ h => h)

theorem reconcileSettled_agrees (hworker : w.workerActive = false) :
    Ends O (reconcileSettled w.env w.journal w.booted) (fun _ => GuardAgrees) w := by
  unfold reconcileSettled
  cases hj : w.journal with
  | none => exact Safe.bind (reconcile_ends hworker (by simp [hj]))
  | some job =>
    by_cases hrestarting : job.state = .restarting
    · simp only [hrestarting]
      refine Safe.bind (backToReady_agrees.mono (fun _ w₁ h₁ => ?_) fun _ _ h => h)
      exact Safe.bind (journal_ends (Safe.bind (need_ends fun _ _ => h₁)))
    · by_cases htrying : job.state = .trying
      · simp only [htrying]
        split_ifs
        · exact Safe.bind ((finish_settled rfl).mono (fun _ _ h => h.agrees) fun _ _ h => h)
        · exact Safe.bind ((finish_settled rfl).mono (fun _ _ h => h.agrees) fun _ _ h => h)
      · have hrest : Ends O (do reconcile; return none : OsProg (Option JobState))
            (fun _ => GuardAgrees) w := by
          refine Safe.bind (reconcile_ends hworker fun job' hjob' => ?_)
          rw [hj] at hjob'
          cases hjob'
          exact htrying
        cases hstate : job.state with
        | restarting => exact (hrestarting hstate).elim
        | trying => exact (htrying hstate).elim
        | _ =>
          simp only [hstate]
          exact hrest

theorem reconcilePending_agrees (hid : w.env.osPending = some pending)
    (hvalid : w.env.pendingValid = true) (hrolled : ¬ RollbackSaved w) :
    Ends O (reconcilePending w.env w.journal w.booted pending) (fun _ => GuardAgrees) w := by
  unfold reconcilePending
  by_cases htarget : w.env.osTarget = some w.booted
  · rw [if_pos htarget]
    exact reconcileTrial_agrees hid
  · rw [if_neg htarget]
    -- the other slot of a valid record is the one the job came from
    have hfrom : w.env.osFrom = some w.booted := by
      simp only [Env.pendingValid, hid, Bool.and_eq_true] at hvalid
      obtain ⟨s, hs, hother⟩ := (Option.any_eq_true _ _).mp hvalid.1.1.1.1.1
      rw [hs] at htarget
      rcases s.eq_or_eq_other w.booted with h | h
      · exact (htarget (by rw [h])).elim
      · rw [h]
        simpa using hother
    rw [if_neg (by simpa using hfrom)]
    by_cases htrial : w.env.osTrialStarted = some pending
    · rw [if_pos htrial]
      refine reconcileRollback_agrees hid fun job hjournal hjob hstate => ?_
      by_contra hguard
      exact hrolled ⟨⟨pending, hid, htrial, job, hjournal, hjob, hstate⟩, htarget, hfrom, hguard⟩
    · rw [if_neg htrial]
      exact reconcileUntried_agrees hid

theorem carriesOn_ends {Q : Bool → World → Prop} (hworker : w.workerActive = false)
    (found : Option Job) (hQ : Q false w) : Ends O (carriesOn found) Q w := by
  cases found with
  | none => exact hQ
  | some job =>
    simp only [carriesOn]
    split_ifs
    · exact workerActive_ends (hworker ▸ hQ)
    · exact hQ

theorem reconcileBoot_agrees (hworker : w.workerActive = false)
    (hvalid : w.env.pendingValid = true) (hrolled : ¬ RollbackSaved w) :
    Ends O reconcileBoot (fun _ => GuardAgrees) w := by
  have hread : Ends O readBoot
      (fun r t => r = (w.env, w.journal, w.booted) ∧ t = w) w := by
    refine Safe.tryCatch (Safe.bind (readEnv_alone trivial (fun _ => raises_ends) ?_))
    refine Safe.bind (journal_alone trivial (fun _ => raises_ends) ?_)
    refine Safe.bind (bootedSlot_alone trivial (fun _ => raises_ends) ?_)
    exact ⟨rfl, rfl⟩
  refine Safe.bind (hread.mono ?_ fun _ _ h => h)
  rintro r t ⟨rfl, rfl⟩
  refine Safe.bind (carriesOn_ends hworker _ ?_)
  simp only [Bool.false_eq_true, ↓reduceIte]
  cases hid : t.env.osPending with
  | none => exact reconcileSettled_agrees hworker
  | some pending => exact reconcilePending_agrees hid hvalid hrolled

/-! ### The saved rollback -/

theorem run_targetBad (s : Slot) :
    (targetBad (some s)).run (serve O) w =
      (.ok true, { w with env := w.env.setLeft s 0 }) := by
  simp [targetBad, need, run, readEnv, serve, answer, effect, Env.setLeft]

theorem run_readBoot : readBoot.run (serve O) w = (.ok (w.env, w.journal, w.booted), w) := by
  cases h : w.journal <;>
    simp [readBoot, run_tryCatch, readEnv, journal, bootedSlot, serve, answer, effect, journalRead, h]

/-- The booted slot first again, when it is not. -/
theorem run_markBooted (cond : Prop) [Decidable cond] :
    ∃ w', (Prog.when cond do let _ ← run "rauc" (ask .markActiveBooted)).run (serve O) w =
      (.ok (), w') ∧ w'.journal = w.journal ∧ w'.guard = w.guard := by
  by_cases h : cond
  · exact ⟨w.activate w.booted, by rw [Prog.when_pos h]; rfl, rfl, rfl⟩
  · exact ⟨w, by rw [Prog.when_neg h]; rfl, rfl, rfl⟩

/-- On the working host the rollback that was saved is only cleared. -/
theorem run_reconcileBoot_saved (hvalid : w.env.pendingValid = true) (h : RollbackSaved w) :
    ∃ w', reconcileBoot.run (serve O) w = (.ok (some .rolledBack), w') ∧
      w'.journal = w.journal ∧ w'.guard = w.guard ∧ w'.env.osTarget = none := by
  obtain ⟨⟨pending, hid, htrial, job, hjournal, hjob, hstate⟩, htarget, hfrom, hguard⟩ := h
  obtain ⟨s, hs⟩ : ∃ s, w.env.osTarget = some s := by
    simp only [Env.pendingValid, hid, Bool.and_eq_true] at hvalid
    obtain ⟨s, hs, _⟩ := (Option.any_eq_true _ _).mp hvalid.1.1.1.1.1
    exact ⟨s, hs⟩
  have hcarries : (carriesOn w.journal).run (serve O) w = (.ok false, w) := by
    rw [hjournal]
    simp [carriesOn, hstate, JobState.forWorker, JobState.working]
  have hrebuild : (rebuild w.env w.journal).run (serve O) w = (.ok job, w) := by
    have hfound : (some job).filter (fun job => job.id == pending) = some job := by
      simp [Option.filter, hjob]
    simp [rebuild, need, hid, hjournal, hfound]
  obtain ⟨w₂, hmark, hj₂, hg₂⟩ := run_markBooted (O := O)
    (w := { w with env := w.env.setLeft s 0 }) (w.env.bootOrder.head? ≠ some w.booted)
  have hclear : clearPending.run (serve O) w₂ = (.ok (w₂.env.write clearBatch),
      { w₂ with env := w₂.env.write clearBatch }) :=
    run_setEnv (by simp [clearBatch, Env.assign, Env.holds])
  refine ⟨{ w₂ with env := w₂.env.write clearBatch }, ?_, hj₂, hg₂, by simp [clearBatch, Env.assign]⟩
  rw [reconcileBoot, run_bind_ok run_readBoot]
  simp only []
  rw [run_bind_ok hcarries]
  simp only [Bool.false_eq_true, ↓reduceIte, hid]
  rw [reconcilePending, if_neg htarget, if_neg (by simpa using hfrom), if_pos htrial,
    reconcileRollback, run_bind_ok hrebuild, hs, run_bind_ok (run_targetBad s)]
  simp only [Bool.not_true, Bool.false_eq_true, ↓reduceIte]
  rw [run_bind_ok hmark, Prog.when_neg (by simpa using hstate), Prog.ret_bind, run_bind_ok hclear]
  rfl

/-- A start of hostd without a worker leaves the guard that belongs to the journal, unless it
finds a rollback that was saved, and cut before the guard was. -/
theorem guard_after_boot (hworker : w.workerActive = false)
    (hvalid : w.env.pendingValid = true) :
    (∀ r w', Runs (· = ·) (Outcome O) (w, reconcileBoot) (w', .ret r) → GuardAgrees w') ↔
      ¬ RollbackSaved w := by
  constructor
  · intro hall hsaved
    obtain ⟨w', hrun, hjournal, hguard, htarget⟩ := run_reconcileBoot_saved (O := O) hvalid hsaved
    have hruns := runs_run (serve_follows O) reconcileBoot w
    rw [hrun] at hruns
    obtain ⟨⟨_, _, _, job, hj, _, hstate⟩, _, _, hidle⟩ := hsaved
    rcases hall _ _ hruns with h | ⟨_, s, hs, _⟩
    · rw [World.guardState, hguard, hjournal, hj] at h
      exact hidle (by simpa [World.guardState, guardFor, hstate, JobState.terminal] using h)
    · rw [htarget] at hs
      cases hs
  · intro hsaved r w' hruns
    exact ends_result (reconcileBoot_agrees hworker hvalid hsaved) hruns

/-- Slot A runs again after the trial of slot B failed. -/
def sampleFallback : World :=
  { sampleWorld { sampleActivated .activated (some sampleId) with
      left := fun | .a => 2 | .b => 0 } .a with
    journal := some (sampleJob .trying)
    guard := some { state := .pending, job := some sampleId } }

/-- The rollback is saved, and power is lost. -/
def sampleSaved : World := (reconcileBoot.after (serve sampleOracles) 7 sampleFallback).1

def sampleRestarted : World := { sampleSaved with env := sampleSaved.env.launch .a, booted := .a }

theorem guard_after_boot_sample :
    (∀ r w', Runs (· = ·) (Outcome sampleOracles) (sampleRestarted, reconcileBoot) (w', .ret r) →
      GuardAgrees w') ↔ ¬ RollbackSaved sampleRestarted :=
  guard_after_boot rfl (by decide +kernel)

/-- The next start of hostd returns `rolled_back` and leaves the guard `pending`. -/
theorem guard_not_idle :
    Stops (Outcome sampleOracles) reconcileBoot sampleFallback sampleSaved ∧
    Boots sampleSaved .a sampleRestarted ∧ sampleRestarted.workerActive = false ∧
    ∃ w', Runs (· = ·) (Outcome sampleOracles) (sampleRestarted, reconcileBoot)
        (w', .ret (some .rolledBack)) ∧
      (∃ job, w'.journal = some job ∧ job.state = .rolledBack) ∧ w'.guardState = .pending := by
  refine ⟨stops_after (serve_follows _) _ _ _, ?_, rfl, ?_⟩
  · exact ⟨by decide +kernel, by decide +kernel, rfl, rfl, rfl, rfl, rfl, rfl, rfl, rfl, rfl, rfl, rfl⟩
  · have hruns := runs_run (serve_follows sampleOracles) reconcileBoot sampleRestarted
    have hresult : (reconcileBoot.run (serve sampleOracles) sampleRestarted).1 =
        .ok (some .rolledBack) := rfl
    rw [hresult] at hruns
    exact ⟨_, hruns, ⟨_, rfl, rfl⟩, rfl⟩

end Epilykos.OsUpdate
