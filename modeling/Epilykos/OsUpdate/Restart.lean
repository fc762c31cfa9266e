import Epilykos.OsUpdate.Calls
import Epilykos.OsUpdate.Reconcile

/-!
How a restart ends. The worker that activates returns with the target activated and a reboot on
its way, with the job ready again and nothing left of the attempt, or with the job reconciling.
Another maintenance task that holds the lease sends it a fourth way, one that was written for
downloads: the job fails, and what an earlier attempt left in the environment stays.
-/

namespace Epilykos.OsUpdate

open Program World

variable {O : Oracles} {w w' : World} {job : Job}

/-! ### The ends -/

/-- The target starts next, for one trial. -/
structure Activated (job : Job) (env : Env) : Prop where
  target : ∃ t, job.target = some t ∧ env.bootOrder.head? = some t ∧ env.left t = 3
  phase : env.osPhase = some .activated

/-- What a worker that took up a restarting job has left when it returned. -/
inductive RestartEnd (job : Job) (w w' : World) : Prop
  | activated (env : Activated job w'.env)
    (journal : w'.journal.map (·.state) = some .restarting) (rebooting : w'.rebooting = true)
  | ready (journal : w'.journal.map (·.state) = some .ready)
    (guard : w'.guard = some { state := .pending, job := some job.id })
    (target : ∃ t, job.target = some t ∧ w'.env.left t = 0) (noJob : w'.env.NoJob)
    (staging : w'.staging = w.staging)
  | reconciling (journal : w'.journal.map (·.state) = some .reconciling)
    (guard : w'.guard = some { state := .reconciling, job := some job.id })

/-- Any host, whose init takes a request to reboot. -/
def Obliging (O : Oracles) : Behaviour Host World := fun w c x w' =>
  Outcome O w c x w' ∧ (c = .reboot → w' = w.effect c)

/-! ### What a cut activation leaves -/

/-- A record that says `activated` stands beside an environment that is. -/
def Told (w : World) : Prop :=
  ∀ job, w.journal = some job → job.state = .restarting → job.progress.activated = true →
    w.env.osPhase = some .activated → Activated job w.env

/-- The record does not say so yet, or the environment is in another phase. -/
structure Unsettled (job : Job) (w : World) : Prop where
  journal : w.journal = some job
  open_ : job.progress.activated = false ∨ w.env.osPhase ≠ some .activated

theorem Unsettled.told (h : Unsettled job w) : Told w := by
  intro j hj _ hprogress hphase
  obtain rfl : job = j := Option.some.inj (h.journal.symm.trans hj)
  obtain hno | hno := h.open_
  · rw [hno] at hprogress
    cases hprogress
  · exact absurd hphase hno

theorem Unsettled.congr (h : Unsettled job w) (hjournal : w'.journal = w.journal)
    (hphase : w'.env.osPhase = w.env.osPhase) : Unsettled job w' :=
  ⟨hjournal.trans h.journal, hphase ▸ h.open_⟩

/-- The environment and history's notes on the slots differ, nothing else. -/
def OnlyEnv (w w' : World) : Prop := ∃ env slots, w' = { w with env, slots }

theorem OnlyEnv.refl (w : World) : OnlyEnv w w := ⟨w.env, w.slots, rfl⟩

theorem OnlyEnv.trans {w₁ w₂ w₃ : World} (h : OnlyEnv w₁ w₂) (h' : OnlyEnv w₂ w₃) :
    OnlyEnv w₁ w₃ := by
  obtain ⟨_, _, rfl⟩ := h
  obtain ⟨env, slots, rfl⟩ := h'
  exact ⟨env, slots, rfl⟩

theorem OnlyHistory.onlyEnv (h : OnlyHistory w w') : OnlyEnv w w' := by
  obtain ⟨slots, rfl⟩ := h
  exact ⟨w.env, slots, rfl⟩

/-- The calls up to the intent batch. -/
def HostCall.intends (job : Job) (c : HostCall) : Prop :=
  c.looks ∨ ∃ image, c = .setEnv (intentBatch job image)

theorem intend_makes : (intend O job).Makes (F := Host) (HostCall.intends job) := by
  have hlooks : ∀ {α : Type} {p : OsProg α}, p.Makes (F := Host) HostCall.looks →
      p.Makes (F := Host) (HostCall.intends job) := fun hp => hp.mono fun _ => Or.inl
  refine Prog.Makes.tryCatch ?_ fun e => ?_
  · refine .bind (hlooks (revalidate_makes job)) fun _ => .bind (hlooks readEnv_makes) fun env =>
      .bind (makes_raiseIf _) fun _ => need_bind_makes fun image _ => ?_
    exact .bind (setEnv_makes (Or.inr ⟨image, rfl⟩) (Or.inl (looks_of_reads rfl))) fun _ => trivial
  · cases e <;> trivial

/-- An attempt that has not gone beyond the intent. -/
structure Intending (job : Job) (w t : World) : Prop where
  rest : OnlyEnv w t
  open_ : job.progress.activated = false ∨ t.env.osPhase ≠ some .activated

theorem Intending.unsettled (h : Intending job w w') (hjob : w.journal = some job) :
    Unsettled job w' := by
  obtain ⟨_, _, rfl⟩ := h.rest
  exact ⟨hjob, h.open_⟩

theorem Intending.intends {t t' : World} {c : HostCall} {x : Ans c} (h : Intending job w t)
    (hc : c.intends job) (ho : Outcome O t c x t') : Intending job w t' := by
  obtain hlooks | ⟨image, rfl⟩ := hc
  · have hsame := hlooks.outcome ho
    refine ⟨h.rest.trans hsame.onlyEnv, ?_⟩
    rw [hsame.env]
    exact h.open_
  · obtain rfl | ⟨rfl, -⟩ := ho.2
    · exact ⟨h.rest.trans ⟨_, _, rfl⟩, Or.inr nofun⟩
    · exact h

theorem intend_alone (h : Intending job w w) (hjob : w.journal = some job) :
    Alone O (fun t _ => Told t) (intend O job) (fun _ => Intending job w)
      (fun _ => Intending job w) w := by
  refine intend_makes.safe (I := Intending job w) ?_ ?_ h
  · rintro t _ rfl ht
    exact ht
  · intro t c hc ht
    exact ⟨(ht.unsettled hjob).told, fun x t' ho => ht.intends hc ho⟩

/-! ### Retreating -/

/-- The calls of an attempt that is given up. -/
def HostCall.retreats : HostCall → Prop
  | .readEnv | .markBad _ | .writeGuard _ => True
  | .setEnv batch => batch = clearBatch
  | .writeJournal j => j.state ≠ .restarting
  | _ => False

theorem backToReady_makes (error : String) :
    (backToReady job error).Makes (F := Host) HostCall.retreats := by
  refine .bind (Prog.Makes.tryCatch ?_ fun e => ?_) fun safe => ?_
  · refine .bind (targetBad_makes (fun _ _ => trivial) trivial) fun safe =>
      .bind (Prog.Makes.when ?_) fun _ => trivial
    exact .bind (setEnv_makes rfl trivial) fun _ => trivial
  · cases e <;> trivial
  · split_ifs
    · exact .bind (save_makes nofun) fun _ => .bind (setGuard_makes trivial) fun _ => trivial
    · exact .bind (save_makes nofun) fun _ => .bind (setGuard_makes trivial) fun _ => trivial

/-- Until the record is written the attempt is open; then the job is not restarting. -/
def Retreating (job : Job) (w : World) : Prop :=
  Unsettled job w ∨ ∃ j, w.journal = some j ∧ j.state ≠ .restarting

theorem Retreating.told (h : Retreating job w) : Told w := by
  obtain h | ⟨j, hj, hstate⟩ := h
  · exact h.told
  · intro k hk hrestarting
    obtain rfl := Option.some.inj (hj.symm.trans hk)
    exact absurd hrestarting hstate

theorem Retreating.retreats {t t' : World} {c : HostCall} {x : Ans c} (h : Retreating job t)
    (hc : c.retreats) (ho : Outcome O t c x t') : Retreating job t' := by
  obtain rfl | ⟨rfl, -⟩ := ho.2
  · cases c with
    | readEnv => exact h
    | writeGuard g => exact h.imp (fun h => h.congr rfl rfl) id
    | markBad s => exact h.imp (fun h => h.congr rfl rfl) id
    | setEnv batch =>
      obtain rfl : batch = clearBatch := hc
      change Retreating job { t with env := t.env.write clearBatch }
      have hcleared : (t.env.write clearBatch).osPhase ≠ some .activated := by
        rw [(noJob_clear t.env).phase]
        exact nofun
      exact h.imp (fun h => ⟨h.journal, Or.inr hcleared⟩) id
    | writeJournal j => exact Or.inr ⟨j, rfl, hc⟩
    | _ => exact (hc : False).elim
  · exact h

theorem backToReady_alone (h : Unsettled job w) (error : String) :
    Alone O (fun t _ => Told t) (backToReady job error) (fun _ => Told) (fun _ => Told) w := by
  have hsafe : Alone O (fun t _ => Told t) (backToReady job error) (fun _ => Retreating job)
      (fun _ => Retreating job) w := by
    refine (backToReady_makes error).safe ?_ ?_ (Or.inl h)
    · rintro t _ rfl ht
      exact ht
    · intro t c hc ht
      exact ⟨ht.told, fun x t' ho => ht.retreats hc ho⟩
  exact hsafe.mono (fun _ _ ht => ht.told) fun _ _ ht => ht.told

/-! ### The activation -/

theorem Told.congr (h : Told w) (hjournal : w'.journal = w.journal) (henv : w'.env = w.env) :
    Told w' := by
  intro j hj hstate hprogress hphase
  rw [henv] at hphase ⊢
  exact h j (hjournal.symm.trans hj) hstate hprogress hphase

theorem reboot_alone (h : Told w) :
    Alone O (fun t _ => Told t) reboot (fun _ => Told) (fun _ => Told) w := by
  refine Safe.bind (run_alone h fun x w₁ ho => ?_)
  have h₁ : Told w₁ := by
    obtain rfl | ⟨rfl, -⟩ := ho.2
    · exact h.congr rfl rfl
    · exact h
  exact ⟨fun _ => h₁, fun _ => h₁⟩

/-- Once the marks were read back, both records may say that the target is activated. -/
theorem Activated.told {t : Slot} {env : Env} (htarget : job.target = some t)
    (horder : env.bootOrder.head? = some t) (hleft : env.left t = 3)
    (hjournal : w.journal = some job)
    (henv : w.env = env.write [.osPhase (some .activated)]) : Told w := by
  intro j hj _ _ hphase
  obtain rfl : job = j := Option.some.inj (hjournal.symm.trans hj)
  refine ⟨⟨t, htarget, ?_, ?_⟩, hphase⟩
  · rw [henv, Env.write_bootOrder]
    exact horder
  · rw [henv, Env.write_left]
    exact hleft

theorem activateTarget_alone (h : Unsettled job w) :
    Alone O (fun t _ => Told t) (activateTarget job) (fun _ => Told) (fun _ => Told) w := by
  refine Safe.bind (need_alone (fun _ => h.told) fun t htarget => ?_)
  refine Safe.bind (run_alone h.told fun x w₁ ho => ?_)
  have h₁ : Unsettled job w₁ := by
    obtain rfl | ⟨rfl, -⟩ := ho.2
    · exact h.congr rfl rfl
    · exact h
  refine ⟨fun _ => h₁.told, fun _ => ?_⟩
  refine Safe.bind (readEnv_alone h₁.told (fun _ => h₁.told) ?_)
  by_cases hmarked : w₁.env.bootOrder.head? ≠ some t ∨ w₁.env.left t ≠ 3
  · rw [if_pos hmarked]
    exact backToReady_alone h₁ _
  · rw [if_neg hmarked]
    obtain ⟨horder, hleft⟩ : w₁.env.bootOrder.head? = some t ∧ w₁.env.left t = 3 := by
      simpa [not_or] using hmarked
    have hset : ∀ (j : Job) {w₂ : World}, j.target = job.target → w₂.journal = some j →
        w₂.env = w₁.env.write [.osPhase (some .activated)] → Told w₂ :=
      fun _ _ hj hjournal henv => Activated.told (hj.trans htarget) horder hleft hjournal henv
    have h₂ : Told { w₁ with env := w₁.env.write [.osPhase (some .activated)] } :=
      hset job rfl h₁.journal rfl
    refine Safe.bind (setEnv_alone h₁.told (fun w₂ hw₂ => ?_) ?_)
    · have h₂' : Told w₂ := by
        obtain rfl | rfl := hw₂
        · exact h₁.told
        · exact h₂
      exact ⟨h₂', fun _ => h₂', fun _ => h₂'⟩
    · have h₃ : Told { w₁ with
          env := w₁.env.write [.osPhase (some .activated)]
          journal := some { job with progress := { phase := .restarting, activated := true } } } :=
        hset { job with progress := { phase := .restarting, activated := true } } rfl rfl rfl
      refine Safe.bind (save_alone h₂ (fun _ w₃ hw₃ _ => ?_) (reboot_alone h₃))
      obtain rfl | rfl := hw₃
      · exact h₂
      · exact h₃

theorem activate_alone (h : Told w) (hjob : w.journal = some job) :
    Alone O (fun t _ => Told t) (activate O job) (fun _ => Told) (fun _ => Told) w := by
  have hrest : ∀ k : Option String → OsProg ℕ, (∀ error, k (some error) = backToReady job error) →
      k none = activateTarget job → Intending job w w →
      Alone O (fun t _ => Told t) (intend O job >>= k) (fun _ => Told) (fun _ => Told) w := by
    intro k hsome hnone hopen
    refine Safe.bind ((intend_alone hopen hjob).mono ?_ fun _ t ht => (ht.unsettled hjob).told)
    intro refusal w₁ h₁
    cases refusal with
    | some error =>
      rw [hsome]
      exact backToReady_alone (h₁.unsettled hjob) error
    | none =>
      rw [hnone]
      exact activateTarget_alone (h₁.unsettled hjob)
  by_cases hprogress : job.progress.activated = true
  · refine Safe.bind ?_
    rw [alreadyActivated, if_pos hprogress]
    refine Safe.bind (readEnv_alone h (fun _ => h) ?_)
    by_cases hphase : (w.env.osPhase == some .activated) = true
    · refine safe_ret.mpr ?_
      rw [if_pos hphase]
      exact reboot_alone h
    · refine safe_ret.mpr ?_
      rw [if_neg hphase]
      exact hrest _ (fun _ => rfl) rfl ⟨.refl w, Or.inr (by simpa using hphase)⟩
  · refine Safe.bind ?_
    rw [alreadyActivated, if_neg hprogress]
    exact hrest _ (fun _ => rfl) rfl ⟨.refl w, Or.inl (by simpa using hprogress)⟩

/-- A restarting job whose activation was cut any number of times, and begun again. -/
inductive Attempted (O : Oracles) : Job → World → Prop
  | restarting {job : Job} {w : World} : w.journal = some job → job.state = .restarting →
    job.progress.activated = false → Attempted O job w
  | again {job job' : Job} {w w' : World} : Attempted O job w →
    Stops (Outcome O) (activate O job) w w' → w'.journal = some job' → job'.state = .restarting →
    Attempted O job' w'

theorem Attempted.told (h : Attempted O job w) :
    Told w ∧ w.journal = some job ∧ job.state = .restarting := by
  induction h with
  | restarting hjob hstate hprogress =>
    exact ⟨(Unsettled.mk hjob (Or.inl hprogress)).told, hjob, hstate⟩
  | again _ hcut hjob' hstate' ih =>
    obtain ⟨htold, hjob, -⟩ := ih
    exact ⟨(activate_alone htold hjob).stops hcut, hjob', hstate'⟩

/-! ### What has been left when the worker returns -/

theorem OnlyEnv.staging (h : OnlyEnv w w') : w'.staging = w.staging := by
  obtain ⟨_, _, rfl⟩ := h
  rfl

theorem OnlyEnv.journal (h : OnlyEnv w w') : w'.journal = w.journal := by
  obtain ⟨_, _, rfl⟩ := h
  rfl

theorem RestartEnd.guarded {g : Option Guard} (h : RestartEnd job { w with guard := g } w') :
    RestartEnd job w w' := by
  cases h with
  | activated henv hjournal hrebooting => exact .activated henv hjournal hrebooting
  | ready hjournal hguard htarget hnoJob hstaging =>
    exact .ready hjournal hguard htarget hnoJob hstaging
  | reconciling hjournal hguard => exact .reconciling hjournal hguard

theorem serve_obliges (O : Oracles) : Follows (F := Host) (serve O) (Obliging O) :=
  fun w c => ⟨serve_follows O w c, fun _ => rfl⟩

/-- What the worker leaves when it may not have the lease. -/
def refused (job : Job) (msg : String) (w : World) : World :=
  { w.effect (.removeStaging job.id) with
    journal := some (job.finished .failed (some msg))
    guard := some { state := .idle, job := none } }

theorem run_refused {msg : String} (hjob : w.journal = some job) (hstate : job.state = .restarting)
    (hlease : w.leaseTaken = some msg) :
    (runWorker O).run (serve O) w = (.ok 1, refused job msg w) := by
  have hfinish : (finish job .failed (some msg)).run (serve O) w = (.ok (), refused job msg w) :=
    run_finish rfl
  have htake : (takeUp O job).run (serve O) w = (do
      finish job .failed (some msg)
      return 1 : OsProg ℕ).run (serve O) w := by
    simp [takeUp, stopRequested, hstate, JobState.working, takeLease, serve, answer, effect, hlease]
  rw [runWorker, run_bind_ok run_journal, hjob]
  change (if job.state.forWorker = true then takeUp O job else .ret 0).run (serve O) w = _
  rw [if_pos (by rw [hstate]; rfl), htake, run_bind_ok hfinish]
  rfl

theorem refused_not_end (msg : String) : ¬ RestartEnd job w (refused job msg w) := by
  intro h
  cases h with
  | activated _ hjournal _ => cases hjournal
  | ready hjournal _ _ _ _ => cases hjournal
  | reconciling hjournal _ => cases hjournal

/-- The activation was cut between the mark and the batch that says `activated`, and something
else may hold the maintenance lease by now. -/
def cutRestart (leaseTaken : Option String) : World := { signedCut 18 with leaseTaken }

theorem cutRestart_journal (leaseTaken : Option String) :
    (cutRestart leaseTaken).journal = some (signedJob .restarting) := signedCut_marked.1

theorem cutRestart_attempted (leaseTaken : Option String) :
    Attempted signedOracles (signedJob .restarting) (cutRestart leaseTaken) :=
  .restarting (cutRestart_journal _) rfl rfl

def maintenanceRuns : String :=
  "App maintenance is running. Wait for it to finish before installing an update."

/-- The job ends failed and the guard is idle, while the target starts next. -/
theorem restart_fails_bootable : ∃ w',
    Stops (Outcome signedOracles) (activate signedOracles (signedJob .restarting)) signedWorld
      (signedCut 18) ∧
    Attempted signedOracles (signedJob .restarting) (cutRestart (some maintenanceRuns)) ∧
    Runs (· = ·) (Obliging signedOracles)
      (cutRestart (some maintenanceRuns), runWorker signedOracles) (w', .ret 1) ∧
    w'.journal.map (·.state) = some .failed ∧ w'.guard = some { state := .idle, job := none } ∧
    w'.env.osPhase = some .activationIntent ∧ w'.env.bootOrder = [.b, .a] ∧ w'.env.left .b = 3 ∧
    ¬ RestartEnd (signedJob .restarting) (cutRestart (some maintenanceRuns)) w' := by
  obtain ⟨-, -, -, hphase, horder, hleft, -⟩ := signedCut_marked
  refine ⟨refused (signedJob .restarting) maintenanceRuns (cutRestart (some maintenanceRuns)),
    signedCut_stops 18, cutRestart_attempted _, ?_, rfl, rfl, hphase, horder, hleft,
    refused_not_end _⟩
  have hrun := runs_run (serve_obliges signedOracles) (runWorker signedOracles)
    (cutRestart (some maintenanceRuns))
  rw [run_refused (cutRestart_journal _) rfl rfl] at hrun
  exact hrun

end Epilykos.OsUpdate
