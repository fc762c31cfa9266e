import Epilykos.OsUpdate.BootHealth
import Epilykos.OsUpdate.Loader

/-!
What the shared functions do, said once: on the working host each runs to a known state, and
on a host whose calls may fail each ends in one of a few known ways.
-/

namespace Epilykos.OsUpdate

open Program World

variable {O : Oracles} {w w' : World}

/-! ### Calls that only look -/

def HostCall.reads : HostCall → Bool
  | .setEnv _ | .markBad _ | .markActive _ | .markActiveBooted | .markGoodBooted => false
  | .raucInstall _ | .raucWait | .startWorker | .reboot | .recordHealthy _ => false
  | .verified _ _ => false
  | .writeJournal _ | .removeJournal | .writeGuard _ | .writeCancel _ | .removeCancel => false
  | .writeChecked _ | .removeStaging _ => false
  | .writePrevious _ | .writeCurrent _ | .writeAppFloor _ | .writeActive _ => false
  | .openDownload _ _ | .openPart _ _ | .readChunk | .appendPart _ _ | .renamePart _ => false
  | _ => true

theorem effect_of_reads (w : World) {c : HostCall} (h : c.reads = true) : w.effect c = w := by
  cases c <;> first | rfl | cases h

theorem World.Outcome.reads {c : HostCall} {x : Ans c} {w' : World} (h : Outcome O w c x w')
    (hc : c.reads = true) : w' = w := by
  rcases h.2 with h | h
  · rw [h, effect_of_reads w hc]
  · exact h.1

/-- Calls that leave the environment as it is. -/
def HostCall.keepsEnv : HostCall → Bool
  | .setEnv _ | .markBad _ | .markActive _ | .markActiveBooted | .markGoodBooted => false
  | _ => true

theorem World.Outcome.env {c : HostCall} {x : Ans c} {w' : World} (h : Outcome O w c x w')
    (hc : c.keepsEnv = true) : w'.env = w.env := by
  rcases h.2 with h | h
  · rw [h]
    cases c <;> first | rfl | cases hc
    simp only [effect]
    split_ifs <;> rfl
  · rw [h.1]

/-- Only a restart changes the running slot. -/
theorem World.Outcome.booted {c : HostCall} {x : Ans c} {w' : World} (h : Outcome O w c x w') :
    w'.booted = w.booted := by
  rcases h.2 with h | h
  · rw [h]
    cases c <;> first | rfl | skip
    simp only [effect]
    split_ifs <;> rfl
  · rw [h.1]

/-! ### On the working host -/

theorem run_setEnv {batch : List Assign} (h : batch.all (w.env.write batch).holds = true) :
    (setEnv batch).run (serve O) w =
      (.ok (w.env.write batch), { w with env := w.env.write batch }) := by
  have hread : ¬ ∃ a, a ∈ batch ∧ (w.env.write batch).holds a = false := by simpa using h
  simp [setEnv, run, readEnv, serve, answer, effect, Prog.raiseIf_neg hread]

theorem run_save (job : Job) :
    (save job).run (serve O) w = (.ok (), { w with journal := some job }) := by
  simp [save, written, serve, answer, effect]

theorem run_setGuard (state : GuardState) (job : Option JobId) :
    (setGuard state job).run (serve O) w = (.ok (), { w with guard := some { state, job } }) := by
  simp [setGuard, written, serve, answer, effect]

theorem run_journal : journal.run (serve O) w = (.ok w.journal, w) := by
  cases h : w.journal <;> simp [journal, serve, answer, effect, journalRead, h]

/-- A job that ends: its record, no staging, and an idle guard. -/
theorem run_finish {job : Job} {state : JobState} {error : Option String}
    (h : state.terminal = true) :
    (finish job state error).run (serve O) w =
      (.ok (), { (w.effect (.removeStaging job.id)) with
        journal := some (job.finished state error)
        guard := some { state := .idle, job := none } }) := by
  simp [finish, save, setGuard, removeStaging, written, stored, serve, answer, effect, setPart, h]

/-! ### On a host whose calls may fail

Nothing else runs between the calls. `allowed` is what has to hold wherever a call is made. -/

section Faulty

variable {α : Type} {allowed : World → HostCall → Prop}

/-- A program alone on a host whose calls may fail. -/
abbrev Alone (O : Oracles) (allowed : World → HostCall → Prop) (p : OsProg α)
    (Q : α → World → Prop) (E : Err → World → Prop) (w : World) : Prop :=
  Safe (F := Host) (· = ·) (Outcome O) allowed p Q E w

theorem readEnv_alone {Q : Env → World → Prop} {E : Err → World → Prop}
    (hw : allowed w .readEnv) (hE : ∀ msg, E (.trust msg) w) (hQ : Q w.env w) :
    Alone O allowed readEnv Q E w := by
  refine safe_call.mpr ⟨hw, fun x w' h => ?_⟩
  obtain rfl := h.reads rfl
  rcases h.1 with rfl | rfl
  · exact hE _
  · exact hQ

theorem bootedSlot_alone {Q : Slot → World → Prop} {E : Err → World → Prop}
    (hw : allowed w .bootedSlot) (hE : ∀ msg, E (.osUpdate msg) w) (hQ : Q w.booted w) :
    Alone O allowed bootedSlot Q E w := by
  refine safe_call.mpr ⟨hw, fun x w' h => ?_⟩
  obtain rfl := h.reads rfl
  rcases h.1 with rfl | rfl
  · exact hE _
  · exact hQ

theorem journal_alone {Q : Option Job → World → Prop} {E : Err → World → Prop}
    (hw : allowed w .readJournal) (hE : ∀ msg, E (.osUpdate msg) w) (hQ : Q w.journal w) :
    Alone O allowed journal Q E w := by
  refine safe_call.mpr ⟨hw, fun x w' h => ?_⟩
  obtain rfl := h.reads rfl
  rcases h.1 with rfl | rfl
  · exact hE _
  · cases hj : w'.journal <;> simpa [journalRead, hj] using hQ

/-- A command whose exit code does not decide what holds after it. -/
theorem run_alone {c : HostCall} {program : String} {g : Ans c → Ran} {Q : Bool → World → Prop}
    {E : Err → World → Prop} (hw : allowed w c)
    (h : ∀ x w', Outcome O w c x w' → (∀ msg, E (.osUpdate msg) w') ∧ ∀ b, Q b w') :
    Alone O allowed (run program (.call c fun x => .ret (g x))) Q E w := by
  refine Safe.bind (safe_call.mpr ⟨hw, fun x w' hx => ?_⟩)
  obtain ⟨hE, hQ⟩ := h x w' hx
  cases hg : g x with
  | ok => simpa [hg] using hQ true
  | failed => simpa [hg] using hQ false
  | noAnswer => simpa [hg] using hE _

/-- A program of calls that keep the environment. -/
theorem keepsEnv_alone {p : OsProg α} (hp : p.Makes (F := Host) fun c => c.keepsEnv = true)
    (hw : ∀ (w' : World) c, w'.env = w.env → w'.booted = w.booted → allowed w' c) :
    Alone O allowed p (fun _ w' => w'.env = w.env ∧ w'.booted = w.booted)
      (fun _ w' => w'.env = w.env ∧ w'.booted = w.booted) w := by
  refine hp.safe (I := fun w' : World => w'.env = w.env ∧ w'.booted = w.booted) ?_ ?_ ⟨rfl, rfl⟩
  · rintro t _ rfl ht
    exact ht
  · intro t c hc ht
    exact ⟨hw t c ht.1 ht.2, fun x t' ho => ⟨(ho.env hc).trans ht.1, ho.booted.trans ht.2⟩⟩

theorem stored_makes {K : HostCall → Prop} (b : Bool) : (stored b).Makes (F := Host) K := by
  cases b <;> trivial

theorem need_alone {x : Option α} {Q : α → World → Prop} {E : Err → World → Prop}
    (hE : x = none → E .key w) (hQ : ∀ a, x = some a → Q a w) : Alone O allowed (need x) Q E w := by
  cases x with
  | none => exact hE rfl
  | some a => exact hQ a rfl

/-- A file that replaces another: written when acknowledged, else written or not. -/
theorem written_alone {c : HostCall} {k : Ans c → OsProg Unit} {Q : Unit → World → Prop}
    {E : Err → World → Prop} (hw : allowed w c)
    (hk : ∀ x, (acknowledged c x ∧ k x = .ret ()) ∨ ∃ e, k x = .raise e ∧ (e = .os ∨ ∃ m, e = .osUpdate m))
    (hE : ∀ e w', w' = w ∨ w' = w.effect c → (e = .os ∨ ∃ m, e = .osUpdate m) → E e w')
    (hQ : Q () (w.effect c)) : Alone O allowed (.call c k) Q E w := by
  refine safe_call.mpr ⟨hw, fun x w' h => ?_⟩
  rcases hk x with ⟨hack, hret⟩ | ⟨e, hraise, he⟩
  · rw [hret]
    rcases h.2 with rfl | h
    · exact hQ
    · exact (h.2 hack).elim
  · rw [hraise]
    rcases h.2 with rfl | h
    · exact hE e _ (Or.inr rfl) he
    · exact hE e _ (Or.inl h.1) he

theorem save_alone {job : Job} {Q : Unit → World → Prop} {E : Err → World → Prop}
    (hw : allowed w (.writeJournal job))
    (hE : ∀ e w', w' = w ∨ w' = w.effect (.writeJournal job) →
      (e = .os ∨ ∃ m, e = .osUpdate m) → E e w')
    (hQ : Q () (w.effect (.writeJournal job))) : Alone O allowed (save job) Q E w := by
  refine written_alone hw (fun x => ?_) hE hQ
  cases x <;> simp [acknowledged, written]

theorem setGuard_alone {state : GuardState} {job : Option JobId} {Q : Unit → World → Prop}
    {E : Err → World → Prop} (hw : allowed w (.writeGuard { state, job }))
    (hE : ∀ e w', w' = w ∨ w' = w.effect (.writeGuard { state, job }) →
      (e = .os ∨ ∃ m, e = .osUpdate m) → E e w')
    (hQ : Q () (w.effect (.writeGuard { state, job }))) :
    Alone O allowed (setGuard state job) Q E w := by
  refine written_alone hw (fun x => ?_) hE hQ
  cases x <;> simp [acknowledged, written]

theorem removeStaging_alone {id : JobId} {Q : Unit → World → Prop} {E : Err → World → Prop}
    (hw : allowed w (.removeStaging id))
    (hE : ∀ e w', w' = w ∨ w' = w.effect (.removeStaging id) →
      (e = .os ∨ ∃ m, e = .osUpdate m) → E e w')
    (hQ : Q () (w.effect (.removeStaging id))) : Alone O allowed (removeStaging id) Q E w := by
  refine written_alone hw (fun x => ?_) hE hQ
  cases x <;> simp [acknowledged, stored]

/-- A batch is written or not, whatever the tool said; when it reads back, it stands. -/
theorem setEnv_alone {batch : List Assign} {Q : Env → World → Prop} {E : Err → World → Prop}
    (hw : allowed w (.setEnv batch))
    (hE : ∀ w', w' = w ∨ w' = { w with env := w.env.write batch } →
      allowed w' .readEnv ∧ (∀ msg, E (.osUpdate msg) w') ∧ ∀ msg, E (.trust msg) w')
    (hQ : Q (w.env.write batch) { w with env := w.env.write batch }) :
    Alone O allowed (setEnv batch) Q E w := by
  refine Safe.bind (run_alone hw fun x w' hx => ?_)
  have hw' : w' = w ∨ w' = { w with env := w.env.write batch } := by
    rcases hx.2 with hx | hx
    · exact Or.inr hx
    · exact Or.inl hx.1
  obtain ⟨hread, hos, htrust⟩ := hE w' hw'
  refine ⟨hos, fun b => ?_⟩
  refine Safe.bind (safe_raiseIf.mpr ⟨fun _ => hos _, fun _ => ?_⟩)
  refine Safe.bind (readEnv_alone hread htrust ?_)
  refine Safe.bind (safe_raiseIf.mpr ⟨fun _ => hos _, fun hb => ?_⟩)
  rcases hw' with rfl | rfl
  · -- not written, so it stood before
    have hstood : w'.env.write batch = w'.env := Env.write_of_holds (by simpa using hb)
    rw [hstood] at hQ
    exact hQ
  · exact hQ

theorem clearPending_alone {Q : Env → World → Prop} {E : Err → World → Prop}
    (hw : allowed w (.setEnv clearBatch))
    (hE : ∀ w', w' = w ∨ w' = { w with env := w.env.write clearBatch } →
      allowed w' .readEnv ∧ (∀ msg, E (.osUpdate msg) w') ∧ ∀ msg, E (.trust msg) w')
    (hQ : Q (w.env.write clearBatch) { w with env := w.env.write clearBatch }) :
    Alone O allowed clearPending Q E w := setEnv_alone hw hE hQ

theorem noJob_clear (env : Env) : (env.write clearBatch).NoJob := by
  constructor <;> simp [clearBatch, Env.assign]

/-- The slot is marked bad or not, whatever the tool said; what is returned is what stands. -/
theorem targetBad_alone {s : Slot} {Q : Bool → World → Prop} {E : Err → World → Prop}
    (hw : allowed w (.markBad s))
    (h : ∀ w', w' = w ∨ w' = { w with env := w.env.setLeft s 0 } →
      allowed w' .readEnv ∧ (∀ msg, E (.osUpdate msg) w') ∧ (∀ msg, E (.trust msg) w') ∧
        Q (w'.env.left s == 0) w') :
    Alone O allowed (targetBad (some s)) Q E w := by
  refine Safe.bind (f := fun target => do
    let _ ← run "rauc" (ask (.markBad target))
    return (← readEnv).left target == 0) ?_
  refine Safe.bind (run_alone hw fun x w' hx => ?_)
  have hw' : w' = w ∨ w' = { w with env := w.env.setLeft s 0 } := by
    rcases hx.2 with hx | hx
    · exact Or.inr hx
    · exact Or.inl hx.1
  obtain ⟨hread, hos, htrust, hQ⟩ := h w' hw'
  exact ⟨hos, fun b => Safe.bind (readEnv_alone hread htrust hQ)⟩

/-! The journal, the guard and the staging area are the records of a job; what a job decides
about the system does not move with them. -/

/-- Nothing but the records of a job differs. -/
def OnlyRecords (w w' : World) : Prop :=
  ∃ journal guard staging, w' = { w with journal, guard, staging }

theorem OnlyRecords.refl (w : World) : OnlyRecords w w := ⟨w.journal, w.guard, w.staging, rfl⟩

theorem OnlyRecords.trans {w₁ w₂ w₃ : World} (h : OnlyRecords w₁ w₂) (h' : OnlyRecords w₂ w₃) :
    OnlyRecords w₁ w₃ := by
  obtain ⟨_, _, _, rfl⟩ := h
  obtain ⟨j, g, s, rfl⟩ := h'
  exact ⟨j, g, s, rfl⟩

theorem OnlyRecords.env (h : OnlyRecords w w') : w'.env = w.env := by
  obtain ⟨_, _, _, rfl⟩ := h
  rfl

theorem OnlyRecords.booted (h : OnlyRecords w w') : w'.booted = w.booted := by
  obtain ⟨_, _, _, rfl⟩ := h
  rfl

theorem OnlyRecords.app (h : OnlyRecords w w') : w'.app = w.app := by
  obtain ⟨_, _, _, rfl⟩ := h
  rfl

/-- Calls that write the records of a job. -/
def HostCall.records : HostCall → Bool
  | .writeJournal _ | .removeJournal | .writeGuard _ | .removeStaging _ => true
  | _ => false

theorem OnlyRecords.effect {c : HostCall} (h : OnlyRecords w w') (hc : c.records = true) :
    OnlyRecords w (w'.effect c) := by
  obtain ⟨j, g, s, rfl⟩ := h
  cases c with
  | writeJournal job => exact ⟨some job, g, s, rfl⟩
  | removeJournal => exact ⟨none, g, s, rfl⟩
  | writeGuard guard => exact ⟨j, some guard, s, rfl⟩
  | removeStaging id => exact ⟨j, g, _, rfl⟩
  | _ => cases hc

theorem onlyRecords_effect {c : HostCall} (w : World) (hc : c.records = true) :
    OnlyRecords w (w.effect c) := (OnlyRecords.refl w).effect hc

/-- The job named by the environment: the one that was found, or one rebuilt and saved. -/
def Rebuilt (w : World) (found : Option Job) (job : Job) (w' : World) : Prop :=
  (found = some job ∧ w' = w) ∨ (job.state = .trying ∧ w' = { w with journal := some job })

theorem Rebuilt.onlyRecords {found : Option Job} {job : Job} (h : Rebuilt w found job w') :
    OnlyRecords w w' := by
  rcases h with ⟨_, rfl⟩ | ⟨_, rfl⟩
  · exact .refl _
  · exact ⟨some job, w.guard, w.staging, rfl⟩

theorem Rebuilt.journal {job : Job} (h : Rebuilt w w.journal job w') : w'.journal = some job := by
  rcases h with ⟨hfound, rfl⟩ | ⟨_, rfl⟩
  · exact hfound
  · rfl

theorem rebuild_alone {env : Env} {found : Option Job} {id : JobId} {Q : Job → World → Prop}
    {E : Err → World → Prop} (hid : env.osPending = some id) (hw : ∀ c, allowed w c)
    (hE : ∀ e w', OnlyRecords w w' → E e w')
    (hQ : ∀ job w', job.id = id → Rebuilt w found job w' → Q job w') :
    Alone O allowed (rebuild env found) Q E w := by
  refine Safe.bind (need_alone (fun h => ?_) fun pending hp => ?_)
  · simp [hid] at h
  · obtain rfl : id = pending := by simpa [hid] using hp
    cases hfound : found.filter fun job => job.id == id with
    | some job =>
      obtain ⟨hjob, hsame⟩ := Option.filter_eq_some_iff.mp hfound
      exact hQ job w (by simpa using hsame) (Or.inl ⟨hjob, rfl⟩)
    | none =>
      refine Safe.bind (need_alone (fun _ => hE _ _ (.refl w)) fun seq _ => ?_)
      refine Safe.bind (save_alone (hw _) (fun e w' h _ => hE e w' ?_) ?_)
      · rcases h with rfl | rfl
        · exact .refl _
        · exact onlyRecords_effect w rfl
      · exact hQ _ _ rfl (Or.inr ⟨rfl, rfl⟩)

/-- A job that ends: its record says so, and the guard is idle. -/
theorem finish_alone {job : Job} {state : JobState} {error : Option String}
    {Q : Unit → World → Prop} {E : Err → World → Prop} (hstate : state.terminal = true)
    (hw : ∀ w' c, OnlyRecords w w' → allowed w' c) (hE : ∀ e w', OnlyRecords w w' → E e w')
    (hQ : ∀ w', OnlyRecords w w' → w'.journal = some (job.finished state error) →
      w'.guard = some { state := .idle, job := none } → Q () w') :
    Alone O allowed (finish job state error) Q E w := by
  have hsaved := onlyRecords_effect (c := .writeJournal (job.finished state error)) w rfl
  have hremoved := hsaved.effect (c := .removeStaging job.id) rfl
  refine Safe.bind (save_alone (hw _ _ (.refl w)) (fun e w' h _ => hE e w' ?_) ?_)
  · rcases h with rfl | rfl
    · exact .refl _
    · exact hsaved
  rw [Prog.when_pos hstate]
  refine Safe.bind (removeStaging_alone (hw _ _ hsaved) (fun e w' h _ => hE e w' ?_) ?_)
  · rcases h with rfl | rfl
    · exact hsaved
    · exact hremoved
  refine setGuard_alone (hw _ _ hremoved) (fun e w' h _ => hE e w' ?_) ?_
  · rcases h with rfl | rfl
    · exact hremoved
    · exact hremoved.effect rfl
  · exact hQ _ (hremoved.effect rfl) rfl rfl

end Faulty

/-! ### What holds when a program returns

Only the results count here: the calls on the way and the exceptions are left open. -/

section Ends

variable {α β : Type}

abbrev Ends (O : Oracles) (p : OsProg α) (Q : α → World → Prop) (w : World) : Prop :=
  Alone O (fun _ _ => True) p Q (fun _ _ => True) w

theorem ends_bind {p : OsProg α} {f : α → OsProg β} {Q : β → World → Prop}
    (h : Ends O p (fun a t => Ends O (f a) Q t) w) : Ends O (p >>= f) Q w := Safe.bind h

theorem ends_result {p : OsProg α} {Q : α → World → Prop} {a : α} (h : Ends O p Q w)
    (hrun : Runs (· = ·) (Outcome O) (w, p) (w', .ret a)) : Q a w' := h.result hrun

/-- An exception is all there is. -/
theorem raises_ends {β : Type} {p : OsProg β} {e : Err} {Q : α → World → Prop} :
    Ends O (p >>= fun _ => (throw e : OsProg α)) Q w :=
  (Prog.Gives.safe (P := fun _ => False) ((gives_true p).bind fun _ _ => gives_raise e)).mono
    (fun _ _ h => h.elim) fun _ _ h => h

theorem readEnv_ends {Q : Env → World → Prop} (hQ : Q w.env w) : Ends O readEnv Q w :=
  readEnv_alone trivial (fun _ => trivial) hQ

theorem bootedSlot_ends {Q : Slot → World → Prop} (hQ : Q w.booted w) : Ends O bootedSlot Q w :=
  bootedSlot_alone trivial (fun _ => trivial) hQ

theorem journal_ends {Q : Option Job → World → Prop} (hQ : Q w.journal w) : Ends O journal Q w :=
  journal_alone trivial (fun _ => trivial) hQ

theorem need_ends {x : Option α} {Q : α → World → Prop} (hQ : ∀ a, x = some a → Q a w) :
    Ends O (need x) Q w := need_alone (fun _ => trivial) hQ

theorem layout_ends {Q : Unit → World → Prop} (hQ : Q () w) : Ends O layout Q w := by
  refine Safe.bind (safe_call.mpr ⟨trivial, fun x w' h => ?_⟩)
  obtain rfl := h.reads rfl
  cases x with
  | done => exact hQ
  | failed => trivial
  | noLayout => trivial

theorem save_ends {job : Job} {Q : Unit → World → Prop}
    (hQ : Q () { w with journal := some job }) : Ends O (save job) Q w :=
  save_alone trivial (fun _ _ _ _ => trivial) hQ

theorem setGuard_ends {state : GuardState} {job : Option JobId} {Q : Unit → World → Prop}
    (hQ : Q () { w with guard := some { state, job } }) : Ends O (setGuard state job) Q w :=
  setGuard_alone trivial (fun _ _ _ _ => trivial) hQ

theorem clearPending_ends {Q : Env → World → Prop}
    (hQ : Q (w.env.write clearBatch) { w with env := w.env.write clearBatch }) :
    Ends O clearPending Q w :=
  clearPending_alone trivial (fun _ _ => ⟨trivial, fun _ => trivial, fun _ => trivial⟩) hQ

theorem rebuild_ends {env : Env} {found : Option Job} {id : JobId} {Q : Job → World → Prop}
    (hid : env.osPending = some id)
    (hQ : ∀ job w', job.id = id → Rebuilt w found job w' → Q job w') :
    Ends O (rebuild env found) Q w :=
  rebuild_alone hid (fun _ => trivial) (fun _ _ _ => trivial) hQ

theorem finish_ends {job : Job} {state : JobState} {error : Option String}
    {Q : Unit → World → Prop} (hstate : state.terminal = true)
    (hQ : ∀ w', OnlyRecords w w' → w'.journal = some (job.finished state error) →
      w'.guard = some { state := .idle, job := none } → Q () w') :
    Ends O (finish job state error) Q w :=
  finish_alone hstate (fun _ _ _ => trivial) (fun _ _ _ => trivial) hQ

/-- A command whose outcome nothing depends on. -/
theorem run_ends {c : HostCall} {program : String} {g : Ans c → Ran} {Q : Bool → World → Prop}
    (hQ : ∀ b w', w' = w ∨ w' = w.effect c → Q b w') :
    Ends O (run program (.call c fun x => .ret (g x))) Q w := by
  refine run_alone trivial fun x w' hx => ⟨fun _ => trivial, fun b => hQ b w' ?_⟩
  rcases hx.2 with h | h
  · exact Or.inr h
  · exact Or.inl h.1

theorem workerActive_ends {Q : Bool → World → Prop} (hQ : Q w.workerActive w) :
    Ends O workerActive Q w := by
  refine Safe.bind (safe_call.mpr ⟨trivial, fun x w' h => ?_⟩)
  obtain rfl := h.reads rfl
  have hx := h.1
  cases x with
  | noAnswer => trivial
  | ok => simpa [truthful] using (show w'.workerActive = true by simpa [truthful] using hx) ▸ hQ
  | failed =>
    have hidle : w'.workerActive = false := by simpa [truthful] using hx
    simpa [hidle] using hQ

theorem targetBad_ends {target : Option Slot} {Q : Bool → World → Prop}
    (hQ : ∀ s w', target = some s → w' = w ∨ w' = { w with env := w.env.setLeft s 0 } →
      Q (w'.env.left s == 0) w') : Ends O (targetBad target) Q w := by
  cases target with
  | none => exact trivial
  | some s =>
    exact targetBad_alone trivial fun w' hw' =>
      ⟨trivial, fun _ => trivial, fun _ => trivial, hQ s w' rfl hw'⟩

end Ends

end Epilykos.OsUpdate
