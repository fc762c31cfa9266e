import Epilykos.OsUpdate.Protocol
import Epilykos.OsUpdate.Records

/-!
The programs refine the protocol of the shared environment: whatever a program of the box is
told and wherever it is cut, what it did to the environment is a path of the protocol. What the
steps of the protocol may count on, a program has read itself; only that a job's record has the
sequence of its signed entry is carried from the request that admitted the job.
-/

namespace Epilykos.OsUpdate

open Program World

variable {O : Oracles} {w w' : World} {job : Job}

def World.shared (w : World) : Shared := { env := w.env, booted := w.booted, rootPem := w.rootPem }

/-! ### The record of a job and its signed entry -/

/-- The entry a job carries has the sequence of its record, under whatever policy it is read. -/
def Job.Signed (O : Oracles) (job : Job) : Prop :=
  ∀ files, job.files = some files → ∀ plat policy entry key,
    readEntry O files.entry plat policy = .ok (entry, key) → entry.sequence = job.sequence

theorem Job.Signed.continues {j : Job} (h : job.Signed O) (hj : job.Continues j) : j.Signed O := by
  intro files hfiles plat policy entry key hread
  rw [hj.sequence]
  exact h files (hj.files ▸ hfiles) plat policy entry key hread

theorem refuseIf_ok {a b : ℕ} {msg : String} {u : Unit} (h : refuseIf (a ≠ b) msg = .ok u) :
    a = b := by
  by_contra hne
  rw [refuseIf, if_pos hne] at h
  cases h

/-- The sequence of an entry is that of its text, whatever the platform and the policy; its
epoch and its key are of the policy. -/
theorem readEntry_fields {raw : Bytes} {plat : Platform} {policy : Policy} {entry : Entry}
    {key : IndexKey} (h : readEntry O raw plat policy = .ok (entry, key)) :
    (∃ fields, strictJson O raw entryMax = .ok (.obj fields) ∧
      integer 1 (Json.get fields "sequence") = .ok entry.sequence) ∧
    entry.trustEpoch = policy.trustEpoch ∧ key ∈ policy.indexKeys := by
  obtain ⟨value, hvalue, h⟩ := ok_bind h
  split at h
  · rename_i fields
    obtain ⟨_, -, h⟩ := ok_bind h
    obtain ⟨_, -, h⟩ := ok_bind h
    obtain ⟨_, -, h⟩ := ok_bind h
    obtain ⟨sequence, hseq, h⟩ := ok_bind h
    obtain ⟨_, -, h⟩ := ok_bind h
    obtain ⟨minHostApi, -, h⟩ := ok_bind h
    obtain ⟨_, -, h⟩ := ok_bind h
    obtain ⟨trustEpoch, -, h⟩ := ok_bind h
    obtain ⟨_, hepoch, h⟩ := ok_bind h
    obtain ⟨version, -, h⟩ := ok_bind h
    obtain ⟨notesUrl, -, h⟩ := ok_bind h
    split at h
    · obtain ⟨_, -, h⟩ := ok_bind h
      obtain ⟨bundleUrl, -, h⟩ := ok_bind h
      obtain ⟨_, -, h⟩ := ok_bind h
      obtain ⟨bundleSize, -, h⟩ := ok_bind h
      obtain ⟨_, -, h⟩ := ok_bind h
      split at h
      · obtain ⟨_, -, h⟩ := ok_bind h
        split at h
        · dsimp only at h
          split at h
          · cases h
          · rename_i found hfound
            obtain ⟨rfl, rfl⟩ := Prod.mk.inj (Except.ok.inj h)
            exact ⟨⟨fields, hvalue, hseq⟩, refuseIf_ok hepoch, List.mem_of_find?_eq_some hfound⟩
        · cases h
      · cases h
    · cases h
  · cases h

theorem newJob_signed {id : JobId} {requestId : String} {entry : Entry} {slot : Slot} {files : Files}
    {plat : Platform} {policy : Policy} {key : IndexKey}
    (h : readEntry O files.entry plat policy = .ok (entry, key)) :
    (newJob id requestId entry slot files).Signed O := by
  intro files' hfiles plat' policy' entry' key' h'
  obtain rfl : files = files' := Option.some.inj hfiles
  obtain ⟨⟨fields, hraw, hseq⟩, -⟩ := readEntry_fields h
  obtain ⟨⟨fields', hraw', hseq'⟩, -⟩ := readEntry_fields h'
  obtain rfl : fields = fields' := by simpa using hraw.symm.trans hraw'
  exact Except.ok.inj (hseq'.symm.trans hseq)

theorem rebuiltJob_signed (env : Env) (pending : JobId) (sequence : ℕ) :
    (rebuiltJob env pending sequence).Signed O := nofun

theorem Job.Signed.stage {j : Job} (h : job.Signed O) (hj : job.Stage j) : j.Signed O := by
  obtain ⟨_, _, _, _, _, rfl⟩ := hj
  exact h

/-! ### Calls that move nothing but records, bad marks and the end of a job -/

def HostCall.toldSigned (O : Oracles) : (c : HostCall) → Ans c → Prop
  | .readJournal, x => ∀ job, x = .job job → job.Signed O
  | _, _ => True

def HostCall.plain (O : Oracles) : HostCall → Prop
  | .setEnv batch => batch = clearBatch
  | .markActive _ | .markActiveBooted | .markGoodBooted => False
  | .writeJournal j => j.Signed O
  | _ => True

/-- A path of the protocol led here, and the record on DATA is that of a signed job. -/
structure Traced (O : Oracles) (x : Shared) (w : World) : Prop where
  path : Relation.ReflTransGen (SharedStep O) x w.shared
  journal : ∀ job, w.journal = some job → job.Signed O

theorem Traced.step {x y : Shared} (h : Traced O x w) (hstep : SharedStep O w.shared y)
    (hshared : w'.shared = y) (hjournal : w'.journal = w.journal) : Traced O x w' :=
  ⟨hshared ▸ h.path.tail hstep, fun job hjob => h.journal job (hjournal ▸ hjob)⟩

@[simp] theorem shared_setEnv (w : World) (batch : List Assign) :
    (w.effect (.setEnv batch)).shared = w.shared.write batch := rfl

@[simp] theorem shared_markBad (w : World) (s : Slot) : (w.effect (.markBad s)).shared =
    { w.shared with env := w.shared.env.setLeft s 0 } := rfl

@[simp] theorem shared_markActive (w : World) (s : Slot) :
    (w.effect (.markActive s)).shared = w.shared.markActive s := rfl

@[simp] theorem shared_markActiveBooted (w : World) :
    (w.effect .markActiveBooted).shared = w.shared.markActive w.booted := rfl

@[simp] theorem shared_markGoodBooted (w : World) : (w.effect .markGoodBooted).shared =
    { w.shared with env := w.shared.env.setLeft w.shared.booted 3 } := rfl

theorem effect_shared (w : World) {c : HostCall} (hc : c.keepsEnv = true) :
    (w.effect c).shared = w.shared := by
  cases c <;> first | rfl | cases hc
  unfold effect
  split_ifs <;> rfl

theorem Traced.told {x : Shared} {c : HostCall} {a : Ans c} (h : Traced O x w)
    (ho : Outcome O w c a w') : c.toldSigned O a := by
  cases c with
  | readJournal =>
    intro job ha
    obtain hbad | hread := ho.1
    · rw [hbad] at ha
      cases ha
    · rw [hread] at ha
      cases hj : w.journal with
      | none => simp [journalRead, hj] at ha
      | some j =>
        obtain rfl : j = job := by simpa [journalRead, hj] using ha
        exact h.journal j hj
  | _ => trivial

theorem Traced.plain {x : Shared} {c : HostCall} {a : Ans c} (h : Traced O x w) (hc : c.plain O)
    (ho : Outcome O w c a w') : Traced O x w' := by
  obtain rfl | ⟨rfl, -⟩ := ho.2
  · by_cases hkeeps : c.keepsEnv = true
    · have hshared := effect_shared w hkeeps
      refine ⟨hshared ▸ h.path, fun job hjob => ?_⟩
      by_cases hjournal : c.keepsJournal = true
      · exact h.journal job ((effect_journal w hjournal).symm.trans hjob)
      · cases c with
        | writeJournal j =>
          obtain rfl : j = job := Option.some.inj hjob
          exact hc
        | removeJournal => cases hjob
        | _ => exact (hjournal rfl).elim
    · cases c with
      | setEnv batch =>
        obtain rfl : batch = clearBatch := hc
        exact h.step .clear (shared_setEnv w _) (effect_journal w rfl)
      | markBad s => exact h.step (.bad s) (shared_markBad w s) (effect_journal w rfl)
      | markActive s => exact (hc : False).elim
      | markActiveBooted => exact (hc : False).elim
      | markGoodBooted => exact (hc : False).elim
      | _ => exact (hkeeps rfl).elim
  · exact h

/-! ### Programs of such calls -/

/-- As long as it is told of signed jobs, the program makes plain calls only. -/
abbrev Plain {α : Type} (O : Oracles) (p : OsProg α) (P : α → Prop) : Prop :=
  Local (F := Host) (HostCall.toldSigned O) (HostCall.plain O) p P fun _ => True

section Plain

variable {α β : Type}

theorem plain_of_makes {p : OsProg α} (hp : p.Makes (F := Host) (HostCall.plain O)) :
    Plain O p fun _ => True := hp.loc fun _ => trivial

theorem plain_of_looks {c : HostCall} (h : c.looks) : c.plain O := by
  obtain h | ⟨id, s, rfl⟩ := h
  · cases c <;> trivial
  · trivial

theorem looks_plain {p : OsProg α} (hp : p.Makes (F := Host) HostCall.looks) :
    p.Makes (F := Host) (HostCall.plain O) := hp.mono fun _ => plain_of_looks

theorem plain_of_ofWorker {B : HostCall → Prop} {c : HostCall} (hjob : job.Signed O)
    (hB : ∀ c, B c → c.plain O) (h : c.ofWorker job B) : c.plain O := by
  cases c with
  | setEnv batch => exact hB _ h
  | markActive s => exact hB _ h
  | writeJournal j => exact hjob.continues h
  | _ => trivial

/-- The programs keep the records signed. -/
theorem plain_records :
    Records O (HostCall.toldSigned O) (HostCall.plain O) fun job => job.Signed O where
  told job h := h job rfl
  common {c} hc := by cases c <;> trivial
  clear := rfl
  save hjob _ := hjob
  stage := Job.Signed.stage
  admitted := newJob_signed
  rebuilt := rebuiltJob_signed

theorem anytime_signed : Anytime (HostCall.plain O) fun job => job.Signed O := fun _ hjob => hjob

end Plain

/-! ### Programs that move the protocol -/

section Traces

variable {α β ε : Type} {x : Shared}

theorem OnlyHistory.traced (h : OnlyHistory w w') (hw : Traced O x w) : Traced O x w' := by
  obtain ⟨slots, rfl⟩ := h
  exact ⟨hw.path, hw.journal⟩

/-- Wherever the program is cut, the protocol led there. -/
abbrev Traces (O : Oracles) (x : Shared) (p : Prog Host ε α) (Q : α → World → Prop)
    (E : ε → World → Prop) (w : World) : Prop :=
  Safe (F := Host) (· = ·) (Outcome O) (fun t _ => Traced O x t) p
    (fun a t => Q a t ∧ Traced O x t) (fun e t => E e t ∧ Traced O x t) w

theorem traces_bind {Q : α → World → Prop} {R : β → World → Prop} {E : ε → World → Prop}
    {p : Prog Host ε α} {f : α → Prog Host ε β} (hp : Traces O x p Q E w)
    (hf : ∀ a t, Q a t → Traced O x t → Traces O x (f a) R E t) : Traces O x (p >>= f) R E w :=
  Safe.bind (hp.mono (fun a t h => hf a t h.1 h.2) fun _ _ h => h)

theorem traces_of_plain {P : α → Prop} {p : OsProg α} (hp : Plain O p P) (hw : Traced O x w) :
    Traces O x p (fun a _ => P a) (fun _ _ => True) w := by
  refine hp.safe (I := Traced O x) ?_ ?_ ?_ hw
  · rintro t _ rfl ht
    exact ht
  · exact fun t c a t' ht ho => ht.told ho
  · exact fun t c hc ht => ⟨ht, fun a t' ho => ht.plain hc ho⟩

theorem traces_of_makes {p : OsProg α} (hp : p.Makes (F := Host) (HostCall.plain O))
    (hw : Traced O x w) : Traces O x p (fun _ _ => True) (fun _ _ => True) w :=
  traces_of_plain (plain_of_makes hp) hw

theorem traces_of_looks {Q : α → World → Prop} {p : OsProg α}
    (hp : ∀ {allowed : World → HostCall → Prop}, (∀ w' c, OnlyHistory w w' → allowed w' c) →
      Alone O allowed p (fun a t => Q a t ∧ OnlyHistory w t) (fun _ => OnlyHistory w) w)
    (hw : Traced O x w) :
    Traces O x p (fun a t => Q a t ∧ OnlyHistory w t) (fun _ _ => True) w :=
  (hp fun _ _ h => h.traced hw).mono (fun _ _ h => ⟨h, h.2.traced hw⟩)
    fun _ _ h => ⟨trivial, h.traced hw⟩

/-- A part of the worker that carries the record, once no batch is left to write. -/
theorem traces_of_carries {P : α → Prop} {p : JobProg α} (hjob : job.Signed O)
    (hp : Carries job (fun _ => False) p P) (hw : Traced O x w) :
    Traces O x p (fun a _ => P a) (fun e _ => job.Continues e.2) w := by
  refine hp.safe (I := Traced O x) ?_ (fun _ _ _ _ _ _ => trivial) ?_ hw
  · rintro t _ rfl ht
    exact ht
  · intro t c hc ht
    exact ⟨ht, fun a t' ho => ht.plain (plain_of_ofWorker hjob (fun _ h => h.elim) hc) ho⟩

theorem withJob_traces {Q : α → World → Prop} {p : OsProg α} {j : Job} (hj : job.Continues j)
    (hp : Traces O x p Q (fun _ _ => True) w) :
    Traces O x (withJob j p) Q (fun e _ => job.Continues e.2) w :=
  Safe.tryCatch (hp.mono (fun _ _ h => h) fun _ _ h => ⟨hj, h.2⟩)

theorem setEnv_traces {batch : List Assign} (hw : Traced O x w)
    (hstep : SharedStep O w.shared (w.shared.write batch)) :
    Traces O x (setEnv batch)
      (fun env t => env = t.env ∧ t = { w with env := w.env.write batch }) (fun _ _ => True) w := by
  have hset : Traced O x { w with env := w.env.write batch } := hw.step hstep rfl rfl
  refine setEnv_alone hw (fun t ht => ?_) ⟨⟨rfl, rfl⟩, hset⟩
  have ht' : Traced O x t := by
    obtain rfl | rfl := ht
    · exact hw
    · exact hset
  exact ⟨ht', fun _ => ⟨trivial, ht'⟩, fun _ => ⟨trivial, ht'⟩⟩

/-! ### The trust policy -/

theorem admitPolicy_traces {raw sig : Bytes} {plat : Platform} {state : TrustState}
    (hw : Traced O x w) (hstate : state.Tells O w) :
    Traces O x (admitPolicy O raw sig plat state) (fun _ _ => True) (fun _ _ => True) w := by
  refine Safe.bind (readRoot_alone hw ⟨trivial, hw⟩ ?_)
  refine traces_bind (traces_of_looks (fun h => (learns_rethrow
    (verifyPolicy_learns _ _ _ _ _ _)).alone h) hw) ?_
  rintro policy w₁ ⟨⟨hvouched, hcurrent⟩, hsame⟩ h₁
  obtain ⟨hepoch, hraw⟩ := hcurrent _ rfl
  have hstep : SharedStep O w₁.shared
      (w₁.shared.write (trustBatch raw sig policy.trustEpoch)) := by
    obtain ⟨slots, rfl⟩ := hsame
    refine .trust hvouched.1 ?_ fun heq => ?_
    · exact hstate.epoch ▸ hepoch
    · exact (hraw (heq.trans hstate.epoch.symm)).trans hstate.raw
  refine traces_bind (Q := fun _ _ => True) (safe_call.mpr ⟨h₁, fun a t ho => ?_⟩) fun a t _ ht => ?_
  · refine ⟨trivial, ?_⟩
    obtain rfl | ⟨rfl, -⟩ := ho.2
    · exact h₁.step hstep (shared_setEnv w₁ _) (effect_journal w₁ rfl)
    · exact h₁
  · refine traces_bind (traces_of_makes (makes_raiseIf _) ht) fun _ t₁ _ h₁ => ?_
    refine traces_bind (traces_of_makes (looks_plain (currentState_makes _)) h₁) fun _ t₂ _ h₂ => ?_
    exact traces_bind (traces_of_makes (makes_raiseIf _) h₂) fun _ t₃ _ h₃ => ⟨trivial, h₃⟩

theorem admitNewer_traces {files : Files} {plat : Platform} {state : TrustState} (newer : Bool)
    (hw : Traced O x w) (hstate : state.Tells O w) :
    Traces O x (admitNewer O files plat state newer) (fun _ _ => True) (fun _ _ => True) w := by
  cases newer with
  | true =>
    refine traces_bind (admitPolicy_traces hw hstate) fun _ t _ ht => ?_
    have hrestart : restartRauc.Makes (F := Host) (HostCall.plain O) :=
      (@restartRauc_serves (rebuiltJob t.env "" 0) (fun _ => False)).mono fun _ hc =>
        plain_of_ofWorker (rebuiltJob_signed _ _ _) (fun _ h => h.elim) hc
    exact traces_bind (traces_of_makes hrestart ht) fun _ _ _ h => ⟨trivial, h⟩
  | false => exact ⟨trivial, hw⟩

theorem OnlyHistory.tells {state : TrustState} (h : OnlyHistory w w') (hstate : state.Tells O w) :
    state.Tells O w' := by
  obtain ⟨slots, rfl⟩ := h
  exact ⟨hstate.vouched, hstate.text, hstate.raw, hstate.signature, hstate.epoch, hstate.policy, hstate.floor⟩

theorem workOn_traces (hjob : job.Signed O) (plat : Option Platform) (hw : Traced O x w) :
    Traces O x (workOn O plat job) (fun _ _ => True) (fun e _ => job.Continues e.2) w := by
  have hj := Job.Continues.refl job
  have hplain : ∀ {γ : Type} {t : World} (p : OsProg γ), p.Makes (F := Host) (HostCall.plain O) →
      Traced O x t → Traces O x (withJob job p) (fun _ _ => True) (fun e _ => job.Continues e.2) t :=
    fun p hp ht => withJob_traces hj (traces_of_makes hp ht)
  refine traces_bind (hplain _ (need_makes plat) hw) fun plat w₀ _ h₀ => ?_
  refine traces_bind (withJob_traces hj (traces_of_looks (fun h => currentState_tells plat h) h₀))
    fun state w₁ hread h₁ => ?_
  have hstate : state.Tells O w₁ := hread.2.tells hread.1
  refine traces_bind (withJob_traces hj (traces_of_looks (fun h => looks_gives_alone
    (need_makes _) (gives_true _) h) h₁)) fun files w₂ hsame h₂ => ?_
  refine traces_bind (withJob_traces hj (traces_of_looks (fun h => looks_gives_alone
    (verifyRelease_makes files plat state) (gives_true _) h) h₂)) ?_
  rintro ⟨_, _, newer⟩ w₃ hsame' h₃
  refine traces_bind (withJob_traces hj (admitNewer_traces newer h₃
    (hsame'.2.tells (hsame.2.tells hstate)))) fun state w₄ _ h₄ => ?_
  -- from here on nothing is written to the environment
  refine (traces_of_carries (P := fun _ => True) hjob ?_ h₄).mono (fun _ _ h => ⟨trivial, h.2⟩)
    fun _ _ h => h
  refine carries_bind (withJob_serves (serves_of_looks (verifyOsRelease_makes _ _ _ _)) hj)
    fun entry _ => ?_
  refine carries_bind (withJob_serves (makes_raiseIf _) hj) fun _ _ => ?_
  refine carries_bind (carries_raiseIf hj) fun _ _ => ?_
  refine carries_bind (download_carries hj entry) fun j₁ hj₁ => ?_
  refine carries_bind (withJob_serves (save_makes (hj₁.step _)) (hj₁.step _)) fun _ _ => ?_
  refine carries_bind (carries_call trivial fun _ => trivial) fun bundle _ => ?_
  cases bundle with
  | none => exact hj₁.step _
  | some bundle =>
    refine carries_bind (withJob_carries (verifyBundle_serves _ _ _) (verifyBundle_gives _ _ _)
      (hj₁.step _)) fun image himage => ?_
    have hj₂ : job.Continues { j₁.step .verifying with image := some image } := by
      obtain ⟨size, d, rfl, hd⟩ := himage
      exact ⟨hj₁.id, hj₁.requestId, hj₁.sequence, hj₁.sha256, hj₁.source, hj₁.target, hj₁.files,
        Or.inr ⟨size, d, rfl, hd⟩⟩
    refine carries_bind (withJob_serves (cancelled_serves _) hj₂) fun stop _ => ?_
    exact carries_bind (carries_raiseIf hj₂) fun _ _ => installBundle_carries hj₂

/-! ### The activation -/

theorem plain_of_serves {B : HostCall → Prop} {p : OsProg α} (hjob : job.Signed O)
    (hB : ∀ c, B c → c.plain O) (hp : Serves job B p) : p.Makes (F := Host) (HostCall.plain O) :=
  hp.mono fun _ hc => plain_of_ofWorker hjob hB hc

theorem intend_traces (hjob : job.Signed O) (hw : Traced O x w) :
    Traces O x (intend O job) (fun r t => r = none →
      t.env.osPhase = some .activationIntent ∧ t.env.osTarget = job.target) (fun _ _ => True) w := by
  refine Safe.tryCatch (Safe.mono (E := fun _ t => True ∧ Traced O x t) ?_ (fun _ _ h => h) ?_)
  · refine traces_bind (traces_of_looks (Q := fun _ _ => Newer O job w.env.osFloor ∧
      nonBootable w.env job.target job.source = true) (fun h => (revalidate_alone h).mono
        (fun _ _ ⟨h₁, h₂, h₃⟩ => ⟨⟨h₁, h₂⟩, h₃⟩) fun _ _ h => h) hw) ?_
    rintro _ w₁ ⟨⟨hnewer, hboot⟩, hsame⟩ h₁
    rw [← hsame.env] at hnewer hboot
    refine Safe.bind (readEnv_alone h₁ (fun _ => ⟨trivial, h₁⟩) ?_)
    refine Safe.bind (safe_raiseIf.mpr ⟨fun _ => ⟨trivial, h₁⟩, fun hpending => ?_⟩)
    refine Safe.bind (need_alone (fun _ => ⟨trivial, h₁⟩) fun image himage => ?_)
    have hadmits : Admits w₁.env job := by
      refine ⟨?_, hboot, ?_⟩
      · obtain ⟨files, plat, policy, entry, key, hfiles, hentry, hlt⟩ := hnewer
        rw [← hjob files hfiles plat policy entry key hentry]
        exact hlt
      · by_contra hother
        exact hpending (not_or.mp hother)
    refine traces_bind (setEnv_traces h₁ (.intend hadmits himage)) ?_
    rintro env t ⟨-, ht⟩ htraced
    refine ⟨fun _ => ?_, htraced⟩
    rw [ht]
    exact ⟨rfl, rfl⟩
  · intro e t ht
    cases e <;> first | exact ht | exact ⟨nofun, ht.2⟩

theorem activateTarget_traces (hjob : job.Signed O) (hw : Traced O x w)
    (hphase : w.env.osPhase = some .activationIntent) (htarget : w.env.osTarget = job.target) :
    Traces O x (activateTarget job) (fun _ _ => True) (fun _ _ => True) w := by
  refine Safe.bind (need_alone (fun _ => ⟨trivial, hw⟩) fun target hjt => ?_)
  have htarget' : w.env.osTarget = some target := htarget.trans hjt
  refine Safe.bind (run_alone hw fun a w₁ ho => ?_)
  have h₁ : Traced O x w₁ ∧ w₁.env.osPhase = some .activationIntent ∧
      w₁.env.osTarget = some target := by
    obtain rfl | ⟨rfl, -⟩ := ho.2
    · exact ⟨hw.step (.activate hphase htarget') (shared_markActive w target)
        (effect_journal w rfl), hphase, htarget'⟩
    · exact ⟨hw, hphase, htarget'⟩
  obtain ⟨h₁, hphase₁, htarget₁⟩ := h₁
  refine ⟨fun _ => ⟨trivial, h₁⟩, fun _ => ?_⟩
  refine Safe.bind (readEnv_alone h₁ (fun _ => ⟨trivial, h₁⟩) ?_)
  by_cases hmarked : w₁.env.bootOrder.head? ≠ some target ∨ w₁.env.left target ≠ 3
  · rw [if_pos hmarked]
    exact (traces_of_makes (plain_records.backToReady anytime_signed hjob _) h₁).mono (fun _ _ h => h) fun _ _ h => h
  · rw [if_neg hmarked]
    obtain ⟨horder, hleft⟩ : w₁.env.bootOrder.head? = some target ∧ w₁.env.left target = 3 := by
      simpa [not_or] using hmarked
    refine traces_bind (setEnv_traces h₁ (.activated hphase₁ htarget₁ horder hleft))
      fun _ w₂ _ h₂ => ?_
    refine traces_bind (traces_of_makes (save_makes ?_) h₂) fun _ w₃ _ h₃ => ?_
    · exact hjob.continues ((Job.Continues.refl job).progressed _ _ _ _ _)
    · exact traces_of_makes (.bind (run_makes trivial) fun _ => trivial) h₃

theorem activate_traces (hjob : job.Signed O) (hw : Traced O x w) :
    Traces O x (activate O job) (fun _ _ => True) (fun _ _ => True) w := by
  refine traces_bind (traces_of_makes ?_ hw) fun already w₁ _ h₁ => ?_
  · unfold alreadyActivated
    split_ifs
    · exact .bind (looks_plain readEnv_makes) fun _ => trivial
    · trivial
  · split_ifs
    · exact traces_of_makes (.bind (run_makes trivial) fun _ => trivial) h₁
    · refine traces_bind (intend_traces hjob h₁) fun refusal w₂ hnone h₂ => ?_
      cases refusal with
      | some error => exact traces_of_makes (plain_records.backToReady anytime_signed hjob error) h₂
      | none =>
        obtain ⟨hphase, htarget⟩ := hnone rfl
        exact activateTarget_traces hjob h₂ hphase htarget

/-! ### The worker -/

theorem holdingLease_traces (hjob : job.Signed O) (hw : Traced O x w) :
    Traces O x (holdingLease O job) (fun _ _ => True) (fun _ _ => True) w := by
  refine traces_bind (traces_of_makes (setGuard_makes trivial) hw) fun _ w₁ _ h₁ => ?_
  split
  · exact traces_of_makes (plain_of_serves (B := fun _ => False) hjob (fun _ h => h.elim)
      (reconcileInstall_serves (.refl job))) h₁
  · exact activate_traces hjob h₁
  · refine traces_bind (traces_of_makes (looks_plain platform_makes) h₁) fun plat w₂ _ h₂ => ?_
    refine Safe.tryCatch ((workOn_traces hjob plat h₂).mono (fun _ _ h => h) fun e t he => ?_)
    exact traces_of_makes (plain_of_serves (B := fun _ => False) hjob (fun _ h => h.elim)
      (workFailed_serves e he.1)) he.2

theorem runWorker_traces (hw : Traced O x w) :
    Traces O x (runWorker O) (fun _ _ => True) (fun _ _ => True) w := by
  refine traces_bind (traces_of_plain plain_records.journal hw) fun found w₁ hfound h₁ => ?_
  cases found with
  | none => exact ⟨trivial, h₁⟩
  | some job =>
    have hjob := hfound job rfl
    dsimp only
    split_ifs
    · refine traces_bind (traces_of_makes ?_ h₁) fun stop w₂ _ h₂ => ?_
      · unfold stopRequested
        split_ifs
        · exact .bind (makes_ask trivial fun _ => trivial) fun _ => trivial
        · trivial
      split_ifs
      · exact traces_of_makes (.bind (plain_records.finish hjob (by decide) (by decide)) fun _ => trivial) h₂
      · refine traces_bind (traces_of_makes (makes_ask trivial fun _ => trivial) h₂)
          fun fuel w₃ _ h₃ => ?_
        refine traces_bind (traces_of_makes (plain_of_serves (B := fun _ => False) hjob
          (fun _ h => h.elim) (takeLease_serves fuel)) h₃) fun refusal w₄ _ h₄ => ?_
        cases refusal with
        | some msg => exact traces_of_makes (.bind (plain_records.finish hjob (by decide) (by decide)) fun _ => trivial) h₄
        | none =>
          have hrelease : ∀ t, Traced O x t →
              Traces O x (ask .release) (fun _ _ => True) (fun _ _ => True) t :=
            fun t ht => traces_of_makes (makes_ask trivial fun _ => trivial) ht
          refine Safe.ensure ((holdingLease_traces hjob h₄).mono ?_ ?_)
          · exact fun _ t ht => (hrelease t ht.2).mono (fun _ _ h => h) fun _ _ h => h
          · exact fun _ t ht => (hrelease t ht.2).mono (fun _ _ h => h) fun _ _ h => h
    · exact ⟨trivial, h₁⟩

/-! ### The confirmation -/

theorem confirmIntent_traces (hw : Traced O x w) (htrial : w.shared.OnTrial) :
    Traces O x (confirmIntent w.env)
      (fun env t => env = t.env ∧ t.shared.OnTrial ∧
        t.env.osTargetSequence = w.env.osTargetSequence) (fun _ _ => True) w := by
  by_cases hphase : w.env.osPhase = some .activated
  · rw [confirmIntent, if_pos hphase]
    refine (setEnv_traces hw (.confirming htrial hphase)).mono ?_ fun _ _ h => h
    rintro env t ⟨⟨henv, rfl⟩, ht⟩
    exact ⟨⟨henv, ⟨htrial.pending, htrial.target, htrial.trial⟩, rfl⟩, ht⟩
  · rw [confirmIntent, if_neg hphase]
    exact ⟨⟨rfl, htrial, rfl⟩, hw⟩

theorem confirmSlot_traces {sequence : ℕ} (hw : Traced O x w) (htrial : w.shared.OnTrial)
    (hseq : w.env.osTargetSequence = some sequence) :
    Traces O x (confirmSlot w.env sequence) (fun _ _ => True) (fun _ _ => True) w := by
  by_cases hphase : w.env.osPhase = some .confirming
  · rw [confirmSlot, if_pos hphase]
    refine Safe.bind (run_alone hw fun a w₁ ho => ?_)
    -- the slot may be marked good by now; the rest of the record stands
    have h₁ : Traced O x w₁ ∧ w₁.shared.OnTrial ∧ w₁.env.osPhase = some .confirming ∧
        w₁.env.osTargetSequence = some sequence ∧ w₁.env.osFloor = w.env.osFloor := by
      obtain rfl | ⟨rfl, -⟩ := ho.2
      · refine ⟨hw.step (.good (Or.inr hphase)) (shared_markGoodBooted w) (effect_journal w rfl),
          ⟨htrial.pending, htrial.target, htrial.trial⟩, hphase, hseq, rfl⟩
      · exact ⟨hw, htrial, hphase, hseq, rfl⟩
    obtain ⟨h₁, htrial₁, hphase₁, hseq₁, hfloor⟩ := h₁
    refine ⟨fun _ => ⟨trivial, h₁⟩, fun ok => ?_⟩
    refine Safe.bind (safe_raiseIf.mpr ⟨fun _ => ⟨trivial, h₁⟩, fun _ => ?_⟩)
    rw [← hfloor]
    exact (setEnv_traces h₁ (.promote htrial₁ hphase₁ hseq₁)).mono (fun _ _ h => ⟨trivial, h.2⟩)
      fun _ _ h => h
  · rw [confirmSlot, if_neg hphase]
    exact ⟨trivial, hw⟩

theorem confirmCandidate_traces (hw : Traced O x w) (id : JobId) :
    Traces O x (confirmCandidate id) (fun _ _ => True) (fun _ _ => True) w := by
  refine Safe.bind (readEnv_alone hw (fun _ => ⟨trivial, hw⟩) ?_)
  refine Safe.bind (bootedSlot_alone hw (fun _ => ⟨trivial, hw⟩) ?_)
  refine Safe.bind (safe_raiseIf.mpr ⟨fun _ => ⟨trivial, hw⟩, fun htrial => ?_⟩)
  simp only [ne_eq, not_or, not_not] at htrial
  obtain ⟨hpending, htarget, hstarted, -⟩ := htrial
  have hon : w.shared.OnTrial :=
    ⟨Option.isSome_iff_exists.mpr ⟨id, hpending⟩, htarget, hstarted.trans hpending.symm⟩
  refine Safe.bind (need_alone (fun _ => ⟨trivial, hw⟩) fun sequence hseq => ?_)
  refine traces_bind (confirmIntent_traces hw hon) ?_
  rintro env w₁ ⟨rfl, hon₁, hseq₁⟩ h₁
  refine traces_bind (confirmSlot_traces h₁ hon₁ (hseq₁.trans hseq)) fun env w₂ _ h₂ => ?_
  refine traces_bind (traces_of_plain (plain_records.confirmJob _ _) h₂) fun _ w₃ _ h₃ => ?_
  exact traces_of_makes (.bind plain_records.clearPending fun _ => trivial) h₃

theorem confirmMain_traces (hw : Traced O x w) (id : JobId) (attempts : ℕ) :
    Traces O x (confirmMain id attempts) (fun _ _ => True) (fun _ _ => True) w := by
  induction attempts generalizing w with
  | zero => exact ⟨trivial, hw⟩
  | succ attempts ih =>
    refine Safe.tryCatch ((confirmCandidate_traces hw id).mono (fun _ _ h => h) ?_)
    intro e t ht
    cases e <;> first | exact ih ht.2 | exact ht

theorem superviseConfirm_traces (hw : Traced O x w) (coordinatorExists : Bool) :
    Traces O x (superviseConfirm coordinatorExists) (fun _ _ => True) (fun _ _ => True) w := by
  refine Safe.bind (bootedSlot_alone hw (fun _ => ⟨trivial, hw⟩) ?_)
  refine Safe.bind (safe_call.mpr ⟨hw, fun found w₁ ho => ?_⟩)
  obtain rfl := ho.reads rfl
  obtain rfl | rfl := ho.1
  · exact ⟨trivial, hw⟩
  refine traces_bind (Q := fun _ _ => True) ?_ fun confirmed w₂ _ h₂ => ?_
  · unfold confirmBoot
    split
    · split_ifs
      · exact traces_bind (confirmMain_traces hw _ 3) fun _ _ _ h => ⟨trivial, h⟩
      · exact ⟨trivial, hw⟩
    · rename_i hnone
      refine run_alone hw fun a w₂ ho => ?_
      have h₂ : Traced O x w₂ := by
        obtain rfl | ⟨rfl, -⟩ := ho.2
        · exact hw.step (.good (Or.inl hnone)) (shared_markGoodBooted w₁) (effect_journal w₁ rfl)
        · exact hw
      exact ⟨fun _ => ⟨trivial, h₂⟩, fun _ => ⟨trivial, h₂⟩⟩
  · refine traces_of_makes (.bind (Prog.Makes.when ?_) fun _ => trivial) h₂
    exact .bind (makes_ask trivial fun _ => trivial) fun _ => trivial

/-! ### Every boot -/

/-- The source runs, and the pending job's trial was before. -/
structure FellBack (w : World) : Prop where
  from_ : w.env.osFrom = some w.booted
  trial : w.env.osTrialStarted = w.env.osPending

/-- The source goes first again only where it runs after the target's trial. -/
theorem reconcileRollback_traces {found : Option Job} {pending : JobId} (hw : Traced O x w)
    (hfound : ∀ job, found = some job → job.Signed O) (hback : FellBack w) :
    Traces O x (reconcileRollback w.env found w.booted pending) (fun _ _ => True)
      (fun _ _ => True) w := by
  have hkeeps : (rebuild w.env found).Makes (F := Host) fun c => c.keepsEnv = true := by
    refine .bind (need_makes _) fun pending => ?_
    cases found.filter fun job => job.id == pending with
    | some job => trivial
    | none => exact .bind (need_makes _) fun _ => .bind (save_makes rfl) fun _ => trivial
  have hsame : Alone O (fun _ _ => True) (rebuild w.env found)
      (fun _ t => t.env = w.env ∧ t.booted = w.booted)
      (fun _ t => t.env = w.env ∧ t.booted = w.booted) w :=
    keepsEnv_alone hkeeps fun _ _ _ _ => trivial
  refine Safe.bind (((traces_of_plain (plain_records.rebuild hfound) hw).and hsame).mono ?_
    fun _ _ h => h.1)
  rintro job w₁ ⟨⟨hjob, h₁⟩, henv, hbooted⟩
  have hback₁ : FellBack w₁ := ⟨by rw [henv, hbooted]; exact hback.from_, by rw [henv]; exact hback.trial⟩
  cases htarget : w.env.osTarget with
  | none => exact ⟨trivial, h₁⟩
  | some target =>
    refine Safe.bind (targetBad_alone h₁ fun w₂ hw₂ => ?_)
    have h₂ : Traced O x w₂ ∧ FellBack w₂ := by
      obtain rfl | rfl := hw₂
      · exact ⟨h₁, hback₁⟩
      · exact ⟨h₁.step (.bad target) (shared_markBad w₁ target) rfl, hback₁.from_, hback₁.trial⟩
    obtain ⟨h₂, hback₂⟩ := h₂
    refine ⟨h₂, fun _ => ⟨trivial, h₂⟩, fun _ => ⟨trivial, h₂⟩, ?_⟩
    split_ifs
    · exact traces_of_makes (.bind (setGuard_makes trivial) fun _ => trivial) h₂
    · refine traces_bind (Q := fun _ _ => True) ?_ fun _ w₃ _ h₃ => ?_
      · unfold Prog.when
        split_ifs
        · refine Safe.bind (run_alone h₂ fun a w₃ ho => ?_)
          have h₃ : Traced O x w₃ := by
            obtain rfl | ⟨rfl, -⟩ := ho.2
            · exact h₂.step (.source hback₂.from_ hback₂.trial) (shared_markActiveBooted w₂)
                (effect_journal w₂ rfl)
            · exact h₂
          exact ⟨fun _ => ⟨trivial, h₃⟩, fun _ => ⟨trivial, h₃⟩⟩
        · exact ⟨trivial, h₂⟩
      · exact traces_of_makes (.bind (plain_records.finish hjob (by decide) (by decide)).when fun _ =>
          .bind plain_records.clearPending fun _ => trivial) h₃

theorem reconcileSettled_traces {env : Env} {found : Option Job} {slot : Slot} (hw : Traced O x w)
    (hfound : ∀ job, found = some job → job.Signed O) :
    Traces O x (reconcileSettled env found slot) (fun _ _ => True) (fun _ _ => True) w :=
  traces_of_plain (plain_records.reconcileSettled hfound fun _ _ _ => anytime_signed) hw

theorem reconcilePending_traces {found : Option Job} {pending : JobId} (hw : Traced O x w)
    (hfound : ∀ job, found = some job → job.Signed O) (hpending : w.env.osPending = some pending) :
    Traces O x (reconcilePending w.env found w.booted pending) (fun _ _ => True)
      (fun _ _ => True) w := by
  unfold reconcilePending
  split_ifs with htarget hfrom htrial
  · exact traces_of_plain (plain_records.reconcileTrial hfound) hw
  · exact traces_of_makes (.bind (setGuard_makes trivial) fun _ => trivial) hw
  · exact reconcileRollback_traces hw hfound ⟨not_not.mp hfrom, htrial.trans hpending.symm⟩
  · exact traces_of_plain (plain_records.reconcileUntried hfound fun _ _ _ => anytime_signed) hw

theorem reconcileBoot_traces (hw : Traced O x w) :
    Traces O x reconcileBoot (fun _ _ => True) (fun _ _ => True) w := by
  refine traces_bind (Q := fun r t => t = w ∧ r = (w.env, w.journal, w.booted)) ?_ ?_
  · refine Safe.tryCatch (Safe.mono (E := fun _ t => True ∧ Traced O x t) ?_ (fun _ _ h => h)
      fun e t ht => ?_)
    · refine Safe.bind (readEnv_alone hw (fun _ => ⟨trivial, hw⟩) ?_)
      refine Safe.bind (journal_alone hw (fun _ => ⟨trivial, hw⟩) ?_)
      exact Safe.bind (bootedSlot_alone hw (fun _ => ⟨trivial, hw⟩) ⟨⟨rfl, rfl⟩, hw⟩)
    · exact traces_bind (traces_of_makes (setGuard_makes trivial).when ht.2) fun _ _ _ h =>
        ⟨trivial, h⟩
  · rintro r t ⟨ht, hr⟩ -
    subst t r
    refine traces_bind (Q := fun _ t => t = w) ?_ ?_
    · cases w.journal with
      | none => exact ⟨rfl, hw⟩
      | some job =>
        unfold carriesOn
        dsimp only
        split_ifs
        · refine run_alone hw fun a w₁ ho => ?_
          obtain rfl := ho.reads rfl
          exact ⟨fun _ => ⟨trivial, hw⟩, fun _ => ⟨rfl, hw⟩⟩
        · exact ⟨rfl, hw⟩
    · rintro carries t ht -
      subst t
      split_ifs
      · exact ⟨trivial, hw⟩
      · split
        · exact reconcileSettled_traces hw hw.journal
        · rename_i pending hpending
          exact reconcilePending_traces hw hw.journal hpending

/-! ### Runs of the box -/

/-- The slot that runs changes only where the loader starts one. -/
def BoxMoves (O : Oracles) (w w' : World) : Prop :=
  Moves O w w' ∧ (w'.booted = w.booted ∨ ∃ s, Boots w s w')

theorem traces_stops {γ : Type} {p : OsProg γ} {Q : γ → World → Prop}
    (hp : Traces O x p Q (fun _ _ => True) w) (h : Stops (Outcome O) p w w') : Traced O x w' :=
  Safe.stops (C := Traced O x) (hp.mono (fun _ _ h => h.2) fun _ _ h => h.2) h

/-- One move of the box is a path of the protocol. -/
theorem BoxMoves.traced (h : BoxMoves O w w') (hw : Traced O x w) : Traced O x w' := by
  obtain ⟨hmove, hbooted⟩ := h
  cases hmove with
  | request r h => exact traces_stops (traces_of_plain (plain_records.request r fun _ _ => anytime_signed) hw) h
  | worker h => exact traces_stops (runWorker_traces hw) h
  | supervise coordinatorExists h => exact traces_stops (superviseConfirm_traces hw _) h
  | confirm id h => exact traces_stops (confirmMain_traces hw id 3) h
  | reconcileBoot h => exact traces_stops (reconcileBoot_traces hw) h
  | boots s h =>
    have hboot : bootSlot w.env = some (s, w'.env) :=
      bootSlot_eq_some.mpr ⟨h.accepted, h.select, h.rest.env⟩
    have hshared : w'.shared = { env := w'.env, booted := s, rootPem := w'.rootPem } := by
      rw [World.shared, h.rest.booted]
    exact hw.step (.launch hboot) hshared h.rest.journal
  | marks order left horder hleft h =>
    subst h
    exact hw.step (.marks order left) rfl rfl
  | elsewhere henv hjournal =>
    obtain hbooted | ⟨s, hboots⟩ := hbooted
    · have hshared : w'.shared = { w.shared with rootPem := w'.rootPem } := by
        rw [World.shared, henv, hbooted]
        rfl
      refine ⟨hshared ▸ hw.path.tail (.image w'.rootPem), fun job hjob => ?_⟩
      obtain hsame | hnone := hjournal
      · exact hw.journal job (hsame ▸ hjob)
      · rw [hnone] at hjob
        cases hjob
    · have hboot : bootSlot w.env = some (s, w'.env) :=
        bootSlot_eq_some.mpr ⟨hboots.accepted, hboots.select, hboots.rest.env⟩
      have hshared : w'.shared = { env := w'.env, booted := s, rootPem := w'.rootPem } := by
        rw [World.shared, hboots.rest.booted]
      exact hw.step (.launch hboot) hshared hboots.rest.journal

end Traces

/-! ### The life of an update -/

def releaseFiles : Files :=
  { entry := [2], entrySig := List.replicate 64 0, policy := [1], policySig := List.replicate 64 0 }

/-- The manifest of the release. -/
def releaseIni : Ini :=
  { defaults := []
    sections := [("update", [("compatible", compatible)]), ("bundle", [("format", "verity")]),
      ("image.rootfs", [("size", "4"), ("sha256", sampleDigest)]),
      ("meta.epilykos", [("board", "raspberrypi3"), ("channel", "dev"), ("sequence", "12"),
        ("boot_protocol", "2"), ("min_host_api", "1"), ("trust_epoch", "1")])] }

def releaseOracles : Oracles :=
  { signedOracles with configparser := fun _ => some releaseIni, cms := fun _ _ => some ([], []) }

/-- A seeded box that has found the release. -/
def offeredWorld : World :=
  { signedWorld with
    journal := none
    guard := some { state := .idle, job := none }
    checked := some releaseFiles
    healthy := some .a
    package := List.replicate 63 0 ++ [1]
    slots := fun _ =>
      { content := [0, 0, 0, 0], writtenBy := none, verifiedFor := none, clearedFor := none } }

def admittedWorld : World :=
  ((install releaseOracles (.int 12) (.str sampleDigest) (.str "request-1")).run
    (serve releaseOracles) offeredWorld).2

def readyWorld : World := ((runWorker releaseOracles).run (serve releaseOracles) admittedWorld).2

def restartingWorld : World := ((restart sampleId).run (serve releaseOracles) readyWorld).2

def activatedWorld : World :=
  ((runWorker releaseOracles).run (serve releaseOracles) restartingWorld).2

theorem offered_seeded : Seeded offeredWorld :=
  ⟨⟨rfl, rfl, rfl, rfl, rfl, rfl, rfl⟩, by decide, by decide, rfl⟩

theorem runs_booted {α : Type} {p q : World × OsProg α} (h : Runs (· = ·) (Outcome O) p q) :
    q.1.booted = p.1.booted := by
  induction h with
  | refl => rfl
  | tail _ hstep ih =>
    cases hstep with
    | call hr ho =>
      subst hr
      exact ho.booted.trans ih

/-- A program of the box, run to its end on the working host. -/
theorem boxMoves_run {α : Type} (p : OsProg α)
    (hmove : ∀ t, Stops (Outcome O) p w t → Moves O w t) :
    BoxMoves O w (p.run (serve O) w).2 := by
  have hrun := runs_run (serve_follows O) p w
  exact ⟨hmove _ (.between hrun), .inl (runs_booted hrun)⟩

theorem ready_reached :
    Relation.ReflTransGen (BoxMoves releaseOracles) offeredWorld readyWorld := by
  have hinstall : BoxMoves releaseOracles offeredWorld admittedWorld :=
    boxMoves_run _ fun _ h => .request (.install (.int 12) (.str sampleDigest) (.str "request-1")) h
  have hwork : BoxMoves releaseOracles admittedWorld readyWorld := boxMoves_run _ fun _ => .worker
  exact (Relation.ReflTransGen.single hinstall).tail hwork

theorem restarting_reached :
    Relation.ReflTransGen (BoxMoves releaseOracles) offeredWorld restartingWorld :=
  ready_reached.tail (boxMoves_run _ fun _ h => .request (.restart sampleId) h)

theorem activated_moves : BoxMoves releaseOracles restartingWorld activatedWorld :=
  boxMoves_run _ fun _ => .worker

/-- The job came this far. -/
theorem activated_env : activatedWorld.env.osPhase = some .activated ∧
    activatedWorld.env.bootOrder = [.b, .a] ∧ activatedWorld.env.left .b = 3 := by decide +kernel

/-! ### The box is a run of the protocol -/

theorem Seeded.traced (h : Seeded w) : Traced O w.shared w := by
  refine ⟨.refl, fun job hjob => ?_⟩
  rw [h.journal] at hjob
  cases hjob

theorem run_traced {x : Shared} (hw : Traced O x w)
    (hrun : Relation.ReflTransGen (BoxMoves O) w w') : Traced O x w' := by
  induction hrun with
  | refl => exact hw
  | tail _ hmove ih => exact hmove.traced ih

variable {w₀ : World}

/-- While a job is pending it is newer than the floor, until its own confirmation raises the
floor to its sequence. -/
theorem box_tracked (hseed : Seeded w) (hrun : Relation.ReflTransGen (BoxMoves O) w w') :
    Tracked w'.env :=
  tracked_run (x := w.shared) (.noJob hseed.noJob) (run_traced hseed.traced hrun).path

theorem box_tracked_sample : Tracked activatedWorld.env :=
  box_tracked offered_seeded (restarting_reached.tail activated_moves)

end Epilykos.OsUpdate
