import Epilykos.OsUpdate.BootText
import Epilykos.OsUpdate.Calls

/-!
The loader never refuses what the running system writes. The pending record is checked twice,
by the updater's batches and by the loader: every job that is admitted has an identity the
loader can read, and every batch leaves the variables whole or none of them.
-/

namespace Epilykos.OsUpdate

open Program World PlatformEnv

/-! ### Identities -/

/-- The loader reads every identifier the updater makes. -/
theorem jobUuid_uuid4 (random : ℕ → Fin 16) : jobUuid (uuid4 random) = true := by
  have hdigit : ∀ i, lowerHex (Nat.digitChar (random i)) = true := by
    intro i
    generalize random i = n
    revert n
    decide
  have hvariant : ['8', '9', 'a', 'b'].contains (Nat.digitChar (8 + random 16 % 4)) = true ∧
      lowerHex (Nat.digitChar (8 + random 16 % 4)) = true := by
    generalize random 16 = n
    revert n
    decide
  have hversion : lowerHex '4' = true := by decide
  unfold jobUuid uuid4
  rw [String.toList_ofList]
  simp only [List.length_cons, List.length_nil, List.getD_cons_succ, List.getD_cons_zero, hvariant.1]
  simp [List.range_succ, hdigit, hvariant.2, hversion]

/-- A job whose identity the loader accepts. -/
structure Job.Sound (job : Job) : Prop where
  id : jobUuid job.id = true
  sequence : 0 < job.sequence ∧ job.sequence ≤ uint64Max
  slots : ∃ s, job.source = some s ∧ job.target = some s.other
  image : ∀ image, job.image = some image → ∃ d, image.sha256 = some d ∧ isDigest d = true

theorem Job.Sound.continues {job j : Job} (h : job.Sound) (hj : job.Continues j) : j.Sound := by
  refine ⟨hj.id ▸ h.id, hj.sequence ▸ h.sequence, ?_, fun image himage => ?_⟩
  · rw [hj.source, hj.target]
    exact h.slots
  · rcases hj.image with hi | ⟨size, d, hi, hd⟩
    · exact h.image image (hi.symm.trans himage)
    · rw [hi] at himage
      obtain rfl := Option.some.inj himage
      exact ⟨d, rfl, hd⟩

/-! ### The environment -/

namespace Env

variable {env : Env}

theorem accepted_iff : env.accepted = true ↔
    bootGuard env = true ∧ env.orderValid = true ∧ env.countersValid = true ∧
      env.pendingValid = true := by
  simp only [accepted, Bool.and_eq_true, and_assoc]

/-- The marks of RAUC and of the loader do not touch the pending record. -/
theorem accepted_marked (h : env.accepted = true) {order : List Slot} {left : Slot → ℕ}
    (horder : [[Slot.a, .b], [.b, .a], [.a], [.b]].contains order = true)
    (hleft : ∀ s, left s ≤ 3) : ({ env with bootOrder := order, left := left } : Env).accepted = true := by
  rw [accepted_iff] at h ⊢
  refine ⟨h.1, horder, ?_, h.2.2.2⟩
  simp only [countersValid, Bool.and_eq_true, decide_eq_true_eq]
  exact ⟨hleft .a, hleft .b⟩

theorem accepted_setLeft (h : env.accepted = true) (s : Slot) {n : ℕ} (hn : n ≤ 3) :
    (env.setLeft s n).accepted = true := by
  refine accepted_marked h (accepted_iff.mp h).2.1 fun t => ?_
  by_cases ht : t = s
  · rw [ht, Function.update_self]
    exact hn
  · rw [Function.update_of_ne ht]
    exact accepted_left h t

theorem accepted_activate (h : env.accepted = true) (s : Slot) :
    ({ env.setLeft s 3 with bootOrder := [s, s.other] } : Env).accepted = true := by
  refine accepted_marked (accepted_setLeft h s le_rfl) (by cases s <;> decide) fun t => ?_
  exact accepted_left (accepted_setLeft h s le_rfl) t

theorem accepted_trust (h : env.accepted = true) (raw sig : Bytes) (epoch : ℕ) :
    (env.write (trustBatch raw sig epoch)).accepted = true := h

theorem accepted_noJob (h : env.NoJob) (horder : env.orderValid = true)
    (hleft : env.countersValid = true) : env.accepted = true := by
  rw [accepted_iff]
  refine ⟨?_, horder, hleft, ?_⟩
  · simp [bootGuard, h.pending]
  · simp [pendingValid, h.pending, h.target, h.from_, h.sequence, h.sha256, h.phase, h.trial]

theorem accepted_clear (h : env.accepted = true) : (env.write clearBatch).accepted = true := by
  rw [accepted_iff] at h
  exact accepted_noJob (noJob_clear env) (by simpa [orderValid] using h.2.1)
    (by simpa [countersValid] using h.2.2.1)

/-- The intent batch of a sound job is a whole pending record. -/
theorem accepted_intent (h : env.accepted = true) {job : Job} (hjob : job.Sound) {image : Image}
    (himage : job.image = some image) :
    (env.write (intentBatch job image)).accepted = true := by
  obtain ⟨s, hsource, htarget⟩ := hjob.slots
  obtain ⟨d, hd, hdigest⟩ := hjob.image image himage
  rw [accepted_iff] at h ⊢
  refine ⟨?_, ?_, ?_, ?_⟩
  · simp [bootGuard, intentBatch, assign, hjob.id, hjob.sequence, hd, hdigest]
  · simpa [orderValid] using h.2.1
  · simpa [countersValid] using h.2.2.1
  · simp [pendingValid, intentBatch, assign, hsource, htarget, hd]

/-- A change of phase of a pending job. -/
theorem accepted_phase (h : env.accepted = true) (hp : env.osPending.isSome = true) {phase : Phase}
    (hphase : phase ≠ .ready) : (env.write [.osPhase (some phase)]).accepted = true := by
  obtain ⟨pending, hpending⟩ := Option.isSome_iff_exists.mp hp
  rw [accepted_iff] at h ⊢
  refine ⟨h.1, h.2.1, h.2.2.1, ?_⟩
  have hvalid := h.2.2.2
  simp only [pendingValid, hpending, Bool.and_eq_true] at hvalid
  simp only [pendingValid, write_cons, write_nil, assign, hpending, Bool.and_eq_true]
  refine ⟨⟨⟨hvalid.1.1.1, rfl⟩, hvalid.1.2⟩, ?_⟩
  simp [hphase]

theorem accepted_floor (h : env.accepted = true) (n : ℕ) :
    ({ env with osFloor := n } : Env).accepted = true := h

theorem accepted_launch (h : env.accepted = true) {s : Slot} (hs : env.select = some s) :
    (env.launch s).accepted = true := by
  have heligible := List.find?_some hs
  simp only [eligible, Bool.and_eq_true, Bool.not_eq_true'] at heligible
  have hleft := accepted_setLeft h s (n := env.left s - 1) (by
    have := accepted_left h s
    omega)
  unfold launch
  dsimp only
  split_ifs with hmark
  · simp only [Bool.and_eq_true, beq_iff_eq] at hmark
    obtain ⟨pending, hpending⟩ := Option.isSome_iff_exists.mp hmark.1
    have hpending' : env.osPending = some pending := hpending
    have htarget : env.osTarget = some s := hmark.2
    rw [accepted_iff] at hleft ⊢
    refine ⟨hleft.1, hleft.2.1, hleft.2.2.1, ?_⟩
    have hvalid := hleft.2.2.2
    simp only [pendingValid, hpending, Bool.and_eq_true] at hvalid
    simp only [pendingValid, hpending, Bool.and_eq_true]
    refine ⟨⟨hvalid.1.1, by simp⟩, ?_⟩
    have hready := heligible.1
    simp only [hpending', htarget, Option.isSome_some, Bool.true_and, beq_self_eq_true,
      Bool.and_true] at hready
    simp [setLeft, hready]
  · exact hleft

end Env

/-! ### Calls that keep both -/

/-- The environment is one the loader accepts, and the journal's job one it could be told of. -/
structure World.Sound (w : World) : Prop where
  env : w.env.accepted = true
  journal : ∀ job, w.journal = some job → job.Sound

/-- What a program may be told in such a state. -/
def HostCall.toldSound : (c : HostCall) → Ans c → Prop
  | .readEnv, x => ∀ env, x = some env → env.accepted = true
  | .readJournal, x => ∀ job, x = .job job → job.Sound
  | .newId, x => ∃ random, x = uuid4 random
  | _, _ => True

/-- Calls that keep it whatever the pending job is doing. -/
def HostCall.settles : HostCall → Prop
  | .setEnv batch => batch = clearBatch ∨ ∃ raw sig epoch, batch = trustBatch raw sig epoch
  | .writeJournal job => job.Sound
  | _ => True

section Sound

variable {O : Oracles} {w w' : World} {c : HostCall} {x : Ans c}

theorem World.Sound.told (hw : w.Sound) (h : Outcome O w c x w') : c.toldSound x := by
  have ht := h.1
  cases c with
  | readEnv =>
    intro env hx
    rcases ht with hnone | hsome
    · rw [hnone] at hx
      cases hx
    · obtain rfl := Option.some.inj (hsome.symm.trans hx)
      exact hw.env
  | readJournal =>
    intro job hx
    rcases ht with hbad | hread
    · rw [hbad] at hx
      cases hx
    · rw [hread] at hx
      cases hj : w.journal with
      | none => simp [journalRead, hj] at hx
      | some j =>
        simp only [journalRead, hj, JournalRead.job.injEq] at hx
        exact hx ▸ hw.journal j hj
  | newId => exact ht
  | _ => trivial

theorem activate_env (w : World) (s : Slot) :
    (w.activate s).env = { w.env.setLeft s 3 with bootOrder := [s, s.other] } := rfl

/-- What is written to the environment is accepted. -/
theorem World.Sound.effect_env (hw : w.Sound) (hc : c.settles) :
    (w.effect c).env.accepted = true := by
  by_cases hkeeps : c.keepsEnv = true
  · have hsame : (w.effect c).env = w.env := by
      cases c <;> first | rfl | cases hkeeps
      unfold effect
      split_ifs <;> rfl
    rw [hsame]
    exact hw.env
  · cases c with
    | setEnv batch =>
      show (w.env.write batch).accepted = true
      rcases hc with rfl | ⟨raw, sig, epoch, rfl⟩
      · exact Env.accepted_clear hw.env
      · exact Env.accepted_trust hw.env raw sig epoch
    | markBad s =>
      show (w.env.setLeft s 0).accepted = true
      exact Env.accepted_setLeft hw.env s (Nat.zero_le 3)
    | markActive s =>
      show (w.activate s).env.accepted = true
      rw [activate_env]
      exact Env.accepted_activate hw.env s
    | markActiveBooted =>
      show (w.activate w.booted).env.accepted = true
      rw [activate_env]
      exact Env.accepted_activate hw.env w.booted
    | markGoodBooted =>
      show (w.env.setLeft w.booted 3).accepted = true
      exact Env.accepted_setLeft hw.env w.booted le_rfl
    | _ => exact (hkeeps rfl).elim

/-- Calls that leave the journal as it is. -/
def HostCall.keepsJournal : HostCall → Bool
  | .writeJournal _ | .removeJournal => false
  | _ => true

theorem effect_journal (w : World) (hc : c.keepsJournal = true) :
    (w.effect c).journal = w.journal := by
  cases c <;> first | rfl | cases hc
  unfold effect
  split_ifs <;> rfl

theorem World.Sound.settled (hw : w.Sound) (hc : c.settles) (h : Outcome O w c x w') :
    w'.Sound := by
  rcases h.2 with rfl | ⟨rfl, -⟩
  · refine ⟨hw.effect_env hc, fun job hjob => ?_⟩
    by_cases hkeeps : c.keepsJournal = true
    · exact hw.journal job ((effect_journal w hkeeps).symm.trans hjob)
    · cases c with
      | writeJournal j =>
        obtain rfl : j = job := Option.some.inj hjob
        exact hc
      | removeJournal => cases hjob
      | _ => exact (hkeeps rfl).elim
  · exact hw

end Sound

/-! ### Programs that keep both -/

/-- As long as it is told the truth about a sound state, the program keeps it sound. -/
abbrev Settles {α : Type} (p : OsProg α) (P : α → Prop) : Prop :=
  Local (F := Host) HostCall.toldSound HostCall.settles p P fun _ => True

section Settles

variable {O : Oracles} {α β : Type}

theorem settles_bind {P : α → Prop} {Q : β → Prop} {p : OsProg α} {f : α → OsProg β}
    (hp : Settles p P) (hf : ∀ a, P a → Settles (f a) Q) : Settles (p >>= f) Q :=
  local_bind (hp.mono (fun a _ => hf a) fun _ _ h => h)

theorem settles_of_makes {p : OsProg α} (hp : p.Makes (F := Host) HostCall.settles) :
    Settles p fun _ => True := hp.loc fun _ => trivial

theorem settles_of_gives {P : α → Prop} {p : OsProg α} (hp : p.Makes (F := Host) HostCall.settles)
    (hgives : p.Gives P) : Settles p P :=
  ((settles_of_makes hp).and (hgives.safe)).mono (fun _ _ h => h.2) fun _ _ _ => trivial

theorem settles_catch {P : α → Prop} {p : OsProg α} {f : Err → OsProg α} (hp : Settles p P)
    (hf : ∀ e, Settles (f e) P) : Settles (p.tryCatch f) P :=
  Safe.tryCatch (hp.mono (fun _ _ h => h) fun e _ _ => hf e)

theorem settles_of_looks {c : HostCall} (h : c.looks) : c.settles := by
  rcases h with h | ⟨id, s, rfl⟩
  · cases c <;> trivial
  · trivial

theorem settles_of_ofWorker {job : Job} {B : HostCall → Prop} {c : HostCall} (hjob : job.Sound)
    (hB : ∀ c, B c → c.settles) (h : c.ofWorker job B) : c.settles := by
  cases c with
  | setEnv batch => exact hB _ h
  | writeJournal j => exact hjob.continues h
  | _ => trivial

theorem journal_settles : Settles journal fun found => ∀ job, found = some job → job.Sound := by
  refine local_bind (local_call trivial fun x hx => ?_)
  cases x with
  | absent =>
    have hnone : ∀ job, (none : Option Job) = some job → job.Sound := fun job hjob => by
      simp at hjob
    exact hnone
  | unreadable => trivial
  | job j =>
    have hsome : ∀ job, some j = some job → job.Sound := fun job hjob => by
      obtain rfl := Option.some.inj hjob
      exact hx j rfl
    exact hsome

theorem readEnv_settles : Settles readEnv fun env => env.accepted = true := by
  refine local_bind (local_call trivial fun x hx => ?_)
  cases x with
  | none => trivial
  | some env => exact hx env rfl

theorem finish_settles {job : Job} (hjob : job.Sound) (state : JobState) (error : Option String) :
    (finish job state error).Makes (F := Host) HostCall.settles :=
  finish_makes (hjob.continues ((Job.Continues.refl job).finished _ _)) trivial trivial

theorem backToReady_settles {job : Job} (hjob : job.Sound) (error : String) :
    Settles (backToReady job error) fun _ => True := by
  refine settles_of_makes ((backToReady_serves (B := fun c => c = .setEnv clearBatch) rfl error).mono
    fun c hc => settles_of_ofWorker hjob ?_ hc)
  rintro _ rfl
  exact Or.inl rfl

theorem clearPending_makes : clearPending.Makes (F := Host) HostCall.settles :=
  setEnv_makes (Or.inl rfl) trivial

theorem guard_makes : guard.Makes (F := Host) HostCall.settles :=
  .bind (makes_ask trivial fun _ => trivial) fun _ => trivial

/-! ### Requests -/

theorem ensureWorker_makes (job : Option Job) :
    (ensureWorker job).Makes (F := Host) HostCall.settles := by
  cases job with
  | none => trivial
  | some job =>
    unfold ensureWorker
    dsimp only
    split_ifs
    · exact .bind (workerActive_makes trivial) fun _ => (startWorker_makes trivial).when
    · trivial

theorem sentenceOr_makes {K : HostCall → Prop} {p : OsProg α} (hp : p.Makes (F := Host) K) :
    (sentenceOr p).Makes (F := Host) K :=
  .tryCatch (.bind hp fun _ => trivial) fun e => by cases e <;> trivial

theorem platform_settles : platform.Makes (F := Host) HostCall.settles :=
  platform_makes.mono fun _ => settles_of_looks

theorem view_makes (resume : Bool) : (view resume).Makes (F := Host) HostCall.settles := by
  refine .bind (sentenceOr_makes platform_settles) fun x => ?_
  rcases x with msg | _ | plat
  · trivial
  · trivial
  · refine .bind guard_makes fun _ => .bind (sentenceOr_makes ?_) fun _ => trivial
    exact .bind (journal_makes trivial) fun job => .bind (ensureWorker_makes job).when fun _ => trivial

theorem bootedSlot_settles : bootedSlot.Makes (F := Host) HostCall.settles :=
  .bind (makes_ask trivial fun _ => trivial) fun x => by cases x <;> trivial

theorem healthBlockers_makes (slot : Slot) (env : Env) :
    (healthBlockers slot env).Makes (F := Host) HostCall.settles :=
  .bind (makes_ask trivial fun _ => trivial) fun _ => trivial

theorem looks_settles {p : OsProg α} (hp : p.Makes (F := Host) HostCall.looks) :
    p.Makes (F := Host) HostCall.settles := hp.mono fun _ => settles_of_looks

theorem fetchRelease_makes : fetchRelease.Makes (F := Host) HostCall.settles := by
  have hfetch : ∀ f, (fetch f).Makes (F := Host) HostCall.settles := fun f =>
    .bind (makes_ask trivial fun _ => trivial) fun x => by cases x <;> trivial
  exact .bind (hfetch _) fun _ => .bind (hfetch _) fun _ => .bind (hfetch _) fun _ =>
    .bind (hfetch _) fun _ => trivial

theorem check_makes : (check O).Makes (F := Host) HostCall.settles := by
  refine .bind platform_settles fun plat => ?_
  cases plat with
  | none => exact .bind (view_makes true) fun _ => trivial
  | some plat =>
    refine .bind (looks_settles (currentState_makes _)) fun state => .bind fetchRelease_makes
      fun files => .bind (looks_settles (verifyRelease_makes _ _ _)) fun released => ?_
    obtain ⟨entry, _, newer⟩ := released
    refine .bind (view_makes true) fun shown => .bind (.tryCatch (.bind (makes_raiseIf _)
      fun _ => trivial) fun e => ?_) fun isNewer => ?_
    · split_ifs <;> trivial
    · split_ifs
      · refine .bind (looks_settles readEnv_makes) fun env => .bind bootedSlot_settles fun slot =>
          .bind (healthBlockers_makes _ _) fun _ => .bind (looks_settles appBlockers_makes) fun _ =>
          .bind (.bind (makes_ask trivial fun _ => trivial) fun x => ?_) fun _ =>
          .bind (layout_makes trivial) fun _ => .bind (makes_ask trivial fun _ => trivial)
            fun x => .bind (written_makes x) fun _ => trivial
        cases x <;> trivial
      · trivial

theorem ok_bind {ε : Type} {x : Except ε α} {f : α → Except ε β} {b : β}
    (h : (x >>= f) = .ok b) : ∃ a, x = .ok a ∧ f a = .ok b := by
  cases x with
  | error e => cases h
  | ok a => exact ⟨a, rfl, h⟩

theorem integer_ok {minimum n : ℕ} {value : Json} (h : integer minimum value = .ok n) :
    minimum ≤ n ∧ n ≤ uint64Max := by
  unfold integer at h
  split at h
  · split_ifs at h with hn
    obtain rfl := Except.ok.inj h
    exact hn
  · cases h

/-- The entry of an admission has a sequence the loader can read. -/
theorem readEntry_sequence {raw : Bytes} {plat : Platform} {policy : Policy} {entry : Entry}
    {key : IndexKey} (h : readEntry O raw plat policy = .ok (entry, key)) :
    0 < entry.sequence ∧ entry.sequence ≤ uint64Max := by
  obtain ⟨value, -, h⟩ := ok_bind h
  split at h
  · rename_i fields
    obtain ⟨_, -, h⟩ := ok_bind h
    obtain ⟨_, -, h⟩ := ok_bind h
    obtain ⟨_, -, h⟩ := ok_bind h
    obtain ⟨sequence, hseq, h⟩ := ok_bind h
    obtain ⟨_, -, h⟩ := ok_bind h
    obtain ⟨minHostApi, -, h⟩ := ok_bind h
    obtain ⟨_, -, h⟩ := ok_bind h
    obtain ⟨trustEpoch, -, h⟩ := ok_bind h
    obtain ⟨_, -, h⟩ := ok_bind h
    obtain ⟨version, -, h⟩ := ok_bind h
    obtain ⟨notesUrl, -, h⟩ := ok_bind h
    split at h
    · obtain ⟨_, -, h⟩ := ok_bind h
      obtain ⟨bundleUrl, -, h⟩ := ok_bind h
      obtain ⟨_, -, h⟩ := ok_bind h
      obtain ⟨bundleSize, -, h⟩ := ok_bind h
      obtain ⟨_, -, h⟩ := ok_bind h
      split at h
      · obtain ⟨_, -, h⟩ := ok_bind h
        split at h
        · dsimp only at h
          split at h
          · cases h
          · obtain ⟨rfl, -⟩ := Prod.mk.inj (Except.ok.inj h)
            exact integer_ok hseq
        · cases h
      · cases h
    · cases h
  · cases h

theorem newJob_sound {id : JobId} {requestId : String} {entry : Entry} {slot : Slot} {files : Files}
    (hid : jobUuid id = true) (hseq : 0 < entry.sequence ∧ entry.sequence ≤ uint64Max) :
    (newJob id requestId entry slot files).Sound :=
  ⟨hid, hseq, ⟨slot, rfl, rfl⟩, fun image himage => by simp [newJob] at himage⟩

theorem admitEntry_settles (plat : Platform) (files : Files) (seq : ℤ) (sha256 : Digest) :
    Settles (admitEntry O plat files seq sha256) fun entry =>
      0 < entry.sequence ∧ entry.sequence ≤ uint64Max := by
  refine settles_bind (settles_of_makes (looks_settles (currentState_makes _))) fun state _ => ?_
  have hgives : (verifyRelease O files plat state).Gives fun released =>
      0 < released.1.sequence ∧ released.1.sequence ≤ uint64Max := by
    refine (gives_true _).bind fun policy _ => (verifyOsRelease_gives _ _ _ _).bind ?_
    rintro entry ⟨key, hentry⟩
    exact readEntry_sequence hentry
  refine settles_bind (settles_of_gives (looks_settles (verifyRelease_makes _ _ _)) hgives) ?_
  rintro ⟨entry, policy, newer⟩ hentry
  refine settles_bind (settles_of_makes (makes_raiseIf _)) fun _ _ => ?_
  exact settles_bind (settles_of_makes (makes_raiseIf _)) fun _ _ => hentry

theorem admission_settles (plat : Platform) (seq : ℤ) (sha256 : Digest) (requestId : String) :
    Settles (admission O plat seq sha256 requestId) fun _ => True := by
  refine settles_bind (settles_of_makes guard_makes) fun guard _ => ?_
  refine settles_bind (settles_of_makes (makes_raiseIf _)) fun _ _ => ?_
  refine settles_bind (settles_of_makes (.bind (makes_ask trivial fun _ => trivial) fun x => ?_))
    fun files _ => ?_
  · cases x <;> trivial
  refine settles_bind (admitEntry_settles plat files seq sha256) fun entry hentry => ?_
  refine settles_bind (settles_of_makes bootedSlot_settles) fun slot _ => ?_
  refine settles_bind (settles_of_makes (looks_settles readEnv_makes)) fun env _ => ?_
  refine settles_bind (settles_of_makes (healthBlockers_makes _ _)) fun health _ => ?_
  refine settles_bind (settles_of_makes (looks_settles appBlockers_makes)) fun app _ => ?_
  refine settles_bind (settles_of_makes (makes_raiseIf _)) fun _ _ => ?_
  refine settles_bind (settles_of_makes (looks_settles (storageAdmit_makes _))) fun _ _ => ?_
  refine local_bind (local_call trivial fun id hid => ?_)
  obtain ⟨random, hrandom⟩ := hid
  have hjob : (newJob id requestId entry slot files).Sound :=
    newJob_sound (hrandom ▸ jobUuid_uuid4 random) hentry
  refine settles_bind (settles_of_makes (makes_ask trivial fun _ => trivial)) fun x _ => ?_
  refine settles_bind (settles_of_makes (stored_makes x)) fun _ _ => ?_
  refine settles_bind (settles_of_makes (save_makes hjob)) fun _ _ => ?_
  exact settles_of_makes (startWorker_makes trivial)

theorem install_settles (seq sha256 requestId : Json) :
    Settles (install O seq sha256 requestId) fun _ => True := by
  unfold install
  split
  · split_ifs
    · refine settles_bind (settles_of_makes platform_settles) fun plat _ => ?_
      cases plat with
      | none => trivial
      | some plat =>
        refine settles_bind journal_settles fun found _ => ?_
        cases found with
        | none => exact admission_settles _ _ _ _
        | some job =>
          dsimp only
          split_ifs
          · exact settles_bind (settles_of_makes (makes_raiseIf _)) fun _ _ =>
              settles_bind (settles_of_makes (view_makes true)) fun _ _ => trivial
          · exact admission_settles _ _ _ _
          · trivial
    · trivial
  · trivial

theorem cancel_settles (id : JobId) : Settles (cancel id) fun _ => True := by
  refine settles_bind journal_settles fun found hfound => ?_
  cases found with
  | none => trivial
  | some job =>
    have hjob := hfound job rfl
    refine settles_bind (settles_of_makes (makes_raiseIf _)) fun _ _ => ?_
    refine settles_bind (settles_of_makes (makes_raiseIf _)) fun _ _ => ?_
    refine settles_bind (settles_of_makes (makes_ask trivial fun _ => trivial)) fun x _ => ?_
    refine settles_bind (settles_of_makes (stored_makes x)) fun _ _ => ?_
    refine settles_bind (settles_of_makes (workerActive_makes trivial)) fun active _ => ?_
    split_ifs
    · trivial
    · exact settles_of_makes (finish_settles hjob _ _)

theorem dismiss_settles (id : JobId) : Settles (dismiss id) fun _ => True := by
  refine settles_bind journal_settles fun found _ => ?_
  cases found with
  | none => trivial
  | some job =>
    refine settles_of_makes (.bind (makes_raiseIf _) fun _ => .bind (makes_ask trivial
      fun _ => trivial) fun x => .bind (stored_makes x) fun _ => .bind (view_makes true) fun _ => trivial)

theorem restart_settles (id : JobId) : Settles (restart id) fun _ => True := by
  refine settles_bind journal_settles fun found hfound => ?_
  cases found with
  | none => trivial
  | some job =>
    have hjob : ({ job.step .restarting with error := none } : Job).Sound :=
      (hfound job rfl).continues ((Job.Continues.refl job).progressed _ _ _ _ _)
    exact settles_of_makes (.bind (makes_raiseIf _) fun _ => .bind (workerActive_makes trivial)
      fun _ => .bind (makes_raiseIf _) fun _ => .bind (save_makes hjob) fun _ =>
      startWorker_makes trivial)

theorem discard_settles (id : JobId) : Settles (discard id) fun _ => True := by
  refine settles_bind journal_settles fun found hfound => ?_
  cases found with
  | none => trivial
  | some job =>
    exact settles_of_makes (.bind (makes_raiseIf _) fun _ => .bind (workerActive_makes trivial)
      fun _ => .bind (makes_raiseIf _) fun _ => .bind (looks_settles readEnv_makes) fun _ =>
      .bind (makes_raiseIf _) fun _ => .bind (targetBad_makes (fun _ _ => trivial) trivial) fun _ =>
      .bind (makes_raiseIf _) fun _ => finish_settles (hfound job rfl) _ _)

/-! ### Every boot -/

/-- What the environment tells of its job is sound when the loader accepts it. -/
theorem rebuiltJob_sound {env : Env} {pending : JobId} {sequence : ℕ} (h : env.accepted = true)
    (hp : env.osPending = some pending) (hs : env.osTargetSequence = some sequence) :
    (rebuiltJob env pending sequence).Sound := by
  obtain ⟨hguard, -, -, hvalid⟩ := Env.accepted_iff.mp h
  unfold bootGuard at hguard
  unfold Env.pendingValid at hvalid
  simp only [hp, hs, Option.any_some, Bool.and_eq_true, decide_eq_true_eq] at hguard hvalid
  obtain ⟨t, ht, hfrom⟩ := (Option.any_eq_true _ _).mp hvalid.1.1.1.1.1
  obtain ⟨d, hd, hdigest⟩ := (Option.any_eq_true _ _).mp hguard.2
  refine ⟨hguard.1.1, hguard.1.2, ⟨t.other, beq_iff_eq.mp hfrom, ?_⟩, fun image himage => ?_⟩
  · rw [Slot.other_other]
    exact ht
  · obtain rfl := Option.some.inj himage
    exact ⟨d, hd, hdigest⟩

theorem rebuild_settles {env : Env} {found : Option Job} (h : env.accepted = true)
    (hfound : ∀ job, found = some job → job.Sound) :
    Settles (rebuild env found) fun job => job.Sound := by
  have hneed : ∀ {γ : Type} (x : Option γ), Settles (need x) fun a => x = some a := by
    intro γ x
    cases x with
    | none => trivial
    | some a => exact (rfl : some a = some a)
  refine settles_bind (hneed env.osPending) fun pending hp => ?_
  cases hjob : found.filter fun job => job.id == pending with
  | some job => exact hfound job (Option.filter_eq_some_iff.mp hjob).1
  | none =>
    refine settles_bind (hneed env.osTargetSequence) fun sequence hs => ?_
    have hsound := rebuiltJob_sound h hp hs
    exact settles_bind (settles_of_makes (save_makes hsound)) fun _ _ => hsound

theorem reconcile_makes : reconcile.Makes (F := Host) HostCall.settles := by
  refine .bind (layout_makes trivial) fun _ => .bind (.tryCatch (journal_makes trivial) fun e => ?_)
    fun found => ?_
  · exact .bind (setGuard_makes trivial).when fun _ => trivial
  · cases found with
    | none => exact setGuard_makes trivial
    | some job =>
      dsimp only
      split_ifs
      · exact setGuard_makes trivial
      · split
        · exact setGuard_makes trivial
        · exact setGuard_makes trivial
        · exact .bind (setGuard_makes trivial) fun _ => .bind (workerActive_makes trivial)
            fun _ => (startWorker_makes trivial).when

theorem reconcileSettled_settles {env : Env} {found : Option Job} {slot : Slot}
    (hfound : ∀ job, found = some job → job.Sound) :
    Settles (reconcileSettled env found slot) fun _ => True := by
  unfold reconcileSettled
  cases found with
  | none => exact settles_bind (settles_of_makes reconcile_makes) fun _ _ => trivial
  | some job =>
    have hjob := hfound job rfl
    dsimp only
    split
    · refine settles_bind (backToReady_settles hjob _) fun _ _ => ?_
      refine settles_bind journal_settles fun again _ => ?_
      exact settles_bind (settles_of_makes (need_makes _)) fun _ _ => trivial
    · split_ifs
      · exact settles_bind (settles_of_makes (finish_settles hjob _ _)) fun _ _ => trivial
      · exact settles_bind (settles_of_makes (finish_settles hjob _ _)) fun _ _ => trivial
    · exact settles_bind (settles_of_makes reconcile_makes) fun _ _ => trivial

theorem reconcilePending_settles {env : Env} {found : Option Job} {slot : Slot} {pending : JobId}
    (h : env.accepted = true) (hfound : ∀ job, found = some job → job.Sound) :
    Settles (reconcilePending env found slot pending) fun _ => True := by
  have hbad : (targetBad env.osTarget).Makes (F := Host) HostCall.settles :=
    targetBad_makes (fun _ _ => trivial) trivial
  unfold reconcilePending
  split_ifs
  · refine settles_bind (rebuild_settles h hfound) fun job hjob => ?_
    split_ifs
    · exact settles_of_makes (.bind clearPending_makes fun _ => .bind (setGuard_makes trivial)
        fun _ => trivial)
    · have hstep := hjob.continues ((Job.Continues.refl job).step .trying)
      exact settles_of_makes (.bind (save_makes hstep) fun _ => .bind (setGuard_makes trivial)
        fun _ => trivial)
  · exact settles_of_makes (.bind (setGuard_makes trivial) fun _ => trivial)
  · refine settles_bind (rebuild_settles h hfound) fun job hjob => ?_
    refine settles_bind (settles_of_makes hbad) fun safe _ => ?_
    split_ifs
    · exact settles_of_makes (.bind (setGuard_makes trivial) fun _ => trivial)
    · refine settles_of_makes (.bind (Prog.Makes.when ?_) fun _ => .bind (Prog.Makes.when ?_)
        fun _ => .bind clearPending_makes fun _ => trivial)
      · exact .bind (run_makes trivial) fun _ => trivial
      · exact finish_settles hjob _ _
  · unfold reconcileUntried
    cases hjob : found.filter fun job =>
      job.id == pending && (job.state == .restarting || job.state == .ready) with
    | some job =>
      have hsound := hfound job (Option.filter_eq_some_iff.mp hjob).1
      exact settles_bind (backToReady_settles hsound _) fun _ _ => trivial
    | none =>
      refine settles_bind (rebuild_settles h hfound) fun job hjob => ?_
      refine settles_bind (settles_of_makes hbad) fun safe _ => ?_
      split_ifs
      · exact settles_of_makes (.bind (finish_settles hjob _ _) fun _ => .bind clearPending_makes
          fun _ => trivial)
      · exact settles_of_makes (.bind (setGuard_makes trivial) fun _ => trivial)

theorem reconcileBoot_settles : Settles reconcileBoot fun _ => True := by
  have hread : Settles readBoot fun x => x.1.accepted = true ∧
      ∀ job, x.2.1 = some job → job.Sound := by
    refine settles_catch ?_ fun e => ?_
    · refine settles_bind readEnv_settles fun env henv => ?_
      refine settles_bind journal_settles fun found hfound => ?_
      exact settles_bind (settles_of_makes bootedSlot_settles) fun slot _ => ⟨henv, hfound⟩
    · exact settles_bind (settles_of_makes (setGuard_makes trivial).when) fun _ _ => trivial
  refine settles_bind hread ?_
  rintro ⟨env, found, slot⟩ ⟨henv, hfound⟩
  refine settles_bind (P := fun _ => True) ?_ fun carries _ => ?_
  · cases found with
    | none => trivial
    | some job =>
      unfold carriesOn
      dsimp only
      split_ifs
      · exact settles_of_makes (workerActive_makes trivial)
      · trivial
  · split_ifs
    · trivial
    · split
      · exact reconcileSettled_settles hfound
      · exact reconcilePending_settles henv hfound

end Settles

/-! ### Programs that change the phase of a pending job

Here what a batch leaves depends on the state it is written in. -/

/-- Wherever the program is cut, the state is sound. -/
abbrev KeepsSound {α : Type} (O : Oracles) (p : OsProg α) (Q : α → World → Prop) (w : World) :
    Prop :=
  Alone O (fun t _ => t.Sound) p (fun a t => Q a t ∧ t.Sound) (fun _ => World.Sound) w

section Phases

variable {O : Oracles} {α β : Type} {w w' : World} {job : Job}

theorem keepsSound_of_settles {P : α → Prop} {p : OsProg α} (hp : Settles p P) (hw : w.Sound) :
    KeepsSound O p (fun a _ => P a) w := by
  refine (hp.safe (I := World.Sound) ?_ ?_ ?_ hw).mono (fun _ _ h => h) fun _ _ h => h.2
  · rintro t _ rfl ht
    exact ht
  · exact fun t c x t' ht h => ht.told h
  · exact fun t c hc ht => ⟨ht, fun x t' h => ht.settled hc h⟩

theorem keepsSound_bind {Q : α → World → Prop} {R : β → World → Prop} {p : OsProg α}
    {f : α → OsProg β} (hp : KeepsSound O p Q w)
    (hf : ∀ a t, Q a t → t.Sound → KeepsSound O (f a) R t) : KeepsSound O (p >>= f) R w :=
  Safe.bind (hp.mono (fun a t h => hf a t h.1 h.2) fun _ _ h => h)

/-- A batch of a pending job. -/
theorem setEnv_keepsSound {batch : List Assign} {Q : Env → World → Prop} (hw : w.Sound)
    (hset : (w.env.write batch).accepted = true)
    (hQ : Q (w.env.write batch) { w with env := w.env.write batch }) :
    KeepsSound O (setEnv batch) Q w := by
  have hsound : World.Sound { w with env := w.env.write batch } := ⟨hset, hw.journal⟩
  refine setEnv_alone hw (fun w' hw' => ?_) ⟨hQ, hsound⟩
  have h' : w'.Sound := by
    rcases hw' with rfl | rfl
    · exact hw
    · exact hsound
  exact ⟨h', fun _ => h', fun _ => h'⟩

theorem intend_keepsSound (hw : w.Sound) (hjob : job.Sound) :
    KeepsSound O (intend O job) (fun r t => r = none → t.env.osPending.isSome = true) w := by
  refine Safe.tryCatch (Safe.mono (E := fun _ => World.Sound) ?_ (fun _ _ h => h) ?_)
  · refine keepsSound_bind (keepsSound_of_settles (settles_of_makes
      (looks_settles (revalidate_makes job))) hw) fun _ w₁ _ h₁ => ?_
    refine keepsSound_bind (keepsSound_of_settles readEnv_settles h₁) fun env w₂ _ h₂ => ?_
    refine keepsSound_bind (keepsSound_of_settles (settles_of_makes (makes_raiseIf _)) h₂)
      fun _ w₃ _ h₃ => ?_
    refine Safe.bind (need_alone (fun _ => h₃) fun image himage => ?_)
    refine keepsSound_bind (Q := fun _ t => t.env.osPending.isSome = true)
      (setEnv_keepsSound h₃ (Env.accepted_intent h₃.env hjob himage) rfl) fun _ t ht hs => ?_
    exact ⟨fun _ => ht, hs⟩
  · intro e t ht
    cases e <;> first | exact ⟨nofun, ht⟩ | exact ht

theorem activateTarget_keepsSound (hw : w.Sound) (hjob : job.Sound)
    (hpending : w.env.osPending.isSome = true) :
    KeepsSound O (activateTarget job) (fun _ _ => True) w := by
  refine Safe.bind (need_alone (fun _ => hw) fun target htarget => ?_)
  refine Safe.bind (run_alone hw fun x w₁ hx => ?_)
  have h₁ : w₁.Sound ∧ w₁.env.osPending.isSome = true := by
    refine ⟨hw.settled (c := .markActive target) trivial hx, ?_⟩
    rcases hx.2 with rfl | ⟨rfl, -⟩
    · show (w.activate target).env.osPending.isSome = true
      rw [activate_env]
      exact hpending
    · exact hpending
  obtain ⟨hs₁, hp₁⟩ := h₁
  refine ⟨fun _ => hs₁, fun _ => ?_⟩
  refine Safe.bind (readEnv_alone hs₁ (fun _ => hs₁) ?_)
  split_ifs
  · exact (keepsSound_of_settles (backToReady_settles hjob _) hs₁)
  · refine keepsSound_bind (Q := fun _ _ => True) (setEnv_keepsSound hs₁
      (Env.accepted_phase hs₁.env hp₁ (by decide)) trivial) fun _ w₂ _ hs₂ => ?_
    refine keepsSound_of_settles (settles_of_makes (.bind (save_makes ?_) fun _ =>
      .bind (run_makes trivial) fun _ => trivial)) hs₂
    exact hjob.continues ((Job.Continues.refl job).progressed _ _ _ _ _)

theorem activate_keepsSound (hw : w.Sound) (hjob : job.Sound) :
    KeepsSound O (activate O job) (fun _ _ => True) w := by
  have hreboot : Settles reboot fun _ => True :=
    settles_of_makes (.bind (run_makes trivial) fun _ => trivial)
  refine keepsSound_bind (Q := fun _ _ => True) (keepsSound_of_settles (P := fun _ => True) ?_ hw)
    fun already w₁ _ h₁ => ?_
  · unfold alreadyActivated
    split_ifs
    · exact settles_of_makes (.bind (looks_settles readEnv_makes) fun _ => trivial)
    · trivial
  · split_ifs
    · exact keepsSound_of_settles hreboot h₁
    · refine keepsSound_bind (intend_keepsSound h₁ hjob) fun refusal w₂ hpending h₂ => ?_
      cases refusal with
      | some error => exact keepsSound_of_settles (backToReady_settles hjob error) h₂
      | none => exact activateTarget_keepsSound h₂ hjob (hpending rfl)

theorem settles_of_serves {B : HostCall → Prop} {p : OsProg α} (hp : Serves job B p)
    (hjob : job.Sound) (hB : ∀ c, B c → c.settles) : Settles p fun _ => True :=
  settles_of_makes (hp.mono fun _ => settles_of_ofWorker hjob hB)

theorem advances_settles (c : HostCall) (h : c.advances) : c.settles := by
  cases c with
  | setEnv batch => exact Or.inr h
  | _ => exact h.elim

theorem holdingLease_keepsSound (hw : w.Sound) (hjob : job.Sound) :
    KeepsSound O (holdingLease O job) (fun _ _ => True) w := by
  refine keepsSound_bind (keepsSound_of_settles (settles_of_makes (setGuard_makes trivial)) hw)
    fun _ w₁ _ h₁ => ?_
  split
  · exact keepsSound_of_settles (settles_of_serves (reconcileInstall_serves (.refl job)) hjob
      advances_settles) h₁
  · exact activate_keepsSound h₁ hjob
  · exact keepsSound_of_settles (settles_of_serves (work_serves (fun _ hc => hc) (.refl job)) hjob
      advances_settles) h₁

theorem runWorker_keepsSound (hw : w.Sound) : KeepsSound O (runWorker O) (fun _ _ => True) w := by
  refine keepsSound_bind (keepsSound_of_settles journal_settles hw) fun found w₁ hfound h₁ => ?_
  cases found with
  | none => exact ⟨trivial, h₁⟩
  | some job =>
    have hjob := hfound job rfl
    have hfinish : ∀ state error, Settles (finish job state error) fun _ => True :=
      fun state error => settles_of_makes (finish_settles hjob state error)
    dsimp only
    split_ifs
    · refine keepsSound_bind (Q := fun _ _ => True) (keepsSound_of_settles (P := fun _ => True) ?_ h₁)
        fun stop w₂ _ h₂ => ?_
      · unfold stopRequested
        split_ifs
        · exact settles_of_makes (.bind (makes_ask trivial fun _ => trivial) fun _ => trivial)
        · trivial
      split_ifs
      · exact keepsSound_of_settles (settles_bind (hfinish _ _) fun _ _ => trivial) h₂
      · refine keepsSound_bind (keepsSound_of_settles (settles_of_makes (makes_ask trivial
          fun _ => trivial)) h₂) fun fuel w₃ _ h₃ => ?_
        refine keepsSound_bind (keepsSound_of_settles (settles_of_serves (takeLease_serves fuel) hjob
          advances_settles) h₃) fun refusal w₄ _ h₄ => ?_
        cases refusal with
        | some msg => exact keepsSound_of_settles (settles_bind (hfinish _ _) fun _ _ => trivial) h₄
        | none =>
          have hrelease : ∀ t : World, t.Sound →
              KeepsSound O (ask .release) (fun _ _ => True) t := fun t ht =>
            keepsSound_of_settles (settles_of_makes (makes_ask trivial fun _ => trivial)) ht
          refine Safe.ensure ((holdingLease_keepsSound h₄ hjob).mono ?_ ?_)
          · exact fun _ t ht => (hrelease t ht.2).mono (fun _ _ h => h) fun _ _ h => h
          · exact fun _ t ht => (hrelease t ht).mono (fun _ _ h => h.2) fun _ _ h => h
    · exact ⟨trivial, h₁⟩

/-! ### Confirmation -/

theorem promoteApp_makes_settles : promoteApp.Makes (F := Host) HostCall.settles := by
  have hover : ∀ base same, (promoteOver base same).Makes (F := Host) HostCall.settles := by
    intro base same
    unfold promoteOver
    split_ifs
    · trivial
    · refine .bind ?_ fun _ => .bind (makes_ask trivial fun _ => trivial) fun _ =>
        .bind (stored_makes _) fun _ => .bind (makes_ask trivial fun _ => trivial) fun _ =>
        .bind (makes_ask trivial fun _ => trivial) fun _ => .bind (stored_makes _) fun _ =>
        .bind (makes_ask trivial fun _ => trivial) fun _ => stored_makes _
      cases same with
      | none => trivial
      | some r => exact .bind (makes_ask trivial fun _ => trivial) fun _ => stored_makes _
  refine .bind (makes_ask trivial fun _ => trivial) fun base => ?_
  split_ifs
  · trivial
  · exact .bind (makes_ask trivial fun _ => trivial) fun _ => hover _ _

/-- The variables of a job are set, and what was read is what stands. -/
def AtPending (env : Env) (w : World) : Prop := env = w.env ∧ env.osPending.isSome = true

theorem confirmIntent_keepsSound (hw : w.Sound) (hp : w.env.osPending.isSome = true) :
    KeepsSound O (confirmIntent w.env) AtPending w := by
  unfold confirmIntent
  split_ifs
  · exact setEnv_keepsSound hw (Env.accepted_phase hw.env hp (by decide)) ⟨rfl, hp⟩
  · exact ⟨⟨rfl, hp⟩, hw⟩

theorem confirmSlot_keepsSound (hw : w.Sound) (hp : w.env.osPending.isSome = true) (sequence : ℕ) :
    KeepsSound O (confirmSlot w.env sequence) AtPending w := by
  unfold confirmSlot
  split_ifs
  · refine Safe.bind (run_alone hw fun x w₁ hx => ?_)
    have hs₁ : w₁.Sound := hw.settled (c := .markGoodBooted) trivial hx
    have hp₁ : w₁.env.osPending.isSome = true := by
      rcases hx.2 with rfl | ⟨rfl, -⟩
      · exact hp
      · exact hp
    refine ⟨fun _ => hs₁, fun b => ?_⟩
    refine Safe.bind (safe_raiseIf.mpr ⟨fun _ => hs₁, fun _ => ?_⟩)
    have hfloor := Env.accepted_floor hs₁.env (max w.env.osFloor sequence)
    exact setEnv_keepsSound hs₁ (Env.accepted_phase hfloor hp₁ (by decide)) ⟨rfl, hp₁⟩
  · exact ⟨⟨rfl, hp⟩, hw⟩

theorem confirmCandidate_keepsSound (hw : w.Sound) (id : JobId) :
    KeepsSound O (confirmCandidate id) (fun _ _ => True) w := by
  refine Safe.bind (readEnv_alone hw (fun _ => hw) ?_)
  refine Safe.bind (bootedSlot_alone hw (fun _ => hw) ?_)
  refine Safe.bind (safe_raiseIf.mpr ⟨fun _ => hw, fun htrial => ?_⟩)
  have hp : w.env.osPending.isSome = true := by
    simp only [ne_eq, not_or, not_not] at htrial
    simp [htrial.1]
  refine Safe.bind (need_alone (fun _ => hw) fun sequence _ => ?_)
  refine keepsSound_bind (confirmIntent_keepsSound hw hp) ?_
  rintro env w₁ ⟨rfl, hp₁⟩ hs₁
  refine keepsSound_bind (confirmSlot_keepsSound hs₁ hp₁ sequence) ?_
  rintro env w₂ ⟨rfl, hp₂⟩ hs₂
  have hjob : Settles (confirmJob w₂.env w.booted) fun _ => True := by
    refine settles_bind (settles_of_makes (makes_raiseIf _)) fun _ _ => ?_
    refine settles_bind (settles_of_makes promoteApp_makes_settles) fun _ _ => ?_
    refine settles_bind journal_settles fun found hfound => ?_
    refine settles_bind (rebuild_settles hs₂.env hfound) fun job hjob => ?_
    exact settles_of_makes (finish_settles hjob _ _)
  refine keepsSound_of_settles (settles_bind hjob fun _ _ => ?_) hs₂
  exact settles_bind (settles_of_makes clearPending_makes) fun _ _ => trivial

theorem confirmMain_keepsSound (hw : w.Sound) (id : JobId) (attempts : ℕ) :
    KeepsSound O (confirmMain id attempts) (fun _ _ => True) w := by
  induction attempts generalizing w with
  | zero => exact ⟨trivial, hw⟩
  | succ attempts ih =>
    refine Safe.tryCatch ((confirmCandidate_keepsSound hw id).mono (fun _ _ h => h) ?_)
    intro e t ht
    cases e <;> first | exact ih ht | exact ht

theorem superviseConfirm_keepsSound (hw : w.Sound) (coordinatorExists : Bool) :
    KeepsSound O (superviseConfirm coordinatorExists) (fun _ _ => True) w := by
  refine Safe.bind (bootedSlot_alone hw (fun _ => hw) ?_)
  refine keepsSound_bind (keepsSound_of_settles (settles_of_makes (makes_ask trivial
    fun _ => trivial)) hw) fun env w₁ _ hs₁ => ?_
  cases env with
  | none => exact ⟨trivial, hs₁⟩
  | some env =>
    refine keepsSound_bind (Q := fun _ _ => True) ?_ fun confirmed w₂ _ hs₂ => ?_
    · unfold confirmBoot
      split
      · split_ifs
        · exact keepsSound_bind (confirmMain_keepsSound hs₁ _ 3) fun _ _ _ h => ⟨trivial, h⟩
        · exact ⟨trivial, hs₁⟩
      · exact keepsSound_of_settles (settles_of_makes (run_makes trivial)) hs₁
    · refine keepsSound_of_settles (settles_of_makes (.bind (Prog.Makes.when ?_) fun _ => trivial)) hs₂
      exact .bind (makes_ask trivial fun _ => trivial) fun _ => trivial

end Phases

/-! ### Runs of the box -/

/-- One program of the box, cut anywhere, a boot of the loader, or a move of something else. -/
inductive Moves (O : Oracles) (w w' : World) : Prop
  | request (r : Request) (h : Stops (Outcome O) (r.prog O) w w')
  | worker (h : Stops (Outcome O) (runWorker O) w w')
  | supervise (coordinatorExists : Bool)
    (h : Stops (Outcome O) (superviseConfirm coordinatorExists) w w')
  | confirm (id : JobId) (h : Stops (Outcome O) (confirmMain id 3) w w')
  | reconcileBoot (h : Stops (Outcome O) OsUpdate.reconcileBoot w w')
  | boots (s : Slot) (h : Boots w s w')
  /-- RAUC writes an order and counters of the forms the loader lists. -/
  | marks (order : List Slot) (left : Slot → ℕ)
    (horder : [[Slot.a, .b], [.b, .a], [.a], [.b]].contains order = true)
    (hleft : ∀ s, left s ≤ 3)
    (h : w' = { w with env := { w.env with bootOrder := order, left := left } })
  /-- DATA may be lost; the environment is only written by the programs above. -/
  | elsewhere (henv : w'.env = w.env) (hjournal : w'.journal = w.journal ∨ w'.journal = none)

/-- A card as it is seeded: no job, and counters and an order the loader knows. -/
structure Seeded (w : World) : Prop where
  noJob : w.env.NoJob
  order : w.env.orderValid = true
  counters : w.env.countersValid = true
  journal : w.journal = none

section Box

variable {O : Oracles} {w w' : World}

theorem Seeded.sound (h : Seeded w) : w.Sound :=
  ⟨Env.accepted_noJob h.noJob h.order h.counters, fun job hjob => by simp [h.journal] at hjob⟩

theorem request_settles (r : Request) : Settles (r.prog O) fun _ => True := by
  cases r with
  | install seq sha256 requestId => exact install_settles _ _ _
  | cancel id => exact cancel_settles id
  | dismiss id => exact dismiss_settles id
  | restart id => exact restart_settles id
  | discard id => exact discard_settles id
  | check => exact settles_of_makes (.bind check_makes fun _ => trivial)
  | view => exact settles_of_makes (.bind (view_makes true) fun _ => trivial)

theorem keepsSound_stops {α : Type} {Q : α → World → Prop} {p : OsProg α}
    (hp : KeepsSound O p Q w) (h : Stops (Outcome O) p w w') : w'.Sound :=
  Safe.stops (C := World.Sound) (hp.mono (fun _ _ h => h.2) fun _ _ h => h) h

/-- One move keeps the state sound. -/
theorem Moves.sound (h : Moves O w w') (hw : w.Sound) : w'.Sound := by
  cases h with
  | request r h => exact keepsSound_stops (keepsSound_of_settles (request_settles r) hw) h
  | worker h => exact keepsSound_stops (runWorker_keepsSound hw) h
  | supervise coordinatorExists h =>
    exact keepsSound_stops (superviseConfirm_keepsSound hw coordinatorExists) h
  | confirm id h => exact keepsSound_stops (confirmMain_keepsSound hw id 3) h
  | reconcileBoot h => exact keepsSound_stops (keepsSound_of_settles reconcileBoot_settles hw) h
  | boots s h =>
    refine ⟨?_, fun job hjob => hw.journal job ?_⟩
    · rw [h.rest.env]
      exact Env.accepted_launch hw.env h.select
    · rw [← hjob, h.rest.journal]
  | marks order left horder hleft h =>
    rw [h]
    exact ⟨Env.accepted_marked hw.env horder hleft, hw.journal⟩
  | elsewhere henv hjournal =>
    refine ⟨henv ▸ hw.env, fun job hjob => ?_⟩
    rcases hjournal with hsame | hnone
    · exact hw.journal job (hsame ▸ hjob)
    · simp [hnone] at hjob

theorem run_sound (hw : w.Sound) (hrun : Relation.ReflTransGen (Moves O) w w') : w'.Sound := by
  induction hrun with
  | refl => exact hw
  | tail _ hmove ih => exact hmove.sound ih

/-- Whatever the box has written, the guard and the checks of the script pass on its text. -/
theorem loader_accepts (hseed : Seeded w) (hrun : Relation.ReflTransGen (Moves O) w w')
    {v : Vars} (hv : v.Holds w'.env) :
    doBootGuard v = true ∧
      checkState v = (do orHalt (← uboot .envGuard) "native state unavailable") := by
  have haccepted := (run_sound hseed.sound hrun).env
  refine ⟨?_, checkState_accepted hv haccepted⟩
  rw [doBootGuard_eq hv (Env.printable haccepted)]
  exact (Env.accepted_iff.mp haccepted).1

/-- A card that was seeded and has started slot A. -/
theorem loader_accepts_sample :
    doBootGuard (sampleEnv.launch .a).text = true ∧
      checkState (sampleEnv.launch .a).text =
        (do orHalt (← uboot .envGuard) "native state unavailable") := by
  have hseed : Seeded (sampleWorld sampleEnv .a) :=
    ⟨⟨rfl, rfl, rfl, rfl, rfl, rfl, rfl⟩, by decide, by decide, rfl⟩
  have hboot : Moves sampleOracles (sampleWorld sampleEnv .a)
      (sampleWorld (sampleEnv.launch .a) .a) :=
    .boots .a ⟨by decide, by decide, ⟨rfl, rfl, rfl, rfl, rfl, rfl, rfl, rfl, rfl, rfl, rfl⟩⟩
  exact loader_accepts hseed (.single hboot) (Env.text_holds _)

end Box

end Epilykos.OsUpdate
