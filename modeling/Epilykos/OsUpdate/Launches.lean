import Epilykos.OsUpdate.Slots

/-!
The worker, Restart and reconcile_boot among the others. A restart begins only from a record that
was written while RAUC had nothing to do; so what verify_target has read back stands until the
target is marked.
-/

namespace Epilykos.OsUpdate

open Program World

variable {O : Oracles} {g : Origin} {x y : Machine} {job : Job}

section Main

variable {α β ε : Type} {arms installs : Prop}

/-! ### Reading the journal -/

/-- What a record that was read allows. -/
structure JobRead (O : Oracles) (g : Origin) (job : Job) (y : Machine) : Prop where
  backed : job.Backed O g
  unarmed : job.Unarmed → Able O g False True y
  armed : ¬ job.Unarmed → Able O g True False y

theorem journal_mains (hx : Kept O g x) :
    Mains O g journal (fun found y => ∀ job, found = some job → JobRead O g job y)
      (fun _ _ => True) x := by
  refine Safe.bind fun x₁ hmoved => ?_
  have h₁ : Able O g False False x₁ := (able_any hx).moved hmoved
  have hnext : ∀ a x₂, RaucOutcome O x₁ .readJournal a x₂ → Kept O g x₂ := fun a x₂ ho =>
    (h₁.outcome (c := .readJournal) (fun h => h.1) trivial ho).1.kept
  refine ⟨⟨h₁.kept, hnext⟩, fun a x₂ ho => ?_⟩
  have h₂ := hnext a x₂ ho
  have hsame : x₂.1 = x₁.1 := ho.world.reads rfl
  cases a with
  | absent => exact ⟨fun job hjob => (by cases hjob), h₂⟩
  | unreadable => exact ⟨trivial, h₂⟩
  | job j =>
    have hjournal : x₂.1.journal = some j := by
      obtain hbad | hread := ho.world.1
      · cases hbad
      · rw [hsame]
        cases hj : x₁.1.journal with
        | none => simp [journalRead, hj] at hread
        | some k =>
          obtain rfl : j = k := by simpa [journalRead, hj] using hread
          rfl
    refine ⟨fun job hjob => ?_, h₂⟩
    obtain rfl := Option.some.inj hjob
    refine ⟨h₂.journal j hjournal, fun hu => ⟨h₂, False.elim, fun _ k hk => ?_⟩, fun harmed =>
      ⟨h₂, fun _ => h₂.armed j hjournal harmed, False.elim⟩⟩
    obtain rfl := Option.some.inj (hjournal.symm.trans hk)
    exact hu

theorem need_mains {x : Machine} {a : Option α} {Q : β → Machine → Prop} {E : Err → Machine → Prop}
    {f : α → OsProg β} (hx : Kept O g x) (hE : E .key x) (hf : ∀ v, a = some v → Mains O g (f v) Q E x) :
    Mains O g (need a >>= f) Q E x := by
  cases a with
  | none => exact ⟨hE, hx⟩
  | some v => exact hf v rfl

theorem arms_one : ¬ (True ∧ False) := fun h => h.2

theorem installs_one : ¬ (False ∧ True) := fun h => h.1

theorem neither_one : ¬ (False ∧ False) := fun h => h.1

/-! ### The activation -/

/-- RAUC has nothing to do, and the target holds a trusted image. -/
structure Sure (O : Oracles) (g : Origin) (job : Job) (x : Machine) : Prop where
  able : Able O g True False x
  target : ∃ s, job.target = some s ∧ Trusted O g (x.1.slots s).content

theorem Sure.content (h : Sure O g job x) (hy : Able O g True False y)
    (hcontent : ∀ s, (y.1.slots s).content = (x.1.slots s).content) : Sure O g job y := by
  obtain ⟨s, hs, htrusted⟩ := h.target
  exact ⟨hy, s, hs, (hcontent s).symm ▸ htrusted⟩

theorem Sure.moved (h : Sure O g job x) (hmoved : Kept O g x → Kept O g y ∧ Steady x y) :
    Sure O g job y :=
  h.content (h.able.moved hmoved) ((hmoved h.able.kept).2.content (h.able.quiet trivial))

/-- What was read back stands. -/
theorem sure_of_local {p : Prog Host ε α} {P : α → Prop} {E : ε → Prop}
    (hp : Local (F := Host) (HostCall.toldBacked O g) (HostCall.keeps O g True False) p P E)
    (hx : Sure O g job x) :
    Mains O g p (fun a y => P a ∧ Sure O g job y) (fun e y => E e ∧ Sure O g job y) x := by
  refine (Local.safe (I := Sure O g job) hp ?_ ?_ ?_ hx).mono
    (fun _ _ h => ⟨h, h.2.able.kept⟩) fun _ _ h => ⟨h, h.2.able.kept⟩
  · exact fun _ _ h ht => ht.moved h
  · exact fun t c a t' ht ho => Able.told ht.able.kept ho
  · intro t c hc ht
    have hnext : ∀ a t', RaucOutcome O t c a t' → Able O g True False t' :=
      fun a t' ho => (ht.able.outcome arms_one hc ho).1
    exact ⟨⟨ht.able.kept, fun a t' ho => (hnext a t' ho).kept⟩,
      fun a t' ho => ht.content (hnext a t' ho) ho.content⟩

theorem verifyTarget_mains (hjob : job.Backed O g) (hx : Able O g True False x) :
    Mains O g (verifyTarget job) (fun _ => Sure O g job) (fun _ => Able O g True False) x := by
  refine able_bind (keeps_records.makes (keeps_records.looks readEnv_makes)) arms_one hx
    (fun _ _ _ h => h) fun env x₁ _ h₁ => ?_
  refine able_bind (keeps_records.makes (makes_raiseIf _)) arms_one h₁ (fun _ _ _ h => h)
    fun _ x₂ _ h₂ => ?_
  refine need_mains h₂.kept h₂ fun image himage => ?_
  refine need_mains h₂.kept h₂ fun size hsize => ?_
  refine need_mains h₂.kept h₂ fun target htarget => ?_
  refine Safe.bind fun x₃ hmoved => ?_
  have h₃ := h₂.moved hmoved
  have hnext : ∀ a x₄, RaucOutcome O x₃ (.slotHash target size) a x₄ → Able O g True False x₄ :=
    fun a x₄ ho => (h₃.outcome (c := .slotHash target size) arms_one trivial ho).1
  refine ⟨⟨h₃.kept, fun a x₄ ho => (hnext a x₄ ho).kept⟩, fun a x₄ ho => ?_⟩
  have h₄ := hnext a x₄ ho
  cases a with
  | unreadable => exact ⟨h₄, h₄.kept⟩
  | short => exact ⟨h₄, h₄.kept⟩
  | digest d =>
    refine Safe.bind (safe_raiseIf.mpr ⟨fun _ => ⟨h₄, h₄.kept⟩, fun hd => ?_⟩)
    have hread : readSlot O (x₃.1.slots target).content size = .digest d := by
      obtain h | h := ho.world.1
      · cases h
      · exact h.symm
    have hreads : ReadsAs O (x₃.1.slots target).content image :=
      ⟨size, d, hsize, not_not.mp hd, hread⟩
    have hsure : Sure O g job x₄ := by
      refine ⟨h₄, target, htarget, ?_⟩
      rw [ho.content]
      exact trusted_of_backed hjob himage hreads
    have hnote : Bears O g True False (ask (.verified job.id target)) fun _ => True :=
      keeps_records.makes (makes_ask trivial fun _ => trivial)
    exact (sure_of_local hnote hsure).mono (fun _ _ h => ⟨h.1.2, h.2⟩)
      fun _ _ h => ⟨h.1.2.able, h.2⟩

theorem revalidate_mains (hjob : job.Backed O g) (hx : Able O g True False x) :
    Mains O g (revalidate O job) (fun _ => Sure O g job) (fun _ => Able O g True False) x := by
  have hstep : ∀ {γ δ : Type} {p : OsProg γ} {f : γ → OsProg δ} {t : Machine}
      {Q : δ → Machine → Prop}, p.Makes (F := Host) HostCall.looks → Able O g True False t →
      (∀ a y, Able O g True False y → Mains O g (f a) Q (fun _ => Able O g True False) y) →
      Mains O g (p >>= f) Q (fun _ => Able O g True False) t := fun hp ht hf =>
    able_bind (keeps_records.makes (keeps_records.looks hp)) arms_one ht (fun _ _ _ h => h)
      fun a y _ hy => hf a y hy
  refine hstep platform_makes hx fun found x₁ h₁ => ?_
  refine need_mains h₁.kept h₁ fun plat _ => ?_
  refine hstep (currentState_makes plat) h₁ fun state x₂ h₂ => ?_
  refine need_mains h₂.kept h₂ fun files _ => ?_
  refine hstep (verifyOsRelease_makes _ _ _ _) h₂ fun entry x₃ h₃ => ?_
  refine hstep (makes_raiseIf _) h₃ fun _ x₄ h₄ => ?_
  refine hstep appBlockers_makes h₄ fun blockers x₅ h₅ => ?_
  refine hstep (makes_raiseIf _) h₅ fun _ x₆ h₆ => ?_
  exact hstep (storageAdmit_makes _) h₆ fun _ x₇ h₇ => verifyTarget_mains hjob h₇

theorem sure_bind {p : OsProg α} {f : α → OsProg β} {Q : β → Machine → Prop}
    {E : Err → Machine → Prop} (hp : p.Makes (F := Host) (HostCall.keeps O g True False))
    (hx : Sure O g job x) (hE : ∀ e y, Sure O g job y → E e y)
    (hf : ∀ a y, Sure O g job y → Mains O g (f a) Q E y) : Mains O g (p >>= f) Q E x :=
  Safe.bind ((sure_of_local (keeps_records.makes hp) hx).mono (fun a y h => hf a y h.1.2)
    fun e y h => ⟨hE e y h.1.2, h.2⟩)

theorem intend_mains (hjob : job.Backed O g) (hx : Able O g True False x) :
    Mains O g (intend O job) (fun r y => Able O g True False y ∧ (r = none → Sure O g job y))
      (fun _ _ => True) x := by
  refine Safe.tryCatch (Safe.mono (E := fun _ y => Able O g True False y ∧ Kept O g y) ?_
    (fun _ _ h => h) fun e y hy => ?_)
  · refine mains_bind (revalidate_mains hjob hx) fun _ x₁ h₁ _ => ?_
    have hE : ∀ (e : Err) (y : Machine), Sure O g job y → Able O g True False y := fun _ _ h => h.able
    refine sure_bind (keeps_records.looks readEnv_makes) h₁ hE fun env x₂ h₂ => ?_
    refine sure_bind (makes_raiseIf _) h₂ hE fun _ x₃ h₃ => ?_
    refine need_mains h₃.able.kept h₃.able fun image _ => ?_
    refine sure_bind (setEnv_bears _) h₃ hE fun _ x₄ h₄ => ?_
    exact ⟨⟨h₄.able, fun _ => h₄⟩, h₄.able.kept⟩
  · cases e <;> first | exact ⟨trivial, hy.2⟩ | exact ⟨⟨hy.1, nofun⟩, hy.2⟩

theorem able_makes {p : OsProg α} (hp : p.Makes (F := Host) (HostCall.keeps O g arms installs))
    (hone : ¬ (arms ∧ installs)) (hx : Able O g arms installs x) :
    Mains O g p (fun _ _ => True) (fun _ _ => True) x :=
  (mains_of_local (keeps_records.makes hp) hone hx).mono (fun _ _ h => ⟨trivial, h.2⟩)
    fun _ _ h => ⟨trivial, h.2⟩

/-- RAUC's mark for the target, which holds what was read back. -/
theorem markActive_outcome {s : Slot} {a : Ran} (hx : Sure O g job x) (hs : job.target = some s)
    (h : RaucOutcome O x (.markActive s) a y) : Able O g True False y := by
  have hquiet : Quiet x := hx.able.quiet trivial
  have hquiet' : Quiet y := h.quiet (fun _ => nofun) hquiet
  have htarget : Trusted O g (x.1.slots s).content := by
    obtain ⟨t, ht, htrusted⟩ := hx.target
    obtain rfl := Option.some.inj (hs.symm.trans ht)
    exact htrusted
  have hjournal : ∀ job, y.1.journal = some job → x.1.journal = some job :=
    fun job hjob => (h.journal hjob).resolve_right nofun
  refine ⟨hx.able.kept.moved h (fun t ht => ?_) (fun hbusy => (hbusy hquiet).elim)
    (fun job hjob => hx.able.kept.journal job (hjournal job hjob)) fun _ _ _ => hquiet',
    fun _ => hquiet', False.elim⟩
  obtain heffect | ⟨hsame, -⟩ := h.world.2
  · by_cases hts : t = s
    · exact Or.inr (hts ▸ htarget)
    · left
      rw [heffect] at ht
      simpa [effect, World.activate, Env.setLeft, hts] using ht
  · exact Or.inl (hsame ▸ ht)

theorem activateTarget_mains (hjob : job.Backed O g) (hx : Sure O g job x) :
    Mains O g (activateTarget job) (fun _ _ => True) (fun _ _ => True) x := by
  refine need_mains hx.able.kept trivial fun target htarget => ?_
  have hmark : Mains O g (run "rauc" (ask (.markActive target))) (fun _ => Able O g True False)
      (fun _ _ => True) x := by
    refine Safe.bind fun x₁ hmoved => ?_
    have h₁ : Sure O g job x₁ := hx.moved hmoved
    refine ⟨⟨h₁.able.kept, fun a x₂ ho => (markActive_outcome h₁ htarget ho).kept⟩,
      fun a x₂ ho => ?_⟩
    have h₂ := markActive_outcome h₁ htarget ho
    cases a with
    | ok => exact ⟨h₂, h₂.kept⟩
    | failed => exact ⟨h₂, h₂.kept⟩
    | noAnswer => exact ⟨trivial, h₂.kept⟩
  refine mains_bind hmark fun _ x₂ h₂ _ => able_makes ?_ arms_one h₂
  refine .bind (keeps_records.looks readEnv_makes) fun env => ?_
  split_ifs
  · exact keeps_records.backToReady keeps_anytime hjob _
  · exact .bind (setEnv_bears _) fun _ => .bind (save_makes (keeps_anytime _
      (hjob.stage ⟨_, _, _, _, _, rfl⟩))) fun _ => .bind (run_makes trivial) fun _ => trivial

theorem activate_mains (hjob : job.Backed O g) (hx : Able O g True False x) :
    Mains O g (activate O job) (fun _ _ => True) (fun _ _ => True) x := by
  have halready : (alreadyActivated job).Makes (F := Host) HostCall.looks := by
    unfold alreadyActivated
    split_ifs
    · exact .bind readEnv_makes fun _ => trivial
    · trivial
  refine able_bind (keeps_records.makes (keeps_records.looks halready)) arms_one hx
    (fun _ _ _ _ => trivial) fun already x₁ _ h₁ => ?_
  split_ifs
  · exact able_makes (.bind (run_makes trivial) fun _ => trivial) arms_one h₁
  · refine mains_bind (intend_mains hjob h₁) fun refusal x₂ h₂ _ => ?_
    cases refusal with
    | some error => exact able_makes (keeps_records.backToReady keeps_anytime hjob _) arms_one h₂.1
    | none => exact activateTarget_mains hjob (h₂.2 rfl)

/-! ### The install -/

/-- A part of the worker whose exceptions carry a record that may be written. -/
abbrev Hands (O : Oracles) (g : Origin) (e : Err × Job) (_ : Machine) : Prop := e.2.Backed O g

theorem completeInstall_mains (hjob : job.Backed O g) (hstate : job.Unarmed)
    (hx : Able O g True False x) :
    Mains O g (completeInstall job) (fun _ _ => True) (Hands O g) x :=
  (mains_of_local (keeps_records.completeInstall keeps_anytime hjob hstate) arms_one hx).mono
    (fun _ _ h => ⟨trivial, h.2⟩) fun _ _ h => ⟨h.1.1, h.2⟩

theorem carries_mains {P : α → Prop} {p : JobProg α}
    (hp : BearsJob O g arms installs p P)
    (hone : ¬ (arms ∧ installs)) (hx : Able O g arms installs x) :
    Mains O g p (fun _ _ => True) (Hands O g) x :=
  (mains_of_local hp hone hx).mono (fun _ _ h => ⟨trivial, h.2⟩) fun _ _ h => ⟨h.1.1.1, h.2⟩

theorem carries_step {P : α → Prop} {R : β → Machine → Prop} {p : JobProg α} {f : α → JobProg β}
    (hp : BearsJob O g arms installs p P)
    (hone : ¬ (arms ∧ installs)) (hx : Able O g arms installs x)
    (hf : ∀ a y, P a → Able O g arms installs y → Mains O g (f a) R (Hands O g) y) :
    Mains O g (p >>= f) R (Hands O g) x :=
  able_bind hp hone hx (fun _ _ h _ => h.1) hf

/-- RAUC is done when the client says that the install went through. -/
theorem installBundle_mains (hjob : job.Backed O g) (hstate : job.Unarmed)
    (hx : Able O g False True x) :
    Mains O g (installBundle job) (fun _ _ => True) (Hands O g) x := by
  refine carries_step (keeps_records.withMakes keeps_records.raucIdentity hjob hstate) installs_one hx
    fun identity x₁ _ h₁ => ?_
  have hjob' : Job.Backed O g { job with
      rauc := some { identity with transaction := some job.id } } := hjob
  have hinstalling : (Job.step { job with
      rauc := some { identity with transaction := some job.id } } .installing).Unarmed :=
    ⟨nofun, nofun⟩
  have hjob'' := hjob'.stage (.step _ .installing)
  refine carries_step (keeps_records.withMakes (keeps_records.saveStep hjob' (by decide) (by decide))
    hjob'' hinstalling) installs_one h₁ fun _ x₂ _ h₂ => ?_
  refine carries_step (P := fun _ => True) (local_call trivial fun _ _ => trivial) installs_one h₂
    fun started x₃ _ h₃ => ?_
  refine carries_step (keeps_records.raises hjob'' hinstalling) installs_one h₃ fun _ x₄ _ h₄ => ?_
  refine carries_step (keeps_records.withMakes (keeps_records.waitInstall hjob'') hjob'' hinstalling)
    installs_one h₄ fun last x₅ _ h₅ => ?_
  refine Safe.bind fun x₆ hmoved => ?_
  have h₆ := h₅.moved hmoved
  have hnext : ∀ a x₇, RaucOutcome O x₆ .raucWait a x₇ → Able O g False True x₇ :=
    fun a x₇ ho => (h₆.outcome (c := .raucWait) installs_one trivial ho).1
  refine ⟨⟨h₆.kept, fun a x₇ ho => (hnext a x₇ ho).kept⟩, fun a x₇ ho => ?_⟩
  have h₇ := hnext a x₇ ho
  cases a with
  | false => exact carries_mains (keeps_records.failInstall hjob'' hinstalling _) installs_one h₇
  | true =>
    have hquiet : Quiet x₇ := by
      refine ho.quiet (fun _ => nofun) ⟨ho.settled rfl, ?_⟩
      exact ho.world.1 rfl
    exact completeInstall_mains hjob'' hinstalling ⟨h₇.kept, fun _ => hquiet, False.elim⟩

/-- Where the service says that it is idle, nothing has been asked of it. -/
theorem raucOperation_mains (hx : Kept O g x) :
    Mains O g raucOperation (fun r y => r.1 = some .idle → Quiet y) (fun _ _ => True) x := by
  have howner : (runReply "busctl" (ask .raucOwner)).Makes (F := Host)
      (HostCall.keeps O g False False) := runReply_makes (c := .raucOwner) trivial
  refine able_bind (keeps_records.makes howner) (fun h => h.1) (able_any hx) (fun _ _ _ _ => trivial)
    fun owner x₁ _ h₁ => ?_
  cases owner with
  | none => exact ⟨nofun, h₁.kept⟩
  | some owner =>
    refine Safe.bind (Safe.bind fun x₂ hmoved => ?_)
    have h₂ := h₁.moved hmoved
    have hnext : ∀ a x₃, RaucOutcome O x₂ .raucOperation a x₃ → Kept O g x₃ :=
      fun a x₃ ho => (h₂.outcome (c := .raucOperation) (fun h => h.1) trivial ho).1.kept
    refine ⟨⟨h₂.kept, hnext⟩, fun a x₃ ho => ?_⟩
    have h₃ := hnext a x₃ ho
    cases a with
    | noAnswer => exact ⟨trivial, h₃⟩
    | failed => exact ⟨nofun, h₃⟩
    | answered out =>
      refine ⟨fun hidle => ho.quiet (fun _ => nofun) ⟨ho.settled ⟨out, rfl⟩, ?_⟩, h₃⟩
      have hout : out = some x₂.1.rauc.operation := ho.world.1 out rfl
      exact Option.some.inj (hout.symm.trans hidle)

theorem watchRauc_mains (hx : Kept O g x) (fuel : ℕ) :
    Mains O g (watchRauc job fuel) (fun r y => r.1 = some .idle → Quiet y) (fun _ _ => True) x := by
  have hinvocation : ∀ {arms : Prop}, (runReply "systemctl" (ask .raucInvocation)).Makes (F := Host)
      (HostCall.keeps O g arms False) := runReply_makes (c := .raucInvocation) trivial
  induction fuel generalizing x with
  | zero => exact ⟨trivial, hx⟩
  | succ fuel ih =>
    refine mains_bind (raucOperation_mains hx) ?_
    rintro ⟨operation, owner⟩ x₁ hquiet h₁
    by_cases hidle : operation = some .idle
    · subst hidle
      refine able_bind (keeps_records.makes hinvocation) arms_one ⟨h₁, fun _ => hquiet rfl, False.elim⟩
        (fun _ _ _ _ => trivial) fun invocation x₂ _ h₂ => ?_
      have hnot : ∀ same : Bool,
          ¬ (same && (some Operation.idle == some Operation.installing)) = true := by decide
      dsimp only
      rw [if_neg (hnot _)]
      exact ⟨fun _ => h₂.quiet trivial, h₂.kept⟩
    · refine able_bind (keeps_records.makes hinvocation) (fun h => h.1) (able_any h₁)
        (fun _ _ _ _ => trivial) fun invocation x₂ _ h₂ => ?_
      dsimp only
      split_ifs
      · refine able_bind (keeps_records.ask (c := .deadlinePassed) trivial) (fun h => h.1) h₂
          (fun _ _ _ _ => trivial) fun passed x₃ _ h₃ => ?_
        split_ifs
        · exact ⟨fun h => (hidle h).elim, h₃.kept⟩
        · exact ih h₃.kept
      · exact ⟨fun h => (hidle h).elim, h₂.kept⟩

theorem dropJob_mains {p : JobProg α} (hp : Mains O g p (fun _ _ => True) (Hands O g) x) :
    Mains O g (dropJob p) (fun _ _ => True) (fun _ _ => True) x :=
  Safe.tryCatch (hp.mono (fun _ _ h => h) fun _ _ h => ⟨trivial, h.2⟩)

theorem reconcileInstall_mains (hjob : job.Backed O g) (hstate : job.Unarmed) (hx : Kept O g x) :
    Mains O g (reconcileInstall job) (fun _ _ => True) (fun _ _ => True) x := by
  have hfail : ∀ {msg : String} {t : Machine}, Kept O g t →
      Mains O g (dropJob (failInstall job msg)) (fun _ _ => True) (fun _ _ => True) t := fun ht =>
    dropJob_mains (carries_mains (keeps_records.failInstall hjob hstate _) (fun h => h.1) (able_any ht))
  refine able_bind (keeps_records.ask (c := .patience) trivial) (fun h => h.1) (able_any hx)
    (fun _ _ _ _ => trivial) fun fuel x₁ _ h₁ => ?_
  refine mains_bind (watchRauc_mains h₁.kept fuel) ?_
  rintro ⟨operation, same⟩ x₂ hquiet h₂
  dsimp only
  split_ifs with hidle
  · simp only [Bool.and_eq_true, beq_iff_eq] at hidle
    have hlast : (runReply "busctl" (ask .raucLastError)).Makes (F := Host)
        (HostCall.keeps O g True False) := runReply_makes (c := .raucLastError) trivial
    refine able_bind (keeps_records.makes hlast) arms_one ⟨h₂, fun _ => hquiet hidle.2, False.elim⟩
      (fun _ _ _ _ => trivial) fun last x₃ _ h₃ => ?_
    split_ifs
    · exact dropJob_mains (completeInstall_mains hjob hstate h₃)
    · exact hfail h₃.kept
  · exact hfail h₂
  · exact hfail h₂

/-! ### The worker -/

theorem workOn_mains (plat : Option Platform) (hjob : job.Backed O g) (hstate : job.Unarmed)
    (hx : Able O g False True x) : Mains O g (workOn O plat job) (fun _ _ => True) (Hands O g) x := by
  refine carries_step (keeps_records.withMakes (need_makes plat) hjob hstate) installs_one hx
    fun plat x₁ _ h₁ => ?_
  refine carries_step (keeps_records.withJob (currentState_bears plat) hjob hstate) installs_one h₁
    fun state x₂ hstate₁ h₂ => ?_
  refine carries_step (keeps_records.withMakes (need_makes _) hjob hstate) installs_one h₂
    fun files x₃ _ h₃ => ?_
  refine carries_step (keeps_records.withMakes (keeps_records.looks (verifyRelease_makes _ _ _))
    hjob hstate) installs_one h₃ ?_
  rintro ⟨_, _, newer⟩ x₄ - h₄
  refine carries_step (keeps_records.withJob (admitNewer_bears newer hstate₁) hjob hstate)
    installs_one h₄ fun state x₅ hpolicy h₅ => ?_
  refine carries_step (keeps_records.withJob (verifyOsRelease_learns _ _ _ _).bears hjob hstate)
    installs_one h₅ fun entry x₆ hentry h₆ => ?_
  refine carries_step (keeps_records.withMakes (makes_raiseIf _) hjob hstate) installs_one h₆
    fun _ x₇ _ h₇ => ?_
  refine carries_step (keeps_records.raises hjob hstate) installs_one h₇ fun _ x₈ _ h₈ => ?_
  refine carries_step (keeps_records.download hjob hstate entry) installs_one h₈ ?_
  rintro j x₉ ⟨hj, -⟩ h₉
  have hverifying : (j.step .verifying).Unarmed := ⟨nofun, nofun⟩
  have hj' := hj.stage (.step _ .verifying)
  refine carries_step (keeps_records.withMakes (keeps_records.saveStep hj (by decide) (by decide))
    hj' hverifying) installs_one h₉ fun _ x₁₀ _ h₁₀ => ?_
  refine carries_step (P := fun _ => True) (keeps_records.query (c := .readBundle j.id) trivial)
    installs_one h₁₀ fun bundle x₁₁ _ h₁₁ => ?_
  cases bundle with
  | none => exact ⟨hj', h₁₁.kept⟩
  | some bundle =>
    refine carries_step (keeps_records.withJob (verifyBundle_signed bundle hpolicy hentry).bears hj'
      hverifying) installs_one h₁₁ fun image x₁₂ himage h₁₂ => ?_
    have hj'' : Job.Backed O g { j.step .verifying with image := some image } := by
      intro found size hfound _
      obtain rfl := Option.some.inj hfound
      exact himage
    have hverifying' : Job.Unarmed { j.step .verifying with image := some image } := ⟨nofun, nofun⟩
    refine carries_step (keeps_records.withMakes (keeps_records.cancelled _) hj'' hverifying')
      installs_one h₁₂ fun stop x₁₃ _ h₁₃ => ?_
    refine carries_step (keeps_records.raises hj'' hverifying') installs_one h₁₃ fun _ x₁₄ _ h₁₄ => ?_
    exact installBundle_mains hj'' hverifying' h₁₄

/-- A record that no restart begins from is taken up by an install. -/
theorem holdingLease_installs (hjob : job.Backed O g) (hstate : job.Unarmed)
    (hx : Able O g False True x) :
    Mains O g (holdingLease O job) (fun _ _ => True) (fun _ _ => True) x := by
  refine able_bind (keeps_records.makes (keeps_records.setGuard _ _)) installs_one hx
    (fun _ _ _ _ => trivial) fun _ x₁ _ h₁ => ?_
  split
  · exact reconcileInstall_mains hjob hstate h₁.kept
  · rename_i hrestarting
    exact (hstate.restarting hrestarting).elim
  · refine able_bind (keeps_records.makes (keeps_records.looks platform_makes)) installs_one h₁
      (fun _ _ _ _ => trivial) fun plat x₂ _ h₂ => ?_
    refine Safe.tryCatch ((workOn_mains plat hjob hstate h₂).mono (fun _ _ h => h) fun e y hy => ?_)
    exact (mains_of_bears (keeps_records.workFailed e hy.1) hy.2).mono (fun _ _ h => h) fun _ _ h => h

theorem holdingLease_restarts (hjob : job.Backed O g) (hstate : job.state = .restarting)
    (hx : Able O g True False x) :
    Mains O g (holdingLease O job) (fun _ _ => True) (fun _ _ => True) x := by
  refine able_bind (keeps_records.makes (keeps_records.setGuard _ _)) arms_one hx
    (fun _ _ _ _ => trivial) fun _ x₁ _ h₁ => ?_
  rw [hstate]
  exact activate_mains hjob h₁

theorem takeUp_mains (hjob : job.Backed O g) (hone : ¬ (arms ∧ installs))
    (hx : Able O g arms installs x)
    (hhold : ∀ y, Able O g arms installs y →
      Mains O g (holdingLease O job) (fun _ _ => True) (fun _ _ => True) y) :
    Mains O g (takeUp O job) (fun _ _ => True) (fun _ _ => True) x := by
  refine able_bind (keeps_records.makes keeps_records.stopRequested) hone hx (fun _ _ _ _ => trivial)
    fun stop x₁ _ h₁ => ?_
  split_ifs
  · exact able_makes (.bind (keeps_records.finish hjob (by decide) (by decide)) fun _ => trivial)
      hone h₁
  · refine able_bind (keeps_records.ask (c := .patience) trivial) hone h₁ (fun _ _ _ _ => trivial)
      fun fuel x₂ _ h₂ => ?_
    refine able_bind (keeps_records.makes (keeps_records.takeLease fuel)) hone h₂
      (fun _ _ _ _ => trivial) fun refusal x₃ _ h₃ => ?_
    cases refusal with
    | some msg =>
      exact able_makes (.bind (keeps_records.finish hjob (by decide) (by decide)) fun _ => trivial)
        hone h₃
    | none =>
      have hrelease : ∀ t, Kept O g t →
          Mains O g (ask .release) (fun _ _ => True) (fun _ _ => True) t := fun t ht =>
        able_makes (makes_ask trivial fun _ => trivial) neither_one (able_any ht)
      refine Safe.ensure ((hhold x₃ h₃).mono (fun _ t ht => ?_) fun _ t ht => ?_)
      · exact (hrelease t ht.2).mono (fun _ _ h => h) fun _ _ h => h
      · exact (hrelease t ht.2).mono (fun _ _ h => h) fun _ _ h => h

theorem runWorker_mains (hx : Kept O g x) :
    Mains O g (runWorker O) (fun _ _ => True) (fun _ _ => True) x := by
  refine mains_bind (journal_mains hx) fun found x₁ hfound h₁ => ?_
  cases found with
  | none => exact ⟨trivial, h₁⟩
  | some job =>
    have hread := hfound job rfl
    dsimp only
    split_ifs with hwork
    · by_cases hstate : job.Unarmed
      · exact takeUp_mains hread.backed installs_one (hread.unarmed hstate)
          fun y hy => holdingLease_installs hread.backed hstate hy
      · have hrestarting : job.state = .restarting := by
          by_contra hne
          refine hstate ⟨fun hready => ?_, hne⟩
          rw [hready] at hwork
          cases hwork
        exact takeUp_mains hread.backed arms_one (hread.armed hstate)
          fun y hy => holdingLease_restarts hread.backed hrestarting hy
    · exact ⟨trivial, h₁⟩

/-! ### Restart and every boot -/

theorem restart_mains (hx : Kept O g x) (id : JobId) :
    Mains O g (restart id) (fun _ _ => True) (fun _ _ => True) x := by
  refine mains_bind (journal_mains hx) fun found x₁ hfound h₁ => ?_
  cases found with
  | none => exact ⟨trivial, h₁⟩
  | some job =>
    have hread := hfound job rfl
    by_cases hready : job.state = .ready
    · refine able_makes ?_ arms_one (hread.armed fun hu => hu.ready hready)
      exact .bind (makes_raiseIf _) fun _ => .bind (workerActive_makes trivial) fun _ =>
        .bind (makes_raiseIf _) fun _ =>
        .bind (save_makes (keeps_anytime _ (hread.backed.stage ⟨_, _, _, _, _, rfl⟩))) fun _ =>
        startWorker_makes trivial
    · refine Safe.bind (safe_raiseIf.mpr ⟨fun _ => ⟨trivial, h₁⟩, fun h => ?_⟩)
      exact (h (Or.inr hready)).elim

/-- What reconcile_boot has read allows it what it may do about the job. -/
structure BootRead (O : Oracles) (g : Origin) (arms : Prop) (found : Option Job) (y : Machine) :
    Prop where
  able : Able O g arms False y
  backed : ∀ job, found = some job → job.Backed O g ∧ (arms ∨ job.Unarmed)

theorem journal_boot (hx : Kept O g x) :
    Mains O g journal (fun found y => ∃ arms, BootRead O g arms found y) (fun _ _ => True) x := by
  refine (journal_mains hx).mono (fun found y hy => ⟨?_, hy.2⟩) fun _ _ h => h
  cases found with
  | none => exact ⟨False, able_any hy.2, fun job hjob => by cases hjob⟩
  | some job =>
    have hread := hy.1 job rfl
    by_cases hstate : job.Unarmed
    · refine ⟨False, able_any hy.2, fun j hj => ?_⟩
      obtain rfl := Option.some.inj hj
      exact ⟨hread.backed, Or.inr hstate⟩
    · refine ⟨True, hread.armed hstate, fun j hj => ?_⟩
      obtain rfl := Option.some.inj hj
      exact ⟨hread.backed, Or.inl trivial⟩

theorem readBoot_mains (hx : Kept O g x) :
    Mains O g readBoot (fun r y => ∃ arms, BootRead O g arms r.2.1 y) (fun _ _ => True) x := by
  refine Safe.tryCatch (Safe.mono (E := fun _ y => True ∧ Kept O g y) ?_ (fun _ _ h => h)
    fun e y hy => ?_)
  · refine able_bind (keeps_records.makes (keeps_records.looks readEnv_makes)) (fun h => h.1)
      (able_any hx) (fun _ _ _ _ => trivial) fun env x₁ _ h₁ => ?_
    refine mains_bind (journal_boot h₁.kept) ?_
    rintro found x₂ ⟨arms, hread⟩ -
    exact able_bind (keeps_records.makes keeps_records.bootedSlot) (fun h => h.2) hread.able
      (fun _ _ _ _ => trivial) fun slot x₃ _ h₃ => ⟨⟨arms, h₃, hread.backed⟩, h₃.kept⟩
  · refine mains_bind (able_makes (keeps_records.setGuard _ _).when neither_one (able_any hy.2))
      fun _ t _ ht => ?_
    exact ⟨trivial, ht⟩

theorem reconcileBoot_mains (hx : Kept O g x) :
    Mains O g reconcileBoot (fun _ _ => True) (fun _ _ => True) x := by
  refine mains_bind (readBoot_mains hx) ?_
  rintro ⟨env, found, slot⟩ x₁ ⟨arms, hread⟩ -
  have hone : ¬ (arms ∧ False) := fun h => h.2
  have hcarries : (carriesOn found).Makes (F := Host) (HostCall.keeps O g arms False) := by
    cases found with
    | none => trivial
    | some job =>
      unfold carriesOn
      dsimp only
      split_ifs
      · exact workerActive_makes trivial
      · trivial
  refine able_bind (keeps_records.makes hcarries) hone hread.able (fun _ _ _ _ => trivial)
    fun carries x₂ _ h₂ => ?_
  split_ifs
  · exact ⟨trivial, h₂.kept⟩
  · have hrest : ∀ {p : OsProg (Option JobState)}, Bears O g arms False p (fun _ => True) →
        Mains O g p (fun _ _ => True) (fun _ _ => True) x₂ := fun hp =>
      (mains_of_local hp hone h₂).mono (fun _ _ h => ⟨trivial, h.2⟩) fun _ _ h => ⟨trivial, h.2⟩
    split
    · exact hrest (reconcileSettled_bears hread.backed)
    · exact hrest (reconcilePending_bears hread.backed)

end Main

/-! ### All together -/

/-- What the box starts, and beside what. -/
inductive Starts (O : Oracles) (x : Machine) (ps : List (Party Host Role)) :
    Party Host Role → Prop
  | request (r : Request) (h : ∀ id, r ≠ .restart id) : Starts O x ps ⟨.side, r.prog O⟩
  | supervise (coordinatorExists : Bool) :
    Starts O x ps ⟨.side, superviseConfirm coordinatorExists⟩
  | confirm (id : JobId) : Starts O x ps ⟨.side, confirmMain id 3⟩
  | restart (id : JobId) (alone : ∀ q ∈ ps, q.role = .side) : Starts O x ps ⟨.main, restart id⟩
  | worker (alone : ∀ q ∈ ps, q.role = .side) : Starts O x ps ⟨.main, runWorker O⟩
  | reconcileBoot (alone : ∀ q ∈ ps, q.role = .side) : Starts O x ps ⟨.main, reconcileBoot⟩

/-- One move of the box: RAUC, one call of one program, a start, a cut, or a boot. -/
abbrev SlotsStep (O : Oracles) (g : Origin) :
    Machine × List (Party Host Role) → Machine × List (Party Host Role) → Prop :=
  PartiesStep (RaucOutcome O) (fun x y => RaucStep x y ∨ Elsewhere x y) (Starts O) (Restarts g)

theorem side_compatible (r : Role) : (slotsContract O g).Compatible .side r := by
  cases r with
  | main => exact ⟨fun _ _ _ hguar _ => hguar, fun _ _ _ hguar _ => hguar⟩
  | side => exact ⟨fun _ _ _ hguar _ => hguar.1, fun _ _ _ hguar _ => hguar.1⟩

theorem compatible_symm {r r' : Role} (h : (slotsContract O g).Compatible r r') :
    (slotsContract O g).Compatible r' r := ⟨h.2, h.1⟩

theorem Starts.keeps {ps : List (Party Host Role)} {p : Party Host Role} (hx : Kept O g x)
    (h : Starts O x ps p) : (slotsContract O g).Keeps (RaucOutcome O) p x ∧
      ∀ q ∈ ps, (slotsContract O g).Compatible p.role q.role := by
  have hmain : (∀ q ∈ ps, q.role = .side) →
      ∀ q ∈ ps, (slotsContract O g).Compatible .main q.role := fun alone q hq =>
    alone q hq ▸ compatible_symm (side_compatible _)
  cases h with
  | request r hr =>
    refine ⟨side_keeps (keeps_records.request r fun id hid => (hr id hid).elim) hx, fun q _ => ?_⟩
    exact side_compatible _
  | supervise b => exact ⟨side_keeps (superviseConfirm_bears b) hx, fun q _ => side_compatible _⟩
  | confirm id => exact ⟨side_keeps (confirmMain_bears id 3) hx, fun q _ => side_compatible _⟩
  | restart id alone => exact ⟨main_keeps (restart_mains hx id), hmain alone⟩
  | worker alone => exact ⟨main_keeps (runWorker_mains hx), hmain alone⟩
  | reconcileBoot alone => exact ⟨main_keeps (reconcileBoot_mains hx), hmain alone⟩

theorem slots_compose : (slotsContract O g).Composes (RaucOutcome O)
    (fun x y => RaucStep x y ∨ Elsewhere x y) (Starts O) (Restarts g) where
  refl r s := by
    cases r with
    | main => exact fun h => ⟨h, .refl s⟩
    | side => exact fun h => h
  trans r s t u hst htu := by
    cases r with
    | main =>
      intro h
      obtain ⟨ht, hsteady⟩ := hst h
      obtain ⟨hu, hsteady'⟩ := htu ht
      exact ⟨hu, hsteady.trans hsteady'⟩
    | side => exact fun h => htu (hst h)
  stable r s t hst h := by
    cases r with
    | main => exact (hst h).1
    | side => exact hst h
  own {s s'} h hown := by
    have hkept : Kept O g s' ∧ Steady s s' := hown.elim (·.kept h) (·.kept h)
    refine ⟨hkept.1, fun r => ?_⟩
    cases r with
    | main => exact fun _ => hkept
    | side => exact fun _ => hkept.1
  starts h hstart := hstart.keeps h
  resets h hreset := hreset.kept h

/-- A card as it was written: its slots hold the images that came with it. -/
structure Deployed (g : Origin) (x : Machine) : Prop where
  root : x.1.rootPem = g.rootOf (x.1.slots x.1.booted).content
  factory : ∀ s, s = x.1.booted ∨ x.1.env.left s ≠ 0 → (x.1.slots s).content = g.factory s
  journal : x.1.journal = none
  installer : x.2 = { asked := [], marked := false }

theorem Deployed.kept (h : Deployed g x) : Kept O g x := by
  have htrusted : ∀ s, s = x.1.booted ∨ x.1.env.left s ≠ 0 →
      Trusted O g (x.1.slots s).content := fun s hs => h.factory s hs ▸ .factory s
  have hjournal : ∀ job, x.1.journal ≠ some job := fun job hjob => by
    rw [h.journal] at hjob
    cases hjob
  refine ⟨h.root, htrusted _ (Or.inl rfl), fun s hs => htrusted s (Or.inr hs), fun _ hmarked => ?_,
    fun job hjob => (hjournal job hjob).elim, fun job hjob => (hjournal job hjob).elim⟩
  rw [h.installer] at hmarked
  cases hmarked

/-- Whatever runs beside what and wherever it is cut, the loader starts a slot only while its
content came with the card or was verified whole under the root key of a trusted image, and never
the slot RAUC is writing. -/
theorem loader_starts_trusted {x₀ : Machine} {ps : List (Party Host Role)} {s : Slot} {env' : Env}
    (hcard : Deployed g x₀) (hrun : Relation.ReflTransGen (SlotsStep O g) (x₀, []) (x, ps))
    (hboot : bootSlot x.1.env = some (s, env')) :
    Trusted O g (x.1.slots s).content ∧
      (x.1.rauc.operation = .installing → x.2.marked = true → s ≠ x.1.spare) := by
  have hkept : Kept O g x := slots_compose.run (C := slotsContract O g) hcard.kept hrun
  have hleft : x.1.env.left s ≠ 0 := Env.select_left (bootSlot_eq_some.mp hboot).2.1
  refine ⟨hkept.bootable s hleft, fun hruns hmarked hspare => hleft ?_⟩
  rw [hspare]
  exact hkept.writing hruns hmarked

/-! ### An update, to the first start of the new slot -/

/-- The working host, with a RAUC that installs an image at once. -/
def raucServe (O : Oracles) (image : Bytes) (x : Machine) : (c : HostCall) → Ans c × Machine
  | .raucInstall id =>
    if x.2.asked = [] ∧ x.1.rauc.operation = .idle then
      (true, { (x.1.effect (.raucInstall id)).setSlot x.1.spare fun s => { s with content := image } with
        env := x.1.env.setLeft x.1.spare 0
        rauc := { x.1.rauc with operation := .idle, lastError := "" } }, { asked := [], marked := false })
    else (false, x)
  | .raucOperation =>
    (if x.2.asked = [] then .answered (some x.1.rauc.operation) else .noAnswer, x)
  | .raucWait =>
    (x.2.asked.isEmpty && x.1.rauc.operation == .idle, x.1.effect .raucWait, x.2)
  | c => (answer O x.1 c, x.1.effect c, x.2)

theorem raucServe_follows (O : Oracles) (image : Bytes) (x : Machine) (c : HostCall) :
    ∃ x₁, RaucOutcome O x c (raucServe O image x c).1 x₁ ∧
      Relation.ReflTransGen (fun x y => RaucStep x y ∨ Elsewhere x y) x₁
        (raucServe O image x c).2 := by
  have hserve : ∀ c, ¬ c.settled (answer O x.1 c) →
      RaucOutcome O x c (answer O x.1 c) (x.1.effect c, x.2) := fun c hc =>
    ⟨serve_follows O x.1 c, Or.inl rfl, fun h => (hc h).elim⟩
  cases c with
  | raucInstall id =>
    obtain ⟨w, asked, marked⟩ := x
    by_cases hidle : asked = [] ∧ w.rauc.operation = .idle
    · obtain ⟨rfl, hoperation⟩ := hidle
      refine ⟨(w.effect (.raucInstall id), { asked := [id], marked }), ?_, ?_⟩
      · exact ⟨⟨trivial, Or.inl rfl⟩, Or.inr ⟨id, rfl, rfl⟩, fun h => h.elim⟩
      · have hserved : raucServe O image (w, { asked := [], marked }) (.raucInstall id) =
            (true, { (w.effect (.raucInstall id)).setSlot w.spare
              fun s => { s with content := image } with
              env := w.env.setLeft w.spare 0
              rauc := { w.rauc with operation := .idle, lastError := "" } },
              { asked := [], marked := false }) := if_pos ⟨rfl, hoperation⟩
        rw [hserved]
        refine .head (.inl (.takes rfl hoperation)) (.head (.inl (.marks rfl)) (.head (.inl
          (.writes rfl rfl { (w.slots w.spare) with content := image }))
          (.single (.inl (.ends "")))))
    · have hserved : raucServe O image (w, { asked, marked }) (.raucInstall id) =
          (false, w, { asked, marked }) := if_neg hidle
      rw [hserved]
      exact ⟨_, ⟨⟨trivial, Or.inr ⟨rfl, nofun⟩⟩, Or.inl rfl, fun h => h.elim⟩, .refl⟩
  | raucOperation =>
    by_cases hasked : x.2.asked = []
    · have hserved : raucServe O image x .raucOperation =
          (.answered (some x.1.rauc.operation), x) := by rw [raucServe, if_pos hasked]
      rw [hserved]
      refine ⟨x, ⟨⟨fun out hout => ?_, Or.inl rfl⟩, Or.inl rfl, fun _ => hasked⟩, .refl⟩
      exact (Reply.answered.inj hout).symm
    · have hserved : raucServe O image x .raucOperation = (.noAnswer, x) := by
        rw [raucServe, if_neg hasked]
      rw [hserved]
      exact ⟨x, ⟨⟨nofun, Or.inl rfl⟩, Or.inl rfl, fun ⟨_, h⟩ => by cases h⟩, .refl⟩
  | raucWait =>
    have hdone : (raucServe O image x .raucWait).1 = true →
        x.2.asked = [] ∧ x.1.rauc.operation = .idle := by
      simp [raucServe]
    exact ⟨(x.1.effect .raucWait, x.2), ⟨⟨fun h => (hdone h).2, Or.inl rfl⟩, Or.inl rfl,
      fun h => (hdone h).1⟩, .refl⟩
  | _ => exact ⟨_, hserve _ fun h => h, .refl⟩

def sampleOrigin : Origin := { factory := fun _ => [0, 0, 0, 0], rootOf := fun _ => offeredWorld.rootPem }

def newImage : Bytes := [1, 2, 3, 4]

/-- A seeded box that has found the release, and RAUC with nothing to do. -/
def offeredMachine : Machine := (offeredWorld, { asked := [], marked := false })

def updatedMachine : Machine :=
  let serve := raucServe releaseOracles newImage
  let admitted := ((Request.install (.int 12) (.str sampleDigest) (.str "request-1")).prog
    releaseOracles).run serve offeredMachine
  let ready := (runWorker releaseOracles).run serve admitted.2
  let restarting := (restart sampleId).run serve ready.2
  ((runWorker releaseOracles).run serve restarting.2).2

theorem updated_reached : Relation.ReflTransGen (SlotsStep releaseOracles sampleOrigin)
    (offeredMachine, []) (updatedMachine, []) := by
  have hrun : ∀ {γ : Type} {role : Role} (p : OsProg γ) (x : Machine),
      Starts releaseOracles x [] ⟨role, p⟩ →
      Relation.ReflTransGen (SlotsStep releaseOracles sampleOrigin) (x, [])
        ((p.run (raucServe releaseOracles newImage) x).2, []) := fun p x hstart =>
    parties_run (raucServe_follows releaseOracles newImage) hstart
  refine (hrun _ _ (.request (.install (.int 12) (.str sampleDigest) (.str "request-1")) nofun)).trans ?_
  refine (hrun _ _ (.worker nofun)).trans ?_
  exact (hrun _ _ (.restart sampleId nofun)).trans (hrun _ _ (.worker nofun))

theorem updated_boots : (bootSlot updatedMachine.1.env).map Prod.fst = some .b ∧
    (updatedMachine.1.slots .b).content = newImage := by decide +kernel

theorem offered_deployed : Deployed sampleOrigin offeredMachine :=
  ⟨rfl, fun _ _ => rfl, rfl, rfl⟩

/-- The image RAUC has written is the one that starts. -/
theorem loader_starts_trusted_sample : ∃ env', bootSlot updatedMachine.1.env = some (.b, env') ∧
    Trusted releaseOracles sampleOrigin newImage := by
  obtain ⟨hboot, hcontent⟩ := updated_boots
  obtain ⟨⟨s, env'⟩, hboot, hs⟩ := Option.map_eq_some_iff.mp hboot
  obtain rfl : s = .b := hs
  exact ⟨env', hboot, hcontent ▸ (loader_starts_trusted offered_deployed updated_reached hboot).1⟩

end Epilykos.OsUpdate
