import Epilykos.OsUpdate.Rules

/-!
What an activation can do. Up to the intent batch it only looks; after it, it marks the
target and goes, or it retreats. Each part is described by what its calls keep and by what
holds when it returns.
-/

namespace Epilykos.OsUpdate

open Program World

variable {O : Oracles} {w w' : World} {job : Job} {target : Slot}

/-! ### Looking -/

/-- Calls that only look, and the mark of history that they succeeded. -/
def HostCall.looks (c : HostCall) : Prop := c.reads = true ∨ ∃ id s, c = .verified id s

theorem looks_of_reads {c : HostCall} (h : c.reads = true) : c.looks := Or.inl h

theorem openssl_makes (q : Openssl) : (openssl q).Makes (F := Host) HostCall.looks := by
  refine .bind ⟨Or.inl rfl, fun _ => trivial⟩ fun b => ?_
  split_ifs <;> trivial

theorem readEnv_makes : readEnv.Makes (F := Host) HostCall.looks := by
  refine .bind ⟨Or.inl rfl, fun _ => trivial⟩ fun x => ?_
  cases x <;> trivial

theorem rethrow_makes {α : Type} {K : HostCall → Prop} {caught : Err → Bool} {other : Err}
    {p : OsProg α} (hp : p.Makes (F := Host) K) :
    (rethrow caught other p).Makes (F := Host) K := hp.tryCatch fun _ => trivial

theorem ed25519Verify_makes (pem data sig : Bytes) :
    (ed25519Verify pem data sig).Makes (F := Host) HostCall.looks :=
  .bind (makes_raiseIf _) fun _ => .bind (openssl_makes _) fun _ => openssl_makes _

theorem checkCas_makes (cas : List String) : (checkCas cas).Makes (F := Host) HostCall.looks := by
  induction cas with
  | nil => trivial
  | cons ca cas ih => exact .bind (makes_raiseIf _) fun _ => .bind (openssl_makes _) fun _ => ih

theorem verifyPolicy_makes (raw sig root : Bytes) (board channel : String)
    (current : Option Current) :
    (verifyPolicy O raw sig root board channel current).Makes (F := Host) HostCall.looks := by
  refine .bind (makes_ofExcept _) fun value => ?_
  split
  · refine .bind (makes_raiseIf _) fun _ => .bind (makes_raiseIf _) fun _ =>
      .bind (makes_ofExcept _) fun _ => .bind (makes_raiseIf _) fun _ =>
      .bind (makes_raiseIf _) fun _ => .bind (openssl_makes _) fun _ =>
      .bind (openssl_makes _) fun _ => .bind (makes_ofExcept _) fun _ =>
      .bind (makes_ofExcept _) fun _ => .bind (checkCas_makes _) fun _ =>
      .bind (makes_ofExcept _) fun _ => .bind (makes_raiseIf _) fun _ => trivial
  · trivial

theorem verifyOsRelease_makes (raw sig : Bytes) (plat : Platform) (policy : Policy) :
    (verifyOsRelease O raw sig plat policy).Makes (F := Host) HostCall.looks :=
  rethrow_makes (.bind (makes_ofExcept _) fun _ =>
    .bind (rethrow_makes (ed25519Verify_makes _ _ _)) fun _ => trivial)

theorem readRoot_makes : readRoot.Makes (F := Host) HostCall.looks := by
  refine .bind ⟨Or.inl rfl, fun _ => trivial⟩ fun x => ?_
  cases x <;> trivial

theorem currentState_makes (plat : Platform) :
    (currentState O plat).Makes (F := Host) HostCall.looks :=
  .bind readEnv_makes fun _ => rethrow_makes (.bind readRoot_makes fun _ =>
    .bind (verifyPolicy_makes _ _ _ _ _ _) fun _ => .bind (makes_raiseIf _) fun _ => trivial)

theorem need_makes {α : Type} {K : HostCall → Prop} (x : Option α) :
    (need x).Makes (F := Host) K := by
  cases x <;> trivial

theorem platform_makes : platform.Makes (F := Host) HostCall.looks := by
  refine .bind ⟨Or.inl rfl, fun _ => trivial⟩ fun x => ?_
  cases x <;> trivial

theorem appBlockers_makes : appBlockers.Makes (F := Host) HostCall.looks := by
  refine .bind ⟨Or.inl rfl, fun _ => trivial⟩ fun x => ?_
  split <;> trivial

theorem storageAdmit_makes (n : ℕ) : (storageAdmit n).Makes (F := Host) HostCall.looks := by
  refine .bind ⟨Or.inl rfl, fun _ => trivial⟩ fun x => ?_
  cases x <;> trivial

theorem verifyTarget_makes (job : Job) : (verifyTarget job).Makes (F := Host) HostCall.looks := by
  refine .bind readEnv_makes fun env => .bind (makes_raiseIf _) fun _ =>
    .bind (need_makes _) fun image => .bind (need_makes _) fun size =>
    .bind (need_makes _) fun target => .bind ⟨Or.inl rfl, fun _ => trivial⟩ fun x => ?_
  cases x with
  | unreadable => trivial
  | short => trivial
  | digest d => exact .bind (makes_raiseIf _) fun _ => ⟨Or.inr ⟨_, _, rfl⟩, fun _ => trivial⟩

theorem revalidate_makes (job : Job) : (revalidate O job).Makes (F := Host) HostCall.looks :=
  .bind platform_makes fun _ => .bind (need_makes _) fun _ => .bind (currentState_makes _) fun _ =>
    .bind (need_makes _) fun _ => .bind (verifyOsRelease_makes _ _ _ _) fun _ =>
    .bind (makes_raiseIf _) fun _ => .bind appBlockers_makes fun _ => .bind (makes_raiseIf _) fun _ =>
    .bind (storageAdmit_makes _) fun _ => verifyTarget_makes _

/-- Nothing but history's notes on the slots differs. -/
def OnlyHistory (w w' : World) : Prop := ∃ slots, w' = { w with slots }

theorem OnlyHistory.refl (w : World) : OnlyHistory w w := ⟨w.slots, rfl⟩

theorem OnlyHistory.trans {w₁ w₂ w₃ : World} (h : OnlyHistory w₁ w₂) (h' : OnlyHistory w₂ w₃) :
    OnlyHistory w₁ w₃ := by
  obtain ⟨_, rfl⟩ := h
  obtain ⟨s, rfl⟩ := h'
  exact ⟨s, rfl⟩

theorem OnlyHistory.env (h : OnlyHistory w w') : w'.env = w.env := by
  obtain ⟨_, rfl⟩ := h
  rfl

theorem HostCall.looks.outcome {c : HostCall} {x : Ans c} (hc : c.looks)
    (h : Outcome O w c x w') : OnlyHistory w w' := by
  rcases hc with hc | ⟨id, s, rfl⟩
  · rw [h.reads hc]
    exact .refl w
  · rcases h.2 with rfl | h
    · exact ⟨_, rfl⟩
    · rw [h.1]
      exact .refl w

section Facts

variable {α : Type} {allowed : World → HostCall → Prop}

/-- A program that only looks leaves everything as it is. -/
theorem looks_alone {p : OsProg α} (hp : p.Makes (F := Host) HostCall.looks)
    (hw : ∀ w' c, OnlyHistory w w' → allowed w' c) :
    Alone O allowed p (fun _ => OnlyHistory w) (fun _ => OnlyHistory w) w := by
  refine hp.safe (I := OnlyHistory w) ?_ ?_ (.refl w)
  · rintro t _ rfl ht
    exact ht
  · intro t c hc ht
    exact ⟨hw t c ht, fun x t' ho => ht.trans (hc.outcome ho)⟩

/-- The same, with what is known of the result whatever the answers were. -/
theorem looks_gives_alone {P : α → Prop} {p : OsProg α}
    (hp : p.Makes (F := Host) HostCall.looks) (hgives : p.Gives P)
    (hw : ∀ w' c, OnlyHistory w w' → allowed w' c) :
    Alone O allowed p (fun a w' => P a ∧ OnlyHistory w w') (fun _ => OnlyHistory w) w := by
  refine hp.safe_gives (I := OnlyHistory w) hgives ?_ ?_ (.refl w)
  · rintro t _ rfl ht
    exact ht
  · intro t c hc ht
    exact ⟨hw t c ht, fun x t' ho => ht.trans (hc.outcome ho)⟩

/-- The floor of the verified state is the one in the environment. -/
theorem currentState_alone (plat : Platform) (hw : ∀ w' c, OnlyHistory w w' → allowed w' c) :
    Alone O allowed (currentState O plat)
      (fun state w' => state.floor = w.env.osFloor ∧ OnlyHistory w w')
      (fun _ => OnlyHistory w) w := by
  refine Safe.bind (readEnv_alone (hw _ _ (.refl w)) (fun _ => .refl w) ?_)
  refine looks_gives_alone ?_ ?_ hw
  · refine rethrow_makes (.bind readRoot_makes fun _ => .bind (verifyPolicy_makes _ _ _ _ _ _)
      fun _ => .bind (makes_raiseIf _) fun _ => trivial)
  · refine Prog.Gives.tryCatch ?_ fun _ => trivial
    exact (gives_true _).bind fun _ _ => (gives_true _).bind fun _ _ =>
      (gives_true _).bind fun _ _ => rfl

theorem verifyOsRelease_gives (raw sig : Bytes) (plat : Platform) (policy : Policy) :
    (verifyOsRelease O raw sig plat policy).Gives
      fun entry => ∃ key, readEntry O raw plat policy = .ok (entry, key) := by
  refine Prog.Gives.tryCatch ?_ fun _ => trivial
  refine (gives_ofExcept (P := fun r => readEntry O raw plat policy = .ok r) fun _ h => h).bind ?_
  rintro ⟨entry, key⟩ h
  exact (gives_true _).bind fun _ _ => ⟨key, h⟩

theorem admissible_gives (entry : Entry) (plat : Platform) (floor : ℕ) :
    (admissible entry plat floor).Gives
      fun _ => floor < entry.sequence ∧ plat.osSequence < entry.sequence := by
  unfold admissible Prog.raiseIf
  split_ifs with h
  · trivial
  · show floor < entry.sequence ∧ plat.osSequence < entry.sequence
    omega

/-- The job's own entry, whenever its files read as one, is newer than the floor. -/
def Newer (O : Oracles) (job : Job) (floor : ℕ) : Prop :=
  ∃ files plat policy entry key, job.files = some files ∧
    readEntry O files.entry plat policy = .ok (entry, key) ∧ floor < entry.sequence

/-- verify_target returned. -/
theorem verifyTarget_alone (hw : ∀ w' c, OnlyHistory w w' → allowed w' c) :
    Alone O allowed (verifyTarget job)
      (fun _ w' => nonBootable w.env job.target job.source = true ∧ OnlyHistory w w')
      (fun _ => OnlyHistory w) w := by
  refine Safe.bind (readEnv_alone (hw _ _ (.refl w)) (fun _ => .refl w) ?_)
  refine Safe.bind (safe_raiseIf.mpr ⟨fun _ => .refl w, fun hboot => ?_⟩)
  have hboot' : nonBootable w.env job.target job.source = true := by simpa using hboot
  refine (looks_alone ?_ hw).mono (fun _ _ h => ⟨hboot', h⟩) fun _ _ h => h
  refine .bind (need_makes _) fun image => .bind (need_makes _) fun size =>
    .bind (need_makes _) fun target => .bind ⟨Or.inl rfl, fun _ => trivial⟩ fun x => ?_
  cases x with
  | unreadable => trivial
  | short => trivial
  | digest d => exact .bind (makes_raiseIf _) fun _ => ⟨Or.inr ⟨_, _, rfl⟩, fun _ => trivial⟩

/-- What an activation may count on once it is revalidated. -/
theorem revalidate_alone (hw : ∀ w' c, OnlyHistory w w' → allowed w' c) :
    Alone O allowed (revalidate O job)
      (fun _ w' => Newer O job w.env.osFloor ∧ nonBootable w.env job.target job.source = true ∧
        OnlyHistory w w')
      (fun _ => OnlyHistory w) w := by
  have hon : ∀ {w₁}, OnlyHistory w w₁ → ∀ w' c, OnlyHistory w₁ w' → allowed w' c :=
    fun h w' c h' => hw w' c (h.trans h')
  have hback : ∀ {w₁}, OnlyHistory w w₁ → ∀ (_ : Err) w', OnlyHistory w₁ w' → OnlyHistory w w' :=
    fun h _ _ h' => h.trans h'
  refine Safe.bind ((looks_alone platform_makes hw).mono (fun plat? w₁ h₁ => ?_) fun _ _ h => h)
  refine Safe.bind (need_alone (fun _ => h₁) fun plat _ => ?_)
  refine Safe.bind ((currentState_alone plat (hon h₁)).mono ?_ (hback h₁))
  rintro state w₂ ⟨hfloor, h₂⟩
  rw [h₁.env] at hfloor
  have h₂ := h₁.trans h₂
  refine Safe.bind (need_alone (fun _ => h₂) fun files hfiles => ?_)
  refine Safe.bind ((looks_gives_alone (verifyOsRelease_makes _ _ _ _)
    (verifyOsRelease_gives _ _ _ _) (hon h₂)).mono ?_ (hback h₂))
  rintro entry w₃ ⟨⟨key, hentry⟩, h₃⟩
  have h₃ := h₂.trans h₃
  refine Safe.bind ((looks_gives_alone (makes_raiseIf _) (admissible_gives _ _ _) (hon h₃)).mono ?_
    (hback h₃))
  rintro _ w₄ ⟨⟨hnew, _⟩, h₄⟩
  have h₄ := h₃.trans h₄
  have hnewer : Newer O job w.env.osFloor := ⟨files, plat, _, entry, key, hfiles, hentry, hfloor ▸ hnew⟩
  refine Safe.bind ((looks_alone appBlockers_makes (hon h₄)).mono (fun blockers w₅ h₅ => ?_) (hback h₄))
  have h₅ := h₄.trans h₅
  refine Safe.bind (safe_raiseIf.mpr ⟨fun _ => h₅, fun _ => ?_⟩)
  refine Safe.bind ((looks_alone (storageAdmit_makes _) (hon h₅)).mono (fun _ w₆ h₆ => ?_) (hback h₅))
  have h₆ := h₅.trans h₆
  refine (verifyTarget_alone (hon h₆)).mono ?_ (hback h₆)
  rintro _ w₇ ⟨hboot, h₇⟩
  rw [h₆.env] at hboot
  exact ⟨hnewer, hboot, h₆.trans h₇⟩

end Facts

/-! ### A box whose job can be activated -/

def signedPolicy : Json :=
  .obj [("schema", .int 1), ("board", .str "raspberrypi3"), ("channel", .str "dev"),
    ("trust_epoch", .int 1),
    ("index_keys", .arr [.obj [("key_id", .str "k"),
      ("public_key", .str (String.ofList (List.replicate 43 'A' ++ ['='])))]]),
    ("rauc_cas", .arr [.str "-----BEGIN CERTIFICATE-----\nA\n-----END CERTIFICATE-----\n"]),
    ("rauc_leaf_spki_sha256", .arr [.str sampleDigest])]

def signedEntry : Json :=
  .obj [("schema", .int 1), ("board", .str "raspberrypi3"), ("channel", .str "dev"),
    ("sequence", .int 12), ("trust_epoch", .int 1), ("index_key_id", .str "k"),
    ("version", .str "2.9.0"), ("boot_protocol", .int 2), ("min_host_api", .int 1),
    ("bundle", .obj [("url", .str "https://os"), ("size", .int 64), ("sha256", .str sampleDigest)]),
    ("notes_url", .str "https://os")]

/-- Everything verifies; `[1]` reads as the policy, `[2]` as the entry. -/
def signedOracles : Oracles :=
  { sampleOracles with
    loads := fun raw => if raw = [1] then some signedPolicy else
      if raw = [2] then some signedEntry else none
    canonical := fun
      | .obj fields => if (fields.lookup "sequence").isSome then [2] else [1]
      | _ => [] }

def signedJob (state : JobState) : Job :=
  { sampleJob state with
    files := some { entry := [2], entrySig := List.replicate 64 0, policy := [1],
                    policySig := List.replicate 64 0 } }

/-- Slot A runs and is confirmed, and the job for slot B was asked to restart. -/
def signedWorld : World :=
  { sampleWorld { sampleEnv with trustPolicy := [1], trustPolicySig := List.replicate 64 0 } .a with
    journal := some (signedJob .restarting)
    platforms := fun _ =>
      some { board := "raspberrypi3", channel := "dev", hostApi := 2, osSequence := 11 }
    rootPem := PlatformEnv.ascii "-----BEGIN PUBLIC KEY-----\nA\n-----END PUBLIC KEY-----\n" }

/-- The activation of that job, cut after `n` calls. -/
def signedCut (n : ℕ) : World :=
  ((activate signedOracles (signedJob .restarting)).after (serve signedOracles) n signedWorld).1

theorem signedCut_stops (n : ℕ) :
    Stops (Outcome signedOracles) (activate signedOracles (signedJob .restarting)) signedWorld
      (signedCut n) := stops_after (serve_follows _) _ _ _

/-- Cut between the mark and the last batch: slot B starts next, and the phase says that it
was only meant to. -/
theorem signedCut_marked :
    (signedCut 18).journal = some (signedJob .restarting) ∧
    (signedCut 18).env.osPending = some sampleId ∧ (signedCut 18).env.osTarget = some .b ∧
    (signedCut 18).env.osPhase = some .activationIntent ∧
    (signedCut 18).env.bootOrder = [.b, .a] ∧ (signedCut 18).env.left .b = 3 ∧
    (signedCut 18).env.accepted = true ∧ (signedCut 18).env.select = some .b := by decide +kernel

theorem signedCut_activated :
    (signedCut 20).env.osPending = some sampleId ∧ (signedCut 20).env.osTarget = some .b ∧
    (signedCut 20).env.osPhase = some .activated ∧ (signedCut 20).env.bootOrder = [.b, .a] ∧
    (signedCut 20).env.accepted = true ∧ (signedCut 20).env.select = some .b := by decide +kernel

end Epilykos.OsUpdate
