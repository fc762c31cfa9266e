import Epilykos.OsUpdate.Records
import Epilykos.OsUpdate.Verification

/-!
Where the content of a slot comes from. It came with the card, or the running system verified it
whole: its policy under the root key of the running image, its entry under a key of the policy,
its bundle under both, and the image that was read back is the one the bundle's signed manifest
names. The record of a job names no other image.
-/

namespace Epilykos.OsUpdate

open Program World

/-- The images that came with the card, and the root key inside each image. -/
structure Origin where
  factory : Slot → Bytes
  rootOf : Bytes → Bytes

/-- The signed manifest of the bundle names the image. -/
def NamesImage (O : Oracles) (bundle : Bytes) (entry : Entry) (policy : Policy) (image : Image) :
    Prop :=
  ∃ sig manifest spki ini size, bundleSignature bundle = .ok sig ∧
    O.cms sig policy.raucCas = some (manifest, spki) ∧ checkManifest O manifest entry = .ok ini ∧
    pyInt (ini.get "image.rootfs" "size" "0") = some size ∧ 0 < size ∧ size ≤ slotBytes ∧
    image = { size := some size.toNat, sha256 := some (ini.get "image.rootfs" "sha256" "") }

/-- The whole chain from a root key to an image. -/
structure SignedUnder (O : Oracles) (root : Bytes) (image : Image) : Prop where
  chain : ∃ raw sig policy entryRaw entrySig plat entry bundle,
    Vouched O root raw sig policy.trustEpoch ∧ PolicyText O raw policy ∧
      Authorised O entryRaw entrySig plat policy entry ∧ Genuine O bundle entry policy ∧
      NamesImage O bundle entry policy image

/-- The content reads back as the image. -/
def ReadsAs (O : Oracles) (content : Bytes) (image : Image) : Prop :=
  ∃ size d, image.size = some size ∧ image.sha256 = some d ∧
    readSlot O content size = .digest d

inductive Trusted (O : Oracles) (g : Origin) : Bytes → Prop
  | factory (s : Slot) : Trusted O g (g.factory s)
  | installed {running content : Bytes} {image : Image} (runs : Trusted O g running)
    (signed : SignedUnder O (g.rootOf running) image) (reads : ReadsAs O content image) :
    Trusted O g content

/-- The root key of a trusted image. -/
def RootKey (O : Oracles) (g : Origin) (root : Bytes) : Prop :=
  ∃ running, Trusted O g running ∧ g.rootOf running = root

/-- The image of the record, where it has a size to read, is signed under such a key. -/
def Job.Backed (O : Oracles) (g : Origin) (job : Job) : Prop :=
  ∀ image size, job.image = some image → image.size = some size →
    ∃ root, RootKey O g root ∧ SignedUnder O root image

/-- The policy is signed by such a key. -/
def Policy.Rooted (O : Oracles) (g : Origin) (policy : Policy) : Prop :=
  ∃ root raw sig, RootKey O g root ∧ Vouched O root raw sig policy.trustEpoch ∧
    PolicyText O raw policy

variable {O : Oracles} {g : Origin} {job : Job}

theorem trusted_of_backed {content : Bytes} {image : Image} (hjob : job.Backed O g)
    (himage : job.image = some image) (hreads : ReadsAs O content image) : Trusted O g content := by
  obtain ⟨size, d, hsize, hd, hread⟩ := hreads
  obtain ⟨_, ⟨running, hruns, rfl⟩, hsigned⟩ := hjob image size himage hsize
  exact .installed hruns hsigned ⟨size, d, hsize, hd, hread⟩

/-! ### The records -/

theorem Job.Backed.stage {j : Job} (h : job.Backed O g) (hj : job.Stage j) : j.Backed O g := by
  obtain ⟨_, _, _, _, _, rfl⟩ := hj
  exact h

theorem newJob_backed (id : JobId) (requestId : String) (entry : Entry) (slot : Slot)
    (files : Files) : (newJob id requestId entry slot files).Backed O g := nofun

theorem rebuiltJob_backed (env : Env) (pending : JobId) (sequence : ℕ) :
    (rebuiltJob env pending sequence).Backed O g := by
  intro image size himage hsize
  obtain rfl := Option.some.inj himage
  cases hsize

/-- What a program may be told. -/
def HostCall.toldBacked (O : Oracles) (g : Origin) : (c : HostCall) → Ans c → Prop
  | .readJournal, x => ∀ job, x = .job job → job.Backed O g
  | .rootPem, x => ∀ root, x = some root → RootKey O g root
  | c, x => c.honest O x

/-- Calls that let no slot start besides the one that runs. Whether records that a restart begins
from may be written, and whether RAUC may be asked for an install, is left open. -/
def HostCall.keeps (O : Oracles) (g : Origin) (arms installs : Prop) : HostCall → Prop
  | .writeJournal j => j.Backed O g ∧ (arms ∨ j.Unarmed)
  | .raucInstall _ => installs
  | .markActive _ => False
  | _ => True

section Records

variable {arms installs : Prop}

theorem keeps_records : Records O (HostCall.toldBacked O g) (HostCall.keeps O g arms installs)
    fun job => job.Backed O g where
  told job h := h job rfl
  common {c} hc := by cases c <;> trivial
  clear := trivial
  save hjob hstate := ⟨hjob, Or.inr hstate⟩
  stage := Job.Backed.stage
  admitted _ := newJob_backed _ _ _ _ _
  rebuilt := rebuiltJob_backed

theorem keeps_anytime : Anytime (HostCall.keeps O g True installs) fun job => job.Backed O g :=
  fun _ hjob => ⟨hjob, Or.inl trivial⟩

/-- A program that keeps it. -/
abbrev Bears {α : Type} (O : Oracles) (g : Origin) (arms installs : Prop) (p : OsProg α)
    (P : α → Prop) : Prop :=
  Local (F := Host) (HostCall.toldBacked O g) (HostCall.keeps O g arms installs) p P fun _ => True

/-- A part of the worker that keeps it, also in the record an exception carries. -/
abbrev BearsJob {α : Type} (O : Oracles) (g : Origin) (arms installs : Prop) (p : JobProg α)
    (P : α → Prop) : Prop :=
  Local (F := Host) (HostCall.toldBacked O g) (HostCall.keeps O g arms installs) p P
    fun e => e.2.Backed O g ∧ e.2.Unarmed

theorem HostCall.toldBacked.honest {c : HostCall} {x : Ans c} (h : c.toldBacked O g x) :
    c.honest O x := by
  cases c <;> first | exact h | trivial

theorem Learns.bears {α : Type} {p : OsProg α} {P : α → Prop} (h : Learns O p P) :
    Bears O g arms installs p P := by
  refine (h.narrow fun _ _ _ _ hx => hx.honest).weaken fun _ c hc => ?_
  obtain hc | ⟨id, s, rfl⟩ := hc
  · cases c <;> trivial
  · trivial

/-! ### The chain -/

theorem readRoot_bears : Bears O g arms installs readRoot fun root => RootKey O g root := by
  refine local_bind (local_call trivial fun x hx => ?_)
  cases x with
  | none => trivial
  | some root => exact hx root rfl

theorem currentState_bears (plat : Platform) :
    Bears O g arms installs (currentState O plat) fun state => state.policy.Rooted O g := by
  refine keeps_records.bind (keeps_records.makes (keeps_records.looks readEnv_makes))
    fun env _ => ?_
  refine Safe.tryCatch (Safe.mono (E := fun _ _ => True) ?_ (fun _ _ h => h) fun _ _ _ => trivial)
  refine keeps_records.bind readRoot_bears fun root hroot => ?_
  refine keeps_records.bind (verifyPolicy_learns _ _ _ _ _ _).bears fun policy hpolicy => ?_
  exact keeps_records.bind (keeps_records.makes (makes_raiseIf _)) fun _ _ =>
    ⟨root, _, _, hroot, hpolicy.1⟩

theorem admitPolicy_bears (raw sig : Bytes) (plat : Platform) (state : TrustState) :
    Bears O g arms installs (admitPolicy O raw sig plat state)
      fun state => state.policy.Rooted O g := by
  refine keeps_records.bind readRoot_bears fun root _ => ?_
  refine keeps_records.bind (learns_rethrow (verifyPolicy_learns _ _ _ _ _ _)).bears
    fun policy _ => ?_
  refine keeps_records.bind (P := fun _ => True)
    (local_call trivial fun _ _ => trivial) fun x _ => ?_
  refine keeps_records.bind (keeps_records.makes (makes_raiseIf _)) fun _ _ => ?_
  refine keeps_records.bind (currentState_bears plat) fun after hafter => ?_
  exact keeps_records.bind (keeps_records.makes (makes_raiseIf _)) fun _ _ => hafter

theorem admitNewer_bears {files : Files} {plat : Platform} {state : TrustState} (newer : Bool)
    (hstate : state.policy.Rooted O g) :
    Bears O g arms installs (admitNewer O files plat state newer)
      fun state => state.policy.Rooted O g := by
  cases newer with
  | true =>
    refine keeps_records.bind (admitPolicy_bears _ _ _ _) fun state hstate => ?_
    exact keeps_records.bind (keeps_records.makes keeps_records.restartRauc) fun _ _ => hstate
  | false => exact hstate

/-- The image is the one the manifest of the bundle names. -/
theorem verifyBundle_names (bundle : Bytes) (entry : Entry) (policy : Policy) :
    Learns O (verifyBundle O bundle entry policy) fun image =>
      NamesImage O bundle entry policy image := by
  refine learns_bind (learns_looks ⟨looks_of_reads rfl, fun _ => trivial⟩) fun _ _ => ?_
  refine learns_bind (learns_raiseIf _ _) fun _ _ => ?_
  have hremove : Learns O (do .raiseIf (!(← ask .removeKeyring)) .os) fun _ => True :=
    learns_looks (.bind ⟨looks_of_reads rfl, fun _ => trivial⟩ fun _ => makes_raiseIf _)
  refine learns_bind (P := fun manifest => ∃ sig spki, bundleSignature bundle = .ok sig ∧
    O.cms sig policy.raucCas = some (manifest, spki)) ?_ ?_
  · have hsigner : ∀ k : Bytes × Digest → OsProg Bytes, (∀ x, k x = .ret x.1) →
        Learns O (checkBundle O bundle entry policy >>= fun _ =>
          bundleSigner O bundle policy.raucCas >>= k) fun manifest => ∃ sig spki,
            bundleSignature bundle = .ok sig ∧ O.cms sig policy.raucCas = some (manifest, spki) := by
      intro k hk
      refine learns_bind (checkBundle_learns _ _ _) fun _ _ => ?_
      refine learns_bind (bundleSigner_learns _ _) ?_
      rintro x ⟨sig, spki, hsig, hcms, -⟩
      rw [hk]
      exact ⟨sig, spki, hsig, hcms⟩
    replace hsigner := hsigner _ fun _ => rfl
    refine Safe.ensure (hsigner.mono (fun _ _ hmanifest => ?_) fun _ _ _ => ?_)
    · exact hremove.mono (fun _ _ _ => hmanifest) fun _ _ h => h
    · exact hremove.mono (fun _ _ _ => trivial) fun _ _ h => h
  · rintro manifest ⟨sig, spki, hsig, hcms⟩
    refine learns_bind (learns_ofExcept _) fun ini hini => ?_
    cases hsize : pyInt (ini.get "image.rootfs" "size" "0") with
    | none => trivial
    | some size =>
      refine learns_bind (learns_raiseIf _ _) fun _ hfits => ?_
      obtain ⟨hpos, hmax⟩ := not_not.mp (not_or.mp hfits).1
      exact ⟨sig, manifest, spki, ini, size, hsig, hcms, hini, hsize, hpos, hmax, rfl⟩

/-- A bundle that verifies under such a policy gives a signed image. -/
theorem verifyBundle_signed {policy : Policy} {entry : Entry} {entryRaw entrySig : Bytes}
    {plat : Platform} (bundle : Bytes) (hpolicy : policy.Rooted O g)
    (hentry : Authorised O entryRaw entrySig plat policy entry) :
    Learns O (verifyBundle O bundle entry policy) fun image =>
      ∃ root, RootKey O g root ∧ SignedUnder O root image := by
  refine ((verifyBundle_learns bundle entry policy).and (verifyBundle_names bundle entry policy)).mono
    ?_ fun _ _ _ => trivial
  rintro image _ ⟨hgenuine, hnames⟩
  obtain ⟨root, raw, sig, hroot, hvouched, htext⟩ := hpolicy
  exact ⟨root, hroot, raw, sig, policy, entryRaw, entrySig, plat, entry, bundle, hvouched, htext, hentry,
    hgenuine, hnames⟩

/-! ### The confirmation, and the programs of every boot -/

theorem setEnv_bears (batch : List Assign) :
    (setEnv batch).Makes (F := Host) (HostCall.keeps O g arms installs) :=
  setEnv_makes trivial trivial

theorem confirmCandidate_bears (id : JobId) :
    Bears O g arms installs (confirmCandidate id) fun _ => True := by
  refine keeps_records.bind (keeps_records.makes (keeps_records.looks readEnv_makes))
    fun env _ => ?_
  refine keeps_records.bind (keeps_records.makes keeps_records.bootedSlot) fun slot _ => ?_
  refine keeps_records.bind (keeps_records.makes (makes_raiseIf _)) fun _ _ => ?_
  refine keeps_records.bind (keeps_records.makes (need_makes _)) fun sequence _ => ?_
  refine keeps_records.bind (keeps_records.makes ?_) fun env _ => ?_
  · unfold confirmIntent
    split_ifs
    · exact setEnv_bears _
    · trivial
  refine keeps_records.bind (keeps_records.makes ?_) fun env _ => ?_
  · unfold confirmSlot
    split_ifs
    · exact .bind (run_makes trivial) fun _ => .bind (makes_raiseIf _) fun _ => setEnv_bears _
    · trivial
  refine keeps_records.bind (keeps_records.confirmJob env slot) fun _ _ => ?_
  exact keeps_records.makes (.bind keeps_records.clearPending fun _ => trivial)

theorem confirmMain_bears (id : JobId) (attempts : ℕ) :
    Bears O g arms installs (confirmMain id attempts) fun _ => True := by
  induction attempts with
  | zero => trivial
  | succ attempts ih =>
    refine Safe.tryCatch ((confirmCandidate_bears id).mono (fun _ _ h => h) fun e _ _ => ?_)
    cases e <;> first | exact ih | trivial

theorem superviseConfirm_bears (coordinatorExists : Bool) :
    Bears O g arms installs (superviseConfirm coordinatorExists) fun _ => True := by
  refine keeps_records.bind (keeps_records.makes keeps_records.bootedSlot) fun slot _ => ?_
  refine keeps_records.bind (keeps_records.ask (c := .readEnv) trivial) fun found _ => ?_
  cases found with
  | none => trivial
  | some env =>
    refine keeps_records.bind (P := fun _ => True) ?_ fun confirmed _ => ?_
    · unfold confirmBoot
      split
      · split_ifs
        · exact keeps_records.bind (confirmMain_bears _ 3) fun _ _ => trivial
        · trivial
      · exact keeps_records.makes (run_makes trivial)
    · refine keeps_records.makes (.bind (Prog.Makes.when ?_) fun _ => trivial)
      exact .bind (makes_ask trivial fun _ => trivial) fun _ => trivial

theorem reconcileRollback_bears {env : Env} {found : Option Job} {slot : Slot} {pending : JobId}
    (hfound : ∀ job, found = some job → job.Backed O g) :
    Bears O g arms installs (reconcileRollback env found slot pending) fun _ => True := by
  refine keeps_records.bind (keeps_records.rebuild hfound) fun job hjob => ?_
  refine keeps_records.bind (keeps_records.makes (keeps_records.targetBad _)) fun safe _ => ?_
  split_ifs
  · exact keeps_records.makes (.bind (keeps_records.setGuard _ _) fun _ => trivial)
  · have hfinish : (finish job .rolledBack
        (some "The new version did not start properly, so the previous one is running")).Makes
        (F := Host) (HostCall.keeps O g arms installs) :=
      keeps_records.finish hjob (by decide) (by decide)
    exact keeps_records.makes (.bind (Prog.Makes.when (.bind (run_makes trivial) fun _ => trivial))
      fun _ => .bind hfinish.when fun _ => .bind keeps_records.clearPending fun _ => trivial)

/-- What reconcile_boot does once it has read; a record that a restart begins from is put back to
one only where that is left open. -/
theorem reconcilePending_bears {env : Env} {found : Option Job} {slot : Slot} {pending : JobId}
    (hfound : ∀ job, found = some job → job.Backed O g ∧ (arms ∨ job.Unarmed)) :
    Bears O g arms installs (reconcilePending env found slot pending) fun _ => True := by
  have hbacked := fun job h => (hfound job h).1
  unfold reconcilePending
  split_ifs
  · exact keeps_records.reconcileTrial hbacked
  · exact keeps_records.makes (.bind (keeps_records.setGuard _ _) fun _ => trivial)
  · exact reconcileRollback_bears hbacked
  · refine keeps_records.reconcileUntried hbacked fun job hjob hstate j hj => ⟨hj, ?_⟩
    obtain harms | hunarmed := (hfound job hjob).2
    · exact Or.inl harms
    · exact (hstate.elim hunarmed.restarting hunarmed.ready).elim

theorem reconcileSettled_bears {env : Env} {found : Option Job} {slot : Slot}
    (hfound : ∀ job, found = some job → job.Backed O g ∧ (arms ∨ job.Unarmed)) :
    Bears O g arms installs (reconcileSettled env found slot) fun _ => True := by
  refine keeps_records.reconcileSettled (fun job h => (hfound job h).1)
    fun job hjob hstate j hj => ⟨hj, ?_⟩
  obtain harms | hunarmed := (hfound job hjob).2
  · exact Or.inl harms
  · exact (hunarmed.restarting hstate).elim

end Records

end Epilykos.OsUpdate
