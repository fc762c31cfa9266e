import Epilykos.OsUpdate.Calls

/-!
What a verification that returns has found out. The programs that verify only look, and OpenSSL
does not accept what does not verify; so the result of each says which signatures were accepted
and what the signed texts hold, wherever it runs.
-/

namespace Epilykos.OsUpdate

open Program World

variable {O : Oracles} {w w' : World}

/-- OpenSSL answers that a check passed only when it does. -/
def HostCall.honest (O : Oracles) : (c : HostCall) → Ans c → Prop
  | .openssl q, x => x = true → O.accepts q = true
  | .cms sig cas, x => x = none ∨ x = O.cms sig cas
  | _, _ => True

theorem World.Outcome.honest {c : HostCall} {x : Ans c} (h : Outcome O w c x w') :
    c.honest O x := by
  cases c with
  | openssl q => exact h.1
  | cms sig cas => exact h.1
  | _ => trivial

/-- A program that only looks, and what its result tells. -/
abbrev Learns {α : Type} (O : Oracles) (p : OsProg α) (P : α → Prop) : Prop :=
  Local (F := Host) (HostCall.honest O) HostCall.looks p P fun _ => True

section Learns

variable {α β : Type}

theorem learns_bind {P : α → Prop} {Q : β → Prop} {p : OsProg α} {f : α → OsProg β}
    (hp : Learns O p P) (hf : ∀ a, P a → Learns O (f a) Q) : Learns O (p >>= f) Q :=
  local_bind (hp.mono (fun a _ => hf a) fun _ _ h => h)

theorem learns_looks {p : OsProg α} (hp : p.Makes (F := Host) HostCall.looks) :
    Learns O p fun _ => True := hp.loc fun _ => trivial

theorem learns_ofExcept (x : Except Err α) : Learns O (Prog.ofExcept x) fun a => x = .ok a := by
  cases x with
  | ok a => exact (rfl : Except.ok a = Except.ok a)
  | error e => trivial

theorem learns_raiseIf (bad : Prop) [Decidable bad] (e : Err) :
    Learns O (Prog.raiseIf bad e) fun _ => ¬ bad :=
  safe_raiseIf.mpr ⟨fun _ => trivial, fun h => h⟩

theorem learns_rethrow {P : α → Prop} {caught : Err → Bool} {other : Err} {p : OsProg α}
    (hp : Learns O p P) : Learns O (rethrow caught other p) P :=
  Safe.tryCatch (hp.mono (fun _ _ h => h) fun _ _ _ => trivial)

/-- What a program learns, it knows wherever it runs. -/
theorem Learns.alone {P : α → Prop} {p : OsProg α} {allowed : World → HostCall → Prop}
    (h : Learns O p P) (hw : ∀ w' c, OnlyHistory w w' → allowed w' c) :
    Alone O allowed p (fun a t => P a ∧ OnlyHistory w t) (fun _ => OnlyHistory w) w := by
  refine (h.safe (I := OnlyHistory w) ?_ ?_ ?_ (.refl w)).mono (fun _ _ ha => ha) fun _ _ he => he.2
  · rintro t _ rfl ht
    exact ht
  · exact fun t c x t' _ ho => ho.honest
  · exact fun t c hc ht => ⟨hw t c ht, fun x t' ho => ht.trans (hc.outcome ho)⟩

/-! ### The policy -/

/-- A policy signed by the root key, and the epoch it carries. -/
def Vouched (O : Oracles) (root raw sig : Bytes) (epoch : ℕ) : Prop :=
  O.accepts (.verify root raw sig) = true ∧ ∃ fields, strictJson O raw policyMax = .ok (.obj fields) ∧
    integer 1 (Json.get fields "trust_epoch") = .ok epoch

/-- The epoch, keys, CAs and signers of a policy are those of its text. -/
def PolicyText (O : Oracles) (raw : Bytes) (policy : Policy) : Prop :=
  ∃ fields, strictJson O raw policyMax = .ok (.obj fields) ∧
    integer 1 (Json.get fields "trust_epoch") = .ok policy.trustEpoch ∧
    readKeys (Json.get fields "index_keys") = .ok policy.indexKeys ∧
    readStrings 4 (fun _ => true) (Json.get fields "rauc_cas") = .ok policy.raucCas ∧
    readStrings 16 isDigest (Json.get fields "rauc_leaf_spki_sha256") = .ok policy.leaves

theorem openssl_learns (q : Openssl) : Learns O (openssl q) fun _ => O.accepts q = true := by
  refine local_bind (local_call (looks_of_reads rfl) fun b hb => ?_)
  cases b with
  | true => exact hb rfl
  | false => trivial

theorem verifyPolicy_learns (raw sig root : Bytes) (board channel : String)
    (current : Option Current) :
    Learns O (verifyPolicy O raw sig root board channel current) fun policy =>
      (Vouched O root raw sig policy.trustEpoch ∧ PolicyText O raw policy) ∧ ∀ c, current = some c →
        c.trustEpoch ≤ policy.trustEpoch ∧ (policy.trustEpoch = c.trustEpoch → raw = c.raw) := by
  refine learns_bind (learns_ofExcept _) fun value hvalue => ?_
  split
  · rename_i fields
    refine learns_bind (learns_raiseIf _ _) fun _ _ => learns_bind (learns_raiseIf _ _) fun _ _ => ?_
    refine learns_bind (learns_ofExcept _) fun epoch hepoch => ?_
    refine learns_bind (learns_raiseIf _ _) fun _ _ => learns_bind (learns_raiseIf _ _) fun _ _ => ?_
    refine learns_bind (openssl_learns _) fun _ _ => learns_bind (openssl_learns _) fun _ hverify => ?_
    refine learns_bind (learns_ofExcept _) fun keys hkeys => learns_bind (learns_ofExcept _) fun cas hcas => ?_
    refine learns_bind (learns_looks (checkCas_makes cas)) fun _ _ => ?_
    refine learns_bind (learns_ofExcept _) fun leaves hleaves => ?_
    refine learns_bind (learns_raiseIf _ _) fun _ hcurrent => ?_
    refine ⟨⟨⟨hverify, fields, hvalue, hepoch⟩, fields, hvalue, hepoch, hkeys, hcas, hleaves⟩,
      fun c hc => ?_⟩
    subst hc
    simp only [Option.any_some, Bool.or_eq_true, decide_eq_true_eq, Bool.and_eq_true, beq_iff_eq,
      bne_iff_ne, not_or, not_lt, not_and, not_not] at hcurrent
    exact ⟨hcurrent.1.2, hcurrent.2⟩
  · trivial

theorem readRoot_alone {allowed : World → HostCall → Prop} {Q : Bytes → World → Prop}
    {E : Err → World → Prop} (hw : allowed w .rootPem) (hE : E .os w) (hQ : Q w.rootPem w) :
    Alone O allowed readRoot Q E w := by
  refine Safe.bind (safe_call.mpr ⟨hw, fun x w' h => ?_⟩)
  obtain rfl := h.reads rfl
  obtain rfl | rfl := h.1
  · exact hE
  · exact hQ

/-- The verified state is the one in the environment, vouched for by this slot's root key. -/
structure TrustState.Tells (state : TrustState) (O : Oracles) (w : World) : Prop where
  vouched : Vouched O w.rootPem state.raw state.signature state.trustEpoch
  text : PolicyText O state.raw state.policy
  raw : state.raw = w.env.trustPolicy
  signature : state.signature = w.env.trustPolicySig
  epoch : state.trustEpoch = w.env.trustEpoch
  policy : state.policy.trustEpoch = state.trustEpoch
  floor : state.floor = w.env.osFloor

theorem currentState_tells {allowed : World → HostCall → Prop} (plat : Platform)
    (hw : ∀ w' c, OnlyHistory w w' → allowed w' c) :
    Alone O allowed (currentState O plat) (fun state t => state.Tells O w ∧ OnlyHistory w t)
      (fun _ => OnlyHistory w) w := by
  refine Safe.bind (readEnv_alone (hw _ _ (.refl w)) (fun _ => .refl w) ?_)
  refine Safe.tryCatch (Safe.mono (E := fun _ => OnlyHistory w) ?_ (fun _ _ h => h)
    fun _ _ h => h)
  refine Safe.bind (readRoot_alone (hw _ _ (.refl w)) (.refl w) ?_)
  refine Safe.bind (((verifyPolicy_learns _ _ _ _ _ _).alone hw).mono ?_ fun _ _ h => h)
  rintro policy t ⟨⟨⟨hvouched, htext⟩, -⟩, ht⟩
  refine Safe.bind (safe_raiseIf.mpr ⟨fun _ => ht, fun hepoch => ?_⟩)
  exact ⟨⟨hvouched, htext, rfl, rfl, by simpa using hepoch, rfl, rfl⟩, ht⟩

/-! ### The entry and the bundle -/

/-- An entry as it is read under the policy, signed by one of the policy's keys. -/
def Authorised (O : Oracles) (raw sig : Bytes) (plat : Platform) (policy : Policy) (entry : Entry) :
    Prop :=
  ∃ key, readEntry O raw plat policy = .ok (entry, key) ∧ sig.length = 64 ∧
    O.accepts (.verify (rawPublicPem key.publicKey) raw sig) = true

theorem verifyOsRelease_learns (raw sig : Bytes) (plat : Platform) (policy : Policy) :
    Learns O (verifyOsRelease O raw sig plat policy) (Authorised O raw sig plat policy) := by
  refine learns_rethrow (learns_bind (learns_ofExcept _) ?_)
  rintro ⟨entry, key⟩ hread
  refine learns_bind (P := fun _ => sig.length = 64 ∧
    O.accepts (.verify (rawPublicPem key.publicKey) raw sig) = true) ?_ fun _ h => ⟨key, hread, h⟩
  refine learns_rethrow (learns_bind (learns_raiseIf _ _) fun _ hlength => ?_)
  refine learns_bind (openssl_learns _) fun _ _ => ?_
  exact (openssl_learns _).mono (fun _ _ h => ⟨not_not.mp hlength, h⟩) fun _ _ h => h

/-- A bundle that is byte for byte the authorized one, whose signer the policy lists and whose
manifest agrees with the entry. -/
structure Genuine (O : Oracles) (bundle : Bytes) (entry : Entry) (policy : Policy) : Prop where
  size : bundle.length = entry.bundleSize
  sha256 : O.sha256 bundle = entry.bundleSha256
  signer : ∃ sig manifest spki, bundleSignature bundle = .ok sig ∧
    O.cms sig policy.raucCas = some (manifest, spki) ∧ O.sha256 spki ∈ policy.leaves ∧
    ∃ ini, checkManifest O manifest entry = .ok ini

theorem bundleSigner_learns (bundle : Bytes) (cas : List String) :
    Learns O (bundleSigner O bundle cas) fun signer => ∃ sig spki,
      bundleSignature bundle = .ok sig ∧ O.cms sig cas = some (signer.1, spki) ∧
        signer.2 = O.sha256 spki := by
  refine learns_bind (learns_ofExcept _) fun sig hsig => ?_
  refine local_bind (local_call (looks_of_reads rfl) fun x hx => ?_)
  cases x with
  | none => trivial
  | some found =>
    obtain ⟨manifest, spki⟩ := found
    have hcms : O.cms sig cas = some (manifest, spki) := by
      obtain h | h := hx
      · cases h
      · exact h.symm
    refine learns_bind (openssl_learns _) fun _ _ => learns_bind (learns_raiseIf _ _) fun _ _ => ?_
    exact learns_bind (learns_raiseIf _ _) fun _ _ => ⟨sig, spki, hsig, hcms, rfl⟩

theorem checkBundle_learns (bundle : Bytes) (entry : Entry) (policy : Policy) :
    Learns O (checkBundle O bundle entry policy) fun _ => Genuine O bundle entry policy := by
  refine learns_bind (learns_raiseIf _ _) fun _ hbytes => ?_
  obtain ⟨hsize, hsha⟩ := not_or.mp hbytes
  refine learns_bind (bundleSigner_learns _ _) ?_
  rintro ⟨manifest, spki⟩ ⟨sig, key, hsig, hcms, rfl⟩
  refine learns_bind (learns_raiseIf _ _) fun _ hleaf => ?_
  refine learns_bind (learns_ofExcept _) fun ini hini => ?_
  exact ⟨not_not.mp hsize, not_not.mp hsha, sig, manifest, key, hsig, hcms, not_not.mp hleaf, ini,
    hini⟩

theorem verifyBundle_learns (bundle : Bytes) (entry : Entry) (policy : Policy) :
    Learns O (verifyBundle O bundle entry policy) fun _ => Genuine O bundle entry policy := by
  refine learns_bind (learns_looks ⟨looks_of_reads rfl, fun _ => trivial⟩) fun _ _ => ?_
  refine learns_bind (learns_raiseIf _ _) fun _ _ => ?_
  have hremove : Learns O (do .raiseIf (!(← ask .removeKeyring)) .os) fun _ => True :=
    learns_looks (.bind ⟨looks_of_reads rfl, fun _ => trivial⟩ fun _ => makes_raiseIf _)
  refine learns_bind (P := fun _ => Genuine O bundle entry policy) ?_ fun manifest hgenuine => ?_
  · have hcheck : ∀ k : Bytes × Digest → OsProg Bytes, (∀ x, k x = .ret x.1) →
        Learns O (checkBundle O bundle entry policy >>= fun _ =>
          bundleSigner O bundle policy.raucCas >>= k) fun _ => Genuine O bundle entry policy := by
      intro k hk
      refine learns_bind (checkBundle_learns _ _ _) fun _ hgenuine => ?_
      refine learns_bind (bundleSigner_learns _ _) fun x _ => ?_
      rw [hk]
      exact hgenuine
    replace hcheck := hcheck _ fun _ => rfl
    refine Safe.ensure (hcheck.mono (fun _ _ hgenuine => ?_) fun _ _ _ => ?_)
    · exact hremove.mono (fun _ _ _ => hgenuine) fun _ _ h => h
    · exact hremove.mono (fun _ _ _ => trivial) fun _ _ h => h
  · refine learns_bind (learns_ofExcept _) fun ini _ => ?_
    cases pyInt (ini.get "image.rootfs" "size" "0") with
    | none => trivial
    | some size => exact learns_bind (learns_raiseIf _ _) fun _ _ => hgenuine

end Learns

end Epilykos.OsUpdate
