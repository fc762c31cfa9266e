import Epilykos.OsUpdate.Refinement

/-!
What stands behind every install and every activation. Whatever the feed, the files of the last
check and the record on DATA hold, and whatever became of the trust policy since the job was
admitted, the worker calls RAUC and writes an intent only for an entry that the policy in the
environment authorises at that moment.
-/

namespace Epilykos.OsUpdate

open Program World

variable {O : Oracles} {w w' : World} {job : Job}

/-! ### What is to stand behind the two calls -/

section Silent

variable {α ε : Type} {p : Prog Host ε α}

end Silent

/-! ### What a licence rests on -/

/-- The policy, the floor and the running image are as they were. -/
structure SameTrust (w t : World) : Prop where
  floor : t.env.osFloor = w.env.osFloor
  policy : t.env.trustPolicy = w.env.trustPolicy
  signature : t.env.trustPolicySig = w.env.trustPolicySig
  epoch : t.env.trustEpoch = w.env.trustEpoch
  booted : t.booted = w.booted
  rootPem : t.rootPem = w.rootPem
  platforms : t.platforms = w.platforms

namespace SameTrust

variable {t u : World}

theorem refl (w : World) : SameTrust w w := ⟨rfl, rfl, rfl, rfl, rfl, rfl, rfl⟩

theorem trans (h : SameTrust w t) (h' : SameTrust t u) : SameTrust w u :=
  ⟨h'.floor.trans h.floor, h'.policy.trans h.policy, h'.signature.trans h.signature,
    h'.epoch.trans h.epoch, h'.booted.trans h.booted, h'.rootPem.trans h.rootPem,
    h'.platforms.trans h.platforms⟩

theorem tells {state : TrustState} (h : SameTrust w t) (hstate : state.Tells O w) :
    state.Tells O t := by
  refine ⟨?_, hstate.text, hstate.raw.trans h.policy.symm, hstate.signature.trans h.signature.symm,
    hstate.epoch.trans h.epoch.symm, hstate.policy, hstate.floor.trans h.floor.symm⟩
  rw [h.rootPem]
  exact hstate.vouched

end SameTrust

section Permits

variable {α β ε : Type}

/-- The box still runs the image it ran. -/
def SameImage (w t : World) : Prop := t.booted = w.booted ∧ t.platforms = w.platforms

theorem SameTrust.image {t : World} (h : SameTrust w t) : SameImage w t := ⟨h.booted, h.platforms⟩

theorem SameImage.trans {t u : World} (h : SameImage w t) (h' : SameImage t u) : SameImage w u :=
  ⟨h'.1.trans h.1, h'.2.trans h.2⟩

theorem OnlyHistory.journal {t : World} (h : OnlyHistory w t) : t.journal = w.journal := by
  obtain ⟨_, rfl⟩ := h
  rfl

end Permits

end Epilykos.OsUpdate
