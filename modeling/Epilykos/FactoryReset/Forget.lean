import Epilykos.FactoryReset.Once

/-!
The later step of a boot, and whole runs of boots. The mark may be forgotten once nothing on
the card needs it; the step looks for the request on /boot, mounted or not. Where it looks at
BOOT itself, a request is carried out once however often it is found.
-/

namespace Epilykos.FactoryReset

open PlatformEnv (Bytes ascii)
open Program Prog

/-! ### A running box -/

/-- The request on the card, if there is one, was not carried out to the end. -/
def Undone (w : World) : Prop := ∀ r, w.request.now = some r → .completed r ∉ w.history

theorem Past.asks {w w' : World} (h : Past w) (hasks : Asks w w') : Past w' ∧ Undone w' := by
  cases hasks with
  | leaves content =>
    have hundone : ∀ r, some ⟨w.serial, content⟩ = some r → .completed r ∉ w.history := by
      intro r hr hdone
      obtain rfl := Option.some.inj hr
      exact absurd (h.older _ hdone) (Nat.lt_irrefl _)
    refine ⟨⟨⟨h.fine, ?_, ?_, h.mark, ?_⟩, rfl⟩, hundone⟩
    · intro r hr
      obtain rfl := Option.some.inj (File.holds_settled.mp hr)
      exact Nat.lt_succ_self _
    · intro r hr
      exact Nat.lt_succ_of_lt (h.older r hr)
    · intro r hr hrequest
      exact absurd hr (hundone r (File.holds_settled.mp hrequest))
  | takes =>
    refine ⟨⟨⟨h.fine, ?_, h.older, h.mark, ?_⟩, rfl⟩, ?_⟩
    · intro r hr
      cases File.holds_settled.mp hr
    · intro r _ hrequest
      cases File.holds_settled.mp hrequest
    · intro r hr
      cases hr

theorem Past.repairs {w : World} (h : Past w) (hbroken : w.mountable = false) {mark : File Bytes}
    (hmark : mark = w.mark ∨ mark = .settled none) : Past { w with mark, mountable := true } := by
  refine ⟨⟨h.fine, h.serial, h.older, ?_, ?_⟩, h.settled⟩
  · intro text htext
    obtain rfl | rfl := hmark
    · exact h.mark text htext
    · cases File.holds_settled.mp htext
  · intro r hr hrequest
    have hmount := (h.done r hr hrequest).2
    rw [hbroken] at hmount
    cases hmount

theorem Past.removeDone {w : World} (h : Past w) (hundone : Undone w) :
    Past { w with mark := ⟨none, w.mark.kept⟩ } := by
  refine ⟨⟨h.fine, h.serial, h.older, ?_, ?_⟩, h.settled⟩
  · rintro text (hnow | hkept)
    · cases hnow
    · exact h.mark text (Or.inr hkept)
  · intro r hr hrequest
    exact absurd hr (hundone r ((File.holds_iff h.settled).mp hrequest))

theorem Past.others {w w' : World} (h : Past w) (hothers : Others w w') :
    Past w' ∧ w'.bootMounted = w.bootMounted ∧ (Undone w → Undone w') := by
  cases hothers with
  | asks hmounted hasks =>
    obtain ⟨hpast, hundone⟩ := h.asks hasks
    refine ⟨hpast, ?_, fun _ => hundone⟩
    cases hasks <;> rfl
  | repairs hbroken hmark => exact ⟨h.repairs hbroken hmark, rfl, fun hundone => hundone⟩

/-- What the rest of the box does between two commands of the later step. -/
abbrev Meanwhile : World → World → Prop := Relation.ReflTransGen Others

theorem Past.meanwhile {w w' : World} (h : Past w) (hothers : Meanwhile w w') :
    Past w' ∧ w'.bootMounted = w.bootMounted ∧ (Undone w → Undone w') := by
  induction hothers with
  | refl => exact ⟨h, rfl, fun hundone => hundone⟩
  | tail _ hlast ih =>
    obtain ⟨hpast, hmounted, hundone⟩ := ih
    obtain ⟨hpast', hmounted', hundone'⟩ := hpast.others hlast
    exact ⟨hpast', hmounted'.trans hmounted, fun h => hundone' (hundone h)⟩

/-! ### The later step -/

/-- The mark is not removed while BOOT is not mounted and the request it is for is there. -/
def forgets (w : World) (c : Command) (a : c.Ans) (w' : World) : Prop :=
  does w c a w' ∧ (c = .removeDone → w.bootMounted = true ∨ Undone w)

/-- The rest of the later step keeps what a boot past the reset has. -/
def KeepsPast {α : Type} (p : Prog Commands Unit α) (w : World) : Prop :=
  Safe Meanwhile forgets (fun t _ => Past t) p (fun _ => Past) (fun _ => Past) w

theorem keeps_exec {α : Type} {c : Command} {f : c.Ans → Prog Commands Unit α} {w : World}
    (h : Past w) (hnext : ∀ w₁ a w₂, Meanwhile w w₁ → Past w₁ → forgets w₁ c a w₂ →
      KeepsPast (f a) w₂) : KeepsPast (exec c >>= f) w := by
  intro w₁ hw₁
  have h₁ := (h.meanwhile hw₁).1
  exact ⟨h₁, fun a w₂ hdoes => hnext w₁ a w₂ hw₁ h₁ hdoes⟩

theorem forgetDone_keeps {w : World} (h : Past w) : KeepsPast forgetDone w := by
  refine keeps_exec h ?_
  rintro w₁ done _ - h₁ ⟨⟨-, rfl⟩, -⟩
  by_cases hdone : done = true
  · rw [if_pos hdone]
    refine keeps_exec h₁ ?_
    rintro w₂ found _ - h₂ ⟨⟨hfound, rfl⟩, -⟩
    by_cases hthere : found = true
    · rw [if_pos hthere]
      exact h₂
    · rw [if_neg hthere]
      refine keeps_exec h₂ ?_
      rintro w₃ removed w₄ hw₃ h₃ ⟨hremove, hclear⟩
      obtain ⟨-, hmounted, hundone⟩ := h₂.meanwhile hw₃
      have hneeds : Undone w₃ := by
        obtain hboot | hneeds := hclear rfl
        · -- BOOT was mounted when the request was looked for, and it was not there
          refine hundone fun r hr => ?_
          rw [hmounted] at hboot
          rw [hboot, hr] at hfound
          exact absurd hfound hthere
        · exact hneeds
      cases removed with
      | true =>
        obtain rfl : w₄ = _ := hremove
        exact h₃.removeDone hneeds
      | false =>
        obtain rfl : w₄ = _ := hremove
        exact h₃
  · rw [if_neg hdone]
    exact h₁

theorem wifiImport_keeps {w : World} (h : Past w) : KeepsPast wifiImport w := by
  refine keeps_exec h ?_
  rintro w₁ isdir _ - h₁ ⟨⟨rfl, rfl⟩, -⟩
  exact Safe.tryCatch (Safe.bind (forgetDone_keeps h₁))

/-! ### Whole runs -/

/-- What every state of a clear run has. -/
def Sound : Box → Prop
  | ⟨w, .off⟩ => Past w
  | ⟨w, .resetting p⟩ => Safe (· = ·) does SafeAt p (fun _ => Past) (fun _ => Past) w
  | ⟨w, .up⟩ => Past w
  | ⟨w, .importing p⟩ => KeepsPast p w

theorem Sound.kept {b : Box} (h : Sound b) : Kept b.world := by
  obtain ⟨w, phase⟩ := b
  cases phase with
  | off => exact Past.toKept h
  | up => exact Past.toKept h
  | resetting p =>
    cases p with
    | ret a => exact Past.toKept h
    | raise e => exact Past.toKept h
    | call c k => exact (h w rfl).1.1
  | importing p =>
    cases p with
    | ret a => exact Past.toKept h
    | raise e => exact Past.toKept h
    | call c k => exact (h w .refl).1.toKept

theorem KeepsPast.others {α : Type} {p : Prog Commands Unit α} {w w' : World}
    (h : KeepsPast p w) (hothers : Others w w') : KeepsPast p w' := by
  cases p with
  | ret a => exact (Past.others h hothers).1
  | raise e => exact (Past.others h hothers).1
  | call c k => exact fun w₁ hw₁ => h w₁ (.head hothers hw₁)

/-- What may go wrong is left out: a content found on the card that has the sum of another one
carried out before, and the mark forgotten without BOOT while the request it is for is on it. -/
def Clear : Box → Move → Prop
  | ⟨w, _⟩, .powerOn => Distinct w
  | ⟨w, .importing (.call .removeDone _)⟩, .command => w.bootMounted = true ∨ Undone w
  | _, _ => True

theorem Clear.forgets {w w' : World} {c : Command} {k : c.Ans → Prog Commands Unit Unit}
    {a : c.Ans} (h : Clear ⟨w, .importing (.call c k)⟩ .command) (hdoes : does w c a w') :
    forgets w c a w' := by
  refine ⟨hdoes, ?_⟩
  rintro rfl
  exact h

theorem Kept.past {w w' : World} (h : Kept w) (hlost : Lost w w') : Past w' := by
  obtain ⟨hkept, hsettled, -⟩ := h.lost hlost
  exact ⟨hkept, hsettled⟩

theorem step_sound {b b' : Box} {m : Move} (h : Sound b) (hclear : Clear b m)
    (hstep : Step b m b') : Sound b' := by
  cases hstep with
  | asks hasks => exact (Past.asks h hasks).1
  | powerOn bootMounted =>
    have hpast := h
    exact resetBoot_safe ⟨⟨hpast.fine, hpast.serial, hpast.older, hpast.mark, hpast.done⟩,
      hpast.settled⟩ hclear
  | reset hdoes => exact (h _ rfl).2 _ _ hdoes
  | resetReturns => exact h
  | resetFails => exact h
  | others hothers => exact (Past.others h hothers).1
  | imports => exact wifiImport_keeps h
  | «import» hdoes => exact (h _ .refl).2 _ _ (hclear.forgets hdoes)
  | othersImport hothers => exact KeepsPast.others h hothers
  | importReturns => exact h
  | importFails => exact h
  | cut hlost => exact h.kept.past hlost
  | cutWithin hcut hlost => exact ((h _ rfl).1.2 _ hcut).past hlost

theorem Flashed.sound {b : Box} (h : Flashed b) : Sound b := by
  obtain ⟨w, phase⟩ := b
  obtain ⟨rfl, hrequest, hserial, hmark, hhistory⟩ := h
  dsimp only at hrequest hserial hmark hhistory
  refine ⟨⟨?_, ?_, ?_, ?_, ?_⟩, hrequest⟩
  · rw [hhistory]
    trivial
  · intro r hr
    exact hserial r ((File.holds_iff hrequest).mp hr)
  · intro r hr
    rw [hhistory] at hr
    cases hr
  · intro text htext
    rw [hmark] at htext
    cases File.holds_settled.mp htext
  · intro r hr
    rw [hhistory] at hr
    cases hr

abbrev Reaches : Box → Box → Prop :=
  Relation.ReflTransGen fun b b' => ∃ m, Step b m b'

abbrev ReachesClear : Box → Box → Prop :=
  Relation.ReflTransGen fun b b' => ∃ m, Clear b m ∧ Step b m b'

theorem reaches_sound {b b' : Box} (h : Sound b) (hrun : ReachesClear b b') : Sound b' := by
  induction hrun with
  | refl => exact h
  | tail _ hlast ih =>
    obtain ⟨m, hclear, hstep⟩ := hlast
    exact step_sound ih hclear hstep

/-- A request is deleted only after DATA was rewritten for its content, and DATA is never
erased again for a request carried out to the end. -/
theorem carried_out_once {b₀ b : Box} (hstart : Flashed b₀) (hrun : ReachesClear b₀ b) :
    Fine b.world.history :=
  (reaches_sound hstart.sound hrun).kept.fine

/-! ### A request found again -/

theorem runs_exec {α : Type} {w w₁ : World} {c : Command} {f : c.Ans → Prog Commands Unit α}
    {x : World × Prog Commands Unit α} (a : c.Ans) (hdoes : does w c a w₁)
    (hrest : Runs (· = ·) does (w₁, f a) x) : Runs (· = ·) does (w, exec c >>= f) x :=
  .head (.call rfl hdoes) hrest

/-- DATA without a mark is read, and no sum found. -/
theorem readOld_runs {w : World} (hmountable : w.mountable = true) (hmark : w.mark.now = none) :
    Runs (· = ·) does (w, readOld) (w, .ret ((0 : ℕ), ([] : Bytes))) := by
  refine runs_exec true ⟨hmountable.symm, rfl⟩ ?_
  refine runs_exec (0 : ℕ) rfl ?_
  refine runs_exec ([] : Bytes) ⟨by rw [hmark]; rfl, rfl⟩ ?_
  exact runs_exec true rfl .refl

/-- A request without a mark is carried out, up to the deletion. -/
theorem resetBoot_erases {w : World} {r : Request} (hmounted : w.bootMounted = true)
    (hr : w.request.now = some r) (hasks : asksReset r.content = true)
    (hmountable : w.mountable = true) (hmark : w.mark.now = none) :
    Runs (· = ·) does (w, resetBoot)
      ({ w with
        mark := .settled (some (markText r.content))
        mountable := true
        history := .completed r :: .rewritten r :: .erasing r :: w.history }, deleteRequest) := by
  have hread : w.request.now.map Request.content = some r.content := by
    rw [hr]
    rfl
  have hlong : ([] : Bytes) ≠ sha256sum r.content := by
    intro hsum
    have hlen := sha256sum_length r.content
    rw [← hsum] at hlen
    cases hlen
  refine runs_exec true ⟨by rw [hmounted, hr]; rfl, rfl⟩ ?_
  refine runs_exec r.content ⟨hread, rfl⟩ ?_
  rw [if_pos hasks]
  refine runs_exec false rfl ?_
  refine runs_exec r.content ⟨hread, rfl⟩ ?_
  refine runs_exec true rfl ?_
  refine (runs_bind (readOld_runs hmountable hmark) _).trans ?_
  simp only [ret_bind, if_neg hlong]
  refine runs_exec true ⟨r, hr, rfl⟩ ?_
  refine runs_exec true ⟨rfl, rfl⟩ ?_
  refine runs_exec () rfl ?_
  refine runs_exec true ⟨rfl, r, hr, rfl⟩ ?_
  exact runs_exec (0 : ℕ) rfl .refl

/-- The request was carried out, and BOOT could not be written to. -/
theorem deleteRequest_refused (w : World) :
    Runs (· = ·) does (w, deleteRequest) (w, .raise ()) :=
  runs_exec false rfl .refl

theorem reaches_resetting {w w' : World} {p p' : Prog Commands Unit Unit}
    (h : Runs (· = ·) does (w, p) (w', p')) :
    ReachesClear ⟨w, .resetting p⟩ ⟨w', .resetting p'⟩ := by
  generalize hx : (w, p) = x at h
  generalize hy : (w', p') = y at h
  induction h generalizing w' p' with
  | refl =>
    obtain ⟨rfl, rfl⟩ := Prod.mk.inj (hx.trans hy.symm)
    exact .refl
  | tail _ hstep ih =>
    obtain ⟨rfl, hdoes⟩ := hstep
    obtain ⟨rfl, rfl⟩ := Prod.mk.inj hy
    exact (ih rfl).tail ⟨.command, trivial, .reset hdoes⟩

theorem ReachesClear.reaches {b b' : Box} (h : ReachesClear b b') : Reaches b b' :=
  Relation.ReflTransGen.mono (fun _ _ ⟨m, _, hstep⟩ => ⟨m, hstep⟩) _ _ h

def sampleRequest : Request := ⟨0, ascii "ERASE\n"⟩

/-- The card as flashed, with a request on it. -/
def flashed : World := ⟨false, .settled (some sampleRequest), .settled none, true, 1, []⟩

/-- The request carried out and left on a BOOT that is read-only. -/
def carriedOut : World := { flashed with
  bootMounted := true
  mark := .settled (some (markText sampleRequest.content))
  history := [.completed sampleRequest, .rewritten sampleRequest, .erasing sampleRequest] }

theorem flashed_flashed : Flashed ⟨flashed, .off⟩ := by
  refine ⟨rfl, rfl, ?_, rfl, rfl⟩
  intro r hr
  obtain rfl := Option.some.inj hr
  exact Nat.zero_lt_one

theorem sample_asks : asksReset sampleRequest.content = true := by
  decide +kernel

theorem carriedOut_reached : ReachesClear ⟨flashed, .off⟩ ⟨carriedOut, .up⟩ := by
  have hclear : Distinct flashed := fun _ _ _ hdone => absurd hdone List.not_mem_nil
  refine .head ⟨.powerOn, hclear, .powerOn true⟩ ?_
  refine (reaches_resetting ((resetBoot_erases rfl rfl sample_asks rfl rfl).trans
    (deleteRequest_refused _))).tail ?_
  exact ⟨.ends, trivial, .resetFails⟩

/-- Carried out, found again by a boot without BOOT, and the mark forgotten there. -/
def forgotten : World := { carriedOut with bootMounted := false, mark := .settled none }

theorem forgotten_reached : Reaches ⟨carriedOut, .up⟩ ⟨forgotten, .off⟩ := by
  refine .head (b := ⟨carriedOut, .off⟩) ⟨.cut, .cut ⟨_, Or.inl rfl, _, Or.inl rfl, rfl⟩⟩ ?_
  refine .head ⟨.powerOn, .powerOn false⟩ ?_
  refine .head ⟨.command, .reset (a := false) ⟨rfl, rfl⟩⟩ ?_
  refine .head ⟨.ends, .resetReturns⟩ ?_
  refine .head ⟨.imports, .imports rfl⟩ ?_
  refine .head ⟨.command, .import (a := true) ⟨rfl, rfl⟩⟩ ?_
  refine .head ⟨.command, .import (a := true) ⟨rfl, rfl⟩⟩ ?_
  refine .head ⟨.command, .import (a := false) ⟨rfl, rfl⟩⟩ ?_
  refine .head ⟨.command, .import (c := .removeDone) (a := true) rfl⟩ ?_
  refine .head ⟨.ends, .importReturns⟩ ?_
  exact .single ⟨.cut, .cut ⟨_, Or.inl rfl, _, Or.inl rfl, rfl⟩⟩

/-- A boot with BOOT not mounted forgets the mark of a request that is still on it, and the
next one with BOOT erases DATA again. -/
theorem forgotten_erases_again : ∃ b, Reaches ⟨flashed, .off⟩ b ∧ Flashed ⟨flashed, .off⟩ ∧
    ¬ Fine b.world.history := by
  refine ⟨_, (carriedOut_reached.reaches.trans forgotten_reached).trans
    (.head ⟨.powerOn, .powerOn true⟩
      (reaches_resetting (resetBoot_erases rfl rfl sample_asks rfl rfl)).reaches),
    flashed_flashed, ?_⟩
  rintro ⟨hagain, -⟩
  exact hagain List.mem_cons_self

theorem carried_out_once_sample :
    Flashed ⟨flashed, .off⟩ ∧ ReachesClear ⟨flashed, .off⟩ ⟨carriedOut, .up⟩ ∧
      Fine carriedOut.history :=
  ⟨flashed_flashed, carriedOut_reached, carried_out_once flashed_flashed carriedOut_reached⟩

end Epilykos.FactoryReset
