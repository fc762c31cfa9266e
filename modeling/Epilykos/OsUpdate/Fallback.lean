import Epilykos.OsUpdate.Refinement
import Epilykos.OsUpdate.Restart
import Mathlib.Data.List.Induction

/-!
What the loader does while nobody marks a slot: it spends the attempts of the first slot of
BOOT_ORDER, then those of the next one, and then it halts. So a trial that is never confirmed
has somewhere to go back to exactly when the source had an attempt left at the activation.
-/

namespace Epilykos.OsUpdate

open Program World

variable {O : Oracles} {w w' : World} {job : Job}

/-! ### The attempts that are left -/

/-- The slots the loader starts one after another while nobody marks a slot. -/
def Env.upcoming (env : Env) : List Slot :=
  env.bootOrder.flatMap fun s => List.replicate (env.left s) s

theorem find?_left (left : Slot → ℕ) (order : List Slot) :
    (order.find? fun s => left s != 0) =
      (order.flatMap fun s => List.replicate (left s) s).head? := by
  induction order with
  | nil => rfl
  | cons s rest ih =>
    cases hs : left s with
    | zero => simp [hs, ih]
    | succ n => simp [hs, List.replicate_succ]

theorem flatMap_spent {left : Slot → ℕ} {s : Slot} {order : List Slot} (hnodup : order.Nodup)
    (h : (order.find? fun s => left s != 0) = some s) :
    (order.flatMap fun r => List.replicate (left r) r) =
      s :: order.flatMap fun r => List.replicate (Function.update left s (left s - 1) r) r := by
  induction order with
  | nil => cases h
  | cons r rest ih =>
    obtain ⟨hr, hrest⟩ := List.nodup_cons.mp hnodup
    cases hleft : left r with
    | zero =>
      have hfind : (rest.find? fun s => left s != 0) = some s := by simpa [hleft] using h
      have hne : r ≠ s := fun he => hr (he ▸ List.mem_of_find?_eq_some hfind)
      simpa [hleft, Function.update_of_ne hne] using ih hrest hfind
    | succ n =>
      obtain rfl : r = s := by simpa [hleft] using h
      have hsame : (rest.flatMap fun q => List.replicate (Function.update left r n q) q) =
          rest.flatMap fun q => List.replicate (left q) q :=
        List.flatMap_congr fun q hq => by
          have hne : q ≠ r := fun he => hr (he ▸ hq)
          rw [Function.update_of_ne hne]
      simp [hleft, List.replicate_succ, hsame]

theorem Env.select_eq {env : Env} (h : env.osPhase ≠ some .ready) :
    env.select = env.upcoming.head? := by
  have heligible : env.eligible = fun s => env.left s != 0 := by
    funext s
    simp [eligible, h]
  rw [select, heligible]
  exact find?_left env.left env.bootOrder

/-- A launch spends the first of them. -/
theorem Env.upcoming_launch {env : Env} {s : Slot} (haccepted : env.accepted = true)
    (hphase : env.osPhase ≠ some .ready) (h : env.select = some s) :
    env.upcoming = s :: (env.launch s).upcoming := by
  have hnodup : env.bootOrder.Nodup := by
    have horder := (accepted_iff.mp haccepted).2.1
    simp only [orderValid, List.contains_iff_mem, List.mem_cons, List.not_mem_nil, or_false]
      at horder
    obtain h | h | h | h := horder <;> rw [h] <;> decide
  have hfind : (env.bootOrder.find? fun s => env.left s != 0) = some s := by
    rw [find?_left]
    exact (select_eq hphase).symm.trans h
  simpa [upcoming] using flatMap_spent hnodup hfind

/-! ### States of the box -/

/-- A state some run of a seeded box comes to. -/
def Reached (O : Oracles) (w : World) : Prop :=
  ∃ w₀, Seeded w₀ ∧ Relation.ReflTransGen (BoxMoves O) w₀ w

theorem Reached.move (h : Reached O w) (hmove : BoxMoves O w w') : Reached O w' := by
  obtain ⟨w₀, hseed, hrun⟩ := h
  exact ⟨w₀, hseed, hrun.tail hmove⟩

theorem Reached.boots {s : Slot} (h : Reached O w) (hboots : Boots w s w') : Reached O w' :=
  h.move ⟨.boots s hboots, .inr ⟨s, hboots⟩⟩

/-- The loader starts a slot it may start. -/
theorem boots_launch {s : Slot} (haccepted : w.env.accepted = true) (hselect : w.env.select = some s) :
    Boots w s { w with env := w.env.launch s, booted := s } :=
  ⟨haccepted, hselect, ⟨rfl, rfl, rfl, rfl, rfl, rfl, rfl, rfl, rfl, rfl, rfl⟩⟩

theorem Reached.sound (h : Reached O w) : w.Sound := by
  obtain ⟨w₀, hseed, hrun⟩ := h
  exact run_sound hseed.sound (Relation.ReflTransGen.mono (fun _ _ h => h.1) _ _ hrun)

theorem Reached.phase (h : Reached O w) : w.env.osPhase ≠ some .ready := by
  obtain ⟨w₀, hseed, hrun⟩ := h
  intro hready
  have hphase := (tracked_run (x := w₀.shared) (.noJob hseed.noJob)
    (run_traced hseed.traced hrun).path).phase
  change w.env.osPhase ∈ _ at hphase
  rw [hready] at hphase
  revert hphase
  decide

theorem Reached.halts_iff (h : Reached O w) : bootSlot w.env = none ↔ w.env.upcoming = [] := by
  rw [bootSlot_eq_none, h.sound.env, Env.select_eq h.phase, List.head?_eq_none_iff]
  simp

/-! ### Launches -/

/-- What happens while nobody marks a slot, and the slots the loader starts meanwhile. -/
inductive Launches (O : Oracles) (w : World) : List Slot → World → Prop
  | start : Launches O w [] w
  | boots {slots : List Slot} {w₁ w₂ : World} {s : Slot} (h : Launches O w slots w₁)
    (hboots : Boots w₁ s w₂) : Launches O w (slots ++ [s]) w₂
  | unmarked {slots : List Slot} {w₁ w₂ : World} (h : Launches O w slots w₁)
    (hmove : BoxMoves O w₁ w₂) (horder : w₂.env.bootOrder = w₁.env.bootOrder)
    (hleft : w₂.env.left = w₁.env.left) : Launches O w slots w₂

theorem Launches.reached {slots : List Slot} (hw : Reached O w) (h : Launches O w slots w') :
    Reached O w' := by
  induction h with
  | start => exact hw
  | boots _ hboots ih => exact ih.boots hboots
  | unmarked _ hmove _ _ ih => exact ih.move hmove

theorem Launches.upcoming {slots : List Slot} (hw : Reached O w) (h : Launches O w slots w') :
    w.env.upcoming = slots ++ w'.env.upcoming := by
  induction h with
  | start => rfl
  | @boots slots w₁ w₂ s hrest hboots ih =>
    have hreached := hrest.reached hw
    have hspent : w₁.env.upcoming = s :: w₂.env.upcoming := by
      rw [hboots.rest.env]
      exact Env.upcoming_launch hreached.sound.env hreached.phase hboots.select
    rw [ih, hspent, List.append_assoc, List.singleton_append]
  | unmarked _ _ horder hleft ih => rw [ih, Env.upcoming, Env.upcoming, horder, hleft]

/-- The loader can be let start each of them. -/
theorem exists_launches (hw : Reached O w) {slots : List Slot} (h : slots <+: w.env.upcoming) :
    ∃ w', Launches O w slots w' := by
  induction slots using List.reverseRecOn with
  | nil => exact ⟨w, .start⟩
  | append_singleton slots s ih =>
    obtain ⟨w₁, h₁⟩ := ih ((List.prefix_append slots [s]).trans h)
    have hreached := h₁.reached hw
    have hnext : w₁.env.upcoming.head? = some s := by
      obtain ⟨rest, hrest⟩ := h
      rw [h₁.upcoming hw, List.append_assoc, List.append_cancel_left_eq] at hrest
      rw [← hrest]
      rfl
    have hboots := boots_launch hreached.sound.env ((Env.select_eq hreached.phase).trans hnext)
    exact ⟨_, h₁.boots hboots⟩

/-! ### The activation -/

/-- The order and the attempts are as they were. -/
def Unmarked (w t : World) : Prop :=
  t.env.bootOrder = w.env.bootOrder ∧ t.env.left = w.env.left

theorem HostCall.intends.unmarked {t t' : World} {c : HostCall} {x : Ans c} (hc : c.intends job)
    (ht : Unmarked w t) (ho : Outcome O t c x t') : Unmarked w t' := by
  obtain hlooks | ⟨image, rfl⟩ := hc
  · rw [Unmarked, (hlooks.outcome ho).env]
    exact ht
  · obtain rfl | ⟨rfl, -⟩ := ho.2
    · exact ⟨(Env.write_bootOrder _ _).trans ht.1, (Env.write_left _ _).trans ht.2⟩
    · exact ht

/-- An intent marks nothing, and is only written when the target cannot start. -/
theorem intend_unmarked : Ends O (intend O job) (fun refusal t => Unmarked w t ∧
    (refusal = none → nonBootable w.env job.target job.source = true)) w := by
  have hmarks : Ends O (intend O job) (fun _ => Unmarked w) w := by
    have hsafe : Alone O (fun _ _ => True) (intend O job) (fun _ => Unmarked w)
        (fun _ => Unmarked w) w := by
      refine intend_makes.safe ?_ ?_ ⟨rfl, rfl⟩
      · rintro t _ rfl ht
        exact ht
      · exact fun t c hc ht => ⟨trivial, fun x t' ho => hc.unmarked ht ho⟩
    exact hsafe.mono (fun _ _ h => h) fun _ _ _ => trivial
  have hboots : Ends O (intend O job)
      (fun refusal _ => refusal = none → nonBootable w.env job.target job.source = true) w := by
    refine Safe.tryCatch (Safe.mono (E := fun _ _ => True) ?_ (fun _ _ h => h) ?_)
    · refine Safe.bind ((revalidate_alone fun _ _ _ => trivial).mono ?_ fun _ _ _ => trivial)
      rintro _ w₁ ⟨-, hboot, -⟩
      exact (gives_true _).safe.mono (fun _ _ _ _ => hboot) fun _ _ _ => trivial
    · intro e t _
      cases e <;> first | trivial | exact (nofun : some _ = none → _)
  exact (hmarks.and hboots).mono (fun _ _ h => h) fun _ _ _ => trivial

theorem backToReady_gives (error : String) : (backToReady job error).Gives fun n => n = 1 := by
  refine (gives_true _).bind fun safe _ => ?_
  split_ifs
  · exact (gives_true _).bind fun _ _ => (gives_true _).bind fun _ _ => rfl
  · exact (gives_true _).bind fun _ _ => (gives_true _).bind fun _ _ => rfl

/-- What an activation that was carried out has marked. -/
structure MarkedFor (t : Slot) (left : Slot → ℕ) (w : World) : Prop where
  order : w.env.bootOrder = [t, t.other]
  left : w.env.left = Function.update left t 3

theorem activateTarget_marks {t : Slot} (htarget : job.target = some t)
    (hfirst : w.env.bootOrder.head? ≠ some t) :
    Ends O (activateTarget job) (fun n w' => n = 0 → MarkedFor t w.env.left w') w := by
  have hback : ∀ (error : String) (w₁ : World), Ends O (backToReady job error)
      (fun n w' => n = 0 → MarkedFor t w.env.left w') w₁ := fun error w₁ =>
    (backToReady_gives error).safe.mono (fun n _ h h0 => absurd (h0.symm.trans h) (by decide))
      fun _ _ _ => trivial
  refine Safe.bind (need_ends fun t' ht' => ?_)
  obtain rfl : t = t' := Option.some.inj (htarget.symm.trans ht')
  refine Safe.bind (run_ends fun _ w₁ hw₁ => Safe.bind (readEnv_ends ?_))
  by_cases hmarked : w₁.env.bootOrder.head? ≠ some t ∨ w₁.env.left t ≠ 3
  · rw [if_pos hmarked]
    exact hback _ w₁
  · rw [if_neg hmarked]
    have h₁ : MarkedFor t w.env.left w₁ := by
      obtain rfl | rfl := hw₁
      · exact absurd (Or.inl hfirst) hmarked
      · exact ⟨rfl, rfl⟩
    refine Safe.bind (setEnv_alone trivial (fun _ _ =>
      ⟨trivial, fun _ => trivial, fun _ => trivial⟩) ?_)
    refine Safe.bind (save_ends (Safe.bind (safe_call.mpr ⟨trivial, fun x w₂ ho => ?_⟩)))
    have hmark : MarkedFor t w.env.left w₂ := by
      have hsame : w₂.env = w₁.env.write [.osPhase (some .activated)] := by
        obtain rfl | ⟨rfl, -⟩ := ho.2 <;> rfl
      refine ⟨?_, ?_⟩ <;> rw [hsame]
      · exact (Env.write_bootOrder _ _).trans h₁.order
      · exact (Env.write_left _ _).trans h₁.left
    cases x with
    | noAnswer => trivial
    | ok => exact fun _ => hmark
    | failed => exact fun _ => hmark

theorem activate_marks {s : Slot} (hsource : job.source = some s) (htarget : job.target = some s.other)
    (hnew : job.progress.activated = false) :
    Ends O (activate O job) (fun n w' => n = 0 → MarkedFor s.other w.env.left w') w := by
  refine Safe.bind ?_
  rw [alreadyActivated, if_neg (by simp [hnew])]
  refine safe_ret.mpr (Safe.bind (intend_unmarked.mono ?_ fun _ _ h => h))
  rintro refusal w₁ ⟨⟨horder, hleft⟩, hboot⟩
  cases refusal with
  | some error =>
    exact (backToReady_gives error).safe.mono (fun n _ h h0 => absurd (h0.symm.trans h) (by decide))
      fun _ _ _ => trivial
  | none =>
    have hnon := hboot rfl
    rw [hsource, htarget, nonBootable, Bool.and_eq_true, beq_iff_eq, beq_iff_eq] at hnon
    have hfirst : w₁.env.bootOrder.head? ≠ some s.other := by
      rw [horder, hnon.2]
      simp
    have hmarks := activateTarget_marks (O := O) htarget hfirst
    rw [hleft] at hmarks
    exact hmarks

/-- A worker that returns zero for a restarting job has activated it. -/
theorem runWorker_marks {s : Slot} (hjob : w.journal = some job) (hstate : job.state = .restarting)
    (hsource : job.source = some s) (htarget : job.target = some s.other)
    (hnew : job.progress.activated = false) :
    Ends O (runWorker O) (fun n w' => n = 0 → MarkedFor s.other w.env.left w') w := by
  refine Safe.bind (journal_ends ?_)
  rw [hjob]
  change Ends O (if job.state.forWorker = true then takeUp O job else .ret 0) _ w
  rw [if_pos (by rw [hstate]; rfl)]
  have hstop : stopRequested job = .ret false := by
    rw [stopRequested, hstate]
    rfl
  refine Safe.bind ?_
  rw [hstop]
  refine safe_ret.mpr (Safe.bind (safe_call.mpr ⟨trivial, fun fuel w₁ ho => ?_⟩))
  obtain rfl := ho.reads rfl
  refine safe_ret.mpr (Safe.bind ?_)
  cases fuel with
  | zero => trivial
  | succ n =>
    refine Safe.bind (safe_call.mpr ⟨trivial, fun x w₂ ho => ?_⟩)
    obtain rfl := ho.reads rfl
    cases x with
    | osError => trivial
    | busy msg =>
      have hne : job.state ≠ .installing := by
        rw [hstate]
        decide
      simp only [safe_ret, if_neg hne, Prog.pure_eq]
      have hone : (do
          finish job .failed (some msg)
          return 1 : OsProg ℕ).Gives fun n => n = 1 := (gives_true _).bind fun _ _ => rfl
      exact hone.safe.mono (fun n _ h h0 => absurd (h0.symm.trans h) (by decide))
        fun _ _ _ => trivial
    | lease =>
      have hholding : Ends O (holdingLease O job)
          (fun n w' => n = 0 → MarkedFor s.other w₂.env.left w') w₂ := by
        refine Safe.bind (setGuard_ends ?_)
        rw [hstate]
        exact activate_marks (O := O)
          (w := { w₂ with guard := some { state := .active, job := some job.id } })
          hsource htarget hnew
      refine Safe.ensure (hholding.mono ?_ fun _ _ _ => ?_)
      · intro n w₃ hmarks
        refine safe_call.mpr ⟨trivial, fun _ w₄ ho => ?_⟩
        obtain rfl := ho.reads rfl
        exact hmarks
      · exact safe_call.mpr ⟨trivial, fun _ _ _ => trivial⟩

/-! ### The fallback -/

/-- While nobody marks a slot, the loader starts the target at most three times and then the
source, and does not halt before that. -/
structure FallsBack (O : Oracles) (s : Slot) (w : World) : Prop where
  launches : ∀ slots w', Launches O w slots w' → slots.length ≤ 4 →
    slots <+: List.replicate 3 s.other ++ [s]
  runs : ∀ slots w', Launches O w slots w' → slots.length ≤ 3 → bootSlot w'.env ≠ none

theorem MarkedFor.upcoming {s : Slot} {left : Slot → ℕ} (h : MarkedFor s.other left w) :
    w.env.upcoming = List.replicate 3 s.other ++ List.replicate (left s) s := by
  rw [Env.upcoming, h.order, h.left]
  simp

theorem fallsBack_iff {s : Slot} {left : Slot → ℕ} (hw : Reached O w)
    (hmarks : MarkedFor s.other left w) : FallsBack O s w ↔ 1 ≤ left s := by
  have hupcoming := hmarks.upcoming
  constructor
  · intro h
    by_contra hnone
    obtain ⟨w', hlaunches⟩ := exists_launches hw (List.prefix_refl _)
    have hempty : w'.env.upcoming = [] := by simpa using hlaunches.upcoming hw
    have hlength : w.env.upcoming.length ≤ 3 := by
      rw [hupcoming]
      simp
      omega
    exact h.runs _ w' hlaunches hlength ((hlaunches.reached hw).halts_iff.mpr hempty)
  · intro hleft
    obtain ⟨k, hk⟩ : ∃ k, left s = 1 + k := ⟨left s - 1, by omega⟩
    have hsplit : w.env.upcoming = (List.replicate 3 s.other ++ [s]) ++ List.replicate k s := by
      rw [hupcoming, hk, List.replicate_add, List.append_assoc]
      rfl
    refine ⟨fun slots w' hlaunches hlength => ?_, fun slots w' hlaunches hlength hhalts => ?_⟩
    · have hprefix : slots <+: w.env.upcoming := ⟨_, (hlaunches.upcoming hw).symm⟩
      rw [hsplit] at hprefix
      exact List.prefix_of_prefix_length_le hprefix (List.prefix_append _ _) (by simpa using hlength)
    · have hempty := (hlaunches.reached hw).halts_iff.mp hhalts
      have hall := congrArg List.length (hlaunches.upcoming hw)
      rw [hempty, hsplit] at hall
      simp at hall
      omega

/-- An activation that was carried out leaves a trial that falls back exactly when the source
had an attempt left. -/
theorem fallback_iff (hw : Reached O w) (hjob : w.journal = some job)
    (hstate : job.state = .restarting) (hnew : job.progress.activated = false)
    (hrun : Runs (· = ·) (Outcome O) (w, runWorker O) (w', .ret 0)) :
    ∃ s, job.source = some s ∧ (FallsBack O s w' ↔ 1 ≤ w.env.left s) := by
  obtain ⟨s, hsource, htarget⟩ := (hw.sound.journal job hjob).slots
  have hw' : Reached O w' := hw.move ⟨.worker (.between hrun), .inl (runs_booted hrun)⟩
  have hmarks := (runWorker_marks hjob hstate hsource htarget hnew).result hrun rfl
  exact ⟨s, hsource, fallsBack_iff hw' hmarks⟩

def restartingJob : Job := restartingWorld.journal.getD (sampleJob .ready)

theorem restarting_job : restartingWorld.journal = some restartingJob ∧
    restartingJob.state = .restarting ∧ restartingJob.progress.activated = false ∧
    ((runWorker releaseOracles).run (serve releaseOracles) restartingWorld).1.toOption = some 0 := by
  decide +kernel

theorem fallback_sample : ∃ s, restartingJob.source = some s ∧
    (FallsBack releaseOracles s activatedWorld ↔ 1 ≤ restartingWorld.env.left s) := by
  obtain ⟨hjob, hstate, hnew, hreturns⟩ := restarting_job
  have hrun := runs_run (serve_follows releaseOracles) (runWorker releaseOracles) restartingWorld
  cases hresult : ((runWorker releaseOracles).run (serve releaseOracles) restartingWorld).1 with
  | error e =>
    rw [hresult] at hreturns
    cases hreturns
  | ok n =>
    rw [hresult] at hreturns hrun
    obtain rfl : n = 0 := Option.some.inj hreturns
    exact fallback_iff ⟨_, offered_seeded, restarting_reached⟩ hjob hstate hnew hrun

/-! ### A box with nowhere to go back to -/

/-- The ready box after three starts of its slot that nobody confirmed. -/
def spentWorld : World :=
  { readyWorld with env := ((readyWorld.env.launch .a).launch .a).launch .a, booted := .a }

def spentRestarting : World := ((restart sampleId).run (serve releaseOracles) spentWorld).2

def spentActivated : World :=
  ((runWorker releaseOracles).run (serve releaseOracles) spentRestarting).2

theorem spent_env : readyWorld.env.accepted = true ∧ readyWorld.env.select = some .a ∧
    (readyWorld.env.launch .a).accepted = true ∧ (readyWorld.env.launch .a).select = some .a ∧
    ((readyWorld.env.launch .a).launch .a).accepted = true ∧
    ((readyWorld.env.launch .a).launch .a).select = some .a ∧
    spentActivated.env.osPhase = some .activated ∧ spentActivated.env.bootOrder = [.b, .a] ∧
    spentActivated.env.left .a = 0 ∧ spentActivated.env.left .b = 3 := by decide +kernel

/-- Restart checks the app and the space again, but not that the running system is confirmed:
the activation goes through, and the failed trial would halt the box. -/
theorem fallback_missing : Reached releaseOracles spentActivated ∧
    spentActivated.env.osPhase = some .activated ∧ ¬ FallsBack releaseOracles .a spentActivated := by
  obtain ⟨h₁, h₂, h₃, h₄, h₅, h₆, hphase, horder, ha, hb⟩ := spent_env
  have hready : Reached releaseOracles readyWorld := ⟨_, offered_seeded, ready_reached⟩
  have hfirst := hready.boots (boots_launch h₁ h₂)
  have hsecond := hfirst.boots (boots_launch h₃ h₄)
  have hspent : Reached releaseOracles spentWorld := hsecond.boots (boots_launch h₅ h₆)
  have hreached : Reached releaseOracles spentActivated :=
    (hspent.move (boxMoves_run _ fun _ h => .request (.restart sampleId) h)).move
      (boxMoves_run _ fun _ => .worker)
  have hmarks : MarkedFor Slot.a.other spentActivated.env.left spentActivated := by
    refine ⟨horder, (Function.update_eq_self_iff.mpr ?_).symm⟩
    exact hb.symm
  refine ⟨hreached, hphase, fun hback => ?_⟩
  have hleft := (fallsBack_iff hreached hmarks).mp hback
  rw [ha] at hleft
  exact absurd hleft (by decide)

end Epilykos.OsUpdate
