import Epilykos.AppUpdate.AllOrNothing

/-!
What pruning leaves in storage. The image of the release before the last is removed when no
state file names it any more. Where the baseline ran before, previous.json is not replaced
and still names that image.
-/

namespace Epilykos.AppUpdate

open Program

/-- The image IDs that image.env, current.json, previous.json and active.env name. -/
def named (w : World) : List String :=
  w.image.imageId :: (w.app.current.toList.map (·.imageId) ++
    w.app.previous.toList.map (·.imageId) ++ w.app.active.toList.map (·.imageId))

/-- Every image that is referenced is in storage. -/
def Referenced (w : World) : Prop := ∀ id ∈ named w, id ∈ w.images

theorem mem_named {w : World} {id : String} : id ∈ named w ↔ id = w.image.imageId ∨
    (∃ r ∈ w.app.current, r.imageId = id) ∨ (∃ r ∈ w.app.previous, r.imageId = id) ∨
      ∃ a ∈ w.app.active, a.imageId = id := by
  simp [named]

instance (w : World) : Decidable (Referenced w) :=
  inferInstanceAs (Decidable (∀ id ∈ named w, id ∈ w.images))

/-- The files name images of this list only, and all of it is in storage. -/
structure Within (ids : List String) (w : World) : Prop where
  image : w.image.imageId ∈ ids
  current : ∀ r ∈ w.app.current, r.imageId ∈ ids
  previous : ∀ r ∈ w.app.previous, r.imageId ∈ ids
  active : ∀ a ∈ w.app.active, a.imageId ∈ ids
  stored : ∀ id ∈ ids, id ∈ w.images

theorem Within.referenced {ids : List String} {w : World} (h : Within ids w) : Referenced w := by
  intro id hid
  obtain rfl | ⟨r, hr, rfl⟩ | ⟨r, hr, rfl⟩ | ⟨a, ha, rfl⟩ := mem_named.mp hid
  · exact h.stored _ h.image
  · exact h.stored _ (h.current r hr)
  · exact h.stored _ (h.previous r hr)
  · exact h.stored _ (h.active a ha)

theorem Referenced.within {w : World} (h : Referenced w) : Within (named w) w where
  image := mem_named.mpr (Or.inl rfl)
  current r hr := mem_named.mpr (Or.inr (Or.inl ⟨r, hr, rfl⟩))
  previous r hr := mem_named.mpr (Or.inr (Or.inr (Or.inl ⟨r, hr, rfl⟩)))
  active a ha := mem_named.mpr (Or.inr (Or.inr (Or.inr ⟨a, ha, rfl⟩)))
  stored := h

theorem Within.cons {ids : List String} {w : World} {id : String} (h : Within ids w)
    (hid : id ∈ w.images) : Within (id :: ids) w where
  image := List.mem_cons_of_mem _ h.image
  current r hr := List.mem_cons_of_mem _ (h.current r hr)
  previous r hr := List.mem_cons_of_mem _ (h.previous r hr)
  active a ha := List.mem_cons_of_mem _ (h.active a ha)
  stored k hk := by
    obtain rfl | hk := List.mem_cons.mp hk
    · exact hid
    · exact h.stored k hk

/-- A call that names images of the list only, and removes none of them. -/
def UpdCall.keeps (ids : List String) : UpdCall → Prop
  | .write (.current r) | .write (.previous r) => r.imageId ∈ ids
  | .write (.active a) => a.imageId ∈ ids
  | .rmi id => id ∉ ids
  | _ => True

theorem Within.wrote {ids : List String} {w : World} {x : Write} (h : Within ids w)
    (hx : UpdCall.keeps ids (.write x)) : Within ids (w.wrote x) := by
  have hone {α : Type} (f : α → String) (y : α) (hy : f y ∈ ids) : ∀ z ∈ some y, f z ∈ ids := by
    rintro _ ⟨⟩
    exact hy
  cases x with
  | current r => exact ⟨h.image, hone _ r hx, h.previous, h.active, h.stored⟩
  | previous r => exact ⟨h.image, h.current, hone _ r hx, h.active, h.stored⟩
  | active a => exact ⟨h.image, h.current, h.previous, hone _ a hx, h.stored⟩
  | _ => exact ⟨h.image, h.current, h.previous, h.active, h.stored⟩

theorem Within.removed {ids : List String} {w : World} (f : File) (h : Within ids w) :
    Within ids (w.removed f) := by
  have hnone {α : Type} (g : α → String) : ∀ z ∈ (none : Option α), g z ∈ ids := by
    rintro _ ⟨⟩
  cases f with
  | current => exact ⟨h.image, hnone _, h.previous, h.active, h.stored⟩
  | previous => exact ⟨h.image, h.current, hnone _, h.active, h.stored⟩
  | active => exact ⟨h.image, h.current, h.previous, hnone _, h.stored⟩
  | _ => exact ⟨h.image, h.current, h.previous, h.active, h.stored⟩

theorem Within.effect {O : Oracles} {ids : List String} {w : World} {c : UpdCall}
    (h : Within ids w) (hc : c.keeps ids) : Within ids (w.effect O c) := by
  cases c with
  | write x => exact h.wrote hc
  | remove f => exact h.removed f
  | pull ref =>
    exact ⟨h.image, h.current, h.previous, h.active,
      fun id hid => List.mem_cons_of_mem _ (h.stored id hid)⟩
  | rmi id =>
    refine ⟨h.image, h.current, h.previous, h.active, fun k hk => ?_⟩
    have hne : k ≠ id := fun heq => hc (heq ▸ hk)
    exact List.mem_filter.mpr ⟨h.stored k hk, decide_eq_true hne⟩
  | _ => exact ⟨h.image, h.current, h.previous, h.active, h.stored⟩

theorem Within.outcome {O : Oracles} {ids : List String} {w w' : World} {c : UpdCall} {x : c.Ans}
    (h : Within ids w) (hc : c.keeps ids) (hw : w.Outcome O c x w') : Within ids w' := by
  obtain ⟨_, rfl | ⟨rfl, _⟩⟩ := hw
  · exact h.effect hc
  · exact h

theorem OthersCheck.within {ids : List String} {w w' : World} (hw : OthersCheck w w')
    (h : Within ids w) : Within ids w' := by
  obtain ⟨verified, rfl⟩ := hw
  exact ⟨h.image, h.current, h.previous, h.active, h.stored⟩

/-- The part of the update leaves all that is referenced in storage, wherever it is stopped. -/
abbrev Spends (O : Oracles) {ε α : Type} (p : Prog Updater ε α) (Q : α → World → Prop)
    (E : World → Prop) (w : World) : Prop :=
  Safe OthersCheck (World.Outcome O) (fun t _ => Referenced t) p Q (fun _ => E) w

theorem keeps_spends {O : Oracles} {ids : List String} {ε α : Type} {p : Prog Updater ε α}
    {w : World} (hp : p.Makes (F := Updater) fun c => c.keeps ids) (hw : Within ids w) :
    Spends O p (fun _ => Within ids) (Within ids) w :=
  hp.safe (fun _ _ hr ht => hr.within ht)
    (fun _ _ hc ht => ⟨ht.referenced, fun _ _ ht' => ht.outcome hc ht'⟩) hw

/-! ### Where the files stand -/

structure At (ids : List String) (image : Release) (app : AppFiles) (w : World) : Prop where
  within : Within ids w
  image : w.image = image
  app : w.app = app

/-- A call that leaves the application's files and the images alone. -/
def UpdCall.aside : UpdCall → Bool
  | .write (.job _) | .write (.result _) | .write (.verified _) | .write (.attempt _) => true
  | .write _ | .remove _ | .rmi _ => false
  | _ => true

theorem aside_keeps {ids : List String} {c : UpdCall} (hc : c.aside = true) : c.keeps ids := by
  cases c with
  | write x =>
    cases x with
    | current r | previous r | active a => cases hc
    | _ => trivial
  | rmi id => cases hc
  | _ => trivial

theorem aside_effect {O : Oracles} {w : World} {c : UpdCall} (hc : c.aside = true) :
    (w.effect O c).image = w.image ∧ (w.effect O c).app = w.app := by
  cases c with
  | write x => cases x <;> first | exact ⟨rfl, rfl⟩ | cases hc
  | remove f => cases hc
  | _ => exact ⟨rfl, rfl⟩

section Parts

variable {O : Oracles} {ids : List String} {image : Release} {app : AppFiles} {ε α : Type}
  {w : World}

theorem At.others {w' : World} (h : At ids image app w) (hw : OthersCheck w w') :
    At ids image app w' := by
  have hwithin := hw.within h.within
  obtain ⟨verified, rfl⟩ := hw
  exact ⟨hwithin, h.image, h.app⟩

theorem At.outcome {w' : World} {c : UpdCall} {x : c.Ans} (h : At ids image app w)
    (hc : c.aside = true) (hw : w.Outcome O c x w') : At ids image app w' := by
  have hwithin := h.within.outcome (aside_keeps hc) hw
  obtain ⟨_, rfl | ⟨rfl, _⟩⟩ := hw
  · obtain ⟨himage, happ⟩ := aside_effect (O := O) (w := w) hc
    exact ⟨hwithin, himage.trans h.image, happ.trans h.app⟩
  · exact h

theorem aside_spends {p : Prog Updater ε α}
    (hp : p.Makes (F := Updater) fun c => c.aside = true) (hw : At ids image app w) :
    Spends O p (fun _ => At ids image app) (At ids image app) w :=
  hp.safe (fun _ _ hr ht => ht.others hr)
    (fun _ _ hc ht => ⟨ht.within.referenced, fun _ _ ht' => ht.outcome hc ht'⟩) hw

/-- The write of an image of the list: the next part starts with the file replaced. -/
theorem write_spends {x : Write} (hx : UpdCall.keeps ids (.write x)) (hw : At ids image app w) :
    Spends O (write x) (fun _ t => ∃ u, At ids image app u ∧ t = u.wrote x) (Within ids) w := by
  intro t ht
  have hat := hw.others ht
  refine ⟨hat.within.referenced, ?_⟩
  rintro a t' ⟨_, ht' | ⟨rfl, hack⟩⟩
  · obtain rfl : t' = t.wrote x := ht'
    cases a with
    | ok _ => exact ⟨t, hat, rfl⟩
    | error e => exact hat.within.wrote hx
  · cases a with
    | ok _ => cases hack
    | error e => exact hat.within

/-- The image of what ran before is still there for the handler. -/
def Recoverable (before : Running) (w : World) : Prop :=
  ∃ ids, Within ids w ∧ before.toRelease.imageId ∈ ids

end Parts

theorem At.recoverable {ids : List String} {image : Release} {app : AppFiles} {before : Running}
    {w : World} (h : At ids image app w) (hbefore : before.toRelease.imageId ∈ ids) :
    Recoverable before w := ⟨ids, h.within, hbefore⟩

theorem stage_spends {O : Oracles} {w : World} {ids : List String} {image : Release}
    {app : AppFiles} {candidate : Candidate} {job : Job} {before : Running}
    (hbefore : before.toRelease.imageId ∈ ids) (hw : At ids image app w) :
    Spends O (stage candidate job)
      (fun cand t => cand = candidateOf O candidate ∧
        At (cand.imageId :: ids) image { app with active := some cand.toActive } t)
      (Recoverable before) w := by
  have hpull : (pull candidate.ref).Makes (F := Updater) fun c => c.aside = true :=
    ⟨rfl, fun x => (makes_ofExcept x).bind fun y => by cases y <;> trivial⟩
  refine Safe.bind ((aside_spends hpull hw).mono ?_ fun _ _ h => h.recoverable hbefore)
  intro _ t₁ h₁ t₂ h₂
  have hat := h₁.others h₂
  refine ⟨hat.within.referenced, ?_⟩
  intro answer t₃ ht₃
  have hat₃ := hat.outcome rfl ht₃
  cases answer with
  | error e => exact hat₃.recoverable hbefore
  | ok id =>
    obtain ⟨rfl, hid⟩ := ht₃.1 id rfl
    have himages : t₃.images = t₂.images := by
      obtain ⟨_, rfl | ⟨rfl, _⟩⟩ := ht₃ <;> rfl
    have hmore : At (O.imageOf candidate.ref :: ids) image app t₃ :=
      ⟨hat₃.within.cons (himages ▸ hid), hat₃.image, hat₃.app⟩
    have hbefore' := List.mem_cons_of_mem (O.imageOf candidate.ref) hbefore
    have hjob : (write (.job { job with stage := .starting })).Makes (F := Updater)
        fun c => c.aside = true := ⟨rfl, fun x => makes_ofExcept x⟩
    change Spends O (do
      write (.job { job with stage := .starting })
      setActive (.promoted (candidateOf O candidate))
      return candidateOf O candidate) _ _ t₃
    refine Safe.bind ((aside_spends hjob hmore).mono ?_ fun _ _ h => h.recoverable hbefore')
    intro _ t₄ h₄
    have hnamed : UpdCall.keeps (O.imageOf candidate.ref :: ids)
        (.write (.active (candidateOf O candidate).toActive)) := List.mem_cons_self
    refine Safe.bind ((write_spends hnamed h₄).mono ?_ fun _ _ h => ⟨_, h, hbefore'⟩)
    rintro _ t₅ ⟨u, hu, rfl⟩
    refine ⟨rfl, hu.within.wrote hnamed, hu.image, ?_⟩
    rw [World.wrote, hu.app]

/-- The files once everything is promoted. -/
def promotedFiles (w : World) (cand : Release) : AppFiles :=
  { current := some cand
    previous := match w.before with | .promoted r => some r | .baseline _ => w.app.previous
    floor := some cand.sequence
    active := some cand.toActive }

theorem keepPrevious_spends {O : Oracles} {w t : World} {ids : List String} {cand : Release}
    (hbefore : w.before.toRelease.imageId ∈ ids)
    (ht : At ids w.image { w.app with active := some cand.toActive } t) :
    Spends O (keepPrevious w.before)
      (fun _ => At ids w.image { w.app with
        previous := (promotedFiles w cand).previous, active := some cand.toActive })
      (Recoverable w.before) t := by
  rw [promotedFiles]
  cases hrun : w.before with
  | baseline b => exact ht
  | promoted r =>
    rw [hrun] at hbefore
    refine (write_spends (x := .previous r) hbefore ht).mono ?_ fun _ _ h => ⟨_, h, hbefore⟩
    rintro _ t' ⟨u, hu, rfl⟩
    refine ⟨hu.within.wrote hbefore, hu.image, ?_⟩
    rw [World.wrote, hu.app]

/-- Once previous.json names what ran before, no file names the image that is removed. -/
theorem pruned_unnamed {w t : World} {ids : List String} {cand r : Release}
    (hrun : w.before = .promoted r) (hr : r.imageId ∈ ids) (hcand : cand.imageId ∈ ids)
    (ht : At ids w.image (promotedFiles w cand) t) :
    Within [cand.imageId, r.imageId, w.image.imageId] t := by
  obtain ⟨hwithin, himage, happ⟩ := ht
  have hmem : w.image.imageId ∈ ids := himage ▸ hwithin.image
  refine ⟨?_, ?_, ?_, ?_, ?_⟩
  · rw [himage]
    simp
  · rw [happ]
    rintro _ ⟨⟩
    simp
  · rw [happ, promotedFiles, hrun]
    rintro _ ⟨⟩
    simp
  · rw [happ]
    rintro _ ⟨⟩
    exact List.mem_cons_self
  · intro id hid
    simp only [List.mem_cons, List.not_mem_nil, or_false] at hid
    obtain rfl | rfl | rfl := hid
    · exact hwithin.stored _ hcand
    · exact hwithin.stored _ hr
    · exact hwithin.stored _ hmem

theorem prune_spends {O : Oracles} {w t : World} {ids : List String} {cand : Release}
    (hbefore : w.before.toRelease.imageId ∈ ids) (hcand : cand.imageId ∈ ids)
    (hcond : ¬ ((∃ b, w.before = .baseline b) ∧ prunes w w.before cand = true))
    (ht : At ids w.image (promotedFiles w cand) t) :
    Spends O (prune w.before cand w.app.previous) (fun _ => Recoverable w.before)
      (Recoverable w.before) t := by
  intro t₁ ht₁
  have h₁ := ht.others ht₁
  refine ⟨h₁.within.referenced, ?_⟩
  intro base t₂ ht₂
  have h₂ := h₁.outcome rfl ht₂
  obtain rfl : base = w.image := ht₂.1.trans h₁.image
  cases hold : w.app.previous with
  | none => exact h₂.recoverable hbefore
  | some old =>
    change Spends O (Prog.when (old.imageId ∉ [cand.imageId, w.before.toRelease.imageId,
      w.image.imageId]) (do let _ ← Prog.ofExcept (← ask (.rmi old.imageId)))) _ _ t₂
    by_cases hkeep : old.imageId ∉ [cand.imageId, w.before.toRelease.imageId, w.image.imageId]
    · rw [Prog.when_pos hkeep]
      have hprunes : prunes w w.before cand = true := by
        rw [prunes, hold, Option.any_some]
        exact decide_eq_true hkeep
      cases hrun : w.before with
      | baseline b => exact absurd ⟨⟨b, hrun⟩, hprunes⟩ hcond
      | promoted r =>
        rw [hrun] at hbefore hkeep
        have hwithin := pruned_unnamed hrun hbefore hcand h₂
        have hrecover (t' : World) (h : Within _ t') : Recoverable (.promoted r) t' :=
          ⟨[cand.imageId, r.imageId, w.image.imageId], h, by simp [Running.toRelease]⟩
        have hmakes : Prog.Makes (F := Updater) (fun c => c.keeps
            [cand.imageId, r.imageId, w.image.imageId])
            (do let _ ← Prog.ofExcept (← ask (.rmi old.imageId)) : UpdProg Unit) :=
          ⟨hkeep, fun x => (makes_ofExcept x).bind fun _ => trivial⟩
        exact (keeps_spends hmakes hwithin).mono (fun _ t' h => hrecover t' h)
          fun _ t' h => hrecover t' h
    · rw [Prog.when_neg hkeep]
      exact h₂.recoverable hbefore

theorem promote_spends {O : Oracles} {w t : World} {ids : List String} {cand : Release}
    (hbefore : w.before.toRelease.imageId ∈ ids) (hcand : cand.imageId ∈ ids)
    (hcond : ¬ ((∃ b, w.before = .baseline b) ∧ prunes w w.before cand = true))
    (ht : At ids w.image { w.app with active := some cand.toActive } t) :
    Spends O (promote w.before cand) (fun _ => Recoverable w.before) (Recoverable w.before) t := by
  have hhealthy : reportsHealthy.Makes (F := Updater) fun c => c.aside = true := by
    refine Prog.Makes.tryCatch ⟨rfl, fun x => makes_ofExcept x⟩ fun e => ?_
    by_cases he : e = .timeout <;> simp [he]
  refine Safe.bind ((aside_spends hhealthy ht).mono ?_ fun _ _ h => h.recoverable hbefore)
  intro healthy t₁ h₁
  refine Safe.bind ((aside_spends (makes_raiseIf _) h₁).mono ?_ fun _ _ h => h.recoverable hbefore)
  intro _ t₂ h₂ t₃ ht₃
  have h₃ := h₂.others ht₃
  refine ⟨h₃.within.referenced, ?_⟩
  intro old t₄ ht₄
  have h₄ := h₃.outcome rfl ht₄
  obtain rfl : old = w.app.previous := ht₄.1.trans (by rw [h₃.app])
  change Spends O (do
    keepPrevious w.before
    write (.current cand)
    write (.floor cand.sequence)
    write (.result (.ok cand.release cand.sequence))
    prune w.before cand w.app.previous) _ _ t₄
  refine Safe.bind ((keepPrevious_spends hbefore h₄).mono ?_ fun _ _ h => h)
  intro _ t₅ h₅
  refine Safe.bind ((write_spends (x := .current cand) hcand h₅).mono ?_
    fun _ _ h => ⟨_, h, hbefore⟩)
  rintro _ t₆ ⟨u, hu, rfl⟩
  have h₆ : At ids w.image { promotedFiles w cand with floor := w.app.floor }
      (u.wrote (.current cand)) :=
    ⟨hu.within.wrote hcand, hu.image, by rw [World.wrote, hu.app]; rfl⟩
  refine Safe.bind ((write_spends (x := .floor cand.sequence) trivial h₆).mono ?_
    fun _ _ h => ⟨_, h, hbefore⟩)
  rintro _ t₇ ⟨v, hv, rfl⟩
  have h₇ : At ids w.image (promotedFiles w cand) (v.wrote (.floor cand.sequence)) :=
    ⟨hv.within.wrote (x := .floor cand.sequence) trivial, hv.image, by rw [World.wrote, hv.app]; rfl⟩
  have hresult : (write (.result (.ok cand.release cand.sequence))).Makes (F := Updater)
      fun c => c.aside = true := ⟨rfl, fun x => makes_ofExcept x⟩
  refine Safe.bind ((aside_spends hresult h₇).mono ?_ fun _ _ h => h.recoverable hbefore)
  intro _ t₈ h₈
  exact prune_spends hbefore hcand hcond h₈

theorem before_named (w : World) : w.before.toRelease.imageId ∈ named w := by
  rw [World.before]
  cases hcurrent : w.app.current with
  | none => exact mem_named.mpr (Or.inl rfl)
  | some r =>
    by_cases hle : w.image.sequence ≤ r.sequence
    · rw [currentOf, if_pos hle]
      exact mem_named.mpr (Or.inr (Or.inl ⟨r, hcurrent, rfl⟩))
    · rw [currentOf, if_neg hle]
      exact mem_named.mpr (Or.inl rfl)

theorem failure_spends {O : Oracles} {w : World} {before : Running} {candidate : Candidate}
    {e : Bool × Exn} (hw : Recoverable before w) :
    Spends O (failure before candidate e) (fun _ => Recoverable before) (Recoverable before) w := by
  obtain ⟨ids, hwithin, hbefore⟩ := hw
  have hrestart : restartApp.Makes (F := Updater) fun c => c.keeps ids :=
    ⟨trivial, fun x => makes_ofExcept x⟩
  have hmakes : (failure before candidate e).Makes (F := Updater) fun c => c.keeps ids := by
    refine Prog.Makes.bind (Prog.Makes.tryCatch ?_ fun _ => trivial) fun _ =>
      ⟨trivial, fun x => makes_ofExcept x⟩
    refine Prog.Makes.bind ?_ fun _ => ?_
    · cases before with
      | promoted r => exact ⟨hbefore, fun x => makes_ofExcept x⟩
      | baseline r => exact ⟨trivial, fun x => makes_ofExcept x⟩
    · cases e.1 with
      | true => exact hrestart
      | false => trivial
  exact (keeps_spends hmakes hwithin).mono (fun _ _ h => ⟨ids, h, hbefore⟩)
    fun _ _ h => ⟨ids, h, hbefore⟩

theorem cleanUp_spends {O : Oracles} {w : World} {before : Running} (hw : Recoverable before w) :
    Spends O cleanUp (fun _ => Recoverable before) (Recoverable before) w := by
  obtain ⟨ids, hwithin, hbefore⟩ := hw
  have hmakes : cleanUp.Makes (F := Updater) fun c => c.keeps ids := by
    refine Prog.Makes.ensure ?_ ⟨trivial, fun _ => ⟨trivial, fun _ => trivial⟩⟩
    exact Prog.Makes.bind ⟨trivial, fun _ => makes_ofExcept _⟩ fun _ =>
      ⟨trivial, fun _ => makes_ofExcept _⟩
  exact (keeps_spends hmakes hwithin).mono (fun _ _ h => ⟨ids, h, hbefore⟩)
    fun _ _ h => ⟨ids, h, hbefore⟩

/-- What ran before is the baseline, so previous.json is not replaced, and the image it
names is pruned. -/
def PrunesNamed (O : Oracles) (w : World) (candidate : Candidate) : Prop :=
  (∃ b, w.before = .baseline b) ∧ prunes w w.before (candidateOf O candidate) = true

theorem run_spends {O : Oracles} {w : World} {candidate : Candidate} {job : Job}
    (hw : Referenced w) (hcond : ¬ PrunesNamed O w candidate) :
    Spends O (run candidate job) (fun _ => Recoverable w.before) (Recoverable w.before) w := by
  have hat : At (named w) w.image w.app w := ⟨hw.within, rfl, rfl⟩
  have hbefore := before_named w
  refine Safe.ensure (Safe.mono ?_ (fun _ _ h => cleanUp_spends h) fun _ _ h => cleanUp_spends h)
  intro t₁ ht₁
  have h₁ := hat.others ht₁
  refine ⟨h₁.within.referenced, ?_⟩
  intro base t₂ ht₂
  have h₂ := h₁.outcome rfl ht₂
  obtain rfl : base = w.image := ht₂.1.trans h₁.image
  intro t₃ ht₃
  have h₃ := h₂.others ht₃
  refine ⟨h₃.within.referenced, ?_⟩
  intro cur t₄ ht₄
  have h₄ := h₃.outcome rfl ht₄
  obtain rfl : cur = w.app.current := ht₄.1.trans (by rw [h₃.app])
  change Spends O (guarded w.before candidate job) _ _ t₄
  refine Safe.tryCatch (Safe.mono (E := fun _ => Recoverable w.before) ?_ (fun _ _ h => h)
    fun _ _ h => failure_spends h)
  refine Safe.bind (Safe.tryCatch ((stage_spends hbefore h₄).mono ?_ fun _ _ h => h))
  rintro _ t₅ ⟨rfl, h₅⟩
  have hbefore' := List.mem_cons_of_mem (candidateOf O candidate).imageId hbefore
  exact Safe.tryCatch ((promote_spends hbefore' List.mem_cons_self hcond h₅).mono (fun _ _ h => h)
    fun _ _ h => h)

theorem Recoverable.referenced {before : Running} {w : World} (h : Recoverable before w) :
    Referenced w := by
  obtain ⟨ids, hwithin, _⟩ := h
  exact hwithin.referenced

/-- The run where everything works. -/
abbrev works (O : Oracles) {ε α : Type} (p : Prog Updater ε α) (w : World) : Except ε α × World :=
  p.run (World.serve O) w

/-- The candidate has been started. -/
def stagedWorld (O : Oracles) (w : World) (candidate : Candidate) (job : Job) : World :=
  ({ w with images := O.imageOf candidate.ref :: w.images }.wrote
    (.job { job with stage := .starting })).wrote (.active (candidateOf O candidate).toActive)

theorem works_stage (O : Oracles) (w : World) (candidate : Candidate) (job : Job) :
    works O (stage candidate job) w =
      (.ok (candidateOf O candidate), stagedWorld O w candidate job) := by
  let w₁ : World := { w with images := O.imageOf candidate.ref :: w.images }
  change works O (Prog.ofExcept (if O.imageOf candidate.ref ∈ w₁.images then
    Except.ok (O.imageOf candidate.ref) else .error notInspected) >>= fun id => do
      write (.job { job with stage := .starting })
      setActive (.promoted (candidate.withImage id))
      return candidate.withImage id) w₁ = _
  rw [if_pos List.mem_cons_self]
  rfl

/-- It is promoted, and the image of the release before the last is removed. -/
def prunedWorld (w : World) (cand old : Release) : World :=
  { ((w.wrote (.current cand)).wrote (.floor cand.sequence)).wrote
      (.result (.ok cand.release cand.sequence)) with
    images := w.images.filter (· ≠ old.imageId) }

theorem works_promote {O : Oracles} {w : World} {b cand old : Release}
    (hold : w.app.previous = some old)
    (hkeep : old.imageId ∉ [cand.imageId, b.imageId, w.image.imageId]) :
    works O (promote (.baseline b) cand) w = (.ok (), prunedWorld w cand old) := by
  let w₁ : World := ((w.wrote (.current cand)).wrote (.floor cand.sequence)).wrote
    (.result (.ok cand.release cand.sequence))
  have hprune : prune (.baseline b) cand (some old) = .call .baseline fun base =>
      Prog.when (old.imageId ∉ [cand.imageId, b.imageId, base.imageId]) (do
        let _ ← Prog.ofExcept (← ask (.rmi old.imageId))) := rfl
  change works O (prune (.baseline b) cand w.app.previous) w₁ = _
  rw [hold, hprune]
  change works O (Prog.when (old.imageId ∉ [cand.imageId, b.imageId, w.image.imageId]) _) w₁ = _
  rw [Prog.when_pos hkeep]
  rfl

theorem works_cleanUp (O : Oracles) (w : World) :
    (works O cleanUp w).2.app = w.app ∧ (works O cleanUp w).2.images = w.images := ⟨rfl, rfl⟩

/-- Where everything works, the image is gone and previous.json names it. -/
theorem prunes_named {O : Oracles} {w : World} {candidate : Candidate} (job : Job)
    (h : PrunesNamed O w candidate) : ¬ Referenced (works O (run candidate job) w).2 := by
  obtain ⟨⟨b, hbefore⟩, hprunes⟩ := h
  rw [prunes, hbefore] at hprunes
  cases hold : w.app.previous with
  | none =>
    rw [hold] at hprunes
    cases hprunes
  | some old =>
    rw [hold, Option.any_some] at hprunes
    have hpromote := works_promote (O := O) (w := stagedWorld O w candidate job) (b := b) hold
      (of_decide_eq_true hprunes)
    have hguarded : (works O (guarded w.before candidate job) w).2 =
        prunedWorld (stagedWorld O w candidate job) (candidateOf O candidate) old := by
      have hstage := works_stage O w candidate job
      rw [works] at hstage hpromote
      rw [works, guarded, run_tryCatch, run_bind, marking, run_tryCatch, hstage, hbefore]
      dsimp only
      rw [marking, run_tryCatch, hpromote]
    have hrun : (works O (run candidate job) w).2 =
        (works O cleanUp (works O (guarded w.before candidate job) w).2).2 := by
      rw [works, run, run_ensure_state]
      rfl
    intro hall
    rw [hrun, hguarded] at hall
    have hgone := hall old.imageId (mem_named.mpr (Or.inr (Or.inr (Or.inl ⟨old, hold, rfl⟩))))
    have hfilter := (List.mem_filter.mp hgone).2
    exact of_decide_eq_true hfilter rfl

/-- However `_run` ends or is cut short, every image the files name is in storage, for
exactly the states that do not have it prune the image previous.json goes on naming. -/
theorem images_kept (O : Oracles) {w : World} (candidate : Candidate) (job : Job)
    (hw : Referenced w) :
    (∀ w' p, Runs OthersCheck (World.Outcome O) (w, run candidate job) (w', p) → Referenced w') ↔
      ¬ PrunesNamed O w candidate := by
  constructor
  · intro hall hcond
    have hrun := runs_run (World.serve_follows O) (run candidate job) w
    exact prunes_named job hcond (hall _ _ (hrun.weaken alone_othersCheck))
  · intro hcond w' p hrun
    have hsafe : Spends O p _ _ _ := (run_spends hw hcond).runs hrun
    cases p with
    | ret a => exact Recoverable.referenced hsafe
    | raise e => exact Recoverable.referenced hsafe
    | call c k => exact (hsafe w' (OthersCheck.refl w')).1

/-- Release 6 ran over release 5 until the OS came with release 7. -/
def overtaken : World :=
  { sampleWorld with
    app := { current := some { release := "2.6.0-dev", channel := "dev", sequence := 6,
                               digest := sampleDigest '6', imageId := "six" }
             previous := some { release := "2.5.0-dev", channel := "dev", sequence := 5,
                                digest := sampleDigest '5', imageId := "five" }
             floor := some 6, active := none }
    images := ["base", "six", "five"] }

/-- The same files on an OS that came with release 4. -/
def stillAhead : World := { overtaken with image := { overtaken.image with sequence := 4 } }

theorem images_kept_stillAhead : Referenced stillAhead ∧ ∀ w' p,
    Runs OthersCheck (World.Outcome sampleOracles) (stillAhead, run sampleCandidate sampleJob)
      (w', p) → Referenced w' := by
  have hstored : Referenced stillAhead := by decide +kernel
  refine ⟨hstored, (images_kept sampleOracles sampleCandidate sampleJob hstored).mpr ?_⟩
  intro ⟨⟨b, hb⟩, _⟩
  cases hb

/-- The image of release 5 is removed, and previous.json still names it. -/
theorem overtaken_pruned : Referenced overtaken ∧ ∃ w' p,
    Runs OthersCheck (World.Outcome sampleOracles) (overtaken, run sampleCandidate sampleJob)
      (w', p) ∧ ¬ Referenced w' := by
  have hrun := runs_run (World.serve_follows sampleOracles) (run sampleCandidate sampleJob) overtaken
  exact ⟨by decide +kernel, _, _, hrun.weaken alone_othersCheck, by decide +kernel⟩

end Epilykos.AppUpdate
