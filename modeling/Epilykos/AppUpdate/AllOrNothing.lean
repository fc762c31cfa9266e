import Epilykos.AppUpdate.Forward

/-!
An update under every plan of faults. What can be seen of it is four files, written one
after another: active.env, current.json, floor, result.json. The first failure decides how
many of them the candidate has reached; the handler then writes the first and the last
again, and each of these writes may fail too.
-/

namespace Epilykos.AppUpdate

open Program

/-- What the law looks at. -/
structure View where
  image : Release
  active : Option Active
  current : Option Release
  floor : Option ℕ
  result : Option Result

def World.view (w : World) : View :=
  { image := w.image, active := w.app.active, current := w.app.current, floor := w.app.floor,
    result := w.result }

/-- The candidate has reached the first `n` of the four files. -/
def View.upTo (v : View) (cand : Release) (n : ℕ) : View :=
  { v with
    active := if 1 ≤ n then some cand.toActive else v.active
    current := if 2 ≤ n then some cand else v.current
    floor := if 3 ≤ n then some cand.sequence else v.floor
    result := if 4 ≤ n then some (.ok cand.release cand.sequence) else v.result }

/-! ### The first failure -/

/-- The call does what it is asked for, before any failure. The exit code of `podman rmi` is
not looked at. -/
def Plan.well (p : Plan) : Point → Bool
  | .rmi => match p false .rmi with | .raises _ _ => false | _ => true
  | q => p false q == .done

/-- How many of the four files are written before this place. -/
def written : Point → ℕ
  | .pull | .inspect | .write .job | .write .active => 0
  | .restart | .write .previous | .write .current => 1
  | .write .floor => 2
  | .write .result => 3
  | _ => 4

/-- Writing one of the four. -/
def isStage : Point → Bool
  | .write .active | .write .current | .write .floor | .write .result => true
  | _ => false

/-- How many files the candidate has reached when the first failure strikes here. -/
def Plan.reached (p : Plan) (q : Point) : ℕ :=
  if isStage q && (p false q).took then written q + 1 else written q

/-- The places of `stage`, in order. -/
def stagePlaces : List Point := [.pull, .inspect, .write .job, .write .active]

def keepPlaces : Running → List Point
  | .promoted _ => [.write .previous]
  | .baseline _ => []

/-- The release before the last is pruned. -/
def prunes (w : World) (before : Running) (cand : Release) : Bool :=
  w.app.previous.any fun old =>
    old.imageId ∉ [cand.imageId, before.toRelease.imageId, w.image.imageId]

/-- The places of `promote`, in order. -/
def promotePlaces (w : World) (before : Running) (cand : Release) : List Point :=
  .restart :: (keepPlaces before ++
    .write .current :: .write .floor :: .write .result ::
      if prunes w before cand then [.rmi] else [])

/-- What ran before the update. -/
def World.before (w : World) : Running := currentOf w.image w.app.current

/-- Where the first failure strikes. -/
def firstFailure (p : Plan) (w : World) (cand : Release) : Option Point :=
  (stagePlaces ++ promotePlaces w w.before cand).find? fun q => !p.well q

/-- How a part of the update with these places ends: the first failure among them is the
exception it raises. -/
def EndsAs {ε α : Type} (p : Plan) (v : View) (cand : Release) (places : List Point)
    (done : World → Prop) (a : α) (r : Except ε α × (World × Bool)) : Prop :=
  match places.find? fun q => !p.well q with
  | none => ∃ t, r = (.ok a, (t, false)) ∧ done t
  | some q => ∃ e t, r = (.error e, (t, true)) ∧ t.view = v.upTo cand (p.reached q)

/-- Run to its end under the plan, before a first failure or after it. -/
abbrev under (O : Oracles) (p : Plan) {ε α : Type} (prog : Prog Updater ε α) (t : World)
    (struck : Bool) : Except ε α × (World × Bool) := prog.run (World.host O p) (t, struck)

section Ends

variable {O : Oracles} {p : Plan} {v : View} {cand : Release} {places : List Point}
  {done : World → Prop} {ε α β : Type} {a : α}

theorem ends_nil {t : World} (h : done t) :
    EndsAs (ε := ε) p v cand [] done a (.ok a, (t, false)) := ⟨t, rfl, h⟩

theorem ends_well {q : Point} {r : Except ε α × (World × Bool)} (hq : p.well q = true)
    (h : EndsAs p v cand places done a r) : EndsAs p v cand (q :: places) done a r := by
  rw [EndsAs, List.find?_cons_of_neg (by simp [hq])]
  exact h

theorem ends_failed {q : Point} {e : ε} {t : World} (hq : p.well q = false)
    (h : t.view = v.upTo cand (p.reached q)) :
    EndsAs p v cand (q :: places) done a (.error e, (t, true)) := by
  rw [EndsAs, List.find?_cons_of_pos (by simp [hq])]
  exact ⟨e, t, rfl, h⟩

/-- A call that goes well goes on; another raises, where the first failure strikes. -/
theorem ends_call {c : UpdCall} {k : c.Ans → Prog Updater ε α} {t : World}
    (hwell : p.well c.point = World.good c (t.answer O (p false c.point) c))
    (hraise : p.well c.point = false → ∃ e, k (t.answer O (p false c.point) c) = .raise e)
    (hat : p.well c.point = false →
      (t.settle O (p false c.point) c).view = v.upTo cand (p.reached c.point))
    (hnext : p.well c.point = true → EndsAs p v cand places done a
      (under O p (k (t.answer O (p false c.point) c)) (t.settle O (p false c.point) c) false)) :
    EndsAs p v cand (c.point :: places) done a (under O p (.call c k) t false) := by
  have hrun : under O p (.call c k) t false =
      under O p (k (t.answer O (p false c.point) c)) (t.settle O (p false c.point) c)
        (!p.well c.point) := by
    rw [hwell]
    rfl
  rw [hrun]
  cases hq : p.well c.point with
  | true => exact ends_well hq (hnext hq)
  | false =>
    obtain ⟨e, hk⟩ := hraise hq
    rw [hk]
    exact ends_failed hq (hat hq)

theorem settle_view {c : UpdCall} {f : Fate} {t : World} (h : (t.effect O c).view = t.view) :
    (t.settle O f c).view = t.view := by
  rw [World.settle]
  split
  · exact h
  · rfl

theorem settle_write (t : World) (f : Fate) (x : Write) :
    t.settle O f (.write x) = if f.took then t.wrote x else t := by
  obtain _ | ⟨_, _ | _⟩ | ⟨_, _ | _⟩ := f <;> rfl

theorem write_reached {x : Write} {t : World}
    (hlost : t.view = v.upTo cand (written (.write x.file)))
    (hkept : (t.wrote x).view = v.upTo cand
      (if isStage (.write x.file) then written (.write x.file) + 1 else written (.write x.file))) :
    (t.settle O (p false (.write x.file)) (.write x)).view =
      v.upTo cand (p.reached (.write x.file)) := by
  rw [settle_write, Plan.reached]
  cases (p false (.write x.file)).took with
  | true => simpa using hkept
  | false => simpa using hlost

theorem ends_write {x : Write} {f : Unit → UpdProg α} {t : World}
    (hlost : t.view = v.upTo cand (written (.write x.file)))
    (hkept : (t.wrote x).view = v.upTo cand
      (if isStage (.write x.file) then written (.write x.file) + 1 else written (.write x.file)))
    (hnext : EndsAs p v cand places done a (under O p (f ()) (t.wrote x) false)) :
    EndsAs p v cand (.write x.file :: places) done a (under O p (write x >>= f) t false) := by
  refine ends_call (c := .write x) (k := fun y => Prog.ofExcept y >>= f) ?_ ?_ ?_ ?_
  · change (p false (.write x.file) == .done) = World.good (.write x) (p false (.write x.file)).unit
    cases p false (.write x.file) <;> rfl
  · intro hq
    change ∃ e, (Prog.ofExcept (p false (.write x.file)).unit >>= f) = .raise e
    cases hf : p false (.write x.file) with
    | done => simp [UpdCall.point, Plan.well, hf] at hq
    | exits stderr took => exact ⟨_, rfl⟩
    | raises e took => exact ⟨_, rfl⟩
  · exact fun _ => write_reached hlost hkept
  · intro hq
    have hf : p false (.write x.file) = .done := by simpa [UpdCall.point, Plan.well] using hq
    change EndsAs p v cand places done a
      (under O p (Prog.ofExcept (p false (.write x.file)).unit >>= f)
        (t.settle O (p false (.write x.file)) (.write x)) false)
    rw [settle_write, hf]
    exact hnext

/-- The files stay where they are at a call that is no write of the four. -/
theorem other_reached {c : UpdCall} {t : World} (heffect : (t.effect O c).view = t.view)
    (hstage : isStage c.point = false) (h : t.view = v.upTo cand (written c.point)) :
    (t.settle O (p false c.point) c).view = v.upTo cand (p.reached c.point) := by
  rw [settle_view heffect, h, Plan.reached, hstage]
  rfl

theorem ends_pull {ref : String} {f : Unit → UpdProg α} {t : World}
    (hat : t.view = v.upTo cand 0)
    (hnext : EndsAs p v cand places done a
      (under O p (f ()) { t with images := O.imageOf ref :: t.images } false)) :
    EndsAs p v cand (.pull :: places) done a (under O p (pull ref >>= f) t false) := by
  refine ends_call (c := .pull ref) ?_ ?_ (fun _ => other_reached rfl rfl hat) ?_
  · change (p false .pull == .done) = World.good (.pull ref) (p false .pull).pulled
    cases p false .pull <;> rfl
  · intro hq
    cases hf : p false .pull with
    | done => simp [UpdCall.point, Plan.well, hf] at hq
    | exits stderr took => simp [UpdCall.point, hf, World.answer, Fate.pulled]
    | raises e took => simp [UpdCall.point, hf, World.answer, Fate.pulled]
  · intro hq
    have hf : p false .pull = .done := by simpa [UpdCall.point, Plan.well] using hq
    simpa [UpdCall.point, hf, World.answer, Fate.pulled, World.settle, Fate.took, World.effect]
      using hnext

theorem ends_inspect {ref : String} {f : String → UpdProg α} {t : World}
    (hat : t.view = v.upTo cand 0) (hmem : O.imageOf ref ∈ t.images)
    (hnext : EndsAs p v cand places done a (under O p (f (O.imageOf ref)) t false)) :
    EndsAs p v cand (.inspect :: places) done a
      (under O p (ask (.inspectImage ref) >>= fun x => Prog.ofExcept x >>= f) t false) := by
  refine ends_call (c := .inspectImage ref) (k := fun x => Prog.ofExcept x >>= f) ?_ ?_
    (fun _ => other_reached rfl rfl hat) ?_
  · change (p false .inspect == .done) = World.good (.inspectImage ref)
      ((p false .inspect).inspected t.images (O.imageOf ref))
    cases p false .inspect with
    | done =>
      rw [Fate.inspected, if_pos hmem]
      rfl
    | exits stderr took => rfl
    | raises e took => rfl
  · intro hq
    cases hf : p false .inspect with
    | done => simp [UpdCall.point, Plan.well, hf] at hq
    | exits stderr took => simp [UpdCall.point, hf, World.answer, Fate.inspected]
    | raises e took => simp [UpdCall.point, hf, World.answer, Fate.inspected]
  · intro hq
    have hf : p false .inspect = .done := by simpa [UpdCall.point, Plan.well] using hq
    simpa [UpdCall.point, hf, World.answer, Fate.inspected, hmem, World.settle, Fate.took,
      World.effect] using hnext

/-- Not healthy is a failure too, however the start ended. -/
theorem ends_healthy {e : Exn} {f : Unit → UpdProg α} {t : World}
    (hat : t.view = v.upTo cand 1)
    (hnext : EndsAs p v cand places done a (under O p (f ()) t false)) :
    EndsAs p v cand (.restart :: places) done a
      (under O p (reportsHealthy >>= fun healthy => Prog.raiseIf (!healthy) e >>= f) t false) := by
  refine ends_call (c := .restart) ?_ ?_ (fun _ => other_reached rfl rfl hat) ?_
  · change (p false .restart == .done) = World.good .restart ((p false .restart).code true)
    cases p false .restart <;> rfl
  · intro hq
    cases hf : p false .restart with
    | done => simp [UpdCall.point, Plan.well, hf] at hq
    | exits stderr took => exact ⟨e, by simp [UpdCall.point, hf, World.answer, Fate.code]⟩
    | raises e' took =>
      by_cases htime : e' = .timeout
      · exact ⟨e, by simp [UpdCall.point, hf, World.answer, Fate.code, htime]⟩
      · exact ⟨e', by simp [UpdCall.point, hf, World.answer, Fate.code, htime]⟩
  · intro hq
    have hf : p false .restart = .done := by simpa [UpdCall.point, Plan.well] using hq
    simpa [UpdCall.point, hf, World.answer, Fate.code, World.settle, Fate.took, World.effect]
      using hnext

theorem ends_rmi {id : String} {t : World} (hat : t.view = v.upTo cand 4)
    (hdone : ∀ t', t'.view = t.view → done t') :
    EndsAs p v cand [.rmi] done () (under O p (do
      let _ ← Prog.ofExcept (← ask (.rmi id))) t false) := by
  have hview : (t.settle O (p false .rmi) (.rmi id)).view = t.view := settle_view rfl
  refine ends_call (c := .rmi id) ?_ ?_ (fun _ => other_reached rfl rfl hat) ?_
  · change p.well .rmi = World.good (.rmi id) ((p false .rmi).code true)
    rw [Plan.well]
    cases p false .rmi <;> rfl
  · intro hq
    cases hf : p false .rmi with
    | done => simp [UpdCall.point, Plan.well, hf] at hq
    | exits stderr took => simp [UpdCall.point, Plan.well, hf] at hq
    | raises e took => simp [UpdCall.point, hf, World.answer, Fate.code]
  · intro hq
    have hnil : EndsAs (ε := Exn) p v cand [] done () (.ok (), (_, false)) :=
      ends_nil (hdone _ hview)
    cases hf : p false .rmi with
    | done => simpa [UpdCall.point, hf, World.answer, Fate.code] using hnil
    | exits stderr took => simpa [UpdCall.point, hf, World.answer, Fate.code] using hnil
    | raises e took => simp [UpdCall.point, Plan.well, hf] at hq

/-! ### The parts of the update -/

theorem upTo_zero : v.upTo cand 0 = v := rfl

theorem stage_ends {candidate : Candidate} {job : Job} {t : World}
    (hcand : candidate.withImage (O.imageOf candidate.ref) = cand) (hat : t.view = v) :
    EndsAs p v cand stagePlaces
      (fun t' => t'.view = v.upTo cand 1 ∧ t'.app.previous = t.app.previous) cand
      (under O p (stage candidate job) t false) := by
  subst hcand
  refine ends_pull hat (ends_inspect hat List.mem_cons_self ?_)
  refine ends_write (x := .job _) hat hat ?_
  refine ends_write (x := .active _) hat ?_ ?_
  · rw [← hat]
    rfl
  · refine ends_nil ⟨?_, rfl⟩
    rw [← hat]
    rfl

theorem under_read {c : UpdCall} {k : c.Ans → Prog Updater ε α} {t : World} {struck : Bool}
    (heffect : t.effect O c = t) (hgood : ∀ x, World.good c x = true) :
    under O p (.call c k) t struck =
      under O p (k (t.answer O (p struck c.point) c)) t struck := by
  change under O p (k (t.answer O (p struck c.point) c)) (t.settle O (p struck c.point) c)
    (struck || !World.good c (t.answer O (p struck c.point) c)) = _
  rw [hgood, World.settle, heffect, ite_self, Bool.not_true, Bool.or_false]

theorem prune_ends {w t : World} {before : Running} (hat : t.view = w.view.upTo cand 4) :
    EndsAs p w.view cand (if prunes w before cand then [.rmi] else [])
      (fun t' => t'.view = w.view.upTo cand 4) ()
      (under O p (prune before cand w.app.previous) t false) := by
  have himage : t.image = w.image := congrArg View.image hat
  rw [prunes, ← himage]
  cases w.app.previous with
  | none =>
    refine (under_read (c := .baseline) rfl fun _ => rfl).symm ▸ ?_
    exact ends_nil hat
  | some old =>
    refine (under_read (c := .baseline) rfl fun _ => rfl).symm ▸ ?_
    change EndsAs p w.view cand _ _ () (under O p
      (Prog.when (old.imageId ∉ [cand.imageId, before.toRelease.imageId, t.image.imageId]) _) t false)
    by_cases hkeep : old.imageId ∉ [cand.imageId, before.toRelease.imageId, t.image.imageId]
    · rw [Option.any_some, if_pos (decide_eq_true hkeep), Prog.when_pos hkeep]
      exact ends_rmi hat fun t' ht' => ht'.trans hat
    · rw [Option.any_some, if_neg (by simpa using hkeep), Prog.when_neg hkeep]
      exact ends_nil hat

theorem keepPrevious_ends {w t : World} {before : Running} {f : Unit → UpdProg α}
    (hat : t.view = w.view.upTo cand 1)
    (hnext : ∀ t', t'.view = w.view.upTo cand 1 →
      EndsAs p w.view cand places done a (under O p (f ()) t' false)) :
    EndsAs p w.view cand (keepPlaces before ++ places) done a
      (under O p (keepPrevious before >>= f) t false) := by
  cases before with
  | promoted r => exact ends_write (x := .previous r) hat hat (hnext _ hat)
  | baseline r => exact hnext t hat

theorem promote_ends {w t : World} {before : Running} (hat : t.view = w.view.upTo cand 1)
    (hprevious : t.app.previous = w.app.previous) :
    EndsAs p w.view cand (promotePlaces w before cand)
      (fun t' => t'.view = w.view.upTo cand 4) ()
      (under O p (promote before cand) t false) := by
  refine ends_healthy hat ?_
  refine (under_read (c := .readPrevious) rfl fun _ => rfl).symm ▸ ?_
  change EndsAs p w.view cand _ _ () (under O p (do
    keepPrevious before
    write (.current cand)
    write (.floor cand.sequence)
    write (.result (.ok cand.release cand.sequence))
    prune before cand t.app.previous) t false)
  rw [hprevious]
  refine keepPrevious_ends hat fun t₁ h₁ => ?_
  have h₂ : (t₁.wrote (.current cand)).view = w.view.upTo cand 2 := by
    change { t₁.view with current := some cand } = _
    rw [h₁]
    rfl
  have h₃ : ((t₁.wrote (.current cand)).wrote (.floor cand.sequence)).view =
      w.view.upTo cand 3 := by
    change { (t₁.wrote (.current cand)).view with floor := some cand.sequence } = _
    rw [h₂]
    rfl
  refine ends_write (x := .current cand) h₁ h₂ ?_
  refine ends_write (x := .floor cand.sequence) h₂ h₃ ?_
  refine ends_write (x := .result _) h₃ ?_ (prune_ends ?_)
  all_goals
    change { ((t₁.wrote (.current cand)).wrote (.floor cand.sequence)).view with
      result := some (.ok cand.release cand.sequence) } = _
    rw [h₃]
    rfl

/-- An exception takes with it whether the candidate had been started. -/
theorem ends_marking {started : Bool} {q : UpdProg α} {f : α → Prog Updater (Bool × Exn) β} {b : β}
    {mid : World → Prop} {later : List Point} {t : World}
    (h : EndsAs p v cand places mid a (under O p q t false))
    (hnext : ∀ t', mid t' → EndsAs p v cand later done b (under O p (f a) t' false)) :
    EndsAs p v cand (places ++ later) done b (under O p (marking started q >>= f) t false) := by
  rw [EndsAs] at h ⊢
  rw [under, run_bind, marking, run_tryCatch, List.find?_append]
  cases hfind : places.find? fun q => !p.well q with
  | none =>
    rw [hfind] at h
    obtain ⟨t', hrun, ht'⟩ := h
    rw [show Prog.run (World.host O p) q (t, false) = _ from hrun]
    exact hnext t' ht'
  | some q' =>
    rw [hfind] at h
    obtain ⟨e, t', hrun, ht'⟩ := h
    rw [show Prog.run (World.host O p) q (t, false) = _ from hrun]
    exact ⟨_, t', rfl, ht'⟩

/-- Everything before the handler. -/
theorem attempt_ends {candidate : Candidate} {job : Job} {w : World} {before : Running}
    (hcand : candidate.withImage (O.imageOf candidate.ref) = cand) :
    EndsAs p w.view cand (stagePlaces ++ promotePlaces w before cand)
      (fun t' => t'.view = w.view.upTo cand 4) ()
      (under O p (do
        let cand ← marking false (stage candidate job)
        marking true (promote before cand)) w false) := by
  refine ends_marking (stage_ends hcand rfl) ?_
  rintro t ⟨hat, hprevious⟩
  have hpromote : EndsAs p w.view cand (promotePlaces w before cand ++ []) _ ()
      (under O p (marking true (promote before cand) >>= .ret) t false) :=
    ends_marking (promote_ends hat hprevious) fun t' ht' => ends_nil ht'
  rw [List.append_nil, Prog.bind_ret_self] at hpromote
  exact hpromote

/-! ### The handler -/

/-- What `_set_active` leaves in active.env. -/
def startsNext : Running → Option Active
  | .promoted r => some r.toActive
  | .baseline _ => none

def rollBackPoint : Running → Point
  | .promoted _ => .write .active
  | .baseline _ => .remove .active

theorem settle_removeActive (t : World) (f : Fate) :
    t.settle O f (.remove .active) = if f.took then t.removed .active else t := by
  obtain _ | ⟨_, _ | _⟩ | ⟨_, _ | _⟩ := f <;> rfl

theorem under_ofExcept (x : Except ε α) (t : World) (struck : Bool) :
    under O p (.ofExcept x) t struck = (x, (t, struck)) := by
  cases x <;> rfl

theorem setActive_under (before : Running) (t : World) :
    ∃ r t', under O p (setActive before) t true = (r, (t', true)) ∧
      t'.view = { t.view with
        active := if (p true (rollBackPoint before)).took then startsNext before
                  else t.app.active } := by
  cases before with
  | promoted r =>
    refine ⟨(p true (.write .active)).unit, t.settle O (p true (.write .active))
      (.write (.active r.toActive)), ?_, ?_⟩
    · exact under_ofExcept (p true (.write .active)).unit _ true
    · rw [settle_write]
      change _ = { t.view with
        active := if (p true (.write .active)).took then some r.toActive else t.app.active }
      cases (p true (.write .active)).took <;> rfl
  | baseline r =>
    refine ⟨(p true (.remove .active)).unit, t.settle O (p true (.remove .active))
      (.remove .active), ?_, ?_⟩
    · exact under_ofExcept (p true (.remove .active)).unit _ true
    · rw [settle_removeActive]
      change _ = { t.view with
        active := if (p true (.remove .active)).took then none else t.app.active }
      cases (p true (.remove .active)).took <;> rfl

theorem restartApp_under (t : World) :
    ∃ r, under O p restartApp t true = (r, (t, true)) := by
  refine ⟨(p true .restart).code true, ?_⟩
  have hsettle : t.settle O (p true .restart) .restart = t := by
    rw [World.settle]
    exact ite_self t
  have hrun := under_ofExcept (O := O) (p := p) ((p true .restart).code true)
    (t.settle O (p true .restart) .restart) true
  rw [hsettle] at hrun
  rw [← hrun]
  change under O p (.ofExcept _) (t.settle O (p true .restart) .restart) true = _
  rw [hsettle]
  rfl

theorem rollBack_under (before : Running) (started : Bool) (t : World) :
    ∃ rolledBack t', under O p (rollBack before started) t true = (.ok rolledBack, (t', true)) ∧
      t'.view = { t.view with
        active := if (p true (rollBackPoint before)).took then startsNext before
                  else t.app.active } := by
  obtain ⟨r, t', hrun, hview⟩ := setActive_under (O := O) (p := p) before t
  obtain ⟨y, hrestart⟩ := restartApp_under (O := O) (p := p) t'
  have htail : ∃ z, Prog.run (F := Updater) (World.host O p)
      (if started then restartApp else pure true) (t', true) = (z, (t', true)) := by
    cases started with
    | true => exact ⟨y, hrestart⟩
    | false => exact ⟨.ok true, rfl⟩
  obtain ⟨z, hz⟩ := htail
  rw [under, rollBack, run_tryCatch]
  cases r with
  | error e =>
    refine ⟨false, t', ?_, hview⟩
    rw [run_bind_error hrun]
    rfl
  | ok _ =>
    rw [run_bind_ok hrun]
    cases z with
    | ok rolledBack =>
      refine ⟨rolledBack, t', ?_, hview⟩
      rw [hz]
    | error e =>
      refine ⟨false, t', ?_, hview⟩
      rw [hz]
      rfl

/-- What the handler makes of what the first failure left. -/
def View.handled (v : View) (p : Plan) (before : Running) (failed : Result) : View :=
  { v with
    active := if (p true (rollBackPoint before)).took then startsNext before else v.active
    result := if (p true (.write .result)).took then some failed else v.result }

theorem failure_under (before : Running) (candidate : Candidate) (e : Bool × Exn) (t : World) :
    ∃ error rolledBack, (under O p (failure before candidate e) t true).2.1.view =
      t.view.handled p before (.failed error rolledBack candidate.release) := by
  obtain ⟨rolledBack, t', hrun, hview⟩ := rollBack_under (O := O) (p := p) before e.1 t
  refine ⟨e.2.text, rolledBack, ?_⟩
  rw [under, failure, run_bind_ok hrun]
  let failed : Result := .failed e.2.text rolledBack candidate.release
  change (under O p (.ofExcept (p true (.write .result)).unit)
    (t'.settle O (p true (.write .result)) (.write (.result failed))) true).2.1.view = _
  rw [under_ofExcept, settle_write, View.handled]
  cases (p true (.write .result)).took with
  | true =>
    change { t'.view with result := some failed } = _
    rw [hview]
    rfl
  | false =>
    change t'.view = _
    rw [hview]
    rfl

theorem cleanUp_under (t : World) (struck : Bool) :
    (under O p cleanUp t struck).2.1.view = t.view := by
  have hmakes : cleanUp.Makes (F := Updater) fun c => ∀ u, (World.effect O u c).view = u.view := by
    refine Prog.Makes.ensure ?_ ?_
    · exact Prog.Makes.bind ⟨fun _ => rfl, fun _ => makes_ofExcept _⟩ fun _ =>
        ⟨fun _ => rfl, fun _ => makes_ofExcept _⟩
    · exact ⟨fun _ => rfl, fun _ => ⟨fun _ => rfl, fun _ => trivial⟩⟩
  refine hmakes.run_keeps (I := fun u : World × Bool => u.1.view = t.view) ?_ rfl
  intro u c hc hu
  exact (settle_view (hc u.1)).trans hu

end Ends

/-! ### All or nothing -/

/-- The world once `_run` has finished. -/
def finished (O : Oracles) (p : Plan) (w : World) (candidate : Candidate) (job : Job) : World :=
  (under O p (run candidate job) w false).2.1

/-- The candidate with the image ID podman has for it. -/
def candidateOf (O : Oracles) (candidate : Candidate) : Release :=
  candidate.withImage (O.imageOf candidate.ref)

/-- The part of `_run` in its try statement. -/
def guarded (before : Running) (candidate : Candidate) (job : Job) : UpdProg Unit :=
  Prog.tryCatch (do
    let cand ← marking false (stage candidate job)
    marking true (promote before cand)) (failure before candidate)

theorem finished_view (O : Oracles) (p : Plan) (w : World) (candidate : Candidate) (job : Job) :
    (finished O p w candidate job).view =
      (under O p (guarded w.before candidate job) w false).2.1.view := by
  have hreads : under O p (do
      let before ← current
      guarded before candidate job) w false = under O p (guarded w.before candidate job) w false :=
    (under_read (c := .baseline) rfl fun _ => rfl).trans
      (under_read (c := .readCurrent) rfl fun _ => rfl)
  rw [← hreads, finished, under, run, run_ensure_state]
  exact cleanUp_under _ _

/-- What can be seen when `_run` has finished: the first failure decides. -/
theorem run_view (O : Oracles) (p : Plan) (w : World) (candidate : Candidate) (job : Job) :
    match firstFailure p w (candidateOf O candidate) with
    | none => (finished O p w candidate job).view = w.view.upTo (candidateOf O candidate) 4
    | some q => ∃ error rolledBack, (finished O p w candidate job).view =
        (w.view.upTo (candidateOf O candidate) (p.reached q)).handled p w.before
          (.failed error rolledBack candidate.release) := by
  have hattempt : EndsAs p w.view (candidateOf O candidate)
      (stagePlaces ++ promotePlaces w w.before (candidateOf O candidate)) _ () _ :=
    @attempt_ends O p _ candidate job w w.before rfl
  rw [finished_view, guarded, under, run_tryCatch]
  rw [EndsAs] at hattempt
  rw [firstFailure]
  cases hfind : (stagePlaces ++ promotePlaces w w.before (candidateOf O candidate)).find?
      fun q => !p.well q with
  | none =>
    rw [hfind] at hattempt
    obtain ⟨t, ht, hview⟩ := hattempt
    rw [under] at ht
    rw [ht]
    exact hview
  | some q =>
    rw [hfind] at hattempt
    obtain ⟨e, t, ht, hview⟩ := hattempt
    obtain ⟨error, rolledBack, hfailed⟩ := failure_under (O := O) (p := p) w.before candidate e t
    refine ⟨error, rolledBack, ?_⟩
    rw [under] at ht
    rw [ht, ← hview]
    exact hfailed

/-- active.env, current.json and floor describe the candidate, result.json says ok. -/
def AllDone (cand : Release) (v : View) : Prop :=
  v.active = some cand.toActive ∧ v.current = some cand ∧ v.floor = some cand.sequence ∧
    v.result = some (.ok cand.release cand.sequence)

def saysFailed (release : String) : Option Result → Prop
  | some (.failed _ _ r) => r = release
  | _ => False

/-- All three are as they were, and so is `current()`; result.json says it failed. -/
def NothingDone (candidate : Candidate) (v v' : View) : Prop :=
  v'.active = v.active ∧ v'.current = v.current ∧ v'.floor = v.floor ∧
    currentOf v'.image v'.current = currentOf v.image v.current ∧
      saysFailed candidate.release v'.result

/-- What apply() admits: above the floor, and not what runs. -/
structure Admissible (w : World) (candidate : Candidate) : Prop where
  above : floorOf w.image w.app.floor < candidate.sequence
  other : candidate.digest ≠ w.before.toRelease.digest

/-- The handler leaves active.env as it was before the update. -/
def Restores (p : Plan) (w : World) (cand : Release) (q : Point) : Prop :=
  if (p true (rollBackPoint w.before)).took then startsNext w.before = w.app.active
  else 1 ≤ p.reached q → some cand.toActive = w.app.active

/-- The handler does not take active.env from the candidate. -/
def Spares (p : Plan) (w : World) (cand : Release) : Prop :=
  (p true (rollBackPoint w.before)).took = true → startsNext w.before = some cand.toActive

/-- When an update is all or nothing: nothing fails; or the first failure strikes before
current.json is replaced, and the handler puts active.env back and reports it; or it strikes
after floor is raised, and neither write of the handler undoes the promotion. -/
def HoldsWhen (O : Oracles) (p : Plan) (w : World) (candidate : Candidate) : Prop :=
  let cand := candidateOf O candidate
  match firstFailure p w cand with
  | none => True
  | some q =>
    if p.reached q ≤ 1 then
      Restores p w cand q ∧
        ((p true (.write .result)).took = true ∨ saysFailed candidate.release w.result)
    else
      3 ≤ p.reached q ∧ Spares p w cand ∧ (p true (.write .result)).took = false ∧
        (4 ≤ p.reached q ∨ w.result = some (.ok cand.release cand.sequence))

theorem Admissible.not_current {O : Oracles} {w : World} {candidate : Candidate}
    (h : Admissible w candidate) : w.app.current ≠ some (candidateOf O candidate) := by
  intro hcurrent
  have himage : w.image.sequence ≤ (candidateOf O candidate).sequence :=
    Nat.le_of_lt (Nat.lt_of_le_of_lt (Nat.le_max_right _ _) h.above)
  refine h.other ?_
  rw [World.before, hcurrent, currentOf, if_pos himage]
  rfl

theorem Admissible.not_floor {w : World} {candidate : Candidate} (h : Admissible w candidate) :
    w.app.floor ≠ some candidate.sequence := by
  intro hfloor
  have habove := h.above
  rw [hfloor] at habove
  have hle := le_floorOf w.image (some candidate.sequence)
  rw [Option.getD_some] at hle
  omega

/-- The first failure struck before current.json was replaced. -/
theorem early_iff {p : Plan} {w : World} {cand : Release} {candidate : Candidate} {q : Point}
    {error : String} {rolledBack : Bool} (hcurrent : w.app.current ≠ some cand)
    (hq : p.reached q ≤ 1) :
    (AllDone cand ((w.view.upTo cand (p.reached q)).handled p w.before
        (.failed error rolledBack candidate.release)) ∨
      NothingDone candidate w.view ((w.view.upTo cand (p.reached q)).handled p w.before
        (.failed error rolledBack candidate.release))) ↔
    Restores p w cand q ∧
      ((p true (.write .result)).took = true ∨ saysFailed candidate.release w.result) := by
  have h₂ : ¬ 2 ≤ p.reached q := by omega
  have h₃ : ¬ 3 ≤ p.reached q := by omega
  have h₄ : ¬ 4 ≤ p.reached q := by omega
  simp only [AllDone, NothingDone, View.handled, View.upTo, World.view, Restores, if_neg h₂,
    if_neg h₃, if_neg h₄, hcurrent, false_and, and_false, false_or, true_and]
  refine and_congr ?_ ?_
  · cases (p true (rollBackPoint w.before)).took with
    | true => simp
    | false =>
      by_cases h₁ : 1 ≤ p.reached q <;> simp [h₁]
  · cases (p true (.write .result)).took with
    | true => simp [saysFailed]
    | false => simp

/-- It struck once floor was raised. -/
theorem late_iff {p : Plan} {w : World} {cand : Release} {candidate : Candidate} {q : Point}
    {error : String} {rolledBack : Bool} (hcurrent : w.app.current ≠ some cand)
    (hfloor : w.app.floor ≠ some cand.sequence) (hq : ¬ p.reached q ≤ 1) :
    (AllDone cand ((w.view.upTo cand (p.reached q)).handled p w.before
        (.failed error rolledBack candidate.release)) ∨
      NothingDone candidate w.view ((w.view.upTo cand (p.reached q)).handled p w.before
        (.failed error rolledBack candidate.release))) ↔
    3 ≤ p.reached q ∧ Spares p w cand ∧ (p true (.write .result)).took = false ∧
      (4 ≤ p.reached q ∨ w.result = some (.ok cand.release cand.sequence)) := by
  have h₁ : 1 ≤ p.reached q := by omega
  have h₂ : 2 ≤ p.reached q := by omega
  simp only [AllDone, NothingDone, View.handled, View.upTo, World.view, Spares, if_pos h₁,
    if_pos h₂, true_and]
  have hnothing : some cand ≠ w.app.current := fun h => hcurrent h.symm
  simp only [hnothing, false_and, and_false, or_false]
  have hraised : (if 3 ≤ p.reached q then some cand.sequence else w.app.floor) =
      some cand.sequence ↔ 3 ≤ p.reached q := by
    by_cases h₃ : 3 ≤ p.reached q <;> simp [h₃, hfloor]
  have hspared : (if (p true (rollBackPoint w.before)).took then startsNext w.before
        else some cand.toActive) = some cand.toActive ↔
      ((p true (rollBackPoint w.before)).took = true → startsNext w.before = some cand.toActive) := by
    cases (p true (rollBackPoint w.before)).took <;> simp
  have hsaid : (if (p true (.write .result)).took then
        some (Result.failed error rolledBack candidate.release)
        else if 4 ≤ p.reached q then some (.ok cand.release cand.sequence) else w.result) =
        some (.ok cand.release cand.sequence) ↔
      (p true (.write .result)).took = false ∧
        (4 ≤ p.reached q ∨ w.result = some (.ok cand.release cand.sequence)) := by
    by_cases h₄ : 4 ≤ p.reached q <;> cases (p true (.write .result)).took <;> simp [h₄]
  rw [hraised, hspared, hsaid]
  exact and_left_comm

/-- An admitted update is all or nothing in exactly these cases. -/
theorem all_or_nothing (O : Oracles) (p : Plan) {w : World} {candidate : Candidate} (job : Job)
    (h : Admissible w candidate) :
    (AllDone (candidateOf O candidate) (finished O p w candidate job).view ∨
      NothingDone candidate w.view (finished O p w candidate job).view) ↔
    HoldsWhen O p w candidate := by
  have hview := run_view O p w candidate job
  rw [HoldsWhen]
  cases hfirst : firstFailure p w (candidateOf O candidate) with
  | none =>
    rw [hfirst] at hview
    rw [hview]
    exact ⟨fun _ => trivial, fun _ => Or.inl ⟨rfl, rfl, rfl, rfl⟩⟩
  | some q =>
    rw [hfirst] at hview
    obtain ⟨error, rolledBack, hview⟩ := hview
    rw [hview]
    dsimp only
    by_cases hq : p.reached q ≤ 1
    · rw [if_pos hq]
      exact early_iff h.not_current hq
    · rw [if_neg hq]
      exact late_iff h.not_current h.not_floor hq

def sampleCandidate : Candidate :=
  { release := "3.0.0-dev", channel := "dev", sequence := 10, digest := sampleDigest 'a',
    source := "example/app" }

def sampleJob : Job :=
  { stage := .downloading, release := "3.0.0-dev", sequence := 10, digest := sampleDigest 'a' }

theorem sample_admissible : Admissible sampleWorld sampleCandidate :=
  ⟨by decide, by decide +kernel⟩

/-- No call fails. -/
def undisturbed : Plan := fun _ _ => .done

theorem all_or_nothing_undisturbed :
    (AllDone (candidateOf sampleOracles sampleCandidate)
        (finished sampleOracles undisturbed sampleWorld sampleCandidate sampleJob).view ∨
      NothingDone sampleCandidate sampleWorld.view
        (finished sampleOracles undisturbed sampleWorld sampleCandidate sampleJob).view) := by
  refine (all_or_nothing sampleOracles undisturbed sampleJob sample_admissible).mpr ?_
  have hfirst : firstFailure undisturbed sampleWorld (candidateOf sampleOracles sampleCandidate) =
      none := by decide +kernel
  rw [HoldsWhen, hfirst]
  trivial

/-- The floor cannot be written the first time; everything after that works. -/
def floorFails : Plan := fun struck q =>
  if q = .write .floor ∧ struck = false then .raises (.other "OSError") false else .done

/-- current.json is the candidate's, floor and active.env are not, and result.json says it
failed. -/
theorem floorFails_torn : Admissible sampleWorld sampleCandidate ∧
    ¬ (AllDone (candidateOf sampleOracles sampleCandidate)
        (finished sampleOracles floorFails sampleWorld sampleCandidate sampleJob).view ∨
      NothingDone sampleCandidate sampleWorld.view
        (finished sampleOracles floorFails sampleWorld sampleCandidate sampleJob).view) := by
  refine ⟨sample_admissible, ?_⟩
  have hfloor : (finished sampleOracles floorFails sampleWorld sampleCandidate
      sampleJob).view.floor = none := by decide +kernel
  have hcurrent : (finished sampleOracles floorFails sampleWorld sampleCandidate
      sampleJob).view.current ≠ none := by decide +kernel
  rintro (hdone | hnothing)
  · have := hfloor.symm.trans hdone.2.2.1
    cases this
  · exact hcurrent hnothing.2.1

end Epilykos.AppUpdate
