import Epilykos.OsUpdate.Activate

/-!
The application promoted after an OS confirmation, across power losses. Four files are
replaced one after another, and the next attempt decides from the second of them whether
there is anything to do: once current.json is replaced, floor and active.env are not
reached any more.
-/

namespace Epilykos.OsUpdate

open Program World

variable {O : Oracles} {w : World}

/-- The application this OS image carries. -/
def World.bundled (w : World) : Release := w.baselines w.booted

/-- The promoted application of the same channel. -/
def World.promotedSame (w : World) : Option Release :=
  w.app.current.filter fun current => current.channel == w.bundled.channel

/-- promote_app has something to do. -/
def Promotes (w : World) : Prop :=
  ¬ (w.bundled.imageId = "" ∨ w.bundled.sequence = 0) ∧
    ¬ w.promotedSame.any fun current => w.bundled.sequence ≤ current.sequence

/-- How many calls it takes to replace current.json. -/
def currentAt (w : World) : ℕ := if w.promotedSame.isSome then 4 else 3

def raisedFloor (w : World) : ℕ := max (w.app.floor.getD 0) w.bundled.sequence

/-- The application's files after so many calls. -/
def appAfter (w : World) (n : ℕ) : AppFiles where
  current := if currentAt w ≤ n then some w.bundled else w.app.current
  previous := if 3 ≤ n then w.promotedSame.or w.app.previous else w.app.previous
  floor := if currentAt w + 2 ≤ n then some (raisedFloor w) else w.app.floor
  active := if currentAt w + 3 ≤ n then some w.bundled.toActive else w.app.active

/-- After its two reads. -/
theorem promoteApp_reads (h : ¬ (w.bundled.imageId = "" ∨ w.bundled.sequence = 0)) (n : ℕ) :
    promoteApp.after (serve O) (n + 2) w =
        (promoteOver w.bundled w.promotedSame).after (serve O) n w ∧
      promoteApp.run (serve O) w = (promoteOver w.bundled w.promotedSame).run (serve O) w := by
  let rest : OsProg Unit := do
    promoteOver w.bundled ((← ask .readCurrent).filter fun current =>
      current.channel == w.bundled.channel)
  have hrest : (if w.bundled.imageId = "" ∨ w.bundled.sequence = 0 then pure () else rest) = rest :=
    if_neg h
  constructor
  · change (if w.bundled.imageId = "" ∨ w.bundled.sequence = 0 then pure () else rest).after
      (serve O) (n + 1) w = _
    rw [hrest]
    rfl
  · change (if w.bundled.imageId = "" ∨ w.bundled.sequence = 0 then pure () else rest).run
      (serve O) w = _
    rw [hrest]
    rfl

/-- A program that returns at once is nowhere cut short. -/
theorem after_ret {α : Type} (n : ℕ) (a : α) :
    ((Prog.ret a : OsProg α).after (serve O) n w).1 = w := by
  cases n <;> rfl

theorem promoteApp_idle (h : ¬ Promotes w) (n : ℕ) :
    (promoteApp.after (serve O) n w).1 = w ∧ (promoteApp.run (serve O) w).2 = w := by
  by_cases hbase : w.bundled.imageId = "" ∨ w.bundled.sequence = 0
  · have hnothing (rest : OsProg Unit) :
        (if w.bundled.imageId = "" ∨ w.bundled.sequence = 0 then pure () else rest) = .ret () :=
      if_pos hbase
    constructor
    · cases n with
      | zero => rfl
      | succ n =>
        change ((if w.bundled.imageId = "" ∨ w.bundled.sequence = 0 then pure () else
          (_ : OsProg Unit)).after (serve O) n w).1 = w
        rw [hnothing]
        exact after_ret n ()
    · change ((if w.bundled.imageId = "" ∨ w.bundled.sequence = 0 then pure () else
        (_ : OsProg Unit)).run (serve O) w).2 = w
      rw [hnothing]
      rfl
  · have hsame : w.promotedSame.any (fun current => w.bundled.sequence ≤ current.sequence) := by
      by_contra hnot
      exact h ⟨hbase, hnot⟩
    have hover : promoteOver w.bundled w.promotedSame = .ret () := if_pos hsame
    constructor
    · match n with
      | 0 | 1 => rfl
      | n + 2 =>
        rw [(promoteApp_reads hbase n).1, hover]
        exact after_ret n ()
    · rw [(promoteApp_reads (O := O) hbase 0).2, hover]
      rfl

/-- The writes of one promotion. -/
theorem promoteOver_writes (h : Promotes w) :
    promoteOver w.bundled w.promotedSame = (do
      keepPrevious w.promotedSame
      stored (← ask (.writeCurrent w.bundled))
      let floor := (← ask .readAppFloor).getD 0
      stored (← ask (.writeAppFloor (max floor w.bundled.sequence)))
      stored (← ask (.writeActive w.bundled.toActive))) := if_neg h.2

theorem currentAt_cases (w : World) : currentAt w = 3 ∨ currentAt w = 4 := by
  rw [currentAt]
  split <;> simp

theorem appAfter_first {n : ℕ} (hn : n < 3) : appAfter w n = w.app := by
  have hcurrent := currentAt_cases w
  rw [appAfter, if_neg (by omega), if_neg (by omega), if_neg (by omega), if_neg (by omega)]

/-- The files once everything is promoted. -/
theorem appAfter_end (w : World) : appAfter w (currentAt w + 3) =
    { current := some w.bundled, previous := w.promotedSame.or w.app.previous,
      floor := some (raisedFloor w), active := some w.bundled.toActive } := by
  rw [appAfter, if_pos (by omega), if_pos (by omega), if_pos (by omega), if_pos (by omega)]

theorem appAfter_last {n : ℕ} (hn : currentAt w + 3 ≤ n) :
    appAfter w n = appAfter w (currentAt w + 3) := by
  have hcurrent := currentAt_cases w
  rw [appAfter_end, appAfter, if_pos (by omega), if_pos (by omega), if_pos (by omega), if_pos hn]

theorem promoteApp_run (h : Promotes w) :
    (promoteApp.run (serve O) w).2 = { w with app := appAfter w (currentAt w + 3) } := by
  rw [(promoteApp_reads (O := O) h.1 0).2, promoteOver_writes h]
  cases hsame : w.promotedSame with
  | none =>
    rw [appAfter, raisedFloor, currentAt, hsame]
    rfl
  | some r =>
    rw [appAfter, raisedFloor, currentAt, hsame]
    rfl

theorem promoteApp_after (h : Promotes w) (n : ℕ) :
    (promoteApp.after (serve O) n w).1 = { w with app := appAfter w n } := by
  have hrun := promoteApp_run (O := O) h
  rw [(promoteApp_reads (O := O) h.1 0).2, promoteOver_writes h] at hrun
  match n with
  | 0 | 1 =>
    rw [appAfter_first (by omega)]
    rfl
  | n + 2 =>
    rw [(promoteApp_reads h.1 n).1, promoteOver_writes h]
    cases hsame : w.promotedSame with
    | none =>
      match n with
      | 0 | 1 | 2 | 3 =>
        rw [appAfter, raisedFloor, currentAt, hsame]
        rfl
      | n + 4 =>
        have hlast : currentAt w + 3 ≤ n + 4 + 2 := by
          rw [currentAt, hsame]
          simp
        rw [appAfter_last hlast, ← hrun, hsame]
        exact after_ret n ()
    | some r =>
      match n with
      | 0 | 1 | 2 | 3 | 4 =>
        rw [appAfter, raisedFloor, currentAt, hsame]
        rfl
      | n + 5 =>
        have hlast : currentAt w + 3 ≤ n + 5 + 2 := by
          rw [currentAt, hsame]
          simp
        rw [appAfter_last hlast, ← hrun, hsame]
        exact after_ret n ()

/-! ### Cut and resumed -/

/-- Each attempt is cut after so many calls. -/
def cutShort (O : Oracles) (cuts : List ℕ) (w : World) : World :=
  cuts.foldl (fun t n => (promoteApp.after (serve O) n t).1) w

/-- Nothing to do; or the first attempt that replaces current.json goes on to active.env, or
active.env and floor need no change from there. -/
def Completes (cuts : List ℕ) (w : World) : Prop :=
  Promotes w → ∀ n ∈ cuts.find? (currentAt w ≤ ·), currentAt w + 3 ≤ n ∨
    (w.app.active = some w.bundled.toActive ∧
      (currentAt w + 2 ≤ n ∨ w.app.floor = some (raisedFloor w)))

/-- Before current.json is replaced the next attempt starts from the same place. -/
theorem early_same {n : ℕ} (hn : n < currentAt w) :
    (appAfter w n).current = w.app.current ∧ (appAfter w n).floor = w.app.floor ∧
      (appAfter w n).active = w.app.active := by
  refine ⟨if_neg (by omega), if_neg (by omega), if_neg (by omega)⟩

/-- Once it is replaced, the next attempt does nothing. -/
theorem late_idle {n : ℕ} (hn : currentAt w ≤ n) :
    ¬ Promotes { w with app := appAfter w n } := by
  rintro ⟨_, hnewer⟩
  refine hnewer ?_
  have hcurrent : (appAfter w n).current = some w.bundled := if_pos hn
  simp [World.promotedSame, World.bundled, hcurrent]

theorem cutShort_idle (h : ¬ Promotes w) (cuts : List ℕ) : cutShort O cuts w = w := by
  induction cuts with
  | nil => rfl
  | cons n cuts ih =>
    rw [cutShort, List.foldl_cons, (promoteApp_idle h n).1]
    exact ih

/-- An attempt cut before that leaves the same promotion to do. -/
structure SameTask (w w' : World) : Prop where
  bundled : w'.bundled = w.bundled
  same : w'.promotedSame = w.promotedSame
  floor : w'.app.floor = w.app.floor
  active : w'.app.active = w.app.active

theorem early_task {n : ℕ} (hn : n < currentAt w) : SameTask w { w with app := appAfter w n } := by
  obtain ⟨hcurrent, hfloor, hactive⟩ := early_same hn
  refine ⟨rfl, ?_, hfloor, hactive⟩
  change (appAfter w n).current.filter _ = _
  rw [hcurrent]
  rfl

theorem SameTask.currentAt {w' : World} (h : SameTask w w') : currentAt w' = currentAt w := by
  rw [OsUpdate.currentAt, OsUpdate.currentAt, h.same]

theorem SameTask.promotes {w' : World} (h : SameTask w w') : Promotes w' ↔ Promotes w := by
  rw [Promotes, Promotes, h.bundled, h.same]

theorem SameTask.completes {w' : World} (h : SameTask w w') (cuts : List ℕ) :
    Completes cuts w' ↔ Completes cuts w := by
  rw [Completes, Completes, h.promotes, h.currentAt, h.active, h.bundled, raisedFloor, raisedFloor,
    h.floor, h.bundled]

/-- The files differ from the promoted ones only where the attempt did not get. -/
theorem late_complete {n : ℕ} (hn : currentAt w ≤ n) :
    appAfter w n = appAfter w (currentAt w + 3) ↔ currentAt w + 3 ≤ n ∨
      (w.app.active = some w.bundled.toActive ∧
        (currentAt w + 2 ≤ n ∨ w.app.floor = some (raisedFloor w))) := by
  have hcurrent := currentAt_cases w
  by_cases hlast : currentAt w + 3 ≤ n
  · exact iff_of_true (appAfter_last hlast) (Or.inl hlast)
  · have h₃ : 3 ≤ n := by omega
    have hend : currentAt w ≤ currentAt w + 3 := by omega
    have hend' : currentAt w + 2 ≤ currentAt w + 3 := by omega
    have hend₃ : 3 ≤ currentAt w + 3 := by omega
    simp only [appAfter, AppFiles.mk.injEq, if_pos hn, if_pos h₃, if_pos hend, if_pos hend',
      if_pos hend₃, le_refl, if_true, true_and, hlast, false_or]
    rw [and_comm]
    refine and_congr_right fun _ => ?_
    by_cases hfloor : currentAt w + 2 ≤ n <;> simp [hfloor]

theorem or_or (a b : Option Release) : a.or (a.or b) = a.or b := by
  cases a <;> rfl

/-- What the next attempt makes of it is the same too. -/
theorem early_end {n : ℕ} (hn : n < currentAt w) :
    appAfter { w with app := appAfter w n } (currentAt { w with app := appAfter w n } + 3) =
      appAfter w (currentAt w + 3) := by
  have htask := early_task hn
  have hprevious : w.promotedSame.or (appAfter w n).previous = w.promotedSame.or w.app.previous := by
    by_cases h₃ : 3 ≤ n
    · rw [appAfter, if_pos h₃, or_or]
    · rw [appAfter, if_neg h₃]
  have hfloor : raisedFloor { w with app := appAfter w n } = raisedFloor w := by
    rw [raisedFloor, htask.floor, htask.bundled, raisedFloor]
  rw [appAfter_end, appAfter_end, htask.same, hfloor, htask.bundled]
  exact congrArg (fun previous => AppFiles.mk _ previous _ _) hprevious

/-- Attempts that are cut, and then one that is not, leave what one attempt leaves, in
exactly these cases. -/
theorem promotion_resumes (O : Oracles) (cuts : List ℕ) (w : World) :
    (promoteApp.run (serve O) (cutShort O cuts w)).2.app = (promoteApp.run (serve O) w).2.app ↔
      Completes cuts w := by
  by_cases h : Promotes w
  · rw [promoteApp_run h]
    induction cuts generalizing w with
    | nil =>
      rw [cutShort, List.foldl_nil, promoteApp_run h]
      exact iff_of_true rfl fun _ n hn => by cases hn
    | cons n cuts ih =>
      rw [cutShort, List.foldl_cons, promoteApp_after h]
      by_cases hn : currentAt w ≤ n
      · have hidle := late_idle hn
        have hcuts := cutShort_idle (O := O) hidle cuts
        rw [cutShort] at hcuts
        rw [hcuts, (promoteApp_idle (O := O) hidle 0).2, Completes,
          List.find?_cons_of_pos (by simpa using hn)]
        refine (late_complete hn).trans ⟨fun hc _ m hm => ?_, fun hc => hc h n rfl⟩
        cases hm
        exact hc
      · have hlt := Nat.lt_of_not_le hn
        have htask := early_task hlt
        have hstep := ih { w with app := appAfter w n } (htask.promotes.mpr h)
        rw [htask.completes, early_end hlt] at hstep
        refine hstep.trans ?_
        rw [Completes, Completes, List.find?_cons_of_neg (by simpa using hn)]
  · rw [cutShort_idle h]
    exact iff_of_true rfl fun hp => absurd hp h

/-- A power loss right after current.json: floor and active.env are never reached. -/
theorem promotion_not_resumed :
    let w := sampleWorld sampleEnv .a
    (promoteApp.run (serve sampleOracles) (cutShort sampleOracles [3] w)).2.app ≠
      (promoteApp.run (serve sampleOracles) w).2.app := by
  intro w
  have hfloor : (promoteApp.run (serve sampleOracles) (cutShort sampleOracles [3] w)).2.app.floor =
      none := by decide
  have hraised : (promoteApp.run (serve sampleOracles) w).2.app.floor = some 9 := by decide
  intro heq
  rw [heq, hraised] at hfloor
  cases hfloor

end Epilykos.OsUpdate
