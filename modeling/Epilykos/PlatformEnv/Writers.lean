import Epilykos.PlatformEnv.CrashSafety
import Mathlib.Data.List.TakeWhile

/-!
Any number of writers on one card, each working from a snapshot of the selected record. Every
commit runs alone under the lock; what the lock does not cover is the time between a writer's
snapshot and its commit. The generation stands for the critical content over that time, so a
stale snapshot cannot undo what others were told is stored.
-/

namespace Epilykos.PlatformEnv

open Program

/-! ### What a snapshot commit builds -/

theorem CString.ofBytes_chars {bytes : Bytes} (h : 0 ∉ bytes) : (CString.ofBytes bytes).chars = bytes := by
  simp only [CString.ofBytes]
  rw [List.takeWhile_eq_self_iff]
  intro c hc
  simpa using fun (heq : c = 0) => h (heq ▸ hc)

/-- The update that takes a name to the value the desired record holds. -/
def desiredUpdate (name : Bytes) (value : Option Bytes) : Update :=
  ⟨some (.ofBytes name), value.map .ofBytes⟩

theorem addDiff_ok {diff diff' : Diff} {e : Entry} {value : Option Bytes}
    (h : addDiff diff e value = .ok diff') :
    diff'.updates = diff.updates ++ [desiredUpdate e.name value] := by
  unfold addDiff at h
  split_ifs at h
  cases h
  rfl

theorem mem_diffOld {next : View} {diff diff' : Diff} {es : List Entry}
    (h : diffOld next diff es = .ok diff') (u : Update) :
    u ∈ diff'.updates ↔ u ∈ diff.updates ∨ ∃ e ∈ es, get next.entries e.name ≠ some e.value ∧
      u = desiredUpdate e.name (get next.entries e.name) := by
  induction es generalizing diff with
  | nil =>
    cases h
    simp
  | cons e rest ih =>
    simp only [diffOld] at h
    split_ifs at h with hne
    · cases hadd : addDiff diff e (get next.entries e.name) with
      | error e => simp [hadd] at h
      | ok added =>
        simp only [hadd] at h
        rw [ih h, addDiff_ok hadd]
        simp [hne, or_assoc]
    · rw [ih h]
      simp [not_not.mp hne]

theorem mem_diffNew {old : View} {diff diff' : Diff} {es : List Entry}
    (h : diffNew old diff es = .ok diff') (u : Update) :
    u ∈ diff'.updates ↔ u ∈ diff.updates ∨ ∃ e ∈ es, get old.entries e.name = none ∧
      u = desiredUpdate e.name (some e.value) := by
  induction es generalizing diff with
  | nil =>
    cases h
    simp
  | cons e rest ih =>
    simp only [diffNew] at h
    split_ifs at h with hnone
    · cases hadd : addDiff diff e (some e.value) with
      | error e => simp [hadd] at h
      | ok added =>
        simp only [hadd] at h
        rw [ih h, addDiff_ok hadd]
        simp [Option.isNone_iff_eq_none.mp hnone, or_assoc]
    · rw [ih h]
      have hne : get old.entries e.name ≠ none := fun h => hnone (by simp [h])
      simp [hne]

section Snapshot

variable {old next : View} {updates : List Update} {changes : List Change}

/-- The updates are the difference between two views. -/
def IsDiff (old next : View) (updates : List Update) : Prop :=
  ∀ u, u ∈ updates ↔
    (∃ e ∈ old.entries, get next.entries e.name ≠ some e.value ∧
      u = desiredUpdate e.name (get next.entries e.name)) ∨
    ∃ e ∈ next.entries, get old.entries e.name = none ∧ u = desiredUpdate e.name (some e.value)

theorem isDiff_of_diff {diff : Diff}
    (h : (diffOld next ⟨[], 0⟩ old.entries >>= fun diff => diffNew old diff next.entries) =
      .ok diff) : IsDiff old next diff.updates := by
  simp only [bind, Except.bind] at h
  cases hold : diffOld next ⟨[], 0⟩ old.entries with
  | error e => simp [hold] at h
  | ok diff' =>
    simp only [hold] at h
    intro u
    rw [mem_diffNew h, mem_diffOld hold]
    simp

theorem desiredUpdate_newValue {next : View} (hnext : next.Ok) {e : Entry} (he : EntryOk e)
    {c : Change} (h : (⟨some c.name, c.value⟩ : Update) =
      desiredUpdate e.name (get next.entries e.name)) :
    c.name.chars = e.name ∧ c.newValue = get next.entries e.name := by
  simp only [desiredUpdate, Update.mk.injEq, Option.some.injEq] at h
  refine ⟨by rw [h.1, CString.ofBytes_chars he.nul_notMem_name], ?_⟩
  rw [Change.newValue, h.2, Option.map_map]
  cases hget : get next.entries e.name with
  | none => rfl
  | some value =>
    have hok := hnext.wellFormed.entry_ok _ (mem_of_get hget)
    simp [CString.ofBytes_chars hok.nul_notMem_value]

/-- Every change of a diff sets an accepted name to what the desired view holds under it. -/
theorem change_of_diff (hold : old.Ok) (hnext : next.Ok)
    (hdiff : IsDiff old next (changes.map fun c => ⟨some c.name, c.value⟩)) {c : Change}
    (hc : c ∈ changes) :
    61 ∉ c.name.chars ∧ c.newValue = get next.entries c.name.chars := by
  rcases (hdiff _).mp (List.mem_map_of_mem hc) with ⟨e, he, _, hu⟩ | ⟨e, he, _, hu⟩
  · have hok := hold.wellFormed.entry_ok e he
    obtain ⟨hname, hvalue⟩ := desiredUpdate_newValue hnext hok hu
    rw [hname]
    exact ⟨hok.equals_notMem, hvalue⟩
  · have hok := hnext.wellFormed.entry_ok e he
    rw [← get_of_mem hnext.wellFormed.nodup he] at hu
    obtain ⟨hname, hvalue⟩ := desiredUpdate_newValue hnext hok hu
    rw [hname]
    exact ⟨hok.equals_notMem, hvalue⟩

theorem newValue_of_diff (hold : old.Ok) (hnext : next.Ok)
    (hdiff : IsDiff old next (changes.map fun c => ⟨some c.name, c.value⟩)) {name : Bytes}
    (hname : name ≠ generationName) : newValue old changes name = get next.entries name := by
  rw [newValue, if_neg hname]
  cases hfind : changes.find? fun c => name == c.name.chars with
  | some c =>
    have heq : name = c.name.chars := by simpa using List.find?_some hfind
    rw [heq]
    exact (change_of_diff hold hnext hdiff (List.mem_of_find?_eq_some hfind)).2
  | none =>
    have hnone : ∀ c ∈ changes, name ≠ c.name.chars := by
      intro c hc
      simpa using List.find?_eq_none.mp hfind c hc
    -- a name with two different values would have been in the difference
    have hmem : ∀ e, EntryOk e → e.name = name → ∀ value,
        desiredUpdate e.name value ∉ changes.map fun c => (⟨some c.name, c.value⟩ : Update) := by
      intro e he heq value hu
      obtain ⟨c, hc, hcu⟩ := List.mem_map.mp hu
      simp only [desiredUpdate, Update.mk.injEq, Option.some.injEq] at hcu
      refine hnone c hc ?_
      rw [hcu.1, CString.ofBytes_chars he.nul_notMem_name, heq]
    cases hget : get old.entries name with
    | some value =>
      have he := mem_of_get hget
      by_contra hne
      exact hmem _ (hold.wellFormed.entry_ok _ he) rfl _
        ((hdiff _).mpr (Or.inl ⟨_, he, fun h => hne h.symm, rfl⟩))
    | none =>
      cases hget' : get next.entries name with
      | none => rfl
      | some value =>
        have he := mem_of_get hget'
        exact absurd ((hdiff _).mpr (Or.inr ⟨_, he, hget, rfl⟩))
          (hmem _ (hnext.wellFormed.entry_ok _ he) rfl _)

end Snapshot

/-- Apart from its generation, the record of a snapshot commit holds what was desired. -/
theorem snapshot_get {desired r : Record} {d : Device} {c : Index} {next w : View}
    (hparse : parse desired = .ok next) (h : (Op.snapshot desired).next d = .ok (c, r))
    (hw : parse r = .ok w) {name : Bytes} (hname : name ≠ generationName) :
    get w.entries name = get next.entries name := by
  obtain ⟨next', old, diff, hparse', hchoose, _, hdiff, hbuild⟩ := Op.next_snapshot h
  obtain rfl : next = next' := by simpa [hparse] using hparse'
  obtain ⟨changes, w', hupdates, hb⟩ := build_of_choose hchoose hbuild
  obtain rfl : w = w' := by simpa [hw] using hb.parsed
  have hold := parse_ok (Device.choose_ok hchoose).2.1
  have hnext := parse_ok hparse
  have hisDiff := isDiff_of_diff hdiff
  rw [hupdates] at hisDiff
  by_cases hequals : 61 ∈ name
  · rw [get_eq_none_of_equals (parse_ok hw) hequals, get_eq_none_of_equals hnext hequals]
  · have hforged : Unforged changes name := fun c hc _ hmem _ =>
      (change_of_diff hold hnext hisDiff hc).1 hmem
    rw [hb.get_eq hold hequals hforged, newValue_of_diff hold hnext hisDiff hname]

/-! ### Writers -/

structure Shared (Writer : Type) where
  device : Device
  snapshots : Writer → Option Record

inductive Event (Writer : Type)
  | take (writer : Writer)
  | snapshot (writer : Writer) (desired : Record) (outcome : Outcome)
  | commit (updates : List Update) (outcome : Outcome)

def Event.Acknowledged {Writer : Type} : Event Writer → Prop
  | .take _ => False
  | .snapshot _ _ outcome => ∃ out, outcome = .returned out
  | .commit _ outcome => ∃ out, outcome = .returned out

/-- An edited snapshot: anything, as long as it keeps the generation when it parses. -/
def EditOf (taken desired : Record) : Prop :=
  ∀ t v, parse taken = .ok t → parse desired = .ok v →
    get v.entries generationName = get t.entries generationName

/-- Each commit is one step; a snapshot is taken at any time. -/
inductive SharedStep {Writer : Type} [DecidableEq Writer] (s : Shared Writer) :
    Event Writer → Shared Writer → Prop
  | take {writer : Writer} {c : Index} {v : View} : s.device.choose = .ok (c, v) →
      SharedStep s (.take writer)
        { s with snapshots := Function.update s.snapshots writer (some (s.device c)) }
  | snapshot {writer : Writer} {taken desired : Record} {outcome : Outcome} {d : Device} :
      s.snapshots writer = some taken → EditOf taken desired →
      OpStep (.snapshot desired) s.device outcome d →
      SharedStep s (.snapshot writer desired outcome) { s with device := d }
  | commit {updates : List Update} {outcome : Outcome} {d : Device} :
      OpStep (.commit updates) s.device outcome d →
      SharedStep s (.commit updates outcome) { s with device := d }

/-- The events of a run, in order. -/
inductive Trace {Writer : Type} [DecidableEq Writer] :
    Shared Writer → List (Event Writer) → Shared Writer → Prop
  | nil (s : Shared Writer) : Trace s [] s
  | cons {s t u : Shared Writer} {event : Event Writer} {events : List (Event Writer)} :
      SharedStep s event t → Trace t events u → Trace s (event :: events) u

/-- What a name holds in the selected record. -/
def Device.entry (d : Device) (name : Bytes) : Option Bytes :=
  d.view.bind fun v => get v.entries name

/-- What a name holds in a record, if the record parses. -/
def Record.entry (r : Record) (name : Bytes) : Option Bytes :=
  (parse r).toOption.bind fun v => get v.entries name

/-- An acknowledged event of the run changed what some epk_* name holds. -/
def AcknowledgedChange {Writer : Type} [DecidableEq Writer] (s : Shared Writer)
    (events : List (Event Writer)) (s' : Shared Writer) : Prop :=
  ∃ before event after t u, events = before ++ event :: after ∧ Trace s before t ∧
    SharedStep t event u ∧ Trace u after s' ∧ event.Acknowledged ∧
    ∃ name, isCritical name = true ∧ t.device.entry name ≠ u.device.entry name

/-- What a commit of a stale snapshot ends in: the desired record is looked at first. -/
def refusal (desired : Record) : EnvError :=
  if !desired.crcValid then .invalid
  else match parse desired with
    | .error e => e
    | .ok _ => .conflict

theorem generation_of_edit {taken desired : Record} {t v : View} (htaken : parse taken = .ok t)
    (hparse : parse desired = .ok v) (hedit : EditOf taken desired) :
    v.generation = t.generation := by
  have hv := (parse_ok hparse).generation
  have ht := (parse_ok htaken).generation
  have heq := hedit t v htaken hparse
  simp only [generationName] at heq
  rw [heq, ht] at hv
  exact (Option.some.inj hv).symm

section Run

variable {Writer : Type} [DecidableEq Writer] {s s' : Shared Writer}

theorem SharedStep.history {event : Event Writer} (h : SharedStep s event s') :
    History s.device s'.device := by
  cases h with
  | take _ => exact .refl
  | snapshot _ _ hop => exact .single ⟨_, _, hop⟩
  | commit hop => exact .single ⟨_, _, hop⟩

theorem Trace.history {events : List (Event Writer)} (h : Trace s events s') :
    History s.device s'.device := by
  induction h with
  | nil => exact .refl
  | cons hstep _ ih => exact hstep.history.trans ih

theorem Trace.snapshot_kept {events : List (Event Writer)} {writer : Writer}
    (h : Trace s events s') (hkept : .take writer ∉ events) :
    s'.snapshots writer = s.snapshots writer := by
  induction h with
  | nil => rfl
  | cons hstep _ ih =>
    simp only [List.mem_cons, not_or] at hkept
    rw [ih hkept.2]
    cases hstep with
    | take _ =>
      refine Function.update_of_ne ?_ ..
      rintro rfl
      exact hkept.1 rfl
    | snapshot _ _ _ => rfl
    | commit _ => rfl

theorem Device.entry_of_choose {d : Device} {c : Index} {v : View} (h : d.choose = .ok (c, v))
    (name : Bytes) : d.entry name = get v.entries name := by
  simp [Device.entry, Device.view_of_choose h]

/-- A changed epk_* entry is a new generation. -/
theorem AcknowledgedChange.generation_lt {events : List (Event Writer)} {i : Index} {v : View}
    (hchoose : s.device.choose = .ok (i, v)) (h : AcknowledgedChange s events s') :
    ∃ j x, s'.device.choose = .ok (j, x) ∧ v.generation < x.generation := by
  obtain ⟨_, _, _, t, u, _, hbefore, hstep, hafter, _, name, hname, hne⟩ := h
  obtain ⟨i₁, v₁, hv₁, hadv₁⟩ := hbefore.history.advances hchoose
  obtain ⟨i₂, v₂, hv₂, hadv₂⟩ := hstep.history.advances hv₁
  obtain ⟨i₃, v₃, hv₃, hadv₃⟩ := hafter.history.advances hv₂
  refine ⟨i₃, v₃, hv₃, ?_⟩
  have hlt : v₁.generation < v₂.generation := by
    rcases hadv₂.generation with hlt | ⟨_, hsame⟩
    · exact hlt
    · rw [Device.entry_of_choose hv₁, Device.entry_of_choose hv₂] at hne
      exact absurd (hsame name hname) hne
  have hle₁ := hadv₁.generation_le
  have hle₃ := hadv₃.generation_le
  omega

theorem next_stale {desired taken : Record} {d : Device} {i : Index} {t x : View}
    (htaken : parse taken = .ok t) (hedit : EditOf taken desired)
    (hchoose : d.choose = .ok (i, x)) (hlt : t.generation < x.generation) :
    (Op.snapshot desired).next d = .error (refusal desired) := by
  simp only [Op.next, refusal, pure, bind, Except.pure, Except.bind]
  split_ifs with hcrc
  · rfl
  cases hparse : parse desired with
  | error e => rfl
  | ok v =>
    have hgen : v.generation = t.generation := generation_of_edit htaken hparse hedit
    have hne : v.generation ≠ (selection x i).generation := by
      simp only [selection]
      omega
    simp only [Device.select_of_choose hchoose, if_pos hne]
    rfl

/-- A snapshot commit that returns OK was made against the generation it was taken from, so
an unedited entry holds what it held in the snapshot, before the commit and after it. -/
theorem entry_of_acknowledged {desired taken : Record} {d d' : Device} {i : Index} {t x : View}
    {out : Selection} (htaken : parse taken = .ok t) (hedit : EditOf taken desired)
    (hchoose : d.choose = .ok (i, x)) (hadv : Advances t x)
    (h : OpStep (.snapshot desired) d (.returned out) d') {name : Bytes}
    (hcrit : isCritical name = true) (hname : name ≠ generationName)
    (hunedited : desired.entry name = get t.entries name) : d'.entry name = d.entry name := by
  obtain ⟨j, y, hy, _, hreturned⟩ := h.selects hchoose
  obtain ⟨hbuilding, _⟩ := hreturned out rfl
  cases hnext : (Op.snapshot desired).next d with
  | error e => simp [Op.building, hnext, Except.toOption] at hbuilding
  | ok p =>
    obtain ⟨c, r⟩ := p
    obtain ⟨v, x', diff, hparse, hchoose', hgen, _, _⟩ := Op.next_snapshot hnext
    obtain ⟨_, rfl⟩ : i = c ∧ x = x' := by simpa [hchoose] using hchoose'
    obtain ⟨_, _, w, _, hb⟩ := Op.next_ok hnext
    obtain rfl : w = y := by
      have := building_of_next hnext hb.parsed
      exact Option.some.inj (this.symm.trans hbuilding)
    have hsame : SameCritical t x := by
      rcases hadv.generation with hlt | ⟨_, hsame⟩
      · have := generation_of_edit htaken hparse hedit
        omega
      · exact hsame
    rw [Device.entry_of_choose hy, Device.entry_of_choose hchoose,
      snapshot_get hparse hnext hb.parsed hname, ← hsame name hcrit, ← hunedited]
    simp [Record.entry, hparse, Except.toOption]

/-- Among any writers and commits, a snapshot commit that returns OK leaves every epk_* entry
its writer did not edit as it found it (the generation apart, which it advances), and a
snapshot older than an acknowledged epk_* change is refused with nothing written. -/
theorem no_lost_update {s₀ s₁ s₁' s₂ s₃ : Shared Writer} {earlier between : List (Event Writer)}
    {writer : Writer} {desired : Record} {outcome : Outcome} (hseed : Seeded s₀.device)
    (hearlier : Trace s₀ earlier s₁) (htake : SharedStep s₁ (.take writer) s₁')
    (hbetween : Trace s₁' between s₂) (hkept : .take writer ∉ between)
    (hcommit : SharedStep s₂ (.snapshot writer desired outcome) s₃) (hreturns : outcome ≠ .cut) :
    (∀ out, outcome = .returned out → ∀ name, isCritical name = true → name ≠ generationName →
      desired.entry name = s₁.device.entry name → s₃.device.entry name = s₂.device.entry name) ∧
    (AcknowledgedChange s₁' between s₂ →
      outcome = .raised (refusal desired) ∧ s₃.device = s₂.device) := by
  obtain ⟨v, hv⟩ := hseed.selects
  obtain ⟨c, t, ht, _⟩ := hearlier.history.advances hv
  obtain ⟨i, x, hx, hadv⟩ := hbetween.history.advances (c := c) (v := t) (by cases htake; exact ht)
  have hsnapshot : s₂.snapshots writer = some (s₁.device c) := by
    rw [hbetween.snapshot_kept hkept]
    cases htake with
    | take hchoose =>
      obtain ⟨rfl, _⟩ : c = _ ∧ t = _ := by simpa [ht] using hchoose
      simp
  cases hcommit with
  | snapshot hown hedit hop =>
    obtain rfl := Option.some.inj (hsnapshot.symm.trans hown)
    have htaken := (Device.choose_ok ht).2.1
    refine ⟨?_, fun hchange => ?_⟩
    · rintro out rfl name hcrit hname hunedited
      rw [Device.entry_of_choose ht] at hunedited
      exact entry_of_acknowledged htaken hedit hx hadv hop hcrit hname hunedited
    · obtain ⟨j, y, hy, hlt⟩ := hchange.generation_lt (i := c) (v := t)
        (by cases htake; exact ht)
      exact hop.of_error hy (next_stale htaken hedit hy hlt) hreturns

end Run

/-- The sample card with one writer and no snapshot taken. -/
def sampleShared : Shared Unit := ⟨seedDevice sampleValues, fun _ => none⟩

/-- The snapshot with the floor raised. -/
def raisedSnapshot : Record := seedRecord (raisedValues "7") 0

theorem storable_raisedSnapshot :
    Storable (raisedValues "7") ⟨raisedValues "7", 252, 7, 13, 2⟩ where
  wellFormed := by decide +kernel
  length_le := by decide +kernel
  room := by decide +kernel
  fields := by decide +kernel

theorem raisedSnapshot_edit : EditOf (seedDevice sampleValues .b) raisedSnapshot := by
  intro t v ht hv
  rw [show parse (seedDevice sampleValues .b) = _ from parse_seedRecord storable_sample 2] at ht
  rw [raisedSnapshot, parse_seedRecord storable_raisedSnapshot] at hv
  cases ht
  cases hv
  decide +kernel

theorem next_raisedSnapshot : (Op.snapshot raisedSnapshot).next (seedDevice sampleValues) =
    .ok (.b, (Record.ofText (lines ((raisedValues "8").map Entry.text))).setCrc) := by
  have hold : diffOld ⟨raisedValues "7", 252, 7, 13, 2⟩ ⟨[], 0⟩ sampleValues =
      .ok ⟨raiseFloor, 13⟩ := by
    decide +kernel
  have hnew : diffNew sampleView ⟨raiseFloor, 13⟩ (raisedValues "7") = .ok ⟨raiseFloor, 13⟩ := by
    decide +kernel
  exact Op.next_snapshot_complete (Record.setCrc_crcValid _)
    (parse_seedRecord storable_raisedSnapshot 0) (choose_seedDevice storable_sample) rfl hold hnew
    build_raiseFloor

/-- The snapshot with a newline for the first value. -/
def garbledSnapshot : Record :=
  seedRecord (⟨ascii "BOOT_A_LEFT", [10]⟩ :: sampleValues.tail) 0

theorem parse_garbledSnapshot : parse garbledSnapshot = .error .invalid := by
  decide +kernel

theorem garbledSnapshot_edit : EditOf (seedDevice sampleValues .b) garbledSnapshot := by
  intro t v _ hv
  rw [parse_garbledSnapshot] at hv
  cases hv

/-- What an acknowledged raise of the floor leaves on the sample card. -/
theorem raised_entry {op : Op} {out : Selection} {d : Device}
    (hnext : op.next (seedDevice sampleValues) =
      .ok (.b, (Record.ofText (lines ((raisedValues "8").map Entry.text))).setCrc))
    (h : OpStep op (seedDevice sampleValues) (.returned out) d) (name : Bytes) :
    d.entry name = get (raisedValues "8") name := by
  obtain ⟨i, x, hx, _, hreturned⟩ := h.selects (choose_seedDevice storable_sample)
  obtain ⟨hbuilding, _⟩ := hreturned out rfl
  have hparse : parse (Record.ofText (lines ((raisedValues "8").map Entry.text))).setCrc =
      .ok ⟨raisedValues "8", 252, 8, 13, 2⟩ := by
    rw [parse_setCrc]
    exact storable_raised.parse_ofText
  rw [building_of_next hnext hparse] at hbuilding
  rw [Device.entry_of_choose hx, ← Option.some.inj hbuilding]

theorem sample_entry (name : Bytes) :
    (seedDevice sampleValues).entry name = get sampleValues name :=
  Device.entry_of_choose (choose_seedDevice storable_sample) name

theorem sample_taken : ∃ taken : Shared Unit, SharedStep sampleShared (.take ()) taken ∧
    taken.device = seedDevice sampleValues ∧
    taken.snapshots () = some (seedDevice sampleValues .b) := by
  refine ⟨_, .take (choose_seedDevice storable_sample), rfl, ?_⟩
  simp only [Function.update_self]
  rfl

/-- Behind the writer's back another commit has raised the floor. -/
theorem sample_raised {taken : Shared Unit} (hdevice : taken.device = seedDevice sampleValues) :
    ∃ out raised, SharedStep taken (.commit raiseFloor (.returned out)) raised ∧
      raised.snapshots = taken.snapshots ∧
      AcknowledgedChange taken [.commit raiseFloor (.returned out)] raised := by
  obtain ⟨outcome, d, hreturns, hstep⟩ :=
    Op.terminates (.commit raiseFloor) (seedDevice sampleValues)
  obtain ⟨out, rfl⟩ := hstep.of_ok next_raiseFloor hreturns
  have hcommit := SharedStep.commit (s := taken) (hdevice ▸ hstep)
  refine ⟨out, _, hcommit, rfl, [], _, [], _, _, rfl, .nil _, hcommit, .nil _, ⟨out, rfl⟩,
    ascii "epk_os_floor", by decide, ?_⟩
  rw [hdevice, sample_entry, raised_entry next_raiseFloor hstep]
  decide +kernel

/-- On the sample card a writer's commit of its raised floor returns OK and changes the
generation, which it did not edit; and after another commit has raised the floor, a snapshot
garbled by an edit is refused as invalid, not as a conflict. -/
theorem unedited_generation_changes :
    (∃ taken out s, SharedStep sampleShared (.take ()) taken ∧
      SharedStep taken (.snapshot () raisedSnapshot (.returned out)) s ∧
      isCritical generationName = true ∧
      raisedSnapshot.entry generationName = sampleShared.device.entry generationName ∧
      s.device.entry generationName ≠ taken.device.entry generationName) ∧
    ∃ taken out raised s, SharedStep sampleShared (.take ()) taken ∧
      SharedStep taken (.commit raiseFloor (.returned out)) raised ∧
      AcknowledgedChange taken [.commit raiseFloor (.returned out)] raised ∧
      SharedStep raised (.snapshot () garbledSnapshot (.raised .invalid)) s := by
  obtain ⟨taken, htake, hdevice, hsnapshot⟩ := sample_taken
  constructor
  · obtain ⟨outcome, d, hreturns, hstep⟩ :=
      Op.terminates (.snapshot raisedSnapshot) (seedDevice sampleValues)
    obtain ⟨out, rfl⟩ := hstep.of_ok next_raisedSnapshot hreturns
    refine ⟨taken, out, _, htake, .snapshot hsnapshot raisedSnapshot_edit (hdevice ▸ hstep),
      by decide, ?_, ?_⟩
    · rw [sampleShared, sample_entry, Record.entry, raisedSnapshot,
        parse_seedRecord storable_raisedSnapshot]
      decide +kernel
    · rw [hdevice, sample_entry, raised_entry next_raisedSnapshot hstep]
      decide +kernel
  · obtain ⟨out, raised, hcommit, hkept, hchange⟩ := sample_raised hdevice
    obtain ⟨i, x, hx, _⟩ := hcommit.history.advances (hdevice ▸ choose_seedDevice storable_sample)
    obtain ⟨outcome, d, hreturns, hstep⟩ := Op.terminates (.snapshot garbledSnapshot) raised.device
    obtain ⟨rfl, _⟩ := hstep.of_error hx
      (Op.next_of_parse_error (Record.setCrc_crcValid _) parse_garbledSnapshot) hreturns
    exact ⟨taken, out, raised, _, htake, hcommit, hchange,
      .snapshot (hkept ▸ hsnapshot) garbledSnapshot_edit hstep⟩

/-- A stale snapshot that parses is a conflict. -/
theorem no_lost_update_stale : ∃ taken out raised s,
    SharedStep sampleShared (.take ()) taken ∧
    SharedStep taken (.commit raiseFloor (.returned out)) raised ∧
    SharedStep raised (.snapshot () raisedSnapshot (.raised .conflict)) s ∧
    s.device = raised.device := by
  obtain ⟨taken, htake, hdevice, hsnapshot⟩ := sample_taken
  obtain ⟨out, raised, hcommit, hkept, hchange⟩ := sample_raised hdevice
  obtain ⟨outcome, d, hreturns, hstep⟩ := Op.terminates (.snapshot raisedSnapshot) raised.device
  have hstale := SharedStep.snapshot (hkept ▸ hsnapshot) raisedSnapshot_edit hstep
  obtain ⟨heq, hsame⟩ := (no_lost_update (seeded_seedDevice storable_sample) (.nil sampleShared)
    htake (.cons hcommit (.nil _)) (by simp) hstale hreturns).2 hchange
  have hrefusal : refusal raisedSnapshot = .conflict := by
    have hcrc : raisedSnapshot.crcValid = true := Record.setCrc_crcValid _
    have hparse := parse_seedRecord storable_raisedSnapshot 0
    rw [← raisedSnapshot] at hparse
    simp [refusal, hcrc, hparse]
  rw [hrefusal] at heq
  subst heq
  exact ⟨taken, out, raised, _, htake, hcommit, hstale, hsame⟩

end Epilykos.PlatformEnv
