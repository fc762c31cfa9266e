import Epilykos.PlatformEnv.Acknowledge
import Epilykos.PlatformEnv.Writers
import Mathlib.Data.List.Dedup

/-!
What a snapshot commit leaves on the card: the desired record as a map from names to values,
under the next generation when an epk_* entry differs. The difference is replayed over the
old entries in their order, so the payload is a permutation of the desired one, of the same
size up to the digits of the generation.
-/

namespace Epilykos.PlatformEnv

open Program

/-- The names on which two views differ. -/
def differing (old next : View) : List Bytes :=
  ((old.entries ++ next.entries).map Entry.name).dedup.filter fun name =>
    get old.entries name ≠ get next.entries name

/-- Names as they lie in the buffer, each with its terminator. -/
def namesSize (names : List Bytes) : ℕ := (names.map fun name => name.length + 1).sum

/-- An epk_* entry other than the generation was added, removed or changed. -/
def criticalChange (old next : View) : Bool :=
  (differing old next).any fun name => isCritical name && name != generationName

def newGeneration (old next : View) : ℕ := old.generation + (criticalChange old next).toNat

/-- The desired entries under a generation. -/
def withGeneration (next : View) (n : ℕ) : List Entry :=
  next.entries.map fun e => if e.name = generationName then ⟨e.name, toDecimal n⟩ else e

/-- `w` is the desired map under the new generation. -/
structure Exact (old next w : View) : Prop where
  generation : get w.entries generationName = some (toDecimal (newGeneration old next))
  others : ∀ name, name ≠ generationName → get w.entries name = get next.entries name

/-- A record that counts: its checksum holds and the parser takes it. -/
def Accepted (r : Record) : Prop :=
  r.crcValid = true ∧ ∃ w, parse r = .ok w ∧ WellFormed w.entries ∧ w.used + headroom ≤ dataSize

/-- The desired map fits the buffers and the budget, and takes nothing back. -/
structure Fits (old next : View) : Prop where
  count : (differing old next).length ≤ maxUpdates
  names : namesSize (differing old next) ≤ envSize
  room : (lines ((withGeneration next (newGeneration old next)).map Entry.text)).length + 1 +
    headroom ≤ dataSize
  generation : newGeneration old next ≤ uint64Max
  notOlder : NotOlder next old

theorem differing_nodup (old next : View) : (differing old next).Nodup :=
  (List.nodup_dedup _).filter _

theorem mem_differing {old next : View} {name : Bytes} :
    name ∈ differing old next ↔ get old.entries name ≠ get next.entries name := by
  simp only [differing, List.mem_filter, List.mem_dedup, decide_eq_true_eq, and_iff_right_iff_imp]
  intro hne
  rw [List.map_append, List.mem_append, List.mem_map, List.mem_map]
  cases hold : get old.entries name with
  | some value => exact Or.inl (get_isSome_iff.mp (by rw [hold]; rfl))
  | none =>
    cases hnext : get next.entries name with
    | some value => exact Or.inr (get_isSome_iff.mp (by rw [hnext]; rfl))
    | none => exact absurd (hold.trans hnext.symm) hne

theorem get_generation_eq {old next : View} (hold : old.Ok) (hnext : next.Ok)
    (hgen : next.generation = old.generation) :
    get old.entries generationName = get next.entries generationName := by
  rw [toDecimal_generation hold, toDecimal_generation hnext, hgen]

/-! ### The record written -/

section Written

variable {old next : View} {changes : List Change}

/-- `changed_critical` on the updates of a diff. -/
theorem changedCritical_of_diff (hold : old.Ok) (hnext : next.Ok) (hok : ChangesOk changes)
    (hdiff : IsDiff old next (changes.map fun c => ⟨some c.name, c.value⟩)) :
    changedCritical old changes = criticalChange old next := by
  rw [Bool.eq_iff_iff]
  simp only [changedCritical, criticalChange, List.any_eq_true, Bool.and_eq_true, bne_iff_ne]
  constructor
  · rintro ⟨c, hc, hcritical, hne⟩
    rw [(change_of_diff hold hnext hdiff hc).2] at hne
    exact ⟨_, mem_differing.mpr hne, hcritical, hok.not_generation c hc⟩
  · rintro ⟨name, hmem, hcritical, hgen⟩
    have hvalue := newValue_of_diff hold hnext hdiff hgen
    rw [newValue, if_neg hgen] at hvalue
    cases hfind : changes.find? fun c => name == c.name.chars with
    | none =>
      rw [hfind] at hvalue
      exact absurd hvalue (mem_differing.mp hmem)
    | some c =>
      have hc := List.mem_of_find?_eq_some hfind
      have hname : name = c.name.chars := by simpa using List.find?_some hfind
      subst hname
      refine ⟨c, hc, hcritical, ?_⟩
      rw [(change_of_diff hold hnext hdiff hc).2]
      exact mem_differing.mp hmem

theorem newValue_generation (hold : old.Ok) (hnext : next.Ok) (hok : ChangesOk changes)
    (hdiff : IsDiff old next (changes.map fun c => ⟨some c.name, c.value⟩)) :
    newValue old changes generationName = some (toDecimal (newGeneration old next)) := by
  rw [newValue, if_pos rfl, changedCritical_of_diff hold hnext hok hdiff, newGeneration]

end Written

theorem snapshot_generation {desired r : Record} {d : Device} {c : Index} {old next w : View}
    (hchoose : d.choose = .ok (c, old)) (hparse : parse desired = .ok next)
    (h : (Op.snapshot desired).next d = .ok (c, r)) (hw : parse r = .ok w) :
    get w.entries generationName = some (toDecimal (newGeneration old next)) := by
  obtain ⟨next', old', diff, hparse', hchoose', _, hdiff, hbuild⟩ := Op.next_snapshot h
  obtain rfl : next = next' := by simpa [hparse] using hparse'
  obtain rfl : old = old' := by simpa [hchoose] using hchoose'
  obtain ⟨changes, w', hupdates, hb⟩ := build_of_choose hchoose hbuild
  obtain rfl : w = w' := by simpa [hw] using hb.parsed
  have hold := parse_ok (Device.choose_ok hchoose).2.1
  have hnext := parse_ok hparse
  have hisDiff := isDiff_of_diff hdiff
  rw [hupdates] at hisDiff
  rw [toDecimal_generation (parse_ok hw), hb.generation hold, newGeneration,
    changedCritical_of_diff hold hnext hb.changesOk hisDiff]

theorem snapshot_next_exact {desired r : Record} {d : Device} {c : Index} {old next : View}
    (hchoose : d.choose = .ok (c, old)) (hparse : parse desired = .ok next)
    (h : (Op.snapshot desired).next d = .ok (c, r)) :
    Accepted r ∧ ∃ w, parse r = .ok w ∧ Exact old next w := by
  obtain ⟨v, changes, w, _, hb⟩ := Op.next_ok h
  have hw := parse_ok hb.parsed
  exact ⟨⟨hb.crcValid, w, hb.parsed, hw.wellFormed, hw.used_le⟩, w, hb.parsed,
    snapshot_generation hchoose hparse h hb.parsed,
    fun _ hname => snapshot_get hparse h hb.parsed hname⟩

theorem Accepted.setFlag {r : Record} (h : Accepted r) (f : UInt8) : Accepted (r.setFlag f) := by
  obtain ⟨hcrc, w, hw, hrest⟩ := h
  exact ⟨hcrc, w, by rw [parse_setFlag, hw], hrest⟩

theorem safe_snapshot {desired : Record} {d : Device} {c : Index} {old next : View}
    (hchoose : d.choose = .ok (c, old)) (hparse : parse desired = .ok next) :
    Safe (· = ·) faulty (Writes Accepted) (Op.snapshot desired).prog
      (fun _ d' => ∀ i, ∃ w, parse (d' i) = .ok w ∧ Exact old next w) (fun _ _ => True) d := by
  refine Op.prog_safe faulty_reads (fun _ => trivial) (fun _ _ => trivial)
    (fun _ _ => trivial) ?_
  intro c' r hnext
  obtain ⟨v, _, _, hchoose', _⟩ := Op.next_ok hnext
  obtain ⟨rfl, rfl⟩ : c = c' ∧ old = v := by simpa [hchoose] using hchoose'
  obtain ⟨haccepted, w, hw, hexact⟩ := snapshot_next_exact hchoose hparse hnext
  refine (safe_replicate_faulty hw fun f => haccepted.setFlag f).mono ?_ fun _ _ _ => trivial
  rintro _ d' ⟨_, hdata⟩ i
  exact ⟨w, by rw [parse_congr (hdata i), hw], hexact⟩

/-! ### When the record can be written -/

/-- The old entries whose names the desired record drops or holds otherwise. -/
def changedEntries (next : View) (es : List Entry) : List Entry :=
  es.filter fun e => get next.entries e.name ≠ some e.value

/-- The desired entries under new names. -/
def freshEntries (old : View) (es : List Entry) : List Entry :=
  es.filter fun e => (get old.entries e.name).isNone

theorem namesSize_cons (name : Bytes) (names : List Bytes) :
    namesSize (name :: names) = name.length + 1 + namesSize names := by
  simp [namesSize]

theorem addDiff_complete {diff : Diff} {e : Entry} {value : Option Bytes}
    (hcount : diff.updates.length < maxUpdates)
    (hnames : diff.used + (e.name.length + 1) ≤ envSize) :
    addDiff diff e value =
      .ok ⟨diff.updates ++ [desiredUpdate e.name value], diff.used + (e.name.length + 1)⟩ := by
  rw [addDiff, if_neg (by omega)]
  rfl

theorem diffOld_complete {next : View} {es : List Entry} {diff : Diff}
    (hcount : diff.updates.length + (changedEntries next es).length ≤ maxUpdates)
    (hnames : diff.used + namesSize ((changedEntries next es).map Entry.name) ≤ envSize) :
    diffOld next diff es = .ok
      ⟨diff.updates ++ (changedEntries next es).map fun e =>
        desiredUpdate e.name (get next.entries e.name),
        diff.used + namesSize ((changedEntries next es).map Entry.name)⟩ := by
  induction es generalizing diff with
  | nil => simp [diffOld, changedEntries, namesSize]
  | cons e rest ih =>
    by_cases hchanged : get next.entries e.name ≠ some e.value
    · have hcons : changedEntries next (e :: rest) = e :: changedEntries next rest := by
        simp [changedEntries, hchanged]
      rw [hcons, List.map_cons, namesSize_cons] at hnames
      rw [hcons, List.length_cons] at hcount
      rw [diffOld, if_pos hchanged, addDiff_complete (by omega) (by omega)]
      simp only
      rw [ih (by simp only [List.length_append, List.length_singleton]; omega)
        (by simp only; omega), hcons]
      simp [namesSize_cons, Nat.add_assoc]
    · have hcons : changedEntries next (e :: rest) = changedEntries next rest := by
        simp [changedEntries, not_not.mp hchanged]
      rw [hcons] at hcount hnames ⊢
      rw [diffOld, if_neg hchanged]
      exact ih hcount hnames

theorem diffNew_complete {old : View} {es : List Entry} {diff : Diff}
    (hcount : diff.updates.length + (freshEntries old es).length ≤ maxUpdates)
    (hnames : diff.used + namesSize ((freshEntries old es).map Entry.name) ≤ envSize) :
    diffNew old diff es = .ok
      ⟨diff.updates ++ (freshEntries old es).map fun e => desiredUpdate e.name (some e.value),
        diff.used + namesSize ((freshEntries old es).map Entry.name)⟩ := by
  induction es generalizing diff with
  | nil => simp [diffNew, freshEntries, namesSize]
  | cons e rest ih =>
    by_cases hfresh : (get old.entries e.name).isNone
    · have hcons : freshEntries old (e :: rest) = e :: freshEntries old rest := by
        simp [freshEntries, hfresh]
      rw [hcons, List.map_cons, namesSize_cons] at hnames
      rw [hcons, List.length_cons] at hcount
      rw [diffNew, if_pos hfresh, addDiff_complete (by omega) (by omega)]
      simp only
      rw [ih (by simp only [List.length_append, List.length_singleton]; omega)
        (by simp only; omega), hcons]
      simp [namesSize_cons, Nat.add_assoc]
    · have hcons : freshEntries old (e :: rest) = freshEntries old rest := by
        simp [freshEntries, hfresh]
      rw [hcons] at hcount hnames ⊢
      rw [diffNew, if_neg hfresh]
      exact ih hcount hnames

section Complete

variable {old next : View}

/-- The entries of the difference, in the order of its updates. -/
def diffEntries (old next : View) : List Entry :=
  changedEntries next old.entries ++ freshEntries old next.entries

/-- The updates of the difference, their names checked. -/
def diffChanges (old next : View) : List Change :=
  (diffEntries old next).map fun e => ⟨.ofBytes e.name, (get next.entries e.name).map .ofBytes⟩

theorem mem_diffEntries {e : Entry} : e ∈ diffEntries old next ↔
    e ∈ old.entries ∧ get next.entries e.name ≠ some e.value ∨
      e ∈ next.entries ∧ get old.entries e.name = none := by
  simp [diffEntries, changedEntries, freshEntries]

theorem diffEntries_ok (hold : old.Ok) (hnext : next.Ok) {e : Entry}
    (he : e ∈ diffEntries old next) : EntryOk e := by
  rcases mem_diffEntries.mp he with ⟨he, _⟩ | ⟨he, _⟩
  · exact hold.wellFormed.entry_ok e he
  · exact hnext.wellFormed.entry_ok e he

theorem diffEntries_nodup (hold : old.Ok) (hnext : next.Ok) :
    ((diffEntries old next).map Entry.name).Nodup := by
  rw [diffEntries, List.map_append, List.nodup_append]
  refine ⟨hold.wellFormed.nodup.sublist (List.filter_sublist.map _),
    hnext.wellFormed.nodup.sublist (List.filter_sublist.map _), ?_⟩
  intro a ha b hb heq
  obtain ⟨e, he, rfl⟩ := List.mem_map.mp ha
  obtain ⟨e', he', rfl⟩ := List.mem_map.mp hb
  have hnone : get old.entries e'.name = none := by
    simpa using (List.mem_filter.mp he').2
  exact get_eq_none_iff.mp hnone e (List.mem_of_mem_filter he) heq

theorem diffEntries_perm (hold : old.Ok) (hnext : next.Ok) :
    ((diffEntries old next).map Entry.name).Perm (differing old next) := by
  refine (List.perm_ext_iff_of_nodup (diffEntries_nodup hold hnext)
    (differing_nodup old next)).mpr fun name => ?_
  rw [mem_differing, List.mem_map]
  constructor
  · rintro ⟨e, he, rfl⟩
    rcases mem_diffEntries.mp he with ⟨he, hne⟩ | ⟨he, hnone⟩
    · rw [get_of_mem hold.wellFormed.nodup he]
      exact Ne.symm hne
    · rw [hnone, get_of_mem hnext.wellFormed.nodup he]
      exact fun h => by cases h
  · intro hne
    cases hget : get old.entries name with
    | some value =>
      refine ⟨⟨name, value⟩, mem_diffEntries.mpr (Or.inl ⟨mem_of_get hget, ?_⟩), rfl⟩
      rw [hget] at hne
      exact Ne.symm hne
    | none =>
      cases hget' : get next.entries name with
      | none => exact absurd (hget.trans hget'.symm) hne
      | some value =>
        exact ⟨⟨name, value⟩, mem_diffEntries.mpr (Or.inr ⟨mem_of_get hget', hget⟩), rfl⟩

theorem diffChanges_ok (hold : old.Ok) (hnext : next.Ok)
    (hgen : next.generation = old.generation) : ChangesOk (diffChanges old next) := by
  have hchars : ∀ e ∈ diffEntries old next, (CString.ofBytes e.name).chars = e.name :=
    fun e he => CString.ofBytes_chars (diffEntries_ok hold hnext he).nul_notMem_name
  refine ⟨fun c hc => ?_, fun c hc => ?_, ?_⟩
  · obtain ⟨e, he, rfl⟩ := List.mem_map.mp hc
    simp only [hchars e he]
    exact (diffEntries_ok hold hnext he).name_ne
  · obtain ⟨e, he, rfl⟩ := List.mem_map.mp hc
    simp only [hchars e he]
    intro hname
    have hmem := (diffEntries_perm hold hnext).mem_iff.mp (List.mem_map_of_mem he)
    rw [hname] at hmem
    exact mem_differing.mp hmem (get_generation_eq hold hnext hgen)
  · have hnames : (diffChanges old next).map (fun c => c.name.chars) =
        (diffEntries old next).map Entry.name := by
      rw [diffChanges, List.map_map]
      exact List.map_congr_left hchars
    rw [hnames]
    exact diffEntries_nodup hold hnext

theorem diff_complete (hold : old.Ok) (hnext : next.Ok)
    (hcount : (differing old next).length ≤ maxUpdates)
    (hnames : namesSize (differing old next) ≤ envSize) :
    ∃ diff diff', diffOld next ⟨[], 0⟩ old.entries = .ok diff ∧
      diffNew old diff next.entries = .ok diff' ∧
      diff'.updates = (diffChanges old next).map fun c => ⟨some c.name, c.value⟩ := by
  have hperm := diffEntries_perm hold hnext
  have hsize : namesSize ((diffEntries old next).map Entry.name) ≤ envSize :=
    (hperm.map _).sum_nat.le.trans hnames
  have hlength := hperm.length_eq
  rw [List.length_map] at hlength
  rw [← hlength, diffEntries, List.length_append] at hcount
  rw [diffEntries, List.map_append, namesSize, List.map_append, List.sum_append_nat] at hsize
  change namesSize _ + namesSize _ ≤ envSize at hsize
  refine ⟨_, _, diffOld_complete (by simp only [List.length_nil]; omega) (by simp only; omega),
    diffNew_complete (by simp only [List.nil_append, List.length_map]; omega)
      (by simp only [Nat.zero_add]; exact hsize), ?_⟩
  have hfresh : ∀ e ∈ freshEntries old next.entries,
      desiredUpdate e.name (some e.value) = desiredUpdate e.name (get next.entries e.name) :=
    fun e he => by rw [get_of_mem hnext.wellFormed.nodup (List.mem_of_mem_filter he)]
  simp only [List.nil_append]
  rw [List.map_congr_left hfresh, ← List.map_append, diffChanges, List.map_map]
  rfl

/-! ### The payload -/

theorem withGeneration_names (next : View) (n : ℕ) :
    (withGeneration next n).map Entry.name = next.entries.map Entry.name := by
  rw [withGeneration, List.map_map]
  refine List.map_congr_left fun e _ => ?_
  simp only [Function.comp_apply]
  split_ifs <;> rfl

theorem mem_withGeneration (hnext : next.Ok) {n : ℕ} {e : Entry} :
    e ∈ withGeneration next n ↔
      if e.name = generationName then e.value = toDecimal n
      else get next.entries e.name = some e.value := by
  rw [withGeneration, List.mem_map]
  split_ifs with hname
  · constructor
    · rintro ⟨o, _, rfl⟩
      split_ifs at hname ⊢ with ho
      · rfl
      · exact absurd hname ho
    · intro hvalue
      refine ⟨_, mem_of_get (toDecimal_generation hnext), ?_⟩
      rw [if_pos rfl, ← hname, ← hvalue]
  · constructor
    · rintro ⟨o, ho, rfl⟩
      split_ifs at hname ⊢ with ho'
      · exact absurd ho' hname
      · exact get_of_mem hnext.wellFormed.nodup ho
    · intro hvalue
      exact ⟨_, mem_of_get hvalue, if_neg hname⟩

/-- What a snapshot commit serializes. -/
def snapshotValues (old next : View) : List Entry :=
  keptEntries old (diffChanges old next)
      (toDecimal (old.generation + (changedCritical old (diffChanges old next)).toNat)) ++
    addedEntries old (diffChanges old next)

theorem diffChanges_isDiff (hnext : next.Ok) :
    IsDiff old next ((diffChanges old next).map fun c => ⟨some c.name, c.value⟩) := by
  intro u
  rw [diffChanges, List.map_map, List.mem_map]
  constructor
  · rintro ⟨e, he, rfl⟩
    rcases mem_diffEntries.mp he with ⟨he, hne⟩ | ⟨he, hnone⟩
    · exact Or.inl ⟨e, he, hne, rfl⟩
    · refine Or.inr ⟨e, he, hnone, ?_⟩
      rw [← get_of_mem hnext.wellFormed.nodup he]
      rfl
  · rintro (⟨e, he, hne, rfl⟩ | ⟨e, he, hnone, rfl⟩)
    · exact ⟨e, mem_diffEntries.mpr (Or.inl ⟨he, hne⟩), rfl⟩
    · refine ⟨e, mem_diffEntries.mpr (Or.inr ⟨he, hnone⟩), ?_⟩
      rw [← get_of_mem hnext.wellFormed.nodup he]
      rfl

theorem snapshotValues_get (hold : old.Ok) (hnext : next.Ok)
    (hgen : next.generation = old.generation) (name : Bytes) :
    get (snapshotValues old next) name =
      if name = generationName then some (toDecimal (newGeneration old next))
      else get next.entries name := by
  have hok := diffChanges_ok hold hnext hgen
  rw [snapshotValues, get_newEntries hold hok]
  split_ifs with hname
  · rw [hname, newValue_generation hold hnext hok (diffChanges_isDiff hnext)]
  · exact newValue_of_diff hold hnext (diffChanges_isDiff hnext) hname

theorem snapshotValues_nodup (hold : old.Ok) (hnext : next.Ok)
    (hgen : next.generation = old.generation) :
    ((snapshotValues old next).map Entry.name).Nodup :=
  newEntries_nodup hold (diffChanges_ok hold hnext hgen)

/-- The desired entries in another order, under the new generation. -/
theorem snapshotValues_perm (hold : old.Ok) (hnext : next.Ok)
    (hgen : next.generation = old.generation) :
    (snapshotValues old next).Perm (withGeneration next (newGeneration old next)) := by
  have hnodup := snapshotValues_nodup hold hnext hgen
  refine (List.perm_ext_iff_of_nodup hnodup.of_map (List.Nodup.of_map Entry.name ?_)).mpr
    fun e => ?_
  · rw [withGeneration_names]
    exact hnext.wellFormed.nodup
  · rw [← get_eq_some_iff hnodup, snapshotValues_get hold hnext hgen, mem_withGeneration hnext]
    split_ifs with hname
    · exact Option.some_inj.trans eq_comm
    · exact Iff.rfl

theorem snapshotValues_wellFormed (hold : old.Ok) (hnext : next.Ok)
    (hgen : next.generation = old.generation) (hmax : newGeneration old next ≤ uint64Max) :
    WellFormed (snapshotValues old next) := by
  refine ⟨fun e he => ?_, snapshotValues_nodup hold hnext hgen⟩
  have hget := get_of_mem (snapshotValues_nodup hold hnext hgen) he
  rw [snapshotValues_get hold hnext hgen] at hget
  split_ifs at hget with hname
  · refine ⟨?_, ?_, ?_⟩
    · rw [hname]
      decide +kernel
    · rw [hname]
      decide +kernel
    · rw [← Option.some.inj hget]
      exact toDecimal_printable hmax
  · exact hnext.wellFormed.entry_ok _ (mem_of_get hget)

/-- The view of what a snapshot commit serializes. -/
def snapshotView (old next : View) : View where
  entries := snapshotValues old next
  used := (lines ((snapshotValues old next).map Entry.text)).length + 1
  generation := newGeneration old next
  floor := next.floor
  epoch := next.epoch

theorem storable_snapshot {desired : Record} (hold : old.Ok) (hparse : parse desired = .ok next)
    (hgen : next.generation = old.generation) (hfits : Fits old next) :
    Storable (snapshotValues old next) (snapshotView old next) := by
  have hnext := parse_ok hparse
  have hperm := snapshotValues_perm hold hnext hgen
  have hother : ∀ name, name ≠ generationName →
      get (snapshotValues old next) name = get next.entries name := fun name hname => by
    rw [snapshotValues_get hold hnext hgen, if_neg hname]
  have hgeneration : get (snapshotValues old next) generationName =
      some (toDecimal (newGeneration old next)) := by
    rw [snapshotValues_get hold hnext hgen, if_pos rfl]
  constructor
  · exact snapshotValues_wellFormed hold hnext hgen hfits.generation
  · rw [hperm.length_eq, withGeneration, List.length_map]
    exact (parse_size hparse).1
  · rw [lines_length_perm (hperm.map _)]
    exact hfits.room
  · apply parseFields_ok
    · rw [hother _ (by decide)]
      exact hnext.schema
    · change decimal (get _ generationName) = _
      rw [hgeneration, decimal_toDecimal hfits.generation]
    · rw [hother _ (by decide)]
      exact hnext.floor
    · rw [hother _ (by decide)]
      exact hnext.epoch
    · rw [hother _ (by decide)]
      exact hnext.policy_pos
    · rw [hother _ (by decide)]
      exact hnext.policy_le
    · rw [hother _ (by decide)]
      exact hnext.policySig

theorem snapshotView_notOlder (hold : old.Ok) (hnext : next.Ok)
    (hgen : next.generation = old.generation) (hfits : Fits old next) :
    NotOlder (snapshotView old next) old := by
  refine ⟨hfits.notOlder.floor_le, hfits.notOlder.epoch_le, fun hepoch => ?_⟩
  rw [← hfits.notOlder.policy_eq hepoch, View.policyPair, View.policyPair, snapshotView]
  simp only
  rw [snapshotValues_get hold hnext hgen, if_neg (by decide),
    snapshotValues_get hold hnext hgen, if_neg (by decide)]

end Complete

theorem snapshot_next_complete {desired : Record} {d : Device} {c : Index} {old next : View}
    (hchoose : d.choose = .ok (c, old)) (hcrc : desired.crcValid = true)
    (hparse : parse desired = .ok next) (hgen : next.generation = old.generation)
    (hfits : Fits old next) : ∃ r, (Op.snapshot desired).next d = .ok (c, r) := by
  have hparseOld := (Device.choose_ok hchoose).2.1
  have hold := parse_ok hparseOld
  have hnext := parse_ok hparse
  have hok := diffChanges_ok hold hnext hgen
  obtain ⟨diff, diff', hdiff, hdiff', hupdates⟩ :=
    diff_complete hold hnext hfits.count hfits.names
  have hchecked : checkUpdates [] diff'.updates = .ok (diffChanges old next) := by
    rw [hupdates]
    exact checkUpdates_complete hok
  have hroom : changedCritical old (diffChanges old next) = true →
      old.generation < uint64Max := by
    intro hchanged
    have hmax := hfits.generation
    rw [newGeneration, ← changedCritical_of_diff hold hnext hok (diffChanges_isDiff hnext),
      hchanged, Bool.toNat_true] at hmax
    exact hmax
  have hbuild := build_complete hparseOld hchecked hroom rfl
    (storable_snapshot hold hparse hgen hfits) (snapshotView_notOlder hold hnext hgen hfits)
  exact ⟨_, Op.next_snapshot_complete hcrc hparse hchoose hgen hdiff hdiff' hbuild⟩

/-- On every backend whose reads return what the device holds, an acknowledged snapshot is
on both records, exactly, and every record written counts; one that fits is acknowledged by a
backend that does what it is told. -/
theorem snapshot_exact {desired : Record} {d : Device} {c : Index} {old next : View}
    (hchoose : d.choose = .ok (c, old)) (hcrc : desired.crcValid = true)
    (hparse : parse desired = .ok next) (hgen : next.generation = old.generation) :
    (∀ out d', Runs (· = ·) faulty (d, (Op.snapshot desired).prog) (d', .ret out) →
      ∀ i, ∃ w, parse (d' i) = .ok w ∧ Exact old next w) ∧
    (∀ d' i r k, Runs (· = ·) faulty (d, (Op.snapshot desired).prog)
      (d', .call (.write i r) k) → Accepted r) ∧
    (Fits old next → ∃ out, ((Op.snapshot desired).prog.run serve d).1 = .ok out) := by
  refine ⟨fun out d' hrun => ?_, fun d' i r k hrun => ?_, fun hfits => ?_⟩
  · exact (safe_snapshot hchoose hparse).result hrun
  · exact (safe_snapshot hchoose hparse).allows (fun _ => rfl) hrun
  · obtain ⟨r, hnext⟩ := snapshot_next_complete hchoose hcrc hparse hgen hfits
    exact Op.run_ok hnext

/-- The floor of the sample card is raised through a snapshot. -/
theorem snapshot_exact_sample :
    ∃ out, ((Op.snapshot raisedSnapshot).prog.run serve (seedDevice sampleValues)).1 = .ok out := by
  refine (snapshot_exact (choose_seedDevice storable_sample) (Record.setCrc_crcValid _)
    (parse_seedRecord storable_raisedSnapshot 0) rfl).2.2 ⟨?_, ?_, ?_, ?_, ?_⟩
  · decide +kernel
  · decide +kernel
  · decide +kernel
  · decide +kernel
  · exact ⟨by decide +kernel, by decide +kernel, by decide +kernel⟩

end Epilykos.PlatformEnv
