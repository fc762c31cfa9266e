import Epilykos.OsBootstrap.BuildSeed

/-!
The space the builder reserves is enough. A later environment has the seed's defaults, the
loader's counters, the six fixed epk_* entries at their largest and 64 further entries in
4096 bytes; the budget fixture, with one placeholder for all of these, is no smaller.
-/

namespace Epilykos.OsBootstrap

open Program PlatformEnv
open OsUpdate (Json Oracles)

/-- The boot orders boot-slot.cmd accepts. -/
def loaderOrders : List String := ["A B", "B A", "A", "B"]

/-- The counters it accepts. -/
def loaderCounters : List String := ["0", "1", "2", "3"]

/-- The entries that are neither defaults nor the builder's own. -/
def further (defs entries : List Entry) : List Entry :=
  entries.filter fun e => e.name ∉ defs.map Entry.name ++ seedNames

/-- An environment the seed's reservation is for. -/
structure Later (defs entries : List Entry) : Prop where
  defaults : ∀ e ∈ defs, e ∈ entries
  order : ∃ v ∈ loaderOrders, PlatformEnv.get entries (ascii "BOOT_ORDER") = some (ascii v)
  left_a : ∃ v ∈ loaderCounters, PlatformEnv.get entries (ascii "BOOT_A_LEFT") = some (ascii v)
  left_b : ∃ v ∈ loaderCounters, PlatformEnv.get entries (ascii "BOOT_B_LEFT") = some (ascii v)
  schema : PlatformEnv.get entries (ascii "epk_state_schema") = some (ascii "1")
  generation : (decimal (PlatformEnv.get entries (ascii "epk_state_generation"))).isSome
  floor : (decimal (PlatformEnv.get entries (ascii "epk_os_floor"))).isSome
  epoch : (decimal (PlatformEnv.get entries (ascii "epk_trust_epoch"))).isSome
  policy_pos : 0 < b64Size (PlatformEnv.get entries (ascii "epk_trust_policy"))
  policy_le : b64Size (PlatformEnv.get entries (ascii "epk_trust_policy")) ≤ 6144
  policySig : b64Size (PlatformEnv.get entries (ascii "epk_trust_policy_sig")) = 64
  count : (further defs entries).length ≤ 64
  size : ((further defs entries).map entrySize).sum ≤ runtimeReserve

/-- The entries `build` serializes, when its updates are taken. -/
def serialized (source : Record) (updates : List Update) : Except EnvError (List Entry) := do
  let old ← parse source
  let changes ← checkUpdates [] updates
  let changed := changedCritical old changes
  if changed && old.generation == uint64Max then throw .overflow
  return keptEntries old changes (toDecimal (old.generation + changed.toNat)) ++
    addedEntries old changes

/-- `build` has room for the entries, in every one of its limits. -/
structure Roomy (source : Record) (updates : List Update) (entries : List Entry) : Prop where
  capacity : build source updates ≠ .error .capacity
  /-- More room in the table would change nothing. -/
  count : ∀ room, maxEntries ≤ room → ∀ tail,
    parseEntries room (lines (entries.map Entry.text) ++ 0 :: tail) [] 0 =
      parseEntries maxEntries (lines (entries.map Entry.text) ++ 0 :: tail) [] 0
  free : (lines (entries.map Entry.text)).length + 1 + headroom ≤ dataSize
  /-- Entries the parser takes are built unless they take something back. -/
  built : WellFormed entries →
    (∃ r, build source updates = .ok r) ∨ build source updates = .error .conflict

/-! ### The loader's values -/

theorem mem_of_oneOf {value : String} {values : List String}
    (h : ¬ (!OsUpdate.oneOf value values) = true) : value ∈ values := by
  simpa [OsUpdate.oneOf] using h

/-- The script goes on only with a boot order and counters from the lists. -/
theorem checkState_gives (ram : OsUpdate.Vars) :
    (OsUpdate.checkState ram).Gives fun _ => ram "BOOT_ORDER" ∈ loaderOrders ∧
      ram "BOOT_A_LEFT" ∈ loaderCounters ∧ ram "BOOT_B_LEFT" ∈ loaderCounters := by
  unfold OsUpdate.checkState
  refine Prog.Gives.bind (gives_true _) fun _ _ => ?_
  refine Prog.Gives.bind (gives_true _) fun _ _ => ?_
  refine Prog.Gives.bind gives_raiseIf fun _ horder => ?_
  refine Prog.Gives.bind gives_raiseIf fun _ ha => ?_
  refine Prog.Gives.bind gives_raiseIf fun _ hb => ?_
  exact (gives_true _).mono fun _ _ =>
    ⟨mem_of_oneOf horder, mem_of_oneOf ha, mem_of_oneOf hb⟩

/-! ### Sizes -/

theorem length_of_b64Size {text : Bytes} (h : 0 < b64Size (some text)) :
    ∃ padding ≤ 2, text.length % 4 = 0 ∧
      b64Size (some text) = text.length / 4 * 3 - padding := by
  unfold b64Size at h ⊢
  simp only at h ⊢
  have hpadding : b64Padding text ≤ 2 := by
    rw [b64Padding]
    split_ifs <;> omega
  split_ifs at h ⊢ with hlength
  · omega
  · omega
  · omega
  · omega
  · simp only [not_or, not_not] at hlength
    exact ⟨b64Padding text, hpadding, hlength.2, rfl⟩

section Later

variable {defs entries : List Entry}

/-- Entries with the names given, and the others. -/
theorem perm_partition (hnodup : (entries.map Entry.name).Nodup) {names : List Bytes}
    (hnames : names.Nodup) (hall : ∀ name ∈ names, (PlatformEnv.get entries name).isSome) :
    entries.Perm (names.map (fun name => ⟨name, (PlatformEnv.get entries name).getD []⟩) ++
      entries.filter fun e => e.name ∉ names) := by
  refine (List.perm_ext_iff_of_nodup hnodup.of_map ?_).mpr fun e => ?_
  · refine List.Nodup.of_map Entry.name ?_
    rw [List.map_append, List.map_map, List.nodup_append]
    refine ⟨by simpa [Function.comp_def] using hnames,
      hnodup.sublist (List.filter_sublist.map _), ?_⟩
    intro a ha b hb
    obtain ⟨name, hname, rfl⟩ := List.mem_map.mp ha
    obtain ⟨e, he, rfl⟩ := List.mem_map.mp hb
    have hnot : e.name ∉ names := by simpa using (List.mem_filter.mp he).2
    exact fun heq => hnot (heq ▸ hname)
  · rw [List.mem_append, List.mem_map, List.mem_filter, decide_eq_true_eq]
    constructor
    · intro he
      by_cases hname : e.name ∈ names
      · refine Or.inl ⟨e.name, hname, ?_⟩
        rw [get_of_mem hnodup he]
        rfl
      · exact Or.inr ⟨he, hname⟩
    · rintro (⟨name, hname, rfl⟩ | ⟨he, _⟩)
      · obtain ⟨value, hvalue⟩ := Option.isSome_iff_exists.mp (hall name hname)
        rw [hvalue]
        exact mem_of_get hvalue
      · exact he

/-- The six fixed entries and the loader's three. -/
def fixed (entries : List Entry) : List Entry :=
  seedNames.map fun name => ⟨name, (PlatformEnv.get entries name).getD []⟩

theorem isSome_of_decimal {name : Bytes} (h : (decimal (PlatformEnv.get entries name)).isSome) :
    (PlatformEnv.get entries name).isSome ∧
      ((PlatformEnv.get entries name).getD []).length ≤ 20 := by
  cases hget : PlatformEnv.get entries name with
  | none =>
    rw [hget] at h
    cases h
  | some text =>
    rw [hget] at h
    obtain ⟨n, hn⟩ := Option.isSome_iff_exists.mp h
    exact ⟨rfl, length_of_decimal hn⟩

theorem isSome_of_b64Size {name : Bytes} {n : ℕ}
    (hpos : 0 < b64Size (PlatformEnv.get entries name))
    (hle : b64Size (PlatformEnv.get entries name) ≤ 3 * n) :
    (PlatformEnv.get entries name).isSome ∧
      ((PlatformEnv.get entries name).getD []).length ≤ 4 * n := by
  cases hget : PlatformEnv.get entries name with
  | none =>
    rw [hget] at hpos
    cases hpos
  | some text =>
    rw [hget] at hpos hle
    obtain ⟨padding, hpadding, hmod, hsize⟩ := length_of_b64Size hpos
    refine ⟨rfl, ?_⟩
    change text.length ≤ 4 * n
    omega

theorem length_of_mem {name : Bytes} {values : List String} {n : ℕ}
    (h : ∃ v ∈ values, PlatformEnv.get entries name = some (ascii v))
    (hvalues : ∀ v ∈ values, (ascii v).length ≤ n) :
    (PlatformEnv.get entries name).isSome ∧
      ((PlatformEnv.get entries name).getD []).length ≤ n := by
  obtain ⟨v, hv, hget⟩ := h
  rw [hget]
  exact ⟨rfl, hvalues v hv⟩

/-- A later environment has all nine, and they take no more than in the budget fixture. -/
theorem Later.fixed_le (h : Later defs entries) :
    (∀ name ∈ seedNames, (PlatformEnv.get entries name).isSome) ∧
      ((fixed entries).map entrySize).sum + runtimeReserve ≤ 12591 := by
  obtain ⟨horder, horder'⟩ := length_of_mem h.order (n := 3) (by decide +kernel)
  obtain ⟨ha, ha'⟩ := length_of_mem h.left_a (n := 1) (by decide +kernel)
  obtain ⟨hb, hb'⟩ := length_of_mem h.left_b (n := 1) (by decide +kernel)
  obtain ⟨hgeneration, hgeneration'⟩ := isSome_of_decimal h.generation
  obtain ⟨hfloor, hfloor'⟩ := isSome_of_decimal h.floor
  obtain ⟨hepoch, hepoch'⟩ := isSome_of_decimal h.epoch
  obtain ⟨hpolicy, hpolicy'⟩ := isSome_of_b64Size (n := 2048) h.policy_pos h.policy_le
  obtain ⟨hsig, hsig'⟩ := isSome_of_b64Size (n := 22) (h.policySig ▸ Nat.succ_pos _)
    (h.policySig.le.trans (by omega))
  have hschema : (PlatformEnv.get entries (ascii "epk_state_schema")).isSome := by
    rw [h.schema]
    rfl
  have hschema' : ((PlatformEnv.get entries (ascii "epk_state_schema")).getD []).length = 1 := by
    rw [h.schema]
    rfl
  constructor
  · simp only [seedNames, List.map_cons, List.map_nil, List.mem_cons, List.not_mem_nil, or_false,
      forall_eq_or_imp, forall_eq]
    exact ⟨horder, ha, hb, hschema, hgeneration, hfloor, hepoch, hpolicy, hsig⟩
  · have hnames : (ascii "BOOT_ORDER").length = 10 ∧ (ascii "BOOT_A_LEFT").length = 11 ∧
        (ascii "BOOT_B_LEFT").length = 11 ∧ (ascii "epk_state_schema").length = 16 ∧
        (ascii "epk_state_generation").length = 20 ∧ (ascii "epk_os_floor").length = 12 ∧
        (ascii "epk_trust_epoch").length = 15 ∧ (ascii "epk_trust_policy").length = 16 ∧
        (ascii "epk_trust_policy_sig").length = 20 := by
      decide +kernel
    simp only [fixed, seedNames, List.map_cons, List.map_nil, List.sum_cons, List.sum_nil,
      entrySize, runtimeReserve]
    omega

/-- The defaults, the nine and the further entries are all there is. -/
theorem Later.perm (h : Later defs entries) (hdefs : DefaultsOk defs)
    (hnodup : (entries.map Entry.name).Nodup) :
    entries.Perm (defs ++ fixed entries ++ further defs entries) := by
  have hdefault : ∀ e ∈ defs, PlatformEnv.get entries e.name = some e.value := fun e he =>
    get_of_mem hnodup (h.defaults e he)
  have hall : ∀ name ∈ defs.map Entry.name ++ seedNames,
      (PlatformEnv.get entries name).isSome := by
    intro name hname
    rcases List.mem_append.mp hname with hname | hname
    · obtain ⟨e, he, rfl⟩ := List.mem_map.mp hname
      rw [hdefault e he]
      rfl
    · exact h.fixed_le.1 name hname
  have hsame : (defs.map Entry.name).map
      (fun name => (⟨name, (PlatformEnv.get entries name).getD []⟩ : Entry)) = defs := by
    rw [List.map_map]
    refine (List.map_congr_left fun e he => ?_).trans (List.map_id _)
    simp only [Function.comp_apply, hdefault e he, Option.getD_some, id_eq]
  have hperm := perm_partition hnodup hdefs.names_nodup hall
  rw [List.map_append, hsame] at hperm
  exact hperm

theorem Later.sum_le (h : Later defs entries) (hdefs : DefaultsOk defs)
    (hnodup : (entries.map Entry.name).Nodup) :
    (entries.map entrySize).sum ≤ (defs.map entrySize).sum + 12591 := by
  have hfixed := h.fixed_le.2
  have hsize := h.size
  rw [((h.perm hdefs hnodup).map entrySize).sum_nat, List.map_append, List.map_append,
    List.sum_append_nat, List.sum_append_nat]
  omega

theorem Later.length_le (h : Later defs entries) (hdefs : DefaultsOk defs)
    (hnodup : (entries.map Entry.name).Nodup) :
    entries.length ≤ defs.length + seedNames.length + 64 := by
  have hcount := h.count
  rw [(h.perm hdefs hnodup).length_eq, List.length_append, List.length_append, fixed,
    List.length_map]
  omega

end Later

/-! ### Building -/

theorem serialized_ok {source : Record} {updates : List Update} {entries : List Entry}
    (h : serialized source updates = .ok entries) :
    ∃ old, parse source = .ok old ∧ (entries.map Entry.name).Nodup ∧
      (∀ e ∈ entries, 0 ∉ e.text) ∧ ((lines (entries.map Entry.text)).length < dataSize →
        build source updates = (parse (.ofText (lines (entries.map Entry.text)))).bind fun next =>
          if !notOlder next old then .error .conflict
          else .ok (Record.ofText (lines (entries.map Entry.text))).setCrc) := by
  simp only [serialized, bind, Except.bind, pure, Except.pure] at h
  cases hparse : parse source with
  | error e => simp [hparse] at h
  | ok old =>
    simp only [hparse] at h
    cases hchanges : checkUpdates [] updates with
    | error e => simp [hchanges] at h
    | ok changes =>
      simp only [hchanges] at h
      split_ifs at h with hoverflow
      have hentries := Except.ok.inj h
      have hold := parse_ok hparse
      have hok := (checkUpdates_ok ⟨by simp, by simp, by simp⟩ hchanges).1
      have hroom : changedCritical old changes = true → old.generation < uint64Max := by
        intro hchanged
        have hle := decimal_le hold.generation
        have hne : old.generation ≠ uint64Max := by simpa [hchanged] using hoverflow
        omega
      refine ⟨old, rfl, ?_, fun e he => ?_, fun hsize => ?_⟩
      · rw [← hentries]
        exact newEntries_nodup hold hok
      · rw [← hentries] at he
        exact nul_notMem_newText hold (generation_succ_le hold hroom) he
      · rw [← hentries, List.map_append, lines_append, List.length_append] at hsize
        simp only [build, bind, Except.bind, pure, Except.pure, hparse, hchanges, if_neg hoverflow]
        rw [appendAll_complete (by simp only [List.length_nil]; omega)]
        simp only [List.nil_append]
        rw [appendAll_complete hsize, ← lines_append, ← List.map_append, hentries]
        simp only [throw, throwThe, MonadExceptOf.throw]

/-- A later environment is one the parser accepts, wherever its entries are well formed. -/
theorem Later.storable {defs entries : List Entry} (h : Later defs entries)
    (hcount : entries.length ≤ maxEntries)
    (hfree : (lines (entries.map Entry.text)).length + 1 + headroom ≤ dataSize)
    (hwf : WellFormed entries) : ∃ v, Storable entries v := by
  obtain ⟨generation, hgeneration⟩ := Option.isSome_iff_exists.mp h.generation
  obtain ⟨floor, hfloor⟩ := Option.isSome_iff_exists.mp h.floor
  obtain ⟨epoch, hepoch⟩ := Option.isSome_iff_exists.mp h.epoch
  exact ⟨_, hwf, hcount, hfree, parseFields_ok h.schema hgeneration hfloor hepoch h.policy_pos
    h.policy_le h.policySig⟩

/-- The parser ends where the serialized text does. -/
theorem parse_text_ne_capacity {entries : List Entry} (hnul : ∀ e ∈ entries, 0 ∉ e.text)
    (hfree : (lines (entries.map Entry.text)).length + 1 + headroom ≤ dataSize) :
    parse (.ofText (lines (entries.map Entry.text))) ≠ .error .capacity := by
  obtain ⟨tail, htail⟩ := Record.ofText_data_nul
    (show (lines (entries.map Entry.text)).length < dataSize by omega)
  have htexts : ∀ t ∈ entries.map Entry.text, t ≠ [] ∧ 0 ∉ t := by
    intro t ht
    obtain ⟨e, he, rfl⟩ := List.mem_map.mp ht
    exact ⟨by simp [Entry.text], hnul e he⟩
  intro h
  rw [parse, htail] at h
  cases hentries : parseEntries maxEntries (lines (entries.map Entry.text) ++ 0 :: tail) [] 0 with
  | error e =>
    rw [hentries] at h
    have hinvalid := parseEntries_error hentries
    cases h
    cases hinvalid
  | ok p =>
    obtain ⟨read, position⟩ := p
    obtain ⟨_, _, _, rfl⟩ := parseEntries_lines htexts hentries
    rw [hentries] at h
    simp only at h
    rw [if_neg (by omega)] at h
    cases parseFields_error h

/-- What a seed reserves is room for every update to a later environment: within the headroom,
the table of entries and the space of a record. -/
theorem budget_sound {O : Oracles} {σ : Type} {W : Behaviour OsUpdate.Host σ} {s s' : σ}
    {defaults : Bytes} {platform : Json} {policyRaw signature rootPubkey : Bytes} {seed : Seed}
    {defs entries : List Entry} {source : Record} {updates : List Update}
    (hrun : Runs (· = ·) W (s, buildSeed O defaults platform policyRaw signature rootPubkey)
      (s', .ret seed))
    (hdefaults : parseDefaults defaults = .ok defs)
    (hresult : serialized source updates = .ok entries) (hlater : Later defs entries) :
    Roomy source updates entries := by
  obtain ⟨defs', plat, epoch, hbuilt⟩ := buildSeed_gives.safe.result hrun
  obtain rfl : defs = defs' := Except.ok.inj (hdefaults.symm.trans hbuilt.defaults)
  have hdefs := parseDefaults_ok hdefaults
  have hwrote := hbuilt.wrote
  obtain ⟨worst, hworst⟩ := hwrote.worst
  have hcount := hwrote.count
  rw [seedValues, update_seedItems hdefs] at hworst hcount
  rw [update_worstItems hdefs] at hworst
  obtain ⟨old, hold, hnodup, hnul, hbuild⟩ := serialized_ok hresult
  have hlength : entries.length ≤ maxEntries := by
    have hle := hlater.length_le hdefs hnodup
    rw [List.length_append] at hcount
    exact hle.trans hcount
  have hfree : (lines (entries.map Entry.text)).length + 1 + headroom ≤ dataSize := by
    have hsum := hlater.sum_le hdefs hnodup
    have hsize := payload_size hworst
    rw [List.map_append, List.sum_append_nat, worstValues_size] at hsize
    rw [lines_size]
    omega
  refine ⟨?_, ?_, hfree, ?_⟩
  · have hparse := parse_text_ne_capacity hnul hfree
    rw [hbuild (by omega)]
    cases hnext : parse (.ofText (lines (entries.map Entry.text))) with
    | error e =>
      rw [hnext] at hparse
      intro h
      cases h
      exact hparse rfl
    | ok next =>
      simp only [Except.bind]
      split_ifs
      · simp
      · simp
  · intro room hroom tail
    refine parseEntries_room ?_ ?_ ?_
    · intro t ht
      obtain ⟨e, he, rfl⟩ := List.mem_map.mp ht
      exact ⟨by simp [Entry.text], hnul e he⟩
    · rw [List.length_map]
      omega
    · rw [List.length_map]
      exact hlength
  · intro hwf
    obtain ⟨v, hstorable⟩ := hlater.storable hlength hfree hwf
    rw [hbuild (by omega), hstorable.parse_ofText]
    simp only [Except.bind]
    split_ifs
    · exact Or.inr rfl
    · exact Or.inl ⟨_, rfl⟩

/-- An update of the sample card that sets the seed's one default. -/
def setDelay : List Update :=
  [⟨some (.ofBytes (ascii "bootdelay")), some (.ofBytes (ascii "2"))⟩]

def delayedValues : List Entry := raisedValues "7" ++ sampleDefs

theorem serialized_setDelay :
    serialized (seedDevice (raisedValues "7") .b) setDelay = .ok delayedValues := by
  have hstorable : Storable (raisedValues "7") ⟨raisedValues "7", 252, 7, 13, 2⟩ :=
    ⟨by decide +kernel, by decide +kernel, by decide +kernel, by decide +kernel⟩
  rw [serialized, seedDevice, parse_seedRecord hstorable 2]
  decide +kernel

theorem later_delayed : Later sampleDefs delayedValues where
  defaults := by decide +kernel
  order := by decide +kernel
  left_a := by decide +kernel
  left_b := by decide +kernel
  schema := by decide +kernel
  generation := by decide +kernel
  floor := by decide +kernel
  epoch := by decide +kernel
  policy_pos := by decide +kernel
  policy_le := by decide +kernel
  policySig := by decide +kernel
  count := by decide +kernel
  size := by decide +kernel

/-- The card has room for the sample seed's default. -/
theorem budget_sound_sample :
    Roomy (seedDevice (raisedValues "7") .b) setDelay delayedValues := by
  obtain ⟨seed, hseed⟩ := sampleBuild_ok
  have hrun := runs_run (OsUpdate.World.serve_follows sampleOracles) sampleBuild sampleBox
  rw [hseed] at hrun
  exact budget_sound hrun parseDefaults_sample serialized_setDelay later_delayed

end Epilykos.OsBootstrap
