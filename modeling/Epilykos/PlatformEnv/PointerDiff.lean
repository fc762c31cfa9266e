import Epilykos.PlatformEnv.PointerBuild
import Epilykos.PlatformEnv.Writers

/-!
The updates of a snapshot in memory: their names are copied into an arena of the size of a
record, one behind the other, while their values stay where they are in the records. What was
filed once stays as it is while more is filed behind it.
-/

namespace Epilykos.PlatformEnv.Pointer

open Checked

/-- The updates so far, and the bytes of the arena in use. -/
structure Diff where
  updates : Vector Update maxUpdates
  count : ℕ
  used : ℕ

section Source

variable (steps : ℕ) (m : Memory)

def addDiff (diff : Diff) (names : Ptr) (entry : Entry) (value : Option Ptr) :
    Run (Memory × Diff) := do
  returnIf (diff.count = maxUpdates) .capacity
  returnIf ((← sub envSize diff.used) < (← word (entry.nameSize + 1))) .capacity
  let name ← m.advance names diff.used
  let m ← m.memcpy name entry.name entry.nameSize
  let m ← m.store names (diff.used + entry.nameSize) 0
  let updates ← setItem diff.updates diff.count ⟨some name, value⟩
  return (m, ⟨updates, diff.count + 1, diff.used + (entry.nameSize + 1)⟩)

/-- The loop over the old entries. -/
def diffOld (old next : View) (names : Ptr) (diff : Diff) : Run (Memory × Diff) :=
  forEach steps 0 old.count (fun i x => do
    let entry ← item old.entries i
    match ← equivalent steps x.1 next entry with
    | none => addDiff x.1 x.2 names entry none
    | some value =>
      if (← x.1.strcmp value entry.value) = true then addDiff x.1 x.2 names entry (some value)
      else return x) (m, diff)

/-- The loop over the new entries. -/
def diffNew (old next : View) (names : Ptr) (diff : Diff) : Run (Memory × Diff) :=
  forEach steps 0 next.count (fun i x => do
    let entry ← item next.entries i
    match ← equivalent steps x.1 old entry with
    | none => addDiff x.1 x.2 names entry (some entry.value)
    | some _ => return x) (m, diff)

/-- What a snapshot commit makes of the two records it has loaded. `views`, `updates`,
`buildViews` and `reverse` are the local variables as they are found. -/
def snapshotNext (desired source names out : Ptr) (views : View × View)
    (updates : Vector Update maxUpdates) (buildViews : View × View) (reverse : Vector UInt8 20) :
    Run Memory := do
  let next ← parse steps m desired views.1
  let old ← parse steps m source views.2
  let (m, diff) ← diffOld steps m old next names ⟨updates, 0, 0⟩
  let (m, diff) ← diffNew steps m old next names diff
  build steps m source diff.updates diff.count out buildViews reverse

end Source

/-! ### What is filed -/

/-- Where values of a snapshot lie: in no array that the commit writes. -/
def Kept (c : Block Place) : Prop := Outside c ∧ c ≠ .array .names

/-- A name that is filed in the arena, with its NUL. -/
structure InArena (arena : Bytes) (p : Ptr) (s : Bytes) : Prop where
  block : p.block = .array .names
  filed : ∃ before after, arena = before ++ (s ++ [0]) ++ after ∧ before.length = p.offset

structure Filed (m : Memory) (arena : Bytes) (c : Update) (u : PlatformEnv.Update) : Prop where
  name : ∃ p s, c.name = some p ∧ u.name = some s ∧ InArena arena p s.chars ∧
    s.chars.length < 2 ^ 32
  value : OptText m Kept c.value (u.value.map CString.chars)
  valueShort : ∀ s ∈ u.value, s.chars.length < 2 ^ 32

/-- The diff says what the other model's diff does; only the arena has been written. -/
structure Collected (m m' : Memory) (diff : Diff) (d : PlatformEnv.Diff) : Prop where
  same : m.SameBut .names m'
  count : diff.count = d.updates.length
  length_le : d.updates.length ≤ maxUpdates
  used : diff.used = d.used
  used_le : d.used ≤ envSize
  update : ∀ i (h : i < d.updates.length), ∀ h' : i < maxUpdates,
    Filed m' ((m'.bytes .names).take d.used) diff.updates[i] d.updates[i]

variable {steps : ℕ} {m m' : Memory} {diff : Diff} {d : PlatformEnv.Diff}

theorem InArena.grow {arena more : Bytes} {p : Ptr} {s : Bytes} (h : InArena arena p s) :
    InArena (arena ++ more) p s := by
  obtain ⟨before, after, rfl, hlen⟩ := h.filed
  exact ⟨h.block, before, after ++ more, by simp, hlen⟩

theorem InArena.text {arena rest : Bytes} {p : Ptr} {s : Bytes} (h : InArena arena p s)
    (hbytes : m.bytes .names = arena ++ rest) (hs : 0 ∉ s) : m.Text p s := by
  obtain ⟨before, after, rfl, hlen⟩ := h.filed
  refine ⟨⟨before, after ++ rest, ?_, hlen⟩, hs⟩
  rw [h.block]
  change m.bytes .names = _
  rw [hbytes]
  simp

theorem Filed.grow {arena more : Bytes} {c : Update} {u : PlatformEnv.Update}
    (h : Filed m arena c u) (hsame : m.SameBut .names m') : Filed m' (arena ++ more) c u := by
  obtain ⟨p, s, hp, hs, hname, hshort⟩ := h.name
  exact ⟨⟨p, s, hp, hs, hname.grow, hshort⟩, h.value.frame hsame fun hkept => hkept.2 rfl,
    h.valueShort⟩

theorem Collected.start (m : Memory) (updates : Vector Update maxUpdates) :
    Collected m m ⟨updates, 0, 0⟩ ⟨[], 0⟩ :=
  ⟨Memory.SameBut.refl _ _, rfl, Nat.zero_le _, rfl, Nat.zero_le _,
    fun i h => absurd h (Nat.not_lt_zero i)⟩

/-- The collected updates are updates that `build` can take. -/
theorem Collected.updatesHold (h : Collected m m' diff d) :
    UpdatesHold m' diff.updates diff.count d.updates := by
  have hle := h.length_le
  refine ⟨h.count, hle, hle, fun i hi hi' => ?_⟩
  have hfiled := h.update i hi hi'
  obtain ⟨p, s, hp, hs, hname, hshort⟩ := hfiled.name
  have hbytes : m'.bytes .names = (m'.bytes .names).take d.used ++ (m'.bytes .names).drop d.used :=
    (List.take_append_drop _ _).symm
  refine ⟨?_, hfiled.value.weaken fun c hc => hc.1, ?_, hfiled.valueShort⟩
  · rw [hp, hs]
    refine .some (hname.text hbytes s.noNul) ?_
    rw [hname.block]
    exact ⟨fun heq => (by cases heq), fun heq => (by cases heq)⟩
  · intro t ht
    rw [hs] at ht
    cases ht
    exact hshort

/-! ### Filing one update -/

section File

variable {entry : Entry} {value : Option Ptr} {s : Bytes}

theorem addDiff_writes {E : EnvError → Prop} (hcount : diff.count < maxUpdates)
    (hused : diff.used + (s.length + 1) ≤ envSize) (hname : m.At entry.name s)
    (hsize : entry.nameSize = s.length) (hblock : entry.name.block ≠ .array .names) :
    Ends (addDiff m diff ⟨.array .names, 0⟩ entry value)
      (fun x => x.1.bytes .names = (m.bytes .names).take diff.used ++ (s ++ [0]) ++
          (m.bytes .names).drop (diff.used + (s.length + 1)) ∧
        x.2 = ⟨diff.updates.set diff.count ⟨some ⟨.array .names, diff.used⟩, value⟩,
          diff.count + 1, diff.used + (s.length + 1)⟩ ∧ m.SameBut .names x.1) E := by
  have hsmall : envSize < 2 ^ 64 := by decide
  have harena : Place.names.size = envSize := rfl
  obtain ⟨before, old, after, hbytes, hbefore, hold⟩ :=
    m.bytes_split (show diff.used + (s.length + 1) ≤ Place.names.size by omega)
  have htake : (m.bytes .names).take diff.used = before := by
    rw [hbytes, List.append_assoc, ← hbefore, List.take_left]
  have hdrop : (m.bytes .names).drop (diff.used + (s.length + 1)) = after := by
    rw [hbytes, ← hbefore, ← hold, ← List.length_append, List.drop_left]
  rw [htake, hdrop]
  obtain ⟨old, x, rest, rfl, hold', hrest⟩ := exists_split
    (show old.length = s.length + 1 + 0 by omega)
  obtain rfl := List.length_eq_zero_iff.mp hrest
  have hbytes' : m.bytes .names = before ++ old ++ (x :: after) := by
    rw [hbytes]
    simp
  have hname' : m.At entry.name (s ++ []) := by rwa [List.append_nil]
  rw [addDiff, returnIf_neg (by omega), ok_bind, sub_eq (by omega), ok_bind, hsize,
    word_eq (by omega), ok_bind, returnIf_neg (by omega), ok_bind,
    Memory.advance_array (by omega), ok_bind, Nat.zero_add, ← hbefore]
  refine Ends.bind (Memory.ends_memcpy hbytes' hname' hblock hold' rfl) ?_
  rintro m₁ ⟨hbytes₁, hsame₁⟩
  have hindex : (before ++ s).length = 0 + (before.length + s.length) := by
    rw [List.length_append, Nat.zero_add]
  refine Ends.bind (Memory.ends_store hbytes₁ hindex) ?_
  rintro m₂ ⟨hbytes₂, hsame₂⟩
  rw [setItem_eq hcount, ok_bind]
  refine ⟨?_, rfl, hsame₁.trans hsame₂⟩
  simp only
  rw [hbytes₂]
  simp

theorem addDiff_full {E : EnvError → Prop} {Q : Memory × Diff → Prop} (hused : diff.used ≤ envSize)
    (hfull : diff.count = maxUpdates ∨ envSize - diff.used < s.length + 1)
    (hsize : entry.nameSize = s.length) (hs : s.length < 2 ^ 32) (hE : E .capacity) :
    Ends (addDiff m diff ⟨.array .names, 0⟩ entry value) Q E := by
  rw [addDiff]
  by_cases hcount : diff.count = maxUpdates
  · rw [returnIf_pos hcount]
    exact hE
  rw [returnIf_neg hcount, ok_bind, sub_eq hused, ok_bind, hsize, word_eq (by omega), ok_bind,
    returnIf_pos (hfull.resolve_left hcount)]
  exact hE

/-- A string in memory loses nothing as a C string. -/
theorem optText_chars {ok : Block Place → Prop} {v : Option Bytes} (h : OptText m ok value v) :
    (v.map CString.ofBytes).map CString.chars = v := by
  cases h with
  | none => rfl
  | some htext _ => rw [Option.map_some, Option.map_some, CString.ofBytes_chars htext.noNul]

/-- Whatever is filed so far, `add_diff` stays inside the arena and the updates. -/
theorem addDiff_safe (hcount : diff.count ≤ maxUpdates) (hused : diff.used ≤ envSize)
    (hname : m.At entry.name s) (hsize : entry.nameSize = s.length)
    (hblock : entry.name.block ≠ .array .names) (hs : s.length < 2 ^ 32) :
    Ends (addDiff m diff ⟨.array .names, 0⟩ entry value)
      (fun x => x.2.count ≤ maxUpdates ∧ x.2.used ≤ envSize ∧ m.SameBut .names x.1)
      (· = .capacity) := by
  by_cases hfull : diff.count = maxUpdates ∨ envSize - diff.used < s.length + 1
  · exact addDiff_full hused hfull hsize hs rfl
  rw [not_or] at hfull
  have hroom : diff.used + (s.length + 1) ≤ envSize := by omega
  refine Ends.mono (addDiff_writes (by omega) hroom hname hsize hblock) ?_ fun _ he => he
  rintro ⟨m', diff'⟩ ⟨-, hdiff, hsame⟩
  simp only at hdiff hsame
  rw [hdiff]
  exact ⟨by simp only; omega, hroom, hsame⟩

theorem addDiff_ends {m₀ : Memory} {e : PlatformEnv.Entry} {v : Option Bytes}
    (h : Collected m₀ m diff d) (hentry : entry.Holds m e)
    (hblock : entry.name.block ≠ .array .names) (hnul : 0 ∉ e.name) (hshort : e.name.length < 2 ^ 32)
    (hvalue : OptText m Kept value v) (hvalueShort : ∀ t ∈ v, t.length < 2 ^ 32) :
    Ends (addDiff m diff ⟨.array .names, 0⟩ entry value)
      (fun x => ∃ d', PlatformEnv.addDiff d e v = .ok d' ∧ Collected m₀ x.1 x.2 d')
      (fun err => PlatformEnv.addDiff d e v = .error err) := by
  have hcount := h.count
  have hused := h.used
  have hle := h.length_le
  have husedLe := h.used_le
  have hvalueChars := optText_chars hvalue
  rw [PlatformEnv.addDiff]
  by_cases hfull : d.updates.length = maxUpdates ∨ envSize - d.used < e.name.length + 1
  · rw [if_pos hfull]
    exact addDiff_full (by omega) (by rwa [hcount, hused]) hentry.size hshort rfl
  rw [if_neg hfull]
  rw [not_or] at hfull
  refine Ends.mono (addDiff_writes (by omega) (by omega) hentry.name_at hentry.size hblock) ?_
    fun _ he => he
  rintro ⟨m', diff'⟩ ⟨hbytes, hdiff, hsame⟩
  simp only at hbytes hdiff hsame ⊢
  subst hdiff
  have hlen : ((m.bytes .names).take d.used).length = d.used := by
    rw [List.length_take, m.sized .names]
    exact Nat.min_eq_left husedLe
  rw [hused] at hbytes
  have htake : (m'.bytes .names).take (d.used + e.name.length + 1) =
      (m.bytes .names).take d.used ++ (e.name ++ [0]) := by
    have hfiled : ((m.bytes .names).take d.used ++ (e.name ++ [0])).length =
        d.used + e.name.length + 1 := by
      rw [List.length_append, hlen, List.length_append, List.length_singleton]
      omega
    rw [hbytes, ← hfiled, List.take_left]
  refine ⟨_, rfl, h.same.trans hsame, ?_, ?_, ?_, by simp only; omega, ?_⟩
  · rw [List.length_append, List.length_singleton, ← hcount]
  · rw [List.length_append, List.length_singleton]
    omega
  · simp only
    omega
  intro i hi hi'
  rw [List.length_append, List.length_singleton] at hi
  simp only [htake]
  by_cases hlast : i = diff.count
  · subst hlast
    rw [Vector.getElem_set_self, List.getElem_concat_length hcount]
    have hchars : (CString.ofBytes e.name).chars = e.name := CString.ofBytes_chars hnul
    refine ⟨⟨_, _, rfl, rfl, ⟨rfl, (m.bytes .names).take d.used, [], ?_, ?_⟩, ?_⟩, ?_, ?_⟩
    · rw [hchars, List.append_nil]
    · rw [hlen, hused]
    · rw [hchars]
      exact hshort
    · simp only [hvalueChars]
      exact hvalue.frame hsame fun hkept => hkept.2 rfl
    · intro t ht
      refine hvalueShort t.chars ?_
      rw [← hvalueChars]
      exact Option.mem_map_of_mem CString.chars ht
  · rw [Vector.getElem_set_ne _ _ (Ne.symm hlast), List.getElem_append_left (by omega)]
    exact (h.update i (by omega) hi').grow hsame

end File

/-! ### The loops -/

section Loops

variable {old next : View} {v w : PlatformEnv.View} {b b' : Place}

theorem envSize_lt : envSize < 2 ^ 32 := by decide

/-- A value found in a record, as an update takes it. -/
theorem kept_of_record {p : Option Ptr} {s : Option Bytes} (h : OptText m (· = .array b) p s)
    (hb : Kept (.array b)) (hsize : b.size = envSize) :
    OptText m Kept p s ∧ ∀ t ∈ s, t.length < 2 ^ 32 := by
  refine ⟨h.weaken fun c hc => hc ▸ hb, fun t ht => ?_⟩
  have hlen := optText_length_lt h t ht
  have hbound := envSize_lt
  omega

/-- An entry of a record can be filed, and the other model goes on with the same diff. -/
theorem fileEntry_ends {entry : Entry} {e : PlatformEnv.Entry} {value : Option Ptr}
    {s : Option Bytes} {spec : Except EnvError PlatformEnv.Diff}
    {F : PlatformEnv.Diff → Except EnvError PlatformEnv.Diff} (h : Collected m m' diff d)
    (hentry : entry.Holds m' e) (hblock : entry.name.block = .array b) (hb : Kept (.array b))
    (hsize : b.size = envSize) (hok : EntryOk e)
    (hvalue : OptText m' Kept value s ∧ ∀ t ∈ s, t.length < 2 ^ 32)
    (hspec : spec = match PlatformEnv.addDiff d e s with | .error e => .error e | .ok d => F d) :
    Ends (addDiff m' diff ⟨.array .names, 0⟩ entry value)
      (fun x => ∃ d', Collected m x.1 x.2 d' ∧ spec = F d') (fun err => spec = .error err) := by
  have hlen := hentry.name_at.le_size hblock
  have hbound := envSize_lt
  have hother : entry.name.block ≠ .array .names := by
    rw [hblock]
    exact hb.2
  refine Ends.mono (addDiff_ends h hentry hother hok.nul_notMem_name (by omega) hvalue.1 hvalue.2)
    ?_ ?_
  · rintro x ⟨d', hadd, hcollected⟩
    rw [hadd] at hspec
    exact ⟨d', hcollected, hspec⟩
  · intro err hadd
    rw [hadd] at hspec
    exact hspec

theorem diffOld_ends {updates : Vector Update maxUpdates} (hold : old.Is m b v)
    (hnext : next.Is m b' w) (hv : v.Ok) (hb : Kept (.array b)) (hb' : Kept (.array b'))
    (hsize : b.size = envSize) (hsize' : b'.size = envSize) (hsteps : maxEntries < steps) :
    Ends (diffOld steps m old next ⟨.array .names, 0⟩ ⟨updates, 0, 0⟩)
      (fun x => ∃ d, PlatformEnv.diffOld w ⟨[], 0⟩ v.entries = .ok d ∧ Collected m x.1 x.2 d)
      (fun e => PlatformEnv.diffOld w ⟨[], 0⟩ v.entries = .error e) := by
  have hle := hold.holds.length_le
  have hne : b ≠ .names := fun heq => hb.2 (congrArg Block.array heq)
  have hne' : b' ≠ .names := fun heq => hb'.2 (congrArg Block.array heq)
  rw [diffOld, hold.holds.count]
  refine Ends.forEachList (fun rest x => ∃ d, Collected m x.1 x.2 d ∧
      PlatformEnv.diffOld w ⟨[], 0⟩ v.entries = PlatformEnv.diffOld w d rest)
    ⟨⟨[], 0⟩, Collected.start m updates, rfl⟩ (by omega) ?_ ?_
  · rintro i hi rest ⟨m', diff⟩ ⟨d, hcollected, hrun⟩
    simp only at hcollected
    have hnext' := hnext.frame hcollected.same hne'
    obtain ⟨hentry, hblock⟩ := (hold.frame hcollected.same hne).holds.entry i hi (by omega)
    have hok := hv.wellFormed.entry_ok v.entries[i] (List.getElem_mem hi)
    rw [item_eq (show i < maxEntries by omega), ok_bind]
    simp only
    rw [PlatformEnv.diffOld] at hrun
    refine Ends.bind (equivalent_ends hnext'.holds hsteps hentry) ?_
    intro found hfound
    have hvalue := kept_of_record hfound hb' hsize'
    generalize PlatformEnv.get w.entries v.entries[i].name = value at hfound hrun hvalue
    cases hfound with
    | none =>
      rw [if_pos (by simp)] at hrun
      exact fileEntry_ends (F := fun d => PlatformEnv.diffOld w d rest) hcollected hentry hblock
        hb hsize hok hvalue hrun
    | @some p t htext _ =>
      simp only [htext.strcmp hentry.value_text, ok_bind]
      by_cases hsame : t = v.entries[i].value
      · rw [if_neg (by simp [hsame])] at hrun
        rw [hsame, bne_self_eq_false, if_neg Bool.false_ne_true]
        exact ⟨d, hcollected, hrun⟩
      · rw [if_pos (by simpa using hsame)] at hrun
        rw [if_pos (bne_iff_ne.mpr hsame)]
        exact fileEntry_ends (F := fun d => PlatformEnv.diffOld w d rest) hcollected hentry hblock
          hb hsize hok hvalue hrun
  · rintro x ⟨d, hcollected, hrun⟩
    exact ⟨d, hrun, hcollected⟩

theorem diffNew_ends (h : Collected m m' diff d) (hold : old.Is m b v) (hnext : next.Is m b' w)
    (hw : w.Ok) (hb : Kept (.array b)) (hb' : Kept (.array b')) (hsize' : b'.size = envSize)
    (hsteps : maxEntries < steps) :
    Ends (diffNew steps m' old next ⟨.array .names, 0⟩ diff)
      (fun x => ∃ d', PlatformEnv.diffNew v d w.entries = .ok d' ∧ Collected m x.1 x.2 d')
      (fun e => PlatformEnv.diffNew v d w.entries = .error e) := by
  have hle := hnext.holds.length_le
  have hne : b ≠ .names := fun heq => hb.2 (congrArg Block.array heq)
  have hne' : b' ≠ .names := fun heq => hb'.2 (congrArg Block.array heq)
  rw [diffNew, hnext.holds.count]
  refine Ends.forEachList (fun rest x => ∃ d', Collected m x.1 x.2 d' ∧
      PlatformEnv.diffNew v d w.entries = PlatformEnv.diffNew v d' rest)
    ⟨d, h, rfl⟩ (by omega) ?_ ?_
  · rintro i hi rest ⟨m', diff⟩ ⟨d', hcollected, hrun⟩
    simp only at hcollected
    have hold' := hold.frame hcollected.same hne
    obtain ⟨hentry, hblock⟩ := (hnext.frame hcollected.same hne').holds.entry i hi (by omega)
    have hok := hw.wellFormed.entry_ok w.entries[i] (List.getElem_mem hi)
    rw [item_eq (show i < maxEntries by omega), ok_bind]
    simp only
    rw [PlatformEnv.diffNew] at hrun
    refine Ends.bind (equivalent_ends hold'.holds hsteps hentry) ?_
    intro found hfound
    generalize PlatformEnv.get v.entries w.entries[i].name = value at hfound hrun
    cases hfound with
    | none =>
      rw [Option.isNone_none, if_pos rfl] at hrun
      exact fileEntry_ends (F := fun d => PlatformEnv.diffNew v d rest) hcollected hentry hblock
        hb' hsize' hok (kept_of_record
          (.some hentry.value_text (hentry.value_block.trans hblock)) hb' hsize') hrun
    | some _ _ =>
      rw [if_neg (by simp)] at hrun
      exact ⟨d', hcollected, hrun⟩
  · rintro x ⟨d', hcollected, hrun⟩
    exact ⟨d', hrun, hcollected⟩

end Loops

/-! ### The record of a snapshot -/

/-- What a snapshot commit makes of two records, on lists. -/
def snapshotRecord (desired source : Record) : Except EnvError Record := do
  let next ← PlatformEnv.parse desired
  let old ← PlatformEnv.parse source
  let diff ← PlatformEnv.diffOld next ⟨[], 0⟩ old.entries
  let diff ← PlatformEnv.diffNew old diff next.entries
  PlatformEnv.build source diff.updates

/-- It is the record that the commit writes, once the checks before it pass. -/
theorem next_snapshot_eq {desired : Record} {device : Device} {chosen : Selection}
    {next : PlatformEnv.View} (hcrc : desired.crcValid = true)
    (hparse : PlatformEnv.parse desired = .ok next) (hselect : device.select = .ok chosen)
    (hgeneration : next.generation = chosen.generation) :
    (Op.snapshot desired).next device =
      (snapshotRecord desired (device chosen.index)).map (Prod.mk chosen.index) := by
  simp only [Op.next, snapshotRecord, hcrc, hparse, hselect, hgeneration, bind, Except.bind,
    pure, Except.pure, Bool.not_true, Bool.false_eq_true, if_false, ne_eq, not_true]
  cases PlatformEnv.parse (device chosen.index) with
  | error e => rfl
  | ok old =>
    simp only
    cases PlatformEnv.diffOld next ⟨[], 0⟩ old.entries with
    | error e => rfl
    | ok diff =>
      simp only
      cases PlatformEnv.diffNew old diff next.entries with
      | error e => rfl
      | ok diff =>
        simp only
        cases PlatformEnv.build (device chosen.index) diff.updates with
        | error e => rfl
        | ok r => rfl

theorem snapshotNext_ends {b b' : Place} {desired source : Record} {views buildViews : View × View}
    {updates : Vector Update maxUpdates} {reverse : Vector UInt8 20}
    (hdesired : HoldsRecord m b' desired) (hsource : HoldsRecord m b source)
    (hb : Kept (.array b)) (hb' : Kept (.array b')) (hsteps : envSize ≤ steps) :
    Ends (snapshotNext steps m ⟨.array b', 0⟩ ⟨.array b, 0⟩ ⟨.array .names, 0⟩ ⟨.array .next, 0⟩
        views updates buildViews reverse)
      (fun m' => ∃ r, snapshotRecord desired source = .ok r ∧ HoldsRecord m' .next r)
      (fun e => snapshotRecord desired source = .error e) := by
  have hmax : maxEntries < envSize := by decide
  have hne : b ≠ .names := fun heq => hb.2 (congrArg Block.array heq)
  generalize hspec : snapshotRecord desired source = spec
  simp only [snapshotRecord, bind, Except.bind] at hspec
  rw [snapshotNext]
  refine Ends.step (parse_ends hdesired hsteps) ?_ ?_
  · intro e he
    rw [he] at hspec
    exact hspec.symm
  rintro next ⟨w, hw, hnext⟩
  rw [hw] at hspec
  simp only at hspec
  refine Ends.step (parse_ends hsource hsteps) ?_ ?_
  · intro e he
    rw [he] at hspec
    exact hspec.symm
  rintro old ⟨v, hv, hold⟩
  rw [hv] at hspec
  simp only at hspec
  refine Ends.step (diffOld_ends hold hnext (parse_ok hv) hb hb' hsource.size_eq
    hdesired.size_eq (by omega)) ?_ ?_
  · intro e he
    rw [he] at hspec
    exact hspec.symm
  rintro ⟨m₁, diff₁⟩ ⟨d₁, hdiff₁, hcollected₁⟩
  rw [hdiff₁] at hspec
  simp only at hspec
  refine Ends.step (diffNew_ends hcollected₁ hold hnext (parse_ok hw) hb hb' hdesired.size_eq
    (by omega)) ?_ ?_
  · intro e he
    rw [he] at hspec
    exact hspec.symm
  rintro ⟨m₂, diff₂⟩ ⟨d₂, hdiff₂, hcollected₂⟩
  rw [hdiff₂] at hspec
  simp only at hspec
  rw [← hspec]
  exact build_ends (hsource.frame hcollected₂.same hne) hb.1 hcollected₂.updatesHold hsteps

/-! ### The whole commit -/

/-- An entry's name and value end with a NUL inside the record. -/
structure Entry.Terminated (m : Memory) (b : Place) (c : Entry) : Prop where
  name : ∃ s, m.Text c.name s ∧ c.name.block = .array b
  value : ∃ s, m.Text c.value s ∧ c.value.block = .array b

theorem Entry.Holds.terminated {c : Entry} {e : PlatformEnv.Entry} {b : Place} (h : c.Holds m e)
    (hblock : c.name.block = .array b) (hok : EntryOk e) : c.Terminated m b := by
  have hnul : 0 ∉ e.text := by
    simp [PlatformEnv.Entry.text, hok.nul_notMem_name, hok.nul_notMem_value]
  exact ⟨⟨e.text, ⟨h.text, hnul⟩, hblock⟩, ⟨e.value, h.value_text, h.value_block.trans hblock⟩⟩

theorem holdsRecord_of_size {b : Place} (h : b.size = envSize) : ∃ r, HoldsRecord m b r := by
  obtain ⟨r, hr⟩ := exists_record ((m.sized b).trans h)
  exact ⟨r, hr.symm⟩

theorem parse_safe {b : Place} {view : View} (h : b.size = envSize) (hsteps : envSize ≤ steps) :
    Ends (parse steps m ⟨.array b, 0⟩ view)
      (fun c => c.used ≤ dataSize - headroom ∧ c.count ≤ maxEntries ∧
        ∀ i (hi : i < maxEntries), i < c.count → c.entries[i].Terminated m b)
      fun _ => True := by
  obtain ⟨r, hr⟩ := holdsRecord_of_size (m := m) h
  refine Ends.mono (parse_ends hr hsteps) ?_ fun _ _ => trivial
  rintro c ⟨v, hv, hc⟩
  have hok := parse_ok hv
  have hused := hok.used_le
  have hcount := hc.holds.count
  refine ⟨?_, ?_, fun i hi hlt => ?_⟩
  · rw [hc.used]
    omega
  · rw [hcount]
    exact hc.holds.length_le
  · obtain ⟨hholds, hblock⟩ := hc.holds.entry i (by omega) hi
    exact hholds.terminated hblock (hok.wellFormed.entry_ok _ (List.getElem_mem _))

/-- No step of a commit leaves its array, takes a size below zero or goes on for ever. -/
theorem memory_safe (steps : ℕ) (m : Memory) (hsteps : envSize ≤ steps) :
    (∀ (b : Place) view, b.size = envSize → Ends (parse steps m ⟨.array b, 0⟩ view)
      (fun c => c.used ≤ dataSize - headroom ∧ c.count ≤ maxEntries ∧
        ∀ i (hi : i < maxEntries), i < c.count → c.entries[i].Terminated m b)
      fun _ => True) ∧
    (∀ (out : Place) used name s value t, out.size = envSize → used ≤ dataSize →
      m.At name s → name.block ≠ .array out → m.Text value t → value.block ≠ .array out →
      s.length < 2 ^ 32 → t.length < 2 ^ 32 →
      Ends (append m ⟨.array out, 0⟩ used name s.length value)
        (fun x => x.2 < dataSize ∧ m.SameBut out x.1) (· = .capacity)) ∧
    (∀ (b : Place) n (updates : Vector Update n) count us views reverse, b.size = envSize →
      Outside (.array b) → UpdatesHold m updates count us →
      Faultless (build steps m ⟨.array b, 0⟩ updates count ⟨.array .next, 0⟩ views reverse)) ∧
    (∀ (diff : Diff) entry value s, diff.count ≤ maxUpdates → diff.used ≤ envSize →
      m.At entry.name s → entry.nameSize = s.length → entry.name.block ≠ .array .names →
      s.length < 2 ^ 32 → Ends (addDiff m diff ⟨.array .names, 0⟩ entry value)
        (fun x => x.2.count ≤ maxUpdates ∧ x.2.used ≤ envSize ∧ m.SameBut .names x.1)
        (· = .capacity)) ∧
    ∀ (b b' : Place) views updates buildViews reverse, b.size = envSize → b'.size = envSize →
      Kept (.array b) → Kept (.array b') →
      Faultless (snapshotNext steps m ⟨.array b', 0⟩ ⟨.array b, 0⟩ ⟨.array .names, 0⟩
        ⟨.array .next, 0⟩ views updates buildViews reverse) := by
  refine ⟨?_, ?_, ?_, ?_, ?_⟩
  · exact fun b view hb => parse_safe hb hsteps
  · exact fun out used name s value t hout hused hname hnameBlock hvalue hvalueBlock hs ht =>
      append_safe hout hused hname hnameBlock hvalue hvalueBlock hs ht
  · intro b n updates count us views reverse hb hout hupdates
    obtain ⟨r, hr⟩ := holdsRecord_of_size (m := m) hb
    exact (build_ends hr hout hupdates hsteps).faultless
  · exact fun diff entry value s hcount hused hname hsize hblock hs =>
      addDiff_safe hcount hused hname hsize hblock hs
  · intro b b' views updates buildViews reverse hb hb' hkept hkept'
    obtain ⟨source, hsource⟩ := holdsRecord_of_size (m := m) hb
    obtain ⟨desired, hdesired⟩ := holdsRecord_of_size (m := m) hb'
    exact (snapshotNext_ends hdesired hsource hkept hkept' hsteps).faultless

/-- The sample card in memory, with the floor raised in the desired record. -/
@[irreducible] def sampleMemory : Memory where
  bytes
    | .record i => recordBytes (seedDevice sampleValues i)
    | .desired => recordBytes raisedSnapshot
    | b => List.replicate b.size 0
  sized b := by
    cases b with
    | record i => exact recordBytes_length _
    | desired => exact recordBytes_length _
    | next => exact List.length_replicate
    | names => exact List.length_replicate
    | generation => exact List.length_replicate
    | text number size => exact List.length_replicate

def blankView : View := ⟨Vector.replicate maxEntries ⟨lit "", lit "", 0⟩, 0, 0, 0, 0, 0⟩

def sampleUpdates : Vector Update 1 := #v[⟨some (lit "epk_os_floor"), some (lit "13")⟩]

theorem sampleUpdates_hold : UpdatesHold sampleMemory sampleUpdates 1 raiseFloor := by
  refine ⟨rfl, by decide, by decide, fun i hi hi' => ?_⟩
  obtain rfl : i = 0 := by omega
  have hliteral : ∀ s : String, Outside (lit s).block :=
    fun s => ⟨fun heq => (by cases heq), fun heq => (by cases heq)⟩
  refine ⟨.some (lit_text (by decide)) (hliteral _), .some (lit_text (by decide)) (hliteral _), ?_, ?_⟩
  · rintro s ⟨⟩
    decide
  · rintro s ⟨⟩
    decide

theorem memory_safe_sample :
    (∃ c, parse envSize sampleMemory ⟨.array (.record .b), 0⟩ blankView = .ok c ∧
      c.used ≤ dataSize - headroom) ∧
    Ends (append sampleMemory ⟨.array .next, 0⟩ 0 (lit "BOOT_A_LEFT") 11 (lit "3"))
      (fun x => x.2 < dataSize ∧ sampleMemory.SameBut .next x.1) (· = .capacity) ∧
    Faultless (build envSize sampleMemory ⟨.array (.record .b), 0⟩ sampleUpdates 1
      ⟨.array .next, 0⟩ (blankView, blankView) (Vector.replicate 20 0)) ∧
    Ends (addDiff sampleMemory ⟨Vector.replicate maxUpdates ⟨none, none⟩, 0, 0⟩
        ⟨.array .names, 0⟩ ⟨lit "BOOT_A_LEFT", lit "3", 11⟩ (some (lit "3")))
      (fun x => x.2.count ≤ maxUpdates ∧ x.2.used ≤ envSize ∧ sampleMemory.SameBut .names x.1)
      (· = .capacity) ∧
    Faultless (snapshotNext envSize sampleMemory ⟨.array .desired, 0⟩ ⟨.array (.record .b), 0⟩
      ⟨.array .names, 0⟩ ⟨.array .next, 0⟩ (blankView, blankView)
      (Vector.replicate maxUpdates ⟨none, none⟩) (blankView, blankView) (Vector.replicate 20 0)) := by
  have hname : sampleMemory.Text (lit "BOOT_A_LEFT") (ascii "BOOT_A_LEFT") := lit_text (by decide)
  have hvalue : sampleMemory.Text (lit "3") (ascii "3") := lit_text (by decide)
  have hrecord : HoldsRecord sampleMemory (.record .b) (seedDevice sampleValues .b) := by
    unfold HoldsRecord sampleMemory
    rfl
  have hkept : ∀ b, b ≠ Place.next → b ≠ .generation → b ≠ .names → Kept (.array b) :=
    fun b hnext hgeneration hnames => ⟨⟨fun heq => hnext (Block.array.inj heq),
      fun heq => hgeneration (Block.array.inj heq)⟩, fun heq => hnames (Block.array.inj heq)⟩
  have hb : Kept (.array (.record .b)) := hkept _ (by decide) (by decide) (by decide)
  have hb' : Kept (.array .desired) := hkept _ (by decide) (by decide) (by decide)
  obtain ⟨hparse, happend, hbuild, hadd, hsnapshot⟩ :=
    memory_safe envSize sampleMemory (Nat.le_refl _)
  refine ⟨?_, ?_, ?_, ?_, ?_⟩
  · have hends := (hparse (.record .b) blankView rfl).and (parse_ends hrecord (Nat.le_refl _))
    refine (hends.mono (fun c hc => hc.1.1) fun e he => ?_).value
    have hparses : PlatformEnv.parse (seedDevice sampleValues .b) = .ok sampleView :=
      parse_seedRecord storable_sample 2
    rw [hparses] at he
    exact absurd he.2 (by simp)
  · exact happend .next 0 _ (ascii "BOOT_A_LEFT") _ (ascii "3") rfl (by decide) hname.at_nul.left
      (by decide) hvalue (by decide) (by decide) (by decide)
  · exact hbuild (.record .b) 1 _ 1 raiseFloor _ _ rfl hb.1 sampleUpdates_hold
  · exact hadd _ _ _ (ascii "BOOT_A_LEFT") (by decide) (by decide) hname.at_nul.left (by decide)
      (by decide) (by decide)
  · exact hsnapshot (.record .b) .desired _ _ _ _ rfl rfl hb hb'

end Epilykos.PlatformEnv.Pointer
