import Epilykos.PlatformEnv.PointerParse

/-!
`build` in memory. The next record is written from its start, and what lies behind the text is
zero throughout, so the record parsed in the end is the one that the other model makes of the
same text. The updates may point into any arrays but the two that are written here.
-/

namespace Epilykos.PlatformEnv.Pointer

open Checked

structure Update where
  name : Option Ptr
  value : Option Ptr

section Source

variable (steps : ℕ) (m : Memory) {n : ℕ}

def append (out : Ptr) (used : ℕ) (name : Ptr) (nameSize : ℕ) (value : Ptr) : Run (Memory × ℕ) := do
  let valueSize ← m.strlen value
  returnIf ((← sub dataSize used) < (← word (nameSize + valueSize + 3))) .capacity
  let m ← m.memcpy (← m.advance out (5 + used)) name nameSize
  let used := used + nameSize
  let m ← m.store out (5 + used) 61
  let used := used + 1
  let m ← m.memcpy (← m.advance out (5 + used)) value (valueSize + 1)
  let used := used + (valueSize + 1)
  let m ← m.store out (5 + used) 0
  return (m, used)

/-- The first loop of `build`. -/
def checkUpdates (updates : Vector Update n) (count : ℕ) : Run Unit :=
  forEach steps 0 count (fun i _ => do
    let name ← orReturn .invalid (← item updates i).name
    returnIf ((← m.load name 0) = 0) .invalid
    returnIf ((← m.strcmp name (lit "epk_state_generation")) = false) .invalid
    forEach steps 0 i (fun j _ => do
      let other ← nonNull (← item updates j).name
      returnIf ((← m.strcmp other name) = false) .invalid) ()) ()

def changedCritical (old : View) (updates : Vector Update n) (count : ℕ) : Run Bool := do
  match ← search steps 0 count (fun i _ => do
      let update ← item updates i
      let name ← nonNull update.name
      if (← m.strncmp name (lit "epk_") 4) = true then return .next ()
      else
        match ← get steps m old name, update.value with
        | none, none => return .next ()
        | some previous, some value =>
          if (← m.strcmp previous value) = true then return .exit () else return .next ()
        | _, _ => return .exit ()) () with
  | .exit _ => return true
  | .next _ => return false

/-- The value for an old name; NULL leaves the entry out. -/
def keptValue (updates : Vector Update n) (count : ℕ) (entry : Entry) : Run (Option Ptr) := do
  let found ← search steps 0 count (fun j _ => do
    let update ← item updates j
    if (← nameEqual m entry (← nonNull update.name)) = true then return .exit update.value
    else return .next ()) ()
  if (← nameEqual m entry (lit "epk_state_generation")) = true then
    return some ⟨.array .generation, 0⟩
  else match found with
    | .exit value => return value
    | .next _ => return some entry.value

def keepEntries (old : View) (updates : Vector Update n) (count : ℕ) (out : Ptr) :
    Run (Memory × ℕ) :=
  forEach steps 0 old.count (fun i x => do
    let entry ← item old.entries i
    match ← keptValue steps x.1 updates count entry with
    | some value => append x.1 out x.2 entry.name entry.nameSize value
    | none => return x) (m, 0)

def addEntries (old : View) (updates : Vector Update n) (count : ℕ) (out : Ptr) (used : ℕ) :
    Run (Memory × ℕ) :=
  forEach steps 0 count (fun j x => do
    let update ← item updates j
    let name ← nonNull update.name
    match ← get steps x.1 old name, update.value with
    | none, some value => append x.1 out x.2 name (← x.1.strlen name) value
    | _, _ => return x) (m, used)

def notOlder (newer older : View) : Run Bool := do
  if newer.floor < older.floor ∨ newer.epoch < older.epoch then return false
  else if newer.epoch = older.epoch then
    let policy ← nonNull (← get steps m newer (lit "epk_trust_policy"))
    let before ← nonNull (← get steps m older (lit "epk_trust_policy"))
    if (← m.strcmp policy before) = true then return false
    else
      let sig ← nonNull (← get steps m newer (lit "epk_trust_policy_sig"))
      let before ← nonNull (← get steps m older (lit "epk_trust_policy_sig"))
      return !(← m.strcmp sig before)
  else return true

def nativeCrc (data : Ptr) (size : ℕ) : Run UInt32 := do
  let crc ← forEach steps 0 size (fun i crc => do
    let byte ← m.load data i
    forEach steps 0 8 (fun _ crc => return crcBit crc) (crc ^^^ byte.toUInt32)) 0xffffffff
  return ~~~crc

def setCrc (record : Ptr) : Run Memory := do
  let crc ← nativeCrc steps m (← m.advance record 5) dataSize
  forEach steps 0 4 (fun i m => m.store record i (crc >>> (i * 8).toUInt32).toUInt8) m

/-- What `build` writes: the generation as a text, zeros, and the lines. -/
def writeNext (old : View) (updates : Vector Update n) (count : ℕ) (changed : Bool) (out : Ptr)
    (reverse : Vector UInt8 20) : Run Memory := do
  let generation ← word (old.generation + changed.toNat)
  let m ← toDecimal steps m reverse generation ⟨.array .generation, 0⟩
  let m ← m.memset out 0 envSize
  let (m, used) ← keepEntries steps m old updates count out
  let (m, _) ← addEntries steps m old updates count out used
  return m

/-- `views` and `reverse` are the local variables as they are found. -/
def build (source : Ptr) (updates : Vector Update n) (count : ℕ) (out : Ptr) (views : View × View)
    (reverse : Vector UInt8 20) : Run Memory := do
  let old ← parse steps m source views.1
  checkUpdates steps m updates count
  let changed ← changedCritical steps m old updates count
  returnIf (changed = true ∧ old.generation = uint64Max) .overflow
  let m ← writeNext steps m old updates count changed out reverse
  let next ← parse steps m out views.2
  returnIf ((← notOlder steps m next old) = false) .conflict
  setCrc steps m out

end Source

variable {steps : ℕ} {m m' : Memory} {b out : Place} {n : ℕ}

/-! ### Appending a line -/

theorem recordBytes_ofText {text : Bytes} (h : text.length ≤ dataSize) :
    recordBytes (Record.ofText text) =
      (List.replicate 5 0 ++ text) ++ List.replicate (dataSize - text.length) 0 := by
  rw [recordBytes, Record.ofText_data h]
  simp [Record.ofText, Record.blankCrc, List.replicate]

section Append

variable {s t : Bytes} {used : ℕ} {name value : Ptr}

theorem exists_split {α : Type} {xs : List α} {i j : ℕ} (h : xs.length = i + 1 + j) :
    ∃ ys x zs, xs = ys ++ x :: zs ∧ ys.length = i ∧ zs.length = j := by
  refine ⟨xs.take i, xs[i], xs.drop (i + 1), ?_, ?_, ?_⟩
  · rw [List.getElem_cons_drop, List.take_append_drop]
  · rw [List.length_take]
    omega
  · rw [List.length_drop]
    omega

/-- The four writes, over whatever is there. -/
theorem append_writes {before old after : Bytes} {E : EnvError → Prop}
    (hbytes : m.bytes out = before ++ old ++ after) (hbefore : before.length = 5 + used)
    (hold : old.length = s.length + t.length + 3) (hsize : out.size = envSize)
    (hname : m.At name s) (hnameBlock : name.block ≠ .array out) (hvalue : m.Text value t)
    (hvalueBlock : value.block ≠ .array out) :
    Ends (append m ⟨.array out, 0⟩ used name s.length value)
      (fun x => x.1.bytes out = before ++ (s ++ 61 :: (t ++ [0, 0])) ++ after ∧
        x.2 = used + (s.length + t.length + 2) ∧ m.SameBut out x.1) E := by
  have hdata : dataSize + 5 = envSize := rfl
  have htotal := congrArg List.length hbytes
  rw [m.sized out, hsize] at htotal
  simp only [List.length_append] at htotal
  have hlarge : envSize < 2 ^ 64 := by decide
  rw [append, hvalue.strlen, ok_bind, sub_eq (by omega), ok_bind, word_eq (by omega), ok_bind,
    returnIf_neg (by omega), ok_bind, Memory.advance_array (by omega), ok_bind, Nat.zero_add,
    ← hbefore]
  obtain ⟨old₁, x, old₂, rfl, hold₁, hold₂⟩ := exists_split
    (show old.length = s.length + 1 + (t.length + 2) by omega)
  obtain ⟨old₃, y, rest, rfl, hold₃, hrest⟩ := exists_split
    (show old₂.length = t.length + 1 + 1 + 0 by omega)
  obtain rfl := List.length_eq_zero_iff.mp hrest
  have hbytes₀ : m.bytes out = before ++ old₁ ++ (x :: (old₃ ++ y :: after)) := by
    rw [hbytes]
    simp
  have hname' : m.At name (s ++ []) := by rwa [List.append_nil]
  refine Ends.bind (Memory.ends_memcpy hbytes₀ hname' hnameBlock hold₁ rfl) ?_
  rintro m₁ ⟨hbytes₁, hsame₁⟩
  simp only
  have hindex₁ : (before ++ s).length = 0 + (5 + (used + s.length)) := by
    rw [List.length_append]
    omega
  refine Ends.bind (Memory.ends_store hbytes₁ hindex₁) ?_
  rintro m₂ ⟨hbytes₂, hsame₂⟩
  have hindex₂ : (before ++ s ++ [61]).length = 5 + (used + s.length + 1) := by
    rw [List.length_append, List.length_append, List.length_singleton]
    omega
  have hbytes₂' : m₂.bytes out = (before ++ s ++ [61]) ++ old₃ ++ (y :: after) := by
    rw [hbytes₂]
    simp
  have hvalue' : m₂.At value ((t ++ [0]) ++ []) := by
    rw [List.append_nil]
    exact hsame₂.at hvalueBlock (hsame₁.at hvalueBlock hvalue.at_nul)
  rw [Memory.advance_array (by omega), ok_bind, Nat.zero_add, ← hindex₂]
  refine Ends.bind (Memory.ends_memcpy hbytes₂' hvalue' hvalueBlock hold₃ (by simp)) ?_
  rintro m₃ ⟨hbytes₃, hsame₃⟩
  have hindex₃ : (before ++ s ++ [61] ++ (t ++ [0])).length =
      0 + (5 + (used + s.length + 1 + (t.length + 1))) := by
    rw [List.length_append, hindex₂, List.length_append, List.length_singleton]
    omega
  refine Ends.bind (Memory.ends_store hbytes₃ hindex₃) ?_
  rintro m₄ ⟨hbytes₄, hsame₄⟩
  refine ⟨?_, by simp only; omega, ((hsame₁.trans hsame₂).trans hsame₃).trans hsame₄⟩
  rw [hbytes₄]
  simp

/-- Without room `append` writes nothing. -/
theorem append_full {E : EnvError → Prop} {Q : Memory × ℕ → Prop} (hused : used ≤ dataSize)
    (hfull : dataSize - used < s.length + t.length + 3) (hvalue : m.Text value t)
    (hs : s.length < 2 ^ 32) (ht : t.length < 2 ^ 32) (hE : E .capacity) :
    Ends (append m ⟨.array out, 0⟩ used name s.length value) Q E := by
  rw [append, hvalue.strlen, ok_bind, sub_eq hused, ok_bind, word_eq (by omega), ok_bind,
    returnIf_pos hfull]
  exact hE

theorem append_ends {text : Bytes} (h : HoldsRecord m out (Record.ofText text))
    (hroom : text.length < dataSize) (hname : m.At name s) (hnameBlock : name.block ≠ .array out)
    (hvalue : m.Text value t) (hvalueBlock : value.block ≠ .array out)
    (hs : s.length < 2 ^ 32) (ht : t.length < 2 ^ 32) :
    Ends (append m ⟨.array out, 0⟩ text.length name s.length value)
      (fun x => ∃ text', PlatformEnv.append text s t = .ok text' ∧
        HoldsRecord x.1 out (Record.ofText text') ∧ x.2 = text'.length ∧
        text'.length < dataSize ∧ m.SameBut out x.1)
      (fun e => PlatformEnv.append text s t = .error e) := by
  rw [PlatformEnv.append]
  by_cases hfull : dataSize - text.length < s.length + t.length + 3
  · rw [if_pos hfull]
    exact append_full hroom.le hfull hvalue hs ht rfl
  rw [if_neg hfull]
  obtain ⟨k, hk⟩ : ∃ k, dataSize - text.length = s.length + t.length + 3 + k :=
    ⟨dataSize - text.length - (s.length + t.length + 3), by omega⟩
  have hbytes : m.bytes out = (List.replicate 5 0 ++ text) ++
      List.replicate (s.length + t.length + 3) 0 ++ List.replicate k 0 := by
    rw [h, recordBytes_ofText hroom.le, hk, List.replicate_add _ k]
    simp only [List.append_assoc]
  have hfront : (List.replicate 5 0 ++ text).length = 5 + text.length := by
    rw [List.length_append, List.length_replicate]
  refine Ends.mono (append_writes hbytes hfront (by simp) h.size_eq hname hnameBlock hvalue
    hvalueBlock) ?_ fun _ he => he
  rintro ⟨m', used'⟩ ⟨hbytes', hused, hsame⟩
  simp only at hbytes' hused hsame
  have hlen : (text ++ (s ++ 61 :: t ++ [0])).length = text.length + (s.length + t.length + 2) := by
    simp only [List.length_append, List.length_cons, List.length_nil]
    omega
  refine ⟨_, rfl, ?_, hused.trans hlen.symm, by omega, hsame⟩
  have hrest : dataSize - (text.length + (s.length + t.length + 2)) = k + 1 := by omega
  rw [HoldsRecord, hbytes', recordBytes_ofText (by omega), hlen, hrest]
  simp [List.replicate_succ]

/-- Whatever the record holds so far, `append` stays inside of it. -/
theorem append_safe (hsize : out.size = envSize) (hused : used ≤ dataSize) (hname : m.At name s)
    (hnameBlock : name.block ≠ .array out) (hvalue : m.Text value t)
    (hvalueBlock : value.block ≠ .array out) (hs : s.length < 2 ^ 32) (ht : t.length < 2 ^ 32) :
    Ends (append m ⟨.array out, 0⟩ used name s.length value)
      (fun x => x.2 < dataSize ∧ m.SameBut out x.1) (· = .capacity) := by
  by_cases hfull : dataSize - used < s.length + t.length + 3
  · exact append_full hused hfull hvalue hs ht rfl
  have hdata : dataSize + 5 = envSize := rfl
  obtain ⟨before, old, after, hbytes, hbefore, hold⟩ :=
    m.bytes_split (show 5 + used + (s.length + t.length + 3) ≤ out.size by omega)
  refine Ends.mono (append_writes hbytes hbefore hold hsize hname hnameBlock hvalue hvalueBlock)
    ?_ fun _ he => he
  rintro x ⟨-, hused', hsame⟩
  exact ⟨by omega, hsame⟩

end Append

/-! ### The updates -/

/-- Where the strings of the updates may lie: in no array that is written here. -/
def Outside (c : Block Place) : Prop := c ≠ .array .next ∧ c ≠ .array .generation

/-- An update of the caller: each string is NULL or ends in its array, below 2^32 characters. -/
structure Update.Holds (m : Memory) (c : Update) (u : PlatformEnv.Update) : Prop where
  name : OptText m Outside c.name (u.name.map CString.chars)
  value : OptText m Outside c.value (u.value.map CString.chars)
  nameShort : ∀ s ∈ u.name, s.chars.length < 2 ^ 32
  valueShort : ∀ s ∈ u.value, s.chars.length < 2 ^ 32

structure UpdatesHold (m : Memory) (updates : Vector Update n) (count : ℕ)
    (us : List PlatformEnv.Update) : Prop where
  count : count = us.length
  length_le : us.length ≤ maxUpdates
  fits : us.length ≤ n
  update : ∀ i (h : i < us.length), ∀ h' : i < n, updates[i].Holds m us[i]

section Updates

variable {updates : Vector Update n} {count : ℕ} {changes : List Change}
  {us : List PlatformEnv.Update}

theorem UpdatesHold.frame (h : UpdatesHold m updates count us)
    (hsame : m.SameBut b m') (hb : ¬ Outside (.array b)) : UpdatesHold m' updates count us := by
  refine ⟨h.count, h.length_le, h.fits, fun i hi hi' => ?_⟩
  have hupdate := h.update i hi hi'
  exact ⟨hupdate.name.frame hsame hb, hupdate.value.frame hsame hb, hupdate.nameShort,
    hupdate.valueShort⟩

/-- A change as the update it came from. -/
abbrev asUpdate (c : Change) : PlatformEnv.Update := ⟨some c.name, c.value⟩

/-- What is known of an update with a name. -/
theorem UpdatesHold.name (h : UpdatesHold m updates count (changes.map asUpdate)) {i : ℕ}
    (hi : i < changes.length) :
    ∃ (hn : i < n) (p : Ptr), updates[i].name = some p ∧ m.Text p changes[i].name.chars ∧
      Outside p.block ∧ changes[i].name.chars.length < 2 ^ 32 := by
  have hfits := h.fits
  rw [List.length_map] at hfits
  have hn : i < n := by omega
  have hupdate := h.update i (by rwa [List.length_map]) hn
  rw [List.getElem_map] at hupdate
  have hname : OptText m Outside updates[i].name (some changes[i].name.chars) := hupdate.name
  have hshort := hupdate.nameShort changes[i].name rfl
  generalize hp : updates[i].name = p at hname
  cases hname with
  | some htext hout => exact ⟨hn, _, hp, htext, hout, hshort⟩

theorem UpdatesHold.value (h : UpdatesHold m updates count (changes.map asUpdate)) {i : ℕ}
    (hi : i < changes.length) :
    ∃ hn : i < n, OptText m Outside updates[i].value changes[i].newValue ∧
      ∀ s ∈ changes[i].newValue, s.length < 2 ^ 32 := by
  have hfits := h.fits
  rw [List.length_map] at hfits
  have hn : i < n := by omega
  have hupdate := h.update i (by rwa [List.length_map]) hn
  rw [List.getElem_map] at hupdate
  refine ⟨hn, hupdate.value, ?_⟩
  intro s hs
  obtain ⟨value, hvalue, rfl⟩ := Option.map_eq_some_iff.mp hs
  exact hupdate.valueShort value hvalue

/-! ### The checks of the updates -/

theorem otherNames_ends {seen : List Change} {name : Ptr} {chars : Bytes} {i : ℕ}
    (h : UpdatesHold m updates count us) (hseen : us.take i = seen.map asUpdate)
    (hi : i ≤ us.length) (hname : m.Text name chars) (hsteps : maxUpdates < steps) :
    Ends (forEach steps 0 i (fun j _ => do
        let other ← nonNull (← item updates j).name
        returnIf ((← m.strcmp other name) = false) EnvError.invalid) ())
      (fun _ => (seen.any fun c => c.name.chars == chars) = false)
      (fun e => e = .invalid ∧ (seen.any fun c => c.name.chars == chars) = true) := by
  have hlen := congrArg List.length hseen
  rw [List.length_take, List.length_map] at hlen
  have hle := h.length_le
  have hfits := h.fits
  refine Ends.checkList (by omega) (by omega) fun k hk => ?_
  rw [Nat.zero_add]
  have hupdate : us[k] = asUpdate seen[k] := by
    have hget : (us.take i)[k]? = (seen.map asUpdate)[k]? := by rw [hseen]
    rw [List.getElem?_take_of_lt (by omega), List.getElem?_eq_getElem (by omega),
      List.getElem?_eq_getElem (by rwa [List.length_map]), List.getElem_map] at hget
    exact Option.some.inj hget
  have hother := (h.update k (by omega) (by omega)).name
  rw [hupdate] at hother
  rw [item_eq (show k < n by omega), ok_bind]
  generalize updates[k].name = other at hother
  cases hother with
  | some htext hout =>
    rw [nonNull_some, ok_bind, htext.strcmp hname, ok_bind, ends_returnIf]
    constructor
    · intro hsame
      exact ⟨rfl, by simpa using hsame⟩
    · intro hdiffers
      simpa using hdiffers

theorem checkUpdates_ends (h : UpdatesHold m updates count us) (hsteps : maxUpdates < steps) :
    Ends (checkUpdates steps m updates count)
      (fun _ => ∃ changes, PlatformEnv.checkUpdates [] us = .ok changes ∧
        us = changes.map asUpdate)
      (fun e => PlatformEnv.checkUpdates [] us = .error e) := by
  have hle := h.length_le
  have hfits := h.fits
  have hgeneration : m.Text (lit "epk_state_generation") generationName := lit_text (by decide)
  rw [checkUpdates, h.count]
  refine Ends.forEach (fun i _ => ∃ seen : List Change, us.take i = seen.map asUpdate ∧
      PlatformEnv.checkUpdates [] us = PlatformEnv.checkUpdates seen (us.drop i))
    ⟨[], by simp, by simp⟩ (Nat.zero_le _) (by omega) ?_ ?_
  · rintro i _ - hi ⟨seen, hseen, hrest⟩
    rw [List.drop_eq_getElem_cons hi, PlatformEnv.checkUpdates] at hrest
    have hname := (h.update i hi (by omega)).name
    rw [item_eq (show i < n by omega), ok_bind, hrest]
    have htake : us.take (i + 1) = us.take i ++ [us[i]] := List.take_succ_eq_append_getElem hi
    generalize updates[i].name = p at hname
    generalize us[i] = u at hname hrest htake
    obtain ⟨uname, uvalue⟩ := u
    cases uname with
    | none =>
      cases hname
      rfl
    | some uname =>
      cases hname with
      | @some p _ htext hout =>
        rw [orReturn_some, ok_bind]
        simp only
        by_cases hempty : uname.chars = []
        · rw [hempty] at htext
          rw [text_nil htext, ok_bind, returnIf_pos rfl, if_pos (Or.inl hempty)]
          rfl
        have hfirst : ∃ c, (m.load p 0 : Run UInt8) = .ok c ∧ c ≠ 0 := by
          obtain ⟨c, cs, hchars⟩ := List.exists_cons_of_ne_nil hempty
          rw [hchars] at htext
          exact ⟨c, (text_cons htext).2.1, (text_cons htext).1⟩
        obtain ⟨c, hload, hc⟩ := hfirst
        rw [hload, ok_bind, returnIf_neg hc, ok_bind, htext.strcmp hgeneration, ok_bind]
        by_cases hgen : uname.chars = generationName
        · rw [returnIf_pos (by simp [hgen]), if_pos (Or.inr hgen)]
          rfl
        rw [returnIf_neg (by simpa using hgen), ok_bind, if_neg (by simp [hempty, hgen])]
        refine Ends.mono (otherNames_ends h hseen hi.le htext hsteps) ?_ ?_
        · intro _ hfresh
          refine ⟨seen ++ [⟨uname, uvalue⟩], ?_, ?_⟩
          · rw [htake, hseen, List.map_append]
            rfl
          · exact if_neg (Bool.eq_false_iff.mp hfresh)
        · rintro e ⟨rfl, hsame⟩
          rw [if_pos hsame]
  · rintro _ ⟨changes, hchanges, hrun⟩
    rw [List.take_length] at hchanges
    rw [List.drop_length, PlatformEnv.checkUpdates] at hrun
    exact ⟨changes, hrun, hchanges⟩

/-! ### What changes -/

section Changes

variable {old : View} {v : PlatformEnv.View} {E : EnvError → Prop}

theorem changedCritical_ends (h : UpdatesHold m updates count (changes.map asUpdate))
    (hold : old.Is m b v) (hsteps : maxEntries < steps) :
    Ends (changedCritical steps m old updates count)
      (· = PlatformEnv.changedCritical v changes) E := by
  have hle := h.length_le
  have hmax : maxUpdates < maxEntries := by decide
  have hprefix : m.Text (lit "epk_") (ascii "epk_") := lit_text (by decide)
  rw [List.length_map] at hle
  rw [changedCritical, h.count, List.length_map]
  refine Ends.bind (Ends.searchList (p := fun c => isCritical c.name.chars &&
    PlatformEnv.get v.entries c.name.chars != c.newValue) (fun _ _ => True) (by omega) ?_) ?_
  · intro i hi
    obtain ⟨hn, p, hp, hname, -, -⟩ := h.name hi
    obtain ⟨_, hvalue, -⟩ := h.value hi
    have htake : (ascii "epk_").take 4 = ascii "epk_" := by decide
    rw [item_eq hn, ok_bind, hp, nonNull_some, ok_bind, hname.strncmp hprefix, ok_bind, htake]
    by_cases hcritical : isCritical changes[i].name.chars = true
    · have hsame : (changes[i].name.chars.take 4 != ascii "epk_") = false := by
        simpa [isCritical] using hcritical
      rw [hsame, if_neg Bool.false_ne_true, hcritical, Bool.true_and]
      refine Ends.bind (get_ends hold.holds hsteps hname) ?_
      intro previous hprevious
      generalize changes[i].newValue = new at hvalue ⊢
      generalize PlatformEnv.get v.entries changes[i].name.chars = before at hprevious ⊢
      generalize updates[i].value = value at hvalue ⊢
      cases hprevious with
      | none =>
        cases hvalue with
        | none => rfl
        | some htext _ => exact ⟨rfl, trivial⟩
      | @some p s hbefore _ =>
        cases hvalue with
        | none => exact ⟨rfl, trivial⟩
        | @some q t htext _ =>
          simp only [hbefore.strcmp htext, ok_bind]
          by_cases hst : s = t
          · rw [hst, bne_self_eq_false, if_neg Bool.false_ne_true]
            exact bne_self_eq_false _
          · rw [if_pos (bne_iff_ne.mpr hst)]
            exact ⟨bne_iff_ne.mpr fun heq => hst (Option.some.inj heq), trivial⟩
    · have hdiffers : (changes[i].name.chars.take 4 != ascii "epk_") = true := by
        simpa [isCritical] using hcritical
      rw [hdiffers, if_pos rfl, Bool.eq_false_iff.mpr hcritical]
      exact Bool.false_and _
  · rintro (_ | _) hr
    · exact (List.any_eq_false.mpr (List.find?_eq_none.mp hr)).symm
    · obtain ⟨c, hc, -⟩ := hr
      have hchanged := List.find?_some hc
      exact (List.any_eq_true.mpr ⟨c, List.mem_of_find?_eq_some hc, hchanged⟩).symm

/-! ### The lines -/

/-- A value for a line: a string outside of the record written, below 2^32 characters. -/
structure Line (m : Memory) (p : Option Ptr) (s : Option Bytes) : Prop where
  text : OptText m (· ≠ .array .next) p s
  short : ∀ t ∈ s, t.length < 2 ^ 32

theorem keptValue_ends {entry : Entry} {e : PlatformEnv.Entry} {generation : Bytes}
    (h : UpdatesHold m updates count (changes.map asUpdate)) (hentry : entry.Holds m e)
    (hblock : entry.name.block = .array b) (hb : b ≠ .next) (hsize : b.size = envSize)
    (hgeneration : m.Text ⟨.array .generation, 0⟩ generation) (hsteps : maxEntries < steps) :
    Ends (keptValue steps m updates count entry)
      (fun r => Line m r (PlatformEnv.keptValue changes generation e)) E := by
  have hle := h.length_le
  have hmax : maxUpdates < maxEntries := by decide
  have hname : m.Text (lit "epk_state_generation") generationName := lit_text (by decide)
  rw [List.length_map] at hle
  rw [keptValue, h.count, List.length_map]
  refine Ends.bind (Ends.searchList (p := fun c => e.name == c.name.chars)
    (fun c r => OptText m Outside r c.newValue ∧ ∀ t ∈ c.newValue, t.length < 2 ^ 32)
    (by omega) ?_) ?_
  · intro i hi
    obtain ⟨hn, p, hp, hname, -, -⟩ := h.name hi
    obtain ⟨_, hvalue, hshort⟩ := h.value hi
    rw [item_eq hn, ok_bind, hp, nonNull_some, ok_bind, nameEqual_eq hentry hname, ok_bind]
    by_cases hequal : (e.name == changes[i].name.chars) = true
    · rw [if_pos hequal]
      exact ⟨hequal, hvalue, hshort⟩
    · rw [if_neg hequal]
      exact Bool.eq_false_iff.mpr hequal
  intro found hfound
  rw [nameEqual_eq hentry hname, ok_bind, PlatformEnv.keptValue]
  by_cases hgen : e.name = generationName
  · rw [if_pos (beq_iff_eq.mpr hgen), if_pos hgen]
    refine ⟨.some hgeneration fun heq => (by cases heq), ?_⟩
    rintro t ⟨⟩
    have hlen := hgeneration.at_nul.le_size rfl
    have hsize : Place.generation.size = 21 := rfl
    rw [List.length_append] at hlen
    omega
  rw [if_neg (fun heq => hgen (beq_iff_eq.mp heq)), if_neg hgen]
  cases found with
  | exit value =>
    obtain ⟨c, hc, htext, hshort⟩ := hfound
    rw [hc]
    exact ⟨htext.weaken fun c hc => hc.1, hshort⟩
  | next _ =>
    rw [hfound]
    have htext : OptText m (· = .array b) (some entry.value) (some e.value) :=
      .some hentry.value_text (hentry.value_block.trans hblock)
    refine ⟨htext.weaken ?_, ?_⟩
    · rintro c rfl heq
      exact hb (Block.array.inj heq)
    · intro t ht
      have hlen := optText_length_lt htext t ht
      rw [hsize] at hlen
      have hbound : envSize < 2 ^ 32 := by decide
      omega

/-- The next record so far: its text, zeros behind it, and nothing else written. -/
structure Written (m m' : Memory) (text : Bytes) (used : ℕ) : Prop where
  record : HoldsRecord m' .next (Record.ofText text)
  used : used = text.length
  room : text.length < dataSize
  same : m.SameBut .next m'

theorem appendLine_ends {text s t : Bytes} {used : ℕ} {name value : Ptr}
    (h : Written m m' text used) (hname : m'.At name s) (hnameBlock : name.block ≠ .array .next)
    (hs : s.length < 2 ^ 32) (hvalue : Line m' (some value) (some t)) :
    Ends (append m' ⟨.array .next, 0⟩ used name s.length value)
      (fun x => ∃ text', PlatformEnv.append text s t = .ok text' ∧ Written m x.1 text' x.2)
      (fun e => PlatformEnv.append text s t = .error e) := by
  have ht := hvalue.short t rfl
  rw [h.used]
  cases hvalue.text with
  | some htext hblock =>
    refine Ends.mono (append_ends h.record h.room hname hnameBlock htext hblock hs ht) ?_ ?_
    · rintro x ⟨text', happend, hrecord, hused, hroom, hsame⟩
      exact ⟨text', happend, hrecord, hused, hroom, h.same.trans hsame⟩
    · exact fun e he => he

theorem keepEntries_ends {generation : Bytes}
    (h : UpdatesHold m updates count (changes.map asUpdate)) (hold : old.Is m b v) (hb : b ≠ .next) (hsize : b.size = envSize)
    (hgeneration : m.Text ⟨.array .generation, 0⟩ generation)
    (hwritten : HoldsRecord m .next (Record.ofText [])) (hsteps : maxEntries < steps) :
    Ends (keepEntries steps m old updates count ⟨.array .next, 0⟩)
      (fun x => ∃ text, appendAll [] (keptEntries v changes generation) = .ok text ∧
        Written m x.1 text x.2)
      (fun e => appendAll [] (keptEntries v changes generation) = .error e) := by
  have hentries := hold.holds
  have hle := hentries.length_le
  have hnext : ¬ Outside (.array .next) := fun hout => hout.1 rfl
  rw [keepEntries, hentries.count]
  refine Ends.forEachList (fun rest x => ∃ text, Written m x.1 text x.2 ∧
      appendAll [] (keptEntries v changes generation) = appendAll text (rest.filterMap fun e =>
        (PlatformEnv.keptValue changes generation e).map (PlatformEnv.Entry.mk e.name)))
    ⟨[], ⟨hwritten, rfl, by decide, Memory.SameBut.refl _ _⟩, rfl⟩ (by omega) ?_ ?_
  · rintro i hi rest ⟨m', used⟩ ⟨text, hwritten, hrun⟩
    obtain ⟨hholds, hblock⟩ := (hentries.frame hwritten.same hb).entry i hi (by omega)
    rw [item_eq (show i < maxEntries by omega), ok_bind]
    simp only
    refine Ends.bind (keptValue_ends (h.frame hwritten.same hnext) hholds hblock hb hsize
      (hwritten.same.text (fun heq => (by cases heq)) hgeneration) hsteps) ?_
    intro value hvalue
    rw [List.filterMap_cons] at hrun
    generalize PlatformEnv.keptValue changes generation v.entries[i] = new at hvalue hrun
    obtain ⟨htext, hshort⟩ := hvalue
    cases htext with
    | none => exact ⟨text, hwritten, hrun⟩
    | some htext hne =>
      rw [Option.map_some, appendAll] at hrun
      have hname := hholds.name_at
      have hnameShort : v.entries[i].name.length < 2 ^ 32 := by
        have hlen := hname.le_size hblock
        have hbound : envSize < 2 ^ 32 := by decide
        omega
      simp only [hholds.size]
      refine Ends.mono (appendLine_ends hwritten hname ?_ hnameShort ⟨.some htext hne, hshort⟩) ?_ ?_
      · rw [hblock]
        exact fun heq => hb (Block.array.inj heq)
      · rintro x ⟨text', happend, hwritten'⟩
        rw [happend] at hrun
        exact ⟨text', hwritten', hrun⟩
      · intro e he
        rw [he] at hrun
        exact hrun
  · rintro x ⟨text, hwritten, hrun⟩
    exact ⟨text, hrun, hwritten⟩

theorem addEntries_ends {text : Bytes} {used : ℕ}
    (h : UpdatesHold m updates count (changes.map asUpdate)) (hold : old.Is m b v)
    (hb : b ≠ .next) (hwritten : Written m m' text used) (hsteps : maxEntries < steps) :
    Ends (addEntries steps m' old updates count ⟨.array .next, 0⟩ used)
      (fun x => ∃ text', appendAll text (addedEntries v changes) = .ok text' ∧
        Written m x.1 text' x.2)
      (fun e => appendAll text (addedEntries v changes) = .error e) := by
  have hle := h.length_le
  have hmax : maxUpdates < maxEntries := by decide
  have hnext : ¬ Outside (.array .next) := fun hout => hout.1 rfl
  rw [List.length_map] at hle
  rw [addEntries, h.count, List.length_map]
  refine Ends.forEachList (fun rest x => ∃ text', Written m x.1 text' x.2 ∧
      appendAll text (addedEntries v changes) = appendAll text' (addedEntries v rest))
    ⟨text, hwritten, rfl⟩ (by omega) ?_ ?_
  · rintro i hi rest ⟨m', used⟩ ⟨text', hwritten, hrun⟩
    have h' := h.frame hwritten.same hnext
    obtain ⟨hn, p, hp, hname, hout, hnameShort⟩ := h'.name hi
    obtain ⟨_, hvalue, hshort⟩ := h'.value hi
    rw [item_eq hn, ok_bind, hp, nonNull_some, ok_bind]
    simp only
    refine Ends.bind (get_ends (hold.frame hwritten.same hb).holds hsteps hname) ?_
    intro found hfound
    change _ = appendAll text' (List.filterMap _ (changes[i] :: rest)) at hrun
    rw [List.filterMap_cons] at hrun
    generalize PlatformEnv.get v.entries changes[i].name.chars = before at hfound hrun
    generalize changes[i].newValue = new at hvalue hshort hrun
    generalize updates[i].value = value at hvalue ⊢
    cases hfound with
    | some _ _ =>
      rw [Option.isSome_some, if_pos rfl] at hrun
      exact ⟨text', hwritten, hrun⟩
    | none =>
      rw [if_neg (by simp)] at hrun
      cases hvalue with
      | none => exact ⟨text', hwritten, hrun⟩
      | some htext hvalueOut =>
        rw [Option.map_some, appendAll] at hrun
        simp only [hname.strlen, ok_bind]
        have hnameAt := hname.at_nul.left
        refine Ends.mono (appendLine_ends hwritten hnameAt hout.1 hnameShort
          ⟨.some htext hvalueOut.1, hshort⟩) ?_ ?_
        · rintro x ⟨text'', happend, hwritten'⟩
          rw [happend] at hrun
          exact ⟨text'', hwritten', hrun⟩
        · intro e he
          rw [he] at hrun
          exact hrun
  · rintro x ⟨text', hwritten, hrun⟩
    exact ⟨text', hrun, hwritten⟩

end Changes

end Updates

/-! ### The checks of the result -/

section Result

variable {E : EnvError → Prop}

/-- A field that the parser checks is there when it is compared. -/
theorem field_ends {view : View} {v : PlatformEnv.View} {name : String} (h : view.Is m b v)
    (hname : 0 ∉ ascii name) (hfield : PlatformEnv.b64Size (PlatformEnv.get v.entries (ascii name)) ≠ 0)
    (hsteps : maxEntries < steps) {f : Ptr → Run Bool} {Q : Bool → Prop}
    (hf : ∀ p s, PlatformEnv.get v.entries (ascii name) = some s → m.Text p s → Ends (f p) Q E) :
    Ends (do f (← nonNull (← get steps m view (lit name)))) Q E := by
  refine Ends.bind (get_ends h.holds hsteps (lit_text hname)) ?_
  intro p hp
  cases hget : PlatformEnv.get v.entries (ascii name) with
  | none =>
    rw [hget] at hfield
    exact absurd rfl hfield
  | some s =>
    rw [hget] at hp
    cases hp with
    | some htext _ => exact hf _ s hget htext

theorem notOlder_ends {newer older : View} {w v : PlatformEnv.View} {b' : Place}
    (hnewer : newer.Is m b w) (holder : older.Is m b' v) (hw : w.Ok) (hv : v.Ok)
    (hsteps : maxEntries < steps) :
    Ends (notOlder steps m newer older) (· = PlatformEnv.notOlder w v) E := by
  rw [notOlder, PlatformEnv.notOlder, hnewer.floor, holder.floor, hnewer.epoch, holder.epoch]
  by_cases hless : w.floor < v.floor ∨ w.epoch < v.epoch
  · rw [if_pos hless, if_pos hless]
    rfl
  rw [if_neg hless, if_neg hless]
  by_cases hepoch : w.epoch = v.epoch
  · rw [if_pos hepoch]
    have hsig : (64 : ℕ) ≠ 0 := by decide
    refine field_ends hnewer (by decide) hw.policy_pos.ne' hsteps fun p s hs hp => ?_
    refine field_ends holder (by decide) hv.policy_pos.ne' hsteps fun q t ht hq => ?_
    rw [hp.strcmp hq, ok_bind, hs, ht]
    by_cases hst : s = t
    · rw [hst, bne_self_eq_false, if_neg Bool.false_ne_true]
      refine field_ends hnewer (by decide) (by rw [hw.policySig]; exact hsig) hsteps
        fun p s hs hp => ?_
      refine field_ends holder (by decide) (by rw [hv.policySig]; exact hsig) hsteps
        fun q t ht hq => ?_
      rw [hp.strcmp hq, ok_bind, hs, ht, bne, Bool.not_not]
      by_cases hsigs : s = t
      · rw [if_neg (by simp [hsigs]), beq_iff_eq.mpr hsigs]
        rfl
      · rw [if_pos ⟨hepoch, Or.inr fun heq => hsigs (Option.some.inj heq)⟩,
          beq_eq_false_iff_ne.mpr hsigs]
        rfl
    · rw [if_pos (bne_iff_ne.mpr hst), if_pos ⟨hepoch, Or.inl fun heq => hst (Option.some.inj heq)⟩]
      rfl
  · rw [if_neg hepoch, if_neg fun h => hepoch h.1]
    rfl

/-! ### The checksum -/

theorem nativeCrc_ends {p : Ptr} {data : Bytes} (h : m.At p data) (hsteps : data.length < steps)
    (hbits : 8 < steps) :
    Ends (nativeCrc steps m p data.length) (· = PlatformEnv.nativeCrc data) E := by
  rw [nativeCrc]
  refine Ends.bind (Ends.forEachList (fun rest crc =>
    data.foldl crcByte 0xffffffff = rest.foldl crcByte crc) rfl hsteps ?_ fun crc hcrc => hcrc) ?_
  · intro i hi rest crc hcrc
    rw [h.load_get hi, ok_bind]
    refine Ends.forEachList (l := List.range 8) (fun bits c => crcByte crc data[i] =
      bits.foldl (fun c _ => crcBit c) c) rfl (by simpa using hbits) ?_ ?_
    · exact fun _ _ _ _ hbit => hbit
    · intro c hc
      rw [hcrc, List.foldl_cons, hc]
      rfl
  · rintro crc hcrc
    exact congrArg (~~~ ·) hcrc.symm

/-- The bytes of a checksum, the lowest first. -/
theorem setCrc_byte {r : Record} {i : ℕ} (hi : i < 4) : r.setCrc.crc.toList[i]? =
    some (PlatformEnv.nativeCrc r.data >>> (i * 8).toUInt32).toUInt8 := by
  match i, hi with
  | 0, _ => simp [Record.setCrc]
  | 1, _ => rfl
  | 2, _ => rfl
  | 3, _ => rfl

theorem setCrc_ends {r : Record} (h : HoldsRecord m b r) (hsteps : envSize ≤ steps) :
    Ends (setCrc steps m ⟨.array b, 0⟩)
      (fun m' => HoldsRecord m' b r.setCrc ∧ m.SameBut b m') E := by
  have hsize := h.size_eq
  have hdata : dataSize + 5 = envSize := rfl
  have hbits : 8 < envSize := by decide
  have hcrc : Ends (nativeCrc steps m ⟨.array b, 5⟩ r.data.length)
      (· = PlatformEnv.nativeCrc r.data) E :=
    nativeCrc_ends h.at_data (by rw [r.size]; omega) (by omega)
  rw [r.size] at hcrc
  have hnew : r.setCrc.crc.toList.length = 4 := Vector.length_toList
  have hstored : r.crc.toList.length = 4 := Vector.length_toList
  rw [setCrc, Memory.advance_array (by omega), ok_bind]
  refine Ends.bind hcrc ?_
  rintro crc rfl
  refine Ends.forEach (fun i m' => m'.bytes b = r.setCrc.crc.toList.take i ++
      (r.crc.toList.drop i ++ r.flag :: r.data) ∧ m.SameBut b m')
    ⟨h, Memory.SameBut.refl b m⟩ (Nat.zero_le 4) (by omega) ?_ ?_
  · rintro i m' - hi ⟨hbytes, hsame⟩
    rw [List.drop_eq_getElem_cons (by omega), List.cons_append] at hbytes
    have hindex : (r.setCrc.crc.toList.take i).length = 0 + i := by
      rw [List.length_take]
      omega
    refine Ends.mono (Memory.ends_store hbytes hindex) ?_ fun _ he => he
    rintro m'' ⟨hbytes', hsame'⟩
    refine ⟨?_, hsame.trans hsame'⟩
    rw [hbytes', List.take_add_one, setCrc_byte hi]
    simp
  · rintro m' ⟨hbytes, hsame⟩
    refine ⟨?_, hsame⟩
    rw [List.take_of_length_le (by omega), List.drop_of_length_le (by omega)] at hbytes
    exact hbytes

end Result

/-! ### The next record -/

section Build

variable {updates : Vector Update n} {count : ℕ} {r : Record} {reverse : Vector UInt8 20}

theorem recordBytes_zeros : recordBytes (Record.ofText []) = List.replicate envSize 0 := by
  have hsize : envSize = 5 + dataSize := by decide
  rw [recordBytes_ofText (Nat.zero_le _), List.append_nil, List.length_nil, Nat.sub_zero, hsize,
    List.replicate_add]

theorem writeNext_ends {old : View} {v : PlatformEnv.View} {changes : List Change} {changed : Bool}
    (h : UpdatesHold m updates count (changes.map asUpdate)) (hold : old.Is m b v)
    (hb : Outside (.array b)) (hsize : b.size = envSize)
    (hgeneration : v.generation + changed.toNat < 2 ^ 64) (hsteps : maxEntries < steps) :
    Ends (writeNext steps m old updates count changed ⟨.array .next, 0⟩ reverse)
      (fun m' => old.Is m' b v ∧ ∃ text text', appendAll [] (keptEntries v changes
          (PlatformEnv.toDecimal (v.generation + changed.toNat))) = .ok text ∧
        appendAll text (addedEntries v changes) = .ok text' ∧
        HoldsRecord m' .next (Record.ofText text'))
      (fun e => appendAll [] (keptEntries v changes
          (PlatformEnv.toDecimal (v.generation + changed.toNat))) = .error e ∨
        ∃ text, appendAll [] (keptEntries v changes
          (PlatformEnv.toDecimal (v.generation + changed.toNat))) = .ok text ∧
        appendAll text (addedEntries v changes) = .error e) := by
  have hmax : 20 < maxEntries := by decide
  have hnext : b ≠ .next := fun heq => hb.1 (congrArg Block.array heq)
  have hother : b ≠ .generation := fun heq => hb.2 (congrArg Block.array heq)
  rw [writeNext, hold.generation, word_eq hgeneration, ok_bind]
  refine Ends.bind (toDecimal_ends (b := .generation) hgeneration (by omega) (Nat.le_refl 21)) ?_
  rintro m₁ ⟨htext, hsame₁⟩
  have hzeroed : Place.next.size = envSize := rfl
  refine Ends.bind (Memory.ends_memset hzeroed) ?_
  rintro m₂ ⟨hbytes, hsame₂⟩
  have h₂ := (h.frame hsame₁ fun hout => hout.2 rfl).frame hsame₂ fun hout => hout.1 rfl
  have hold₂ := (hold.frame hsame₁ hother).frame hsame₂ hnext
  have htext₂ := hsame₂.text (fun heq => by cases heq) htext
  have hzeros : HoldsRecord m₂ .next (Record.ofText []) := hbytes.trans recordBytes_zeros.symm
  refine Ends.step (keepEntries_ends h₂ hold₂ hnext hsize htext₂ hzeros hsteps) ?_ ?_
  · exact fun e he => Or.inl he
  rintro ⟨m₃, used⟩ ⟨text, hkept, hwritten⟩
  refine Ends.step (addEntries_ends h₂ hold₂ hnext hwritten hsteps) ?_ ?_
  · exact fun e he => Or.inr ⟨text, hkept, he⟩
  rintro ⟨m₄, used'⟩ ⟨text', hadded, hwritten'⟩
  exact ⟨hold₂.frame hwritten'.same hnext, text, text', hkept, hadded, hwritten'.record⟩

/-- In memory as on lists: what `build` returns, and the record it leaves. -/
theorem build_ends {us : List PlatformEnv.Update} {views : View × View} (hr : HoldsRecord m b r)
    (hb : Outside (.array b)) (h : UpdatesHold m updates count us) (hsteps : envSize ≤ steps) :
    Ends (build steps m ⟨.array b, 0⟩ updates count ⟨.array .next, 0⟩ views reverse)
      (fun m' => ∃ r', PlatformEnv.build r us = .ok r' ∧ HoldsRecord m' .next r')
      (fun e => PlatformEnv.build r us = .error e) := by
  have hmax : maxEntries < envSize := by decide
  have hmaxUpdates : maxUpdates < maxEntries := by decide
  generalize hspec : PlatformEnv.build r us = spec
  simp only [PlatformEnv.build, bind, Except.bind, pure, Except.pure] at hspec
  rw [build]
  refine Ends.step (parse_ends hr hsteps) ?_ ?_
  · intro e he
    rw [he] at hspec
    exact hspec.symm
  rintro old ⟨v, hv, hold⟩
  have hok := parse_ok hv
  rw [hv] at hspec
  simp only at hspec
  refine Ends.step (checkUpdates_ends h (by omega)) ?_ ?_
  · intro e he
    rw [he] at hspec
    exact hspec.symm
  rintro - ⟨changes, hchanges, rfl⟩
  rw [hchanges] at hspec
  simp only at hspec
  refine Ends.bind (changedCritical_ends h hold (by omega)) ?_
  rintro changed rfl
  rw [hold.generation]
  by_cases hover : PlatformEnv.changedCritical v changes = true ∧ v.generation = uint64Max
  · rw [if_pos (by simpa using hover)] at hspec
    rw [returnIf_pos hover]
    exact hspec.symm
  rw [if_neg (by simpa using hover)] at hspec
  rw [returnIf_neg hover, ok_bind]
  have hroom : PlatformEnv.changedCritical v changes = true → v.generation < uint64Max :=
    fun hchanged => Nat.lt_of_le_of_ne (decimal_le hok.generation) fun heq => hover ⟨hchanged, heq⟩
  have hgeneration := generation_succ_le hok hroom
  have huint64 : uint64Max < 2 ^ 64 := by decide
  refine Ends.step (writeNext_ends h hold hb hr.size_eq (by omega) (by omega)) ?_ ?_
  · rintro e (he | ⟨text, hkept, he⟩)
    · rw [he] at hspec
      exact hspec.symm
    · rw [hkept] at hspec
      simp only [he] at hspec
      exact hspec.symm
  rintro m' ⟨hold', text, text', hkept, hadded, hnext⟩
  rw [hkept] at hspec
  simp only [hadded] at hspec
  refine Ends.step (parse_ends hnext hsteps) ?_ ?_
  · intro e he
    rw [he] at hspec
    exact hspec.symm
  rintro next ⟨w, hw, hnextView⟩
  rw [hw] at hspec
  simp only at hspec
  refine Ends.bind (notOlder_ends hnextView hold' (parse_ok hw) hok (by omega)) ?_
  rintro newer rfl
  by_cases hnewer : PlatformEnv.notOlder w v = false
  · rw [if_pos (by rw [hnewer]; rfl)] at hspec
    rw [returnIf_pos hnewer]
    exact hspec.symm
  rw [if_neg (by simpa using hnewer)] at hspec
  rw [returnIf_neg hnewer, ok_bind]
  refine Ends.mono (setCrc_ends hnext hsteps) ?_ fun _ he => he
  rintro m'' ⟨hrecord, -⟩
  exact ⟨_, hspec.symm, hrecord⟩

end Build

end Epilykos.PlatformEnv.Pointer
