import Epilykos.PlatformEnv.PointerScalars

/-!
`parse` in memory. It reads entries through pointers into the record and leaves them in a
table of 256; over the bytes of a record it does what the parser of lists does, so everything
known of that one holds here as well.
-/

namespace Epilykos.PlatformEnv.Pointer

open Checked

section Source

variable (steps : ℕ) (m : Memory)

/-- `for (i = start; i < stop; ++i) if (!ok(p[i])) return EPK_ENV_INVALID;`. -/
def checkBytes (ok : UInt8 → Bool) (p : Ptr) (start stop : ℕ) : Run Unit :=
  forEach steps start stop (fun i _ => do
    let c ← m.load p i
    returnIf (ok c = false) .invalid) ()

/-- A round of the loop of `parse`: the position behind the entry and the view with it. -/
def parseEntry (data : Ptr) (position : ℕ) (view : View) : Run (ℕ × View) := do
  let name ← m.advance data position
  let stop ← m.memchr name 0 (← sub dataSize position)
  let stop ← orReturn .invalid stop
  returnIf (view.count = maxEntries) .invalid
  let equals ← m.memchr name 61 (← sub (← Ptr.distance stop data) position)
  let equals ← orReturn .invalid equals
  returnIf (equals = name) .invalid
  let entry : Entry := ⟨name, ← m.advance equals 1, ← Ptr.distance equals name⟩
  let entries ← setItem view.entries view.count entry
  checkBytes steps m isNameChar entry.name 0 entry.nameSize
  checkBytes steps m isPrintable data ((← Ptr.distance equals data) + 1) (← Ptr.distance stop data)
  forEach steps 0 view.count (fun j _ => do
    let same ← sameName m entry (← item entries j)
    returnIf (same = true) .invalid) ()
  return ((← Ptr.distance stop data) + 1, { view with entries, count := view.count + 1 })

/-- The protocol-2 fields, at the end of `parse`. -/
def parseFields (view : View) : Run View := do
  let schema ← get steps m view (lit "epk_state_schema")
  returnIf (schema = none) .invalid
  let schema ← nonNull (← get steps m view (lit "epk_state_schema"))
  returnIf ((← m.strcmp schema (lit "1")) = true) .invalid
  let generation ← decimal steps m (← get steps m view (lit "epk_state_generation"))
  let generation ← orReturn .invalid generation
  let floor ← decimal steps m (← get steps m view (lit "epk_os_floor"))
  let floor ← orReturn .invalid floor
  let epoch ← decimal steps m (← get steps m view (lit "epk_trust_epoch"))
  let epoch ← orReturn .invalid epoch
  let policySize ← b64Size steps m (← get steps m view (lit "epk_trust_policy"))
  returnIf (policySize = 0 ∨ 6144 < policySize) .invalid
  let sigSize ← b64Size steps m (← get steps m view (lit "epk_trust_policy_sig"))
  returnIf (sigSize ≠ 64) .invalid
  return { view with generation, floor, epoch }

/-- `view` is the local variable as it is found. -/
def parse (record : Ptr) (view : View) : Run View := do
  let data ← m.advance record 5
  let (position, view) ← loop steps (fun x => do
    if x.1 < dataSize then
      if (← m.load data x.1) = 0 then return .exit x
      else return .next (← parseEntry steps m data x.1 x.2)
    else return .exit x) (0, { view with count := 0 })
  returnIf (view.count = 0 ∨ dataSize ≤ position) .invalid
  returnIf ((← m.load data position) ≠ 0) .invalid
  let view := { view with used := position + 1 }
  returnIf ((← sub dataSize view.used) < headroom) .capacity
  parseFields steps m view

end Source

/-- The view says what the other model's parser returns. -/
structure View.Is (m : Memory) (b : Place) (c : View) (v : PlatformEnv.View) : Prop where
  holds : c.Holds m b v.entries
  used : c.used = v.used
  generation : c.generation = v.generation
  floor : c.floor = v.floor
  epoch : c.epoch = v.epoch

variable {steps : ℕ} {m m' : Memory} {b : Place}

theorem View.Is.frame {c : View} {v : PlatformEnv.View} {b' : Place} (h : c.Is m b v)
    (hsame : m.SameBut b' m') (hb : b ≠ b') : c.Is m' b v :=
  ⟨h.holds.frame hsame hb, h.used, h.generation, h.floor, h.epoch⟩

/-! ### One entry -/

theorem checkBytes_ends {ok : UInt8 → Bool} {p : Ptr} {before s : Bytes} {start stop : ℕ}
    (h : m.At p (before ++ s)) (hstart : start = before.length)
    (hstop : stop = before.length + s.length) (hsteps : s.length < steps) :
    Ends (checkBytes steps m ok p start stop) (fun _ => (!s.all ok) = false)
      (fun e => e = .invalid ∧ (!s.all ok) = true) := by
  subst hstart
  rw [List.not_all_eq_any_not]
  refine Ends.checkList hstop hsteps fun i hi => ?_
  have hload := h.load_get (ε := EnvError) (i := before.length + i) (by
    rw [List.length_append]
    omega)
  rw [List.getElem_append_right (Nat.le_add_right _ _)] at hload
  simp only [Nat.add_sub_cancel_left] at hload
  rw [hload, ok_bind, ends_returnIf]
  constructor
  · intro hbad
    exact ⟨rfl, by rw [hbad]; rfl⟩
  · intro hgood
    rw [Bool.not_eq_false] at hgood
    rw [hgood]
    rfl

/-- The entry read last goes behind the others. -/
theorem View.Holds.snoc {view : View} {seen : List PlatformEnv.Entry} {entry : Entry}
    {e : PlatformEnv.Entry} (h : view.Holds m b seen) (hroom : seen.length < maxEntries)
    (hcount : view.count < maxEntries) (hentry : entry.Holds m e)
    (hblock : entry.name.block = .array b) :
    { view with entries := view.entries.set view.count entry, count := view.count + 1 : View }.Holds
      m b (seen ++ [e]) := by
  have hlen := h.count
  refine ⟨?_, ?_, fun i hi hi' => ?_⟩
  · rw [List.length_append, List.length_singleton]
    exact congrArg (· + 1) hlen
  · rw [List.length_append, List.length_singleton]
    exact hroom
  · rw [List.length_append, List.length_singleton] at hi
    simp only
    by_cases hlast : i = view.count
    · subst hlast
      rw [Vector.getElem_set_self, List.getElem_concat_length hlen]
      exact ⟨hentry, hblock⟩
    · rw [Vector.getElem_set_ne _ _ (Ne.symm hlast), List.getElem_append_left (by omega)]
      exact h.entry i (by omega) hi'

theorem sameNames_ends {view : View} {seen : List PlatformEnv.Entry} {entry : Entry}
    {e : PlatformEnv.Entry} (h : view.Holds m b seen) (hcount : view.count < maxEntries)
    (hentry : entry.Holds m e) (hsteps : maxEntries < steps) :
    Ends (forEach steps 0 view.count (fun j _ => do
        let same ← sameName m entry (← item (view.entries.set view.count entry) j)
        returnIf (same = true) EnvError.invalid) ())
      (fun _ => (seen.any fun s => s.name == e.name) = false)
      (fun err => err = .invalid ∧ (seen.any fun s => s.name == e.name) = true) := by
  have hlen := h.count
  refine Ends.checkList (by omega) (by omega) fun i hi => ?_
  obtain ⟨hholds, -⟩ := h.entry i hi (by omega)
  rw [Nat.zero_add, item_eq (show i < maxEntries by omega), ok_bind,
    Vector.getElem_set_ne _ _ (show view.count ≠ i by omega), sameName_eq hentry hholds, ok_bind,
    Bool.beq_comm, ends_returnIf]
  exact ⟨fun hsame => ⟨rfl, hsame⟩, fun hdiffers => Bool.eq_false_iff.mpr hdiffers⟩

/-! ### A round of the loop -/

section Round

variable {data : Ptr} {view : View} {seen : List PlatformEnv.Entry} {done text rest : Bytes}

/-- What the parser makes of the text that the next NUL ends. -/
theorem entry_ends (h : view.Holds m b seen) (hroom : seen.length < maxEntries)
    (hdata : m.At data (done ++ (text ++ 0 :: rest))) (hblock : data.block = .array b)
    (hlen : (done ++ (text ++ 0 :: rest)).length = dataSize) (hnul : 0 ∉ text)
    (hsteps : envSize ≤ steps) :
    Ends (parseEntry steps m data done.length view)
      (fun x => ∃ e, PlatformEnv.parseEntry seen text = .ok e ∧
        x.1 = done.length + text.length + 1 ∧ x.2.Holds m b (seen ++ [e]))
      (fun err => PlatformEnv.parseEntry seen text = .error err) := by
  obtain ⟨block, offset⟩ := data
  obtain rfl : block = .array b := hblock
  have hcount := h.count
  have hsize : dataSize - done.length = (text ++ 0 :: rest).length := by
    rw [← hlen, List.length_append, Nat.add_sub_cancel_left]
  have hfits : done.length ≤ dataSize := by
    rw [← hlen, List.length_append]
    omega
  have hsmall : dataSize < envSize := by decide
  have hmax : maxEntries < envSize := by decide
  have hname : m.At ⟨.array b, offset + done.length⟩ (text ++ 0 :: rest) := hdata.right
  have htext : m.At ⟨.array b, offset + done.length⟩ text := hname.left
  have hstart : (m.advance ⟨.array b, offset⟩ done.length : Run Ptr) =
      .ok ⟨.array b, offset + done.length⟩ := hdata.advance (by simp)
  have hstop : (m.memchr ⟨.array b, offset + done.length⟩ 0 (dataSize - done.length) : Run _) =
      .ok (some ⟨.array b, offset + done.length + text.length⟩) := hname.memchr_some hsize hnul
  have hbehind : (Ptr.distance ⟨.array b, offset + done.length + text.length⟩
      ⟨.array b, offset⟩ : Run ℕ) = .ok (done.length + text.length) := by
    rw [Ptr.distance_eq (by omega)]
    congr 1
    omega
  rw [parseEntry, hstart, ok_bind, sub_eq hfits, ok_bind, hstop, ok_bind, orReturn_some, ok_bind,
    returnIf_neg (by omega), ok_bind]
  simp only [hbehind, ok_bind]
  rw [sub_eq (by omega), ok_bind, Nat.add_sub_cancel_left]
  by_cases hequals : 61 ∈ text
  · obtain ⟨name, value, rfl, hname61⟩ := List.eq_append_cons_of_mem hequals
    have hvalueNul : 0 ∉ value := fun hmem => hnul (by simp [hmem])
    have hsplit : (m.memchr ⟨.array b, offset + done.length⟩ 61 (name ++ 61 :: value).length :
        Run _) = .ok (some ⟨.array b, offset + done.length + name.length⟩) :=
      htext.memchr_some rfl hname61
    have hvalue : (m.advance ⟨.array b, offset + done.length + name.length⟩ 1 : Run Ptr) =
        .ok ⟨.array b, offset + done.length + name.length + 1⟩ := htext.right.advance (by simp)
    have hnameSize : (Ptr.distance ⟨.array b, offset + done.length + name.length⟩
        ⟨.array b, offset + done.length⟩ : Run ℕ) = .ok name.length := by
      rw [Ptr.distance_eq (by omega), Nat.add_sub_cancel_left]
    have hequalsAt : (Ptr.distance ⟨.array b, offset + done.length + name.length⟩
        ⟨.array b, offset⟩ : Run ℕ) = .ok (done.length + name.length) := by
      rw [Ptr.distance_eq (by omega)]
      congr 1
      omega
    have hentry : (⟨⟨.array b, offset + done.length⟩,
        ⟨.array b, offset + done.length + name.length + 1⟩, name.length⟩ : Entry).Holds m
          ⟨name, value⟩ := by
      refine ⟨?_, rfl, rfl, hvalueNul⟩
      have hline : name ++ 61 :: value ++ 0 :: rest =
          (PlatformEnv.Entry.text ⟨name, value⟩ ++ [0]) ++ rest := by simp [PlatformEnv.Entry.text]
      rw [hline] at hname
      exact hname.left
    rw [PlatformEnv.parseEntry, memchr_append hname61]
    simp only
    rw [hsplit, ok_bind, orReturn_some, ok_bind]
    have hnameAt : m.At ⟨.array b, offset + done.length⟩ ([] ++ name) := htext.left
    have hvalueAt : m.At ⟨.array b, offset⟩ ((done ++ name ++ [61]) ++ value) := by
      have hline : done ++ (name ++ 61 :: value ++ 0 :: rest) =
          ((done ++ name ++ [61]) ++ value) ++ 0 :: rest := by simp
      rw [hline] at hdata
      exact hdata.left
    have hempty : (⟨.array b, offset + done.length + name.length⟩ : Ptr) =
        ⟨.array b, offset + done.length⟩ ↔ name = [] := by
      rw [Ptr.mk.injEq, ← List.length_eq_zero_iff]
      simp
    simp only [List.length_append, List.length_cons] at hlen
    by_cases hne : name = []
    · rw [returnIf_pos (hempty.mpr hne), if_pos hne]
      rfl
    rw [returnIf_neg (fun heq => hne (hempty.mp heq)), ok_bind, if_neg hne, hvalue,
      ok_bind, hnameSize, ok_bind, setItem_eq (by omega), ok_bind]
    refine Ends.step (checkBytes_ends hnameAt rfl (by simp) (by omega)) ?_ ?_
    · rintro err ⟨rfl, hchars⟩
      rw [if_pos hchars]
    rintro - hchars
    rw [if_neg (Bool.eq_false_iff.mp hchars), hequalsAt, ok_bind]
    have hvalueLen : (done ++ name ++ [61]).length = done.length + name.length + 1 := by
      rw [List.length_append, List.length_append, List.length_singleton]
    refine Ends.step (checkBytes_ends hvalueAt hvalueLen.symm
      (by rw [hvalueLen, List.length_append, List.length_cons]; omega) (by omega)) ?_ ?_
    · rintro err ⟨rfl, hprint⟩
      rw [if_pos hprint]
    rintro - hprint
    rw [if_neg (Bool.eq_false_iff.mp hprint)]
    refine Ends.step (sameNames_ends h (by omega) hentry (by omega)) ?_ ?_
    · rintro err ⟨rfl, hsame⟩
      rw [if_pos hsame]
    rintro - hfresh
    rw [if_neg (Bool.eq_false_iff.mp hfresh)]
    exact ⟨_, rfl, rfl, h.snoc hroom (by omega) hentry rfl⟩
  · rw [htext.memchr_none rfl hequals]
    exact parseEntry_noEquals hequals

/-- A round reads the entry that the other loop reads, or both refuse. -/
theorem parseEntry_ends (h : view.Holds m b seen) (hne : rest ≠ []) (hhead : rest.head? ≠ some 0)
    (hdata : m.At data (done ++ rest)) (hblock : data.block = .array b)
    (hlen : (done ++ rest).length = dataSize) (hsteps : envSize ≤ steps) :
    Ends (parseEntry steps m data done.length view)
      (fun x => ∃ text rest' e, rest = text ++ 0 :: rest' ∧
        x.1 = done.length + text.length + 1 ∧ x.2.Holds m b (seen ++ [e]) ∧
        parseEntries (maxEntries - seen.length) rest seen done.length =
          parseEntries (maxEntries - (seen ++ [e]).length) rest' (seen ++ [e]) x.1)
      (fun err => parseEntries (maxEntries - seen.length) rest seen done.length = .error err) := by
  have hsize : dataSize - done.length = rest.length := by
    rw [← hlen, List.length_append, Nat.add_sub_cancel_left]
  have hfits : done.length ≤ dataSize := by
    rw [← hlen, List.length_append]
    omega
  by_cases hended : 0 ∈ rest
  · obtain ⟨text, rest', rfl, hnul⟩ := List.eq_append_cons_of_mem hended
    have htext : text ≠ [] := by
      rintro rfl
      exact hhead rfl
    by_cases hroom : seen.length < maxEntries
    · refine Ends.mono (entry_ends h hroom hdata hblock hlen hnul hsteps) ?_ ?_
      · rintro x ⟨e, hentry, hposition, hholds⟩
        refine ⟨text, rest', e, rfl, hposition, hholds, ?_⟩
        obtain ⟨room, hmore⟩ : ∃ room, maxEntries - seen.length = room + 1 :=
          ⟨maxEntries - seen.length - 1, by omega⟩
        rw [hmore, parseEntries_ended htext hnul, hentry, hposition, List.length_append,
          List.length_singleton, ← Nat.sub_sub, hmore, Nat.add_sub_cancel]
      · intro err hentry
        obtain ⟨room, hmore⟩ : ∃ room, maxEntries - seen.length = room + 1 :=
          ⟨maxEntries - seen.length - 1, by omega⟩
        rw [hmore, parseEntries_ended htext hnul, hentry]
    · have hfull : view.count = maxEntries := by
        have hcount := h.count
        have hle := h.length_le
        omega
      rw [parseEntry, hdata.advance (by simp), ok_bind, sub_eq hfits, ok_bind,
        hdata.right.memchr_some hsize hnul, ok_bind, orReturn_some, ok_bind, returnIf_pos hfull,
        Nat.sub_eq_zero_of_le (by omega)]
      exact parseEntries_full htext hnul
  · rw [parseEntry, hdata.advance (by simp), ok_bind, sub_eq hfits, ok_bind,
      hdata.right.memchr_none hsize hended, ok_bind]
    exact parseEntries_unended hne hended

end Round

/-! ### The fields -/

theorem optText_length_lt {p : Option Ptr} {s : Option Bytes} (h : OptText m (· = .array b) p s) :
    ∀ t, s = some t → t.length < b.size := by
  rintro t rfl
  cases h with
  | some htext hblock =>
    have hle := htext.at_nul.le_size hblock
    rw [List.length_append, List.length_singleton] at hle
    omega

section Fields

variable {view : View} {entries : List PlatformEnv.Entry} {name : String} {E : EnvError → Prop}

theorem decimal_get_ends (h : view.Holds m b entries) (hb : b.size ≤ steps)
    (hsteps : maxEntries < steps) (hname : 0 ∉ ascii name) {f : ℕ → Run View} {Q : View → Prop}
    (hnone : PlatformEnv.decimal (PlatformEnv.get entries (ascii name)) = none → E .invalid)
    (hsome : ∀ n, PlatformEnv.decimal (PlatformEnv.get entries (ascii name)) = some n →
      Ends (f n) Q E) :
    Ends (do
      let n ← decimal steps m (← get steps m view (lit name))
      let n ← orReturn .invalid n
      f n) Q E := by
  refine Ends.bind (get_ends h hsteps (lit_text hname)) fun p hp => ?_
  refine Ends.bind (decimal_ends hp fun t ht => (optText_length_lt hp t ht).trans_le hb) ?_
  rintro n rfl
  cases hn : PlatformEnv.decimal (PlatformEnv.get entries (ascii name)) with
  | none => exact hnone hn
  | some n => exact hsome n hn

theorem b64Size_get_ends (h : view.Holds m b entries) (hb : b.size ≤ steps)
    (hsteps : maxEntries < steps) (hname : 0 ∉ ascii name) {f : ℕ → Run View} {Q : View → Prop}
    (hf : Ends (f (PlatformEnv.b64Size (PlatformEnv.get entries (ascii name)))) Q E) :
    Ends (do
      let n ← b64Size steps m (← get steps m view (lit name))
      f n) Q E := by
  refine Ends.bind (get_ends h hsteps (lit_text hname)) fun p hp => ?_
  refine Ends.bind (b64Size_ends hp fun t ht => (optText_length_lt hp t ht).trans_le hb) ?_
  rintro n rfl
  exact hf

/-- The schema is looked up twice, and the second time its value is used. -/
theorem schema_ends (h : view.Holds m b entries) (hsteps : maxEntries < steps) {x : Run View}
    {Q : View → Prop}
    (hbad : PlatformEnv.get entries (ascii "epk_state_schema") ≠ some (ascii "1") → E .invalid)
    (hgood : PlatformEnv.get entries (ascii "epk_state_schema") = some (ascii "1") → Ends x Q E) :
    Ends (do
      let schema ← get steps m view (lit "epk_state_schema")
      returnIf (schema = none) .invalid
      let schema ← nonNull (← get steps m view (lit "epk_state_schema"))
      returnIf ((← m.strcmp schema (lit "1")) = true) .invalid
      x) Q E := by
  have hone : m.Text (lit "1") (ascii "1") := lit_text (by decide)
  have hfinds : ∀ E, Ends (get steps m view (lit "epk_state_schema"))
      (fun r => OptText m (· = .array b) r (PlatformEnv.get entries (ascii "epk_state_schema"))) E :=
    fun E => get_ends h hsteps (lit_text (by decide))
  generalize PlatformEnv.get entries (ascii "epk_state_schema") = value at hbad hgood hfinds
  refine Ends.bind (hfinds E) ?_
  rintro p hp
  cases value with
  | none =>
    cases hp
    exact hbad (by simp)
  | some s =>
    have hne : p ≠ none := by
      rintro rfl
      cases hp
    rw [returnIf_neg hne, ok_bind]
    refine Ends.bind (hfinds E) ?_
    rintro p' hp'
    cases hp' with
    | some htext _ =>
      rw [nonNull_some, ok_bind, htext.strcmp hone, ok_bind]
      by_cases hs : s = ascii "1"
      · rw [returnIf_neg (by simp [hs]), ok_bind]
        exact hgood (by rw [hs])
      · rw [returnIf_pos (by simpa using hs)]
        exact hbad (by simpa using hs)

theorem parseFields_ends (h : view.Holds m b entries) (hb : b.size ≤ steps)
    (hsteps : maxEntries < steps) :
    Ends (parseFields steps m view)
      (fun c => ∃ v, PlatformEnv.parseFields entries view.used = .ok v ∧ c.Is m b v)
      (fun e => PlatformEnv.parseFields entries view.used = .error e) := by
  rw [parseFields, PlatformEnv.parseFields]
  refine schema_ends h hsteps (fun hbad => if_pos hbad) ?_
  intro hschema
  simp only [if_neg (not_not.mpr hschema)]
  refine decimal_get_ends h hb hsteps (by decide) (fun hnone => by rw [hnone]) ?_
  intro generation hgeneration
  refine decimal_get_ends h hb hsteps (by decide) (fun hnone => by rw [hgeneration, hnone]) ?_
  intro floor hfloor
  refine decimal_get_ends h hb hsteps (by decide) (fun hnone => by
    rw [hgeneration, hfloor, hnone]) ?_
  intro epoch hepoch
  rw [hgeneration, hfloor, hepoch]
  simp only
  refine b64Size_get_ends h hb hsteps (by decide) ?_
  by_cases hpolicy : PlatformEnv.b64Size (PlatformEnv.get entries (ascii "epk_trust_policy")) = 0 ∨
      6144 < PlatformEnv.b64Size (PlatformEnv.get entries (ascii "epk_trust_policy"))
  · rw [returnIf_pos hpolicy]
    exact if_pos (hpolicy.imp_right Or.inl)
  rw [returnIf_neg hpolicy, ok_bind]
  refine b64Size_get_ends h hb hsteps (by decide) ?_
  by_cases hsig : PlatformEnv.b64Size (PlatformEnv.get entries (ascii "epk_trust_policy_sig")) ≠ 64
  · rw [returnIf_pos hsig]
    exact if_pos (Or.inr (Or.inr hsig))
  rw [returnIf_neg hsig, ok_bind]
  refine ⟨_, if_neg ?_, ⟨⟨h.count, h.length_le, h.entry⟩, rfl, rfl, rfl, rfl⟩⟩
  rintro (hzero | hbig | hne)
  · exact hpolicy (Or.inl hzero)
  · exact hpolicy (Or.inr hbig)
  · exact hsig hne

end Fields

/-! ### Whole records -/

def recordBytes (r : Record) : Bytes := r.crc.toList ++ r.flag :: r.data

theorem recordBytes_length (r : Record) : (recordBytes r).length = envSize := by
  rw [recordBytes, List.length_append, Vector.length_toList, List.length_cons, r.size]
  rfl

/-- Any array of the size of a record is one. -/
theorem exists_record {bytes : Bytes} (h : bytes.length = envSize) :
    ∃ r, recordBytes r = bytes := by
  have hsize : envSize = dataSize + 5 := rfl
  match bytes, h with
  | c0 :: c1 :: c2 :: c3 :: flag :: data, h =>
    simp only [List.length_cons] at h
    exact ⟨⟨#v[c0, c1, c2, c3], flag, data, by omega⟩, rfl⟩

/-- The array `b` holds the record. -/
def HoldsRecord (m : Memory) (b : Place) (r : Record) : Prop := m.bytes b = recordBytes r

section Parse

variable {r : Record} {view : View}

theorem HoldsRecord.at_bytes (h : HoldsRecord m b r) : m.At ⟨.array b, 0⟩ (recordBytes r) :=
  h ▸ m.at_bytes b

theorem HoldsRecord.at_data (h : HoldsRecord m b r) : m.At ⟨.array b, 5⟩ r.data := by
  have hsplit : recordBytes r = (r.crc.toList ++ [r.flag]) ++ r.data := by simp [recordBytes]
  have hbytes := h.at_bytes
  rw [hsplit] at hbytes
  simpa using hbytes.right

theorem HoldsRecord.size_eq (h : HoldsRecord m b r) : b.size = envSize := by
  rw [← m.sized b, h, recordBytes_length]

theorem HoldsRecord.frame {b' : Place} (h : HoldsRecord m b r) (hsame : m.SameBut b' m')
    (hb : b ≠ b') : HoldsRecord m' b r := (hsame b hb).trans h

/-- Where the loop of `parse` stands: before `rest`, with the entries seen. -/
structure Reading (m : Memory) (b : Place) (data : Bytes) (position : ℕ) (view : View)
    (rest : Bytes) (seen : List PlatformEnv.Entry) : Prop where
  split : ∃ done, data = done ++ rest ∧ done.length = position
  holds : view.Holds m b seen
  same : parseEntries maxEntries data [] 0 =
    parseEntries (maxEntries - seen.length) rest seen position

theorem entries_ends {data : Bytes} (hdata : m.At ⟨.array b, 5⟩ data) (hlen : data.length = dataSize)
    (hsteps : envSize ≤ steps) (hcount : view.count = 0) :
    Ends (loop steps (fun x => do
        if x.1 < dataSize then
          if (← m.load ⟨.array b, 5⟩ x.1) = 0 then return .exit x
          else return .next (← parseEntry steps m ⟨.array b, 5⟩ x.1 x.2)
        else return .exit x) (0, view))
      (fun x => ∃ rest seen, Reading m b data x.1 x.2 rest seen ∧
        (rest = [] ∨ rest.head? = some 0))
      (fun e => parseEntries maxEntries data [] 0 = .error e) := by
  have hsmall : dataSize < envSize := by decide
  have hempty : view.Holds m b [] := ⟨hcount, Nat.zero_le _, fun i hi => by simp at hi⟩
  refine Ends.loop (fun x => ∃ rest seen, Reading m b data x.1 x.2 rest seen)
    (fun x => dataSize - x.1) ⟨data, [], ⟨[], rfl, rfl⟩, hempty, rfl⟩ (by simp only; omega) ?_
  rintro ⟨position, view⟩ ⟨rest, seen, ⟨done, rfl, hdone⟩, hholds, hsame⟩
  simp only at hdone hholds hsame ⊢
  subst hdone
  have hreading : Reading m b (done ++ rest) done.length view rest seen :=
    ⟨⟨done, rfl, rfl⟩, hholds, hsame⟩
  by_cases hend : rest = []
  · subst hend
    rw [List.append_nil] at hlen
    rw [if_neg (by omega)]
    exact ⟨[], seen, hreading, Or.inl rfl⟩
  obtain ⟨c, cs, rfl⟩ := List.exists_cons_of_ne_nil hend
  rw [if_pos (by rw [← hlen]; simp), hdata.load, ok_bind]
  by_cases hzero : c = 0
  · rw [if_pos hzero]
    exact ⟨_, seen, hreading, Or.inr (by rw [hzero]; rfl)⟩
  rw [if_neg hzero]
  refine Ends.step (parseEntry_ends hholds hend (by simpa using hzero) hdata rfl hlen hsteps) ?_ ?_
  · exact fun e he => hsame.trans he
  rintro ⟨position, view'⟩ ⟨text, rest', e, hrest, hposition, hholds', hrun⟩
  simp only at hposition hholds' hrun
  subst hposition
  have hlen' := hlen
  rw [hrest] at hlen'
  simp only [List.length_append, List.length_cons] at hlen'
  refine ⟨⟨rest', seen ++ [e], ⟨done ++ text ++ [0], ?_, ?_⟩, hholds', hsame.trans hrun⟩, ?_⟩
  · rw [hrest]
    simp
  · rw [List.length_append, List.length_append, List.length_singleton]
  · simp only
    omega

/-- Over the bytes of a record `parse` returns what the other model's parser does. -/
theorem parse_ends (h : HoldsRecord m b r) (hsteps : envSize ≤ steps) :
    Ends (parse steps m ⟨.array b, 0⟩ view)
      (fun c => ∃ v, PlatformEnv.parse r = .ok v ∧ c.Is m b v)
      (fun e => PlatformEnv.parse r = .error e) := by
  have hsmall : dataSize < envSize := by decide
  have hmax : maxEntries < envSize := by decide
  have hdata := h.at_data
  have hstart : (m.advance ⟨.array b, 0⟩ 5 : Run Ptr) = .ok ⟨.array b, 5⟩ :=
    h.at_bytes.advance (by rw [recordBytes_length]; decide)
  rw [parse, hstart, ok_bind, PlatformEnv.parse]
  refine Ends.step (entries_ends hdata r.size hsteps rfl) ?_ ?_
  · intro e he
    rw [he]
  rintro ⟨position, view'⟩ ⟨rest, seen, ⟨⟨done, hsplit, rfl⟩, hholds, hsame⟩, hend⟩
  simp only at hholds hsame ⊢
  have hlen := r.size
  rw [hsplit, List.length_append] at hlen
  have hcount := hholds.count
  rw [hsame]
  cases rest with
  | nil =>
    rw [List.length_nil] at hlen
    rw [returnIf_pos (Or.inr (by omega)), parseEntries]
    rfl
  | cons c cs =>
    have hc : c = 0 := by simpa using hend
    subst hc
    rw [List.length_cons] at hlen
    unfold parseEntries
    rw [if_pos rfl]
    rw [hsplit] at hdata
    by_cases hseen : seen = []
    · rw [if_pos hseen, returnIf_pos (Or.inl (by rw [hcount, hseen]; rfl))]
      rfl
    have hpos : seen.length ≠ 0 := fun hzero => hseen (List.length_eq_zero_iff.mp hzero)
    rw [if_neg hseen, returnIf_neg (by omega), ok_bind, hdata.load, ok_bind,
      returnIf_neg (not_not.mpr rfl), ok_bind, sub_eq (by omega), ok_bind]
    simp only
    by_cases hfull : dataSize - (done.length + 1) < headroom
    · rw [if_pos hfull, returnIf_pos hfull]
      rfl
    rw [if_neg hfull, returnIf_neg hfull, ok_bind]
    have hused : (⟨view'.entries, view'.count, done.length + 1, view'.generation, view'.floor,
        view'.epoch⟩ : View).Holds m b seen := ⟨hholds.count, hholds.length_le, hholds.entry⟩
    exact parseFields_ends hused (by rw [h.size_eq]; exact hsteps) (by omega)

end Parse

end Epilykos.PlatformEnv.Pointer
