import Epilykos.PlatformEnv.Decimal
import Epilykos.PlatformEnv.Select

/-!
The next record of a commit: the selected record's entries with the updates applied and the
generation advanced when an epk_* name changes, serialized, parsed again and compared with
the record it replaces. Names and values of updates are arbitrary C strings, so the text they
make may parse to other names than theirs; the second parse is what the lemmas rest on.
-/

namespace Epilykos.PlatformEnv

/-- A C string: no NUL inside. -/
structure CString where
  chars : Bytes
  noNul : 0 ∉ chars
  deriving DecidableEq

/-- The C string that starts at the bytes given. -/
def CString.ofBytes (bytes : Bytes) : CString where
  chars := bytes.takeWhile (· != 0)
  noNul := fun h => by simpa using List.all_eq_true.mp List.all_takeWhile _ h

/-- `none` is the NULL name; a `none` value deletes. -/
structure Update where
  name : Option CString
  value : Option CString
  deriving DecidableEq

/-- An update whose name has passed the checks. -/
structure Change where
  name : CString
  value : Option CString
  deriving DecidableEq

def generationName : Bytes := ascii "epk_state_generation"

def checkUpdates : List Change → List Update → Except EnvError (List Change)
  | seen, [] => .ok seen
  | seen, u :: rest =>
    match u.name with
    | none => .error .invalid
    | some name =>
      if name.chars = [] ∨ name.chars = generationName then .error .invalid
      else if seen.any fun c => c.name.chars == name.chars then .error .invalid
      else checkUpdates (seen ++ [⟨name, u.value⟩]) rest

def Change.newValue (c : Change) : Option Bytes := c.value.map CString.chars

def changedCritical (old : View) (changes : List Change) : Bool :=
  changes.any fun c => isCritical c.name.chars && get old.entries c.name.chars != c.newValue

/-- The payload so far with one more `name=value` and its NUL. -/
def append (out : Bytes) (name value : Bytes) : Except EnvError Bytes :=
  if dataSize - out.length < name.length + value.length + 3 then .error .capacity
  else .ok (out ++ (name ++ 61 :: value ++ [0]))

def appendAll : Bytes → List Entry → Except EnvError Bytes
  | out, [] => .ok out
  | out, e :: rest =>
    match append out e.name e.value with
    | .error e => .error e
    | .ok out => appendAll out rest

/-- What becomes of an old entry; `none` when it is deleted. -/
def keptValue (changes : List Change) (generation : Bytes) (e : Entry) : Option Bytes :=
  if e.name = generationName then some generation
  else match changes.find? fun c => e.name == c.name.chars with
    | some c => c.newValue
    | none => some e.value

def keptEntries (old : View) (changes : List Change) (generation : Bytes) : List Entry :=
  old.entries.filterMap fun e => (keptValue changes generation e).map (Entry.mk e.name)

def addedEntries (old : View) (changes : List Change) : List Entry :=
  changes.filterMap fun c =>
    if (get old.entries c.name.chars).isSome then none
    else c.newValue.map (Entry.mk c.name.chars)

def build (source : Record) (updates : List Update) : Except EnvError Record := do
  let old ← parse source
  let changes ← checkUpdates [] updates
  let changed := changedCritical old changes
  if changed && old.generation == uint64Max then throw .overflow
  let generation := toDecimal (old.generation + changed.toNat)
  let out ← appendAll [] (keptEntries old changes generation)
  let out ← appendAll out (addedEntries old changes)
  let next ← parse (.ofText out)
  if !notOlder next old then throw .conflict
  return (Record.ofText out).setCrc

/-! ### What is accepted as an update -/

structure ChangesOk (changes : List Change) : Prop where
  name_ne : ∀ c ∈ changes, c.name.chars ≠ []
  not_generation : ∀ c ∈ changes, c.name.chars ≠ generationName
  nodup : (changes.map fun c => c.name.chars).Nodup

theorem checkUpdates_ok {seen changes : List Change} {updates : List Update}
    (hseen : ChangesOk seen) (h : checkUpdates seen updates = .ok changes) :
    ChangesOk changes ∧
      changes.map (fun c => (⟨some c.name, c.value⟩ : Update)) =
        seen.map (fun c => ⟨some c.name, c.value⟩) ++ updates := by
  induction updates generalizing seen with
  | nil =>
    cases h
    exact ⟨hseen, by simp⟩
  | cons u rest ih =>
    rcases u with ⟨_ | name, value⟩
    · cases h
    · simp only [checkUpdates] at h
      split_ifs at h with hname hdup
      simp only [not_or] at hname
      have hsnoc : ChangesOk (seen ++ [⟨name, value⟩]) := by
        refine ⟨?_, ?_, ?_⟩
        · simpa [or_imp, forall_and] using ⟨hseen.name_ne, hname.1⟩
        · simpa [or_imp, forall_and] using ⟨hseen.not_generation, hname.2⟩
        · rw [List.map_append, List.nodup_append]
          refine ⟨hseen.nodup, by simp, ?_⟩
          simp only [Bool.not_eq_true, List.any_eq_false, beq_iff_eq] at hdup
          simpa using hdup
      obtain ⟨hok, hmap⟩ := ih hsnoc h
      exact ⟨hok, by simpa using hmap⟩

theorem checkUpdates_complete {seen rest : List Change} (h : ChangesOk (seen ++ rest)) :
    checkUpdates seen (rest.map fun c => ⟨some c.name, c.value⟩) = .ok (seen ++ rest) := by
  induction rest generalizing seen with
  | nil => simp [checkUpdates]
  | cons c rest ih =>
    have hname := h.name_ne c (by simp)
    have hgen := h.not_generation c (by simp)
    have hfresh : (seen.any fun s => s.name.chars == c.name.chars) = false := by
      have hnodup := h.nodup
      rw [List.map_append, List.nodup_append] at hnodup
      rw [List.any_eq_false]
      intro s hs
      simpa using hnodup.2.2 _ (List.mem_map_of_mem hs) c.name.chars (by simp)
    simp only [List.map_cons, checkUpdates, hfresh, hname, hgen, or_self, if_false,
      Bool.false_eq_true]
    rw [ih (by simpa using h)]
    simp

/-! ### The text of the next record -/

theorem appendAll_ok {out out' : Bytes} {es : List Entry} (h : appendAll out es = .ok out')
    (hout : out.length < dataSize) :
    out' = out ++ lines (es.map Entry.text) ∧ out'.length < dataSize := by
  induction es generalizing out with
  | nil =>
    cases h
    exact ⟨by simp, hout⟩
  | cons e rest ih =>
    simp only [appendAll, append] at h
    split_ifs at h with hroom
    have hlen : (out ++ (e.name ++ 61 :: e.value ++ [0])).length < dataSize := by
      simp only [List.length_append, List.length_cons, List.length_nil] at hroom ⊢
      omega
    obtain ⟨heq, hlt⟩ := ih h hlen
    exact ⟨by simp [heq, Entry.text], hlt⟩

/-- What `build` makes of a view and its checked changes. -/
structure Built (v : View) (changes : List Change) (r : Record) (w : View) : Prop where
  changesOk : ChangesOk changes
  crcValid : r.crcValid = true
  parsed : parse r = .ok w
  notOlder : NotOlder w v
  room : changedCritical v changes = true → v.generation < uint64Max
  texts : w.entries.map Entry.text =
    (keptEntries v changes (toDecimal (v.generation + (changedCritical v changes).toNat)) ++
      addedEntries v changes).map Entry.text

theorem generation_succ_le {v : View} (hv : v.Ok) {changes : List Change}
    (hroom : changedCritical v changes = true → v.generation < uint64Max) :
    v.generation + (changedCritical v changes).toNat ≤ uint64Max := by
  have hle := decimal_le hv.generation
  cases hc : changedCritical v changes with
  | false => simpa using hle
  | true => exact hroom hc

theorem nul_notMem_newText {v : View} (hv : v.Ok) {changes : List Change} {n : ℕ}
    (hn : n ≤ uint64Max) {e : Entry}
    (he : e ∈ keptEntries v changes (toDecimal n) ++ addedEntries v changes) : 0 ∉ e.text := by
  have hparts : 0 ∉ e.name ∧ 0 ∉ e.value := by
    rcases List.mem_append.mp he with hkept | hadded
    · obtain ⟨old, hold, hmap⟩ := List.mem_filterMap.mp hkept
      obtain ⟨value, hvalue, rfl⟩ := Option.map_eq_some_iff.mp hmap
      have hok := hv.wellFormed.entry_ok old hold
      refine ⟨hok.nul_notMem_name, ?_⟩
      unfold keptValue at hvalue
      split_ifs at hvalue
      · cases hvalue
        exact toDecimal_nul_notMem hn
      · split at hvalue
        · obtain ⟨s, _, rfl⟩ := Option.map_eq_some_iff.mp hvalue
          exact s.noNul
        · cases hvalue
          exact hok.nul_notMem_value
    · obtain ⟨c, _, hmap⟩ := List.mem_filterMap.mp hadded
      split_ifs at hmap
      obtain ⟨value, hvalue, rfl⟩ := Option.map_eq_some_iff.mp hmap
      obtain ⟨s, _, rfl⟩ := Option.map_eq_some_iff.mp hvalue
      exact ⟨c.name.noNul, s.noNul⟩
  simp [Entry.text, hparts]

private theorem parse_text {texts : List Bytes} {w : View} (hlen : (lines texts).length < dataSize)
    (htexts : ∀ t ∈ texts, t ≠ [] ∧ 0 ∉ t) (h : parse (.ofText (lines texts)) = .ok w) :
    w.entries.map Entry.text = texts := by
  obtain ⟨position, hentries, _⟩ := parse_eq_ok h
  obtain ⟨pad, hpad⟩ : ∃ pad, dataSize - (lines texts).length = pad + 1 :=
    ⟨dataSize - (lines texts).length - 1, by omega⟩
  rw [Record.ofText_data (Nat.le_of_lt hlen), hpad, List.replicate_succ] at hentries
  obtain ⟨new, hnew, hmap, _⟩ := parseEntries_lines htexts hentries
  rw [hnew, List.nil_append, hmap]

theorem build_ok {source r : Record} {updates : List Update} {v : View}
    (hv : parse source = .ok v) (h : build source updates = .ok r) :
    ∃ changes w, updates = changes.map (fun c => ⟨some c.name, c.value⟩) ∧
      Built v changes r w := by
  simp only [build, hv, bind, Except.bind] at h
  cases hchanges : checkUpdates [] updates with
  | error e => simp [hchanges] at h
  | ok changes =>
    simp only [hchanges] at h
    split_ifs at h with hoverflow
    have hroom : changedCritical v changes = true → v.generation < uint64Max := by
      intro hc
      have hle := decimal_le (parse_ok hv).generation
      have hne : v.generation ≠ uint64Max := by simpa [hc] using hoverflow
      omega
    have hgen := generation_succ_le (parse_ok hv) hroom
    set kept := keptEntries v changes
      (toDecimal (v.generation + (changedCritical v changes).toNat)) with hkept
    cases hout : appendAll [] kept with
    | error e => simp [hout] at h
    | ok out =>
      simp only [hout, pure, Except.pure] at h
      cases hout' : appendAll out (addedEntries v changes) with
      | error e => simp [hout'] at h
      | ok out' =>
        simp only [hout'] at h
        cases hw : parse (.ofText out') with
        | error e => simp [hw] at h
        | ok w =>
          simp only [hw] at h
          split_ifs at h with hold
          cases h
          obtain ⟨rfl, hlt⟩ := appendAll_ok hout (by decide)
          obtain ⟨rfl, hlt'⟩ := appendAll_ok hout' hlt
          obtain ⟨hchangesOk, hmap⟩ := checkUpdates_ok ⟨by simp, by simp, by simp⟩ hchanges
          refine ⟨changes, w, by simpa using hmap.symm, hchangesOk, by simp, by simpa using hw,
            notOlder_iff.mp (by simpa using hold), hroom, ?_⟩
          rw [List.nil_append, ← lines_append, ← List.map_append] at hw hlt'
          refine parse_text hlt' (fun t ht => ?_) hw
          obtain ⟨e, he, rfl⟩ := List.mem_map.mp ht
          exact ⟨by simp [Entry.text], nul_notMem_newText (parse_ok hv) hgen he⟩

theorem appendAll_complete {out : Bytes} {es : List Entry}
    (h : out.length + (lines (es.map Entry.text)).length < dataSize) :
    appendAll out es = .ok (out ++ lines (es.map Entry.text)) := by
  induction es generalizing out with
  | nil => simp [appendAll]
  | cons e rest ih =>
    have hlen : (lines ((e :: rest).map Entry.text)).length =
        e.name.length + e.value.length + 2 + (lines (rest.map Entry.text)).length := by
      simp [Entry.text]
      omega
    rw [hlen] at h
    rw [appendAll, append, if_neg (by omega)]
    simp only
    rw [ih (by simp; omega)]
    simp [Entry.text]

theorem Storable.parse_ofText {values : List Entry} {v : View} (h : Storable values v) :
    parse (.ofText (lines (values.map Entry.text))) = .ok v := by
  have hroom := h.room
  obtain ⟨tail, htail⟩ := Record.ofText_data_nul
    (show (lines (values.map Entry.text)).length < dataSize by omega)
  exact h.parse_eq tail htail

/-- A commit whose result can be stored and takes nothing back is built. -/
theorem build_complete {source : Record} {updates : List Update} {changes : List Change}
    {v w : View} {values : List Entry} (hv : parse source = .ok v)
    (hchanges : checkUpdates [] updates = .ok changes)
    (hroom : changedCritical v changes = true → v.generation < uint64Max)
    (hvalues : keptEntries v changes
      (toDecimal (v.generation + (changedCritical v changes).toNat)) ++ addedEntries v changes =
        values)
    (hw : Storable values w) (hold : NotOlder w v) :
    build source updates = .ok (Record.ofText (lines (values.map Entry.text))).setCrc := by
  have hfits := hw.room
  have hover : (changedCritical v changes && v.generation == uint64Max) = false := by
    cases hc : changedCritical v changes with
    | false => rfl
    | true => simpa using Nat.ne_of_lt (hroom hc)
  have hparse := hw.parse_ofText
  rw [← hvalues, List.map_append, lines_append, List.length_append] at hfits
  rw [build, hv]
  simp only [bind, Except.bind, hchanges, hover, Bool.false_eq_true, if_false, pure, Except.pure]
  rw [appendAll_complete (by simp; omega)]
  simp only [List.nil_append]
  rw [appendAll_complete (by omega), ← lines_append, ← List.map_append, hvalues]
  simp only [hparse]
  simp [notOlder_iff.mpr hold]

/-! ### Looking up names in what was built -/

/-- What a name is meant to hold after the changes. -/
def newValue (v : View) (changes : List Change) (name : Bytes) : Option Bytes :=
  if name = generationName then
    some (toDecimal (v.generation + (changedCritical v changes).toNat))
  else match changes.find? fun c => name == c.name.chars with
    | some c => c.newValue
    | none => get v.entries name

/-- No change smuggles the name in: a change with an equals sign in its own name writes a
line that is read as an entry of the part before the sign. -/
def Unforged (changes : List Change) (name : Bytes) : Prop :=
  ∀ c ∈ changes, c.newValue ≠ none → 61 ∈ c.name.chars → ¬ name ++ [61] <+: c.name.chars

theorem text_inj {name name' value value' : Bytes} (hn : 61 ∉ name) (hn' : 61 ∉ name')
    (h : name ++ 61 :: value = name' ++ 61 :: value') : name = name' ∧ value = value' := by
  have h1 : memchr 61 (name ++ 61 :: value) = some (name, value) := memchr_append hn
  rw [h, memchr_append hn'] at h1
  simpa using (Option.some.inj h1).symm

theorem Built.mem_iff {v w : View} {changes : List Change} {r : Record}
    (hb : Built v changes r w) {name value : Bytes} (hname : 61 ∉ name) :
    ⟨name, value⟩ ∈ w.entries ↔ name ++ 61 :: value ∈
      (keptEntries v changes (toDecimal (v.generation + (changedCritical v changes).toNat)) ++
        addedEntries v changes).map Entry.text := by
  rw [← hb.texts, List.mem_map]
  constructor
  · exact fun hmem => ⟨_, hmem, rfl⟩
  · rintro ⟨e, he, htext⟩
    have hok := (parse_ok hb.parsed).wellFormed.entry_ok e he
    obtain ⟨rfl, rfl⟩ := text_inj hok.equals_notMem hname htext
    exact he

theorem mem_keptEntries_iff {v : View} {changes : List Change} {generation : Bytes} {e : Entry} :
    e ∈ keptEntries v changes generation ↔
      ∃ o ∈ v.entries, o.name = e.name ∧ keptValue changes generation o = some e.value := by
  simp only [keptEntries, List.mem_filterMap, Option.map_eq_some_iff]
  constructor
  · rintro ⟨o, ho, value, hvalue, rfl⟩
    exact ⟨o, ho, rfl, hvalue⟩
  · rintro ⟨o, ho, hname, hvalue⟩
    exact ⟨o, ho, e.value, hvalue, by rw [hname]⟩

theorem mem_addedEntries_iff {v : View} {changes : List Change} {e : Entry} :
    e ∈ addedEntries v changes ↔ ∃ c ∈ changes, c.name.chars = e.name ∧
      get v.entries e.name = none ∧ c.newValue = some e.value := by
  simp only [addedEntries, List.mem_filterMap]
  constructor
  · rintro ⟨c, hc, hmap⟩
    split_ifs at hmap with hget
    obtain ⟨value, hvalue, rfl⟩ := Option.map_eq_some_iff.mp hmap
    exact ⟨c, hc, rfl, by simpa using hget, hvalue⟩
  · rintro ⟨c, hc, hname, hget, hvalue⟩
    refine ⟨c, hc, ?_⟩
    rw [hname, hget, hvalue]
    rfl

theorem toDecimal_generation {v : View} (hv : v.Ok) :
    get v.entries generationName = some (toDecimal v.generation) := by
  have hgen := hv.generation
  cases hget : get v.entries generationName with
  | none => simp [generationName] at hget; simp [hget, decimal] at hgen
  | some text =>
    simp only [generationName] at hget
    rw [hget] at hgen
    rw [decimal_inj hgen (decimal_toDecimal (decimal_le hgen))]

theorem get_eq_some_iff {entries : List Entry} (hnodup : (entries.map Entry.name).Nodup)
    {name value : Bytes} : get entries name = some value ↔ ⟨name, value⟩ ∈ entries :=
  ⟨mem_of_get, fun hmem => get_of_mem hnodup hmem⟩

/-- The entries serialized hold under each name what it is meant to hold. -/
theorem mem_newEntries_iff {v : View} (hv : v.Ok) {changes : List Change}
    (hok : ChangesOk changes) {e : Entry} :
    e ∈ keptEntries v changes (toDecimal (v.generation + (changedCritical v changes).toNat)) ++
        addedEntries v changes ↔ newValue v changes e.name = some e.value := by
  rw [List.mem_append, mem_keptEntries_iff, mem_addedEntries_iff]
  unfold newValue keptValue
  by_cases hgen : e.name = generationName
  · have hstored : (get v.entries e.name).isSome := by
      rw [hgen, toDecimal_generation hv]
      rfl
    obtain ⟨o, ho, hname⟩ := get_isSome_iff.mp hstored
    rw [if_pos hgen]
    constructor
    · rintro (⟨o', _, hname', hvalue⟩ | ⟨_, _, _, hnone, _⟩)
      · rwa [if_pos (hname'.trans hgen)] at hvalue
      · simp [hnone] at hstored
    · intro hvalue
      exact Or.inl ⟨o, ho, hname, by rwa [if_pos (hname.trans hgen)]⟩
  · rw [if_neg hgen]
    cases hfind : changes.find? fun c => e.name == c.name.chars with
    | some c =>
      have hcname : e.name = c.name.chars := by simpa using List.find?_some hfind
      have hunique : ∀ c' ∈ changes, c'.name.chars = e.name → c' = c := fun c' hc' heq =>
        List.inj_on_of_nodup_map hok.nodup hc' (List.mem_of_find?_eq_some hfind)
          (heq.trans hcname)
      constructor
      · rintro (⟨o, _, hname, hvalue⟩ | ⟨c', hc', heq, _, hvalue⟩)
        · rwa [hname, if_neg hgen, hfind] at hvalue
        · rwa [hunique c' hc' heq] at hvalue
      · intro hvalue
        cases hget : get v.entries e.name with
        | none =>
          exact Or.inr ⟨c, List.mem_of_find?_eq_some hfind, hcname.symm, rfl, hvalue⟩
        | some old =>
          refine Or.inl ⟨⟨e.name, old⟩, mem_of_get hget, rfl, ?_⟩
          rwa [if_neg hgen, hfind]
    | none =>
      have hnone : ∀ c ∈ changes, c.name.chars ≠ e.name := by
        intro c hc heq
        have := List.find?_eq_none.mp hfind c hc
        simp [heq] at this
      constructor
      · rintro (⟨o, ho, hname, hvalue⟩ | ⟨c, hc, heq, _⟩)
        · rw [hname, if_neg hgen, hfind] at hvalue
          rw [← hname, get_of_mem hv.wellFormed.nodup ho]
          exact hvalue
        · exact absurd heq (hnone c hc)
      · intro hvalue
        refine Or.inl ⟨⟨e.name, e.value⟩, mem_of_get hvalue, rfl, ?_⟩
        rw [if_neg hgen, hfind]

theorem newEntries_nodup {v : View} (hv : v.Ok) {changes : List Change} (hok : ChangesOk changes)
    {generation : Bytes} :
    ((keptEntries v changes generation ++ addedEntries v changes).map Entry.name).Nodup := by
  have hold := hv.wellFormed.nodup
  have hnew := hok.nodup
  rw [List.Nodup, List.pairwise_map] at hold hnew ⊢
  rw [List.pairwise_append, keptEntries, addedEntries, List.pairwise_filterMap,
    List.pairwise_filterMap]
  refine ⟨hold.imp ?_, hnew.imp ?_, fun e he e' he' heq => ?_⟩
  · intro a b hab x hx y hy
    obtain ⟨_, _, rfl⟩ := Option.map_eq_some_iff.mp hx
    obtain ⟨_, _, rfl⟩ := Option.map_eq_some_iff.mp hy
    exact hab
  · intro a b hab x hx y hy
    split_ifs at hx hy
    obtain ⟨_, _, rfl⟩ := Option.map_eq_some_iff.mp hx
    obtain ⟨_, _, rfl⟩ := Option.map_eq_some_iff.mp hy
    exact hab
  · obtain ⟨o, ho, hname, _⟩ := mem_keptEntries_iff.mp he
    obtain ⟨_, _, _, hnone, _⟩ := mem_addedEntries_iff.mp he'
    exact get_eq_none_iff.mp hnone o ho (hname.trans heq)

theorem get_newEntries {v : View} (hv : v.Ok) {changes : List Change} (hok : ChangesOk changes)
    (name : Bytes) :
    get (keptEntries v changes (toDecimal (v.generation + (changedCritical v changes).toNat)) ++
      addedEntries v changes) name = newValue v changes name := by
  apply Option.ext
  intro value
  rw [get_eq_some_iff (newEntries_nodup hv hok), mem_newEntries_iff hv hok]

/-- A line is read as the entry it was written for, unless a name smuggles another one in. -/
theorem mem_newTexts_iff {v : View} (hv : v.Ok) {changes : List Change} {generation : Bytes}
    {name value : Bytes} (hname : 61 ∉ name) (hforged : Unforged changes name) :
    name ++ 61 :: value ∈
        (keptEntries v changes generation ++ addedEntries v changes).map Entry.text ↔
      (⟨name, value⟩ : Entry) ∈ keptEntries v changes generation ++ addedEntries v changes := by
  rw [List.mem_map]
  constructor
  · rintro ⟨e, he, htext⟩
    suffices hclean : 61 ∉ e.name by
      obtain ⟨rfl, rfl⟩ := text_inj hclean hname htext
      exact he
    rcases List.mem_append.mp he with hkept | hadded
    · obtain ⟨o, ho, heq, _⟩ := mem_keptEntries_iff.mp hkept
      rw [← heq]
      exact (hv.wellFormed.entry_ok o ho).equals_notMem
    · obtain ⟨c, hc, heq, _, hvalue⟩ := mem_addedEntries_iff.mp hadded
      rw [← heq]
      intro hmem
      refine hforged c hc (by simp [hvalue]) hmem ?_
      -- the name is the part of the line before its first equals sign
      have hline : name ++ [61] <+: c.name.chars ++ 61 :: e.value := ⟨value, by
        simpa [Entry.text, heq] using htext.symm⟩
      rcases List.prefix_or_prefix_of_prefix hline (List.prefix_append _ _) with h | h
      · exact h
      · rcases List.prefix_concat_iff.mp h with heq' | hpre
        · exact heq' ▸ List.prefix_rfl
        · exact absurd (hpre.subset hmem) hname
  · exact fun he => ⟨_, he, rfl⟩

theorem Built.get_eq {v w : View} {changes : List Change} {r : Record} (hv : v.Ok)
    (hb : Built v changes r w) {name : Bytes} (hname : 61 ∉ name)
    (hforged : Unforged changes name) :
    get w.entries name = newValue v changes name := by
  apply Option.ext
  intro value
  rw [get_eq_some_iff (parse_ok hb.parsed).wellFormed.nodup, hb.mem_iff hname,
    mem_newTexts_iff hv hname hforged, mem_newEntries_iff hv hb.changesOk]

theorem isCritical_of_prefix {name longer : Bytes} (hname : isCritical name = true)
    (h : name <+: longer) : isCritical longer = true := by
  obtain ⟨tail, rfl⟩ := h
  simp only [isCritical, beq_iff_eq] at hname ⊢
  have hlen : 4 ≤ name.length := by
    have := congrArg List.length hname
    simp [ascii] at this
    omega
  rw [List.take_append_of_le_length hlen, hname]

/-- No parsed entry has an equals sign in its name. -/
theorem get_eq_none_of_equals {v : View} (hv : v.Ok) {name : Bytes} (h : 61 ∈ name) :
    get v.entries name = none :=
  get_eq_none_iff.mpr fun e he heq => (hv.wellFormed.entry_ok e he).equals_notMem (heq ▸ h)

/-- An update that changes nothing critical cannot forge a critical entry either. -/
theorem unforged_of_unchanged {v : View} (hv : v.Ok) {changes : List Change}
    (hunchanged : changedCritical v changes = false) {name : Bytes}
    (hname : isCritical name = true) : Unforged changes name := by
  intro c hc hvalue hequals hpre
  have hcrit : isCritical c.name.chars = true :=
    isCritical_of_prefix hname ((List.prefix_append _ _).trans hpre)
  have hsame : get v.entries c.name.chars = c.newValue := by
    have := List.any_eq_false.mp hunchanged c hc
    simpa [hcrit] using this
  exact hvalue (hsame.symm.trans (get_eq_none_of_equals hv hequals))

theorem Built.sameCritical {v w : View} {changes : List Change} {r : Record} (hv : v.Ok)
    (hb : Built v changes r w) (hunchanged : changedCritical v changes = false) :
    SameCritical v w := by
  intro name hname
  by_cases hequals : 61 ∈ name
  · rw [get_eq_none_of_equals hv hequals, get_eq_none_of_equals (parse_ok hb.parsed) hequals]
  rw [hb.get_eq hv hequals (unforged_of_unchanged hv hunchanged hname), newValue]
  split_ifs with hgen
  · rw [hgen, toDecimal_generation hv, hunchanged]
    simp
  · cases hfind : changes.find? fun c => name == c.name.chars with
    | none => rfl
    | some c =>
      have hcname : name = c.name.chars := by simpa using List.find?_some hfind
      have := List.any_eq_false.mp hunchanged c (List.mem_of_find?_eq_some hfind)
      rw [← hcname, hname] at this
      simpa using this

/-- The generation is written whatever the changes try to smuggle in. -/
theorem Built.generation {v w : View} {changes : List Change} {r : Record} (hv : v.Ok)
    (hb : Built v changes r w) :
    w.generation = v.generation + (changedCritical v changes).toNat := by
  set n := v.generation + (changedCritical v changes).toNat with hn
  have hentry : ⟨generationName, toDecimal n⟩ ∈ w.entries := by
    rw [hb.mem_iff (by decide)]
    refine List.mem_map.mpr ⟨⟨generationName, toDecimal n⟩, ?_, rfl⟩
    refine List.mem_append_left _ (mem_keptEntries_iff.mpr ?_)
    exact ⟨_, mem_of_get (toDecimal_generation hv), rfl, by simp [keptValue, hn]⟩
  have hget := get_of_mem (parse_ok hb.parsed).wellFormed.nodup hentry
  have hread := (parse_ok hb.parsed).generation
  simp only [generationName] at hget
  rw [hget, decimal_toDecimal (generation_succ_le hv hb.room)] at hread
  exact (Option.some.inj hread).symm

/-- What was built either opens a new generation or is the same one in all that counts. -/
theorem Built.newer_or_same {v w : View} {changes : List Change} {r : Record} (hv : v.Ok)
    (hb : Built v changes r w) :
    v.generation < w.generation ∨ v.generation = w.generation ∧ SameCritical v w := by
  have hgen := hb.generation hv
  cases hc : changedCritical v changes with
  | true =>
    rw [hc] at hgen
    exact Or.inl (by simp at hgen; omega)
  | false =>
    rw [hc] at hgen
    exact Or.inr ⟨by simpa using hgen.symm, hb.sameCritical hv hc⟩

end Epilykos.PlatformEnv
