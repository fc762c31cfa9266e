import Epilykos.PlatformEnv.Record
import Mathlib.Data.List.Nodup

/-!
The strict parser of a record's payload: NUL-terminated `name=value` entries, one extra NUL,
then anything. Entries are unique and printable, at least EPK_ENV_HEADROOM bytes stay free,
and the protocol-2 fields must be present in canonical form.
-/

namespace Epilykos.PlatformEnv

inductive EnvError
  | invalid
  | conflict
  | io
  | capacity
  | overflow
  deriving DecidableEq, Repr

structure Entry where
  name : Bytes
  value : Bytes
  deriving DecidableEq, Repr

/-- What an entry occupies in the payload, without its NUL. -/
def Entry.text (e : Entry) : Bytes := e.name ++ 61 :: e.value

structure View where
  entries : List Entry
  used : ℕ
  generation : ℕ
  floor : ℕ
  epoch : ℕ
  deriving DecidableEq, Repr

def isNameChar (c : UInt8) : Bool :=
  (65 ≤ c && c ≤ 90) || (97 ≤ c && c ≤ 122) || (48 ≤ c && c ≤ 57) ||
    c == 95 || c == 46 || c == 45 || c == 35

def isPrintable (c : UInt8) : Bool := 32 ≤ c && c ≤ 126

/-- The value stored under a name, as `get` and `equivalent` look it up. -/
def get (entries : List Entry) (name : Bytes) : Option Bytes :=
  (entries.find? fun e => e.name == name).map Entry.value

def isCritical (name : Bytes) : Bool := name.take 4 == ascii "epk_"

/-- Both directions of the comparison, as the two loops make it. -/
def sameCritical (a b : View) : Bool :=
  (a.entries.all fun e => !isCritical e.name || get b.entries e.name == some e.value) &&
    b.entries.all fun e => !isCritical e.name || (get a.entries e.name).isSome

/-! ### Scalars -/

/-- The digits after `n`; `none` on a character that is no digit and before an overflow. -/
def decimalFrom : ℕ → Bytes → Option ℕ
  | n, [] => some n
  | n, c :: rest =>
    -- unsigned subtraction: characters below '0' wrap to large digits
    let digit := (c.toUInt32 - 48).toNat
    if 9 < digit ∨ (uint64Max - digit) / 10 < n then none
    else decimalFrom (n * 10 + digit) rest

def decimal : Option Bytes → Option ℕ
  | none => none
  | some [] => none
  | some (c :: rest) => if c = 48 ∧ rest ≠ [] then none else decimalFrom 0 (c :: rest)

/-- `none` where the source returns -1. -/
def b64Digit (c : UInt8) : Option ℕ :=
  if 65 ≤ c ∧ c ≤ 90 then some (c.toNat - 65)
  else if 97 ≤ c ∧ c ≤ 122 then some (c.toNat - 97 + 26)
  else if 48 ≤ c ∧ c ≤ 57 then some (c.toNat - 48 + 52)
  else if c = 43 then some 62
  else if c = 47 then some 63
  else none

def b64Padding (text : Bytes) : ℕ :=
  (if text.getD (text.length - 1) 0 = 61 then 1 else 0) +
    if text.getD (text.length - 2) 0 = 61 then 1 else 0

/-- Canonical padded base64: the decoded size, or 0 when the text is refused. -/
def b64Size : Option Bytes → ℕ
  | none => 0
  | some text =>
    let len := text.length
    let padding := b64Padding text
    if len = 0 ∨ len % 4 ≠ 0 then 0
    else if (text.take (len - padding)).any fun c => (b64Digit c).isNone then 0
    else if padding = 2 ∧ ((b64Digit (text.getD (len - 3) 0)).getD 0) &&& 15 ≠ 0 then 0
    else if padding = 1 ∧ ((b64Digit (text.getD (len - 2) 0)).getD 0) &&& 3 ≠ 0 then 0
    else len / 4 * 3 - padding

/-! ### Entries -/

/-- What lies before and after the first `c`. -/
def memchr (c : UInt8) : Bytes → Option (Bytes × Bytes)
  | [] => none
  | x :: xs => if x = c then some ([], xs) else (memchr c xs).map fun p => (x :: p.1, p.2)

def parseEntry (seen : List Entry) (text : Bytes) : Except EnvError Entry :=
  match memchr 61 text with
  | none => .error .invalid
  | some (name, value) =>
    if name = [] then .error .invalid
    else if !name.all isNameChar then .error .invalid
    else if !value.all isPrintable then .error .invalid
    else if seen.any fun e => e.name == name then .error .invalid
    else .ok ⟨name, value⟩

/-- The entries from here on and the position of the extra NUL. `room` is how many more
entries the view can hold, so the loop is a recursion on it. -/
def parseEntries : ℕ → Bytes → List Entry → ℕ → Except EnvError (List Entry × ℕ)
  | _, [], _, _ => .error .invalid
  | room, c :: rest, seen, position =>
    if c = 0 then
      if seen = [] then .error .invalid else .ok (seen, position)
    else match room with
      | 0 => .error .invalid
      | room + 1 =>
        match memchr 0 (c :: rest) with
        | none => .error .invalid
        | some (text, rest) =>
          match parseEntry seen text with
          | .error e => .error e
          | .ok entry => parseEntries room rest (seen ++ [entry]) (position + text.length + 1)

/-- The protocol-2 fields of the entries read. -/
def parseFields (entries : List Entry) (used : ℕ) : Except EnvError View :=
  if get entries (ascii "epk_state_schema") ≠ some (ascii "1") then .error .invalid
  else match decimal (get entries (ascii "epk_state_generation")),
      decimal (get entries (ascii "epk_os_floor")),
      decimal (get entries (ascii "epk_trust_epoch")) with
    | some generation, some floor, some epoch =>
      let policySize := b64Size (get entries (ascii "epk_trust_policy"))
      if policySize = 0 ∨ 6144 < policySize ∨
          b64Size (get entries (ascii "epk_trust_policy_sig")) ≠ 64 then .error .invalid
      else .ok ⟨entries, used, generation, floor, epoch⟩
    | _, _, _ => .error .invalid

def parse (record : Record) : Except EnvError View :=
  match parseEntries maxEntries record.data [] 0 with
  | .error e => .error e
  | .ok (entries, position) =>
    let used := position + 1
    if dataSize - used < headroom then .error .capacity else parseFields entries used

/-! ### Looking up names -/

theorem mem_of_get {entries : List Entry} {name value : Bytes}
    (h : get entries name = some value) : ⟨name, value⟩ ∈ entries := by
  obtain ⟨e, he, hv⟩ := Option.map_eq_some_iff.mp h
  have hname : e.name = name := by simpa using List.find?_some he
  subst hname hv
  exact List.mem_of_find?_eq_some he

theorem get_eq_none_iff {entries : List Entry} {name : Bytes} :
    get entries name = none ↔ ∀ e ∈ entries, e.name ≠ name := by
  simp [get]

theorem get_isSome_iff {entries : List Entry} {name : Bytes} :
    (get entries name).isSome ↔ ∃ e ∈ entries, e.name = name := by
  simp [get]

/-- With unique names every entry is the one its name finds. -/
theorem get_of_mem {entries : List Entry} (hnodup : (entries.map Entry.name).Nodup)
    {e : Entry} (he : e ∈ entries) : get entries e.name = some e.value := by
  cases hget : get entries e.name with
  | none => exact absurd rfl (get_eq_none_iff.mp hget e he)
  | some value =>
    have heq := List.inj_on_of_nodup_map hnodup (mem_of_get hget) he rfl
    rw [← heq]

/-! ### What the parser accepts -/

structure EntryOk (e : Entry) : Prop where
  name_ne : e.name ≠ []
  name_chars : ∀ c ∈ e.name, isNameChar c = true
  value_chars : ∀ c ∈ e.value, isPrintable c = true

structure WellFormed (entries : List Entry) : Prop where
  entry_ok : ∀ e ∈ entries, EntryOk e
  nodup : (entries.map Entry.name).Nodup

instance (e : Entry) : Decidable (EntryOk e) :=
  decidable_of_iff ((!e.name.isEmpty && e.name.all isNameChar && e.value.all isPrintable) = true) (by
    constructor
    · intro h
      simp only [Bool.and_eq_true, List.all_eq_true] at h
      exact ⟨by simpa using h.1.1, h.1.2, h.2⟩
    · rintro ⟨hname, hchars, hprint⟩
      simpa [hname] using ⟨hchars, hprint⟩)

instance (entries : List Entry) : Decidable (WellFormed entries) :=
  decidable_of_iff ((entries.all fun e => decide (EntryOk e)) = true ∧
      (entries.map Entry.name).Nodup)
    ⟨fun h => ⟨by simpa using h.1, h.2⟩, fun h => ⟨by simpa using h.entry_ok, h.nodup⟩⟩

theorem WellFormed.nil : WellFormed [] := ⟨by simp, by simp⟩

theorem EntryOk.equals_notMem {e : Entry} (h : EntryOk e) : 61 ∉ e.name :=
  fun hmem => absurd (h.name_chars 61 hmem) (by decide)

theorem EntryOk.nul_notMem_name {e : Entry} (h : EntryOk e) : 0 ∉ e.name :=
  fun hmem => absurd (h.name_chars 0 hmem) (by decide)

theorem EntryOk.nul_notMem_value {e : Entry} (h : EntryOk e) : 0 ∉ e.value :=
  fun hmem => absurd (h.value_chars 0 hmem) (by decide)

theorem memchr_eq_some_iff {c : UInt8} {text before after : Bytes} :
    memchr c text = some (before, after) ↔ text = before ++ c :: after ∧ c ∉ before := by
  induction text generalizing before with
  | nil => simp [memchr]
  | cons x xs ih =>
    by_cases hx : x = c
    · subst hx
      cases before with
      | nil => simp [memchr]
      | cons b bs =>
        simp only [memchr, if_true, Option.some.injEq, Prod.mk.injEq, List.cons_append,
          List.cons.injEq, List.mem_cons]
        constructor
        · intro h
          exact absurd h.1 (by simp)
        · rintro ⟨⟨rfl, _⟩, hnot⟩
          exact absurd (Or.inl rfl) hnot
    · cases before with
      | nil =>
        simp only [memchr, hx, if_false, Option.map_eq_some_iff, List.nil_append,
          List.cons.injEq]
        constructor
        · rintro ⟨p, _, hp⟩
          exact absurd (congrArg Prod.fst hp) (by simp)
        · intro h
          exact absurd h.1.1 (by simp)
      | cons b bs =>
        simp only [memchr, hx, if_false, Option.map_eq_some_iff, List.cons_append,
          List.cons.injEq, List.mem_cons, not_or]
        constructor
        · rintro ⟨⟨p, q⟩, hp, heq⟩
          obtain ⟨⟨rfl, rfl⟩, rfl⟩ := by simpa using heq
          obtain ⟨rfl, hnot⟩ := ih.mp hp
          exact ⟨⟨rfl, rfl⟩, Ne.symm hx, hnot⟩
        · rintro ⟨⟨rfl, rfl⟩, _, hnot⟩
          exact ⟨(bs, after), ih.mpr ⟨rfl, hnot⟩, rfl⟩

theorem memchr_append {c : UInt8} {before after : Bytes} (h : c ∉ before) :
    memchr c (before ++ c :: after) = some (before, after) :=
  memchr_eq_some_iff.mpr ⟨rfl, h⟩

theorem parseEntry_eq_ok_iff {seen : List Entry} {text : Bytes} {e : Entry} :
    parseEntry seen text = .ok e ↔
      text = e.text ∧ EntryOk e ∧ ∀ s ∈ seen, s.name ≠ e.name := by
  unfold parseEntry
  constructor
  · intro h
    split at h
    · cases h
    · rename_i name value hsplit
      split_ifs at h with hne hchars hprint hseen
      cases h
      refine ⟨(memchr_eq_some_iff.mp hsplit).1, ⟨hne, ?_, ?_⟩, ?_⟩
      · simpa using hchars
      · simpa using hprint
      · simpa using hseen
  · rintro ⟨rfl, hok, hseen⟩
    rw [Entry.text, memchr_append hok.equals_notMem]
    have hchars : e.name.all isNameChar = true := List.all_eq_true.mpr hok.name_chars
    have hprint : e.value.all isPrintable = true := List.all_eq_true.mpr hok.value_chars
    have hfresh : (seen.any fun s => s.name == e.name) = false := by simpa using hseen
    simp [hok.name_ne, hchars, hprint, hfresh]

theorem WellFormed.snoc {entries : List Entry} (h : WellFormed entries) {e : Entry}
    (he : EntryOk e) (hnew : ∀ s ∈ entries, s.name ≠ e.name) : WellFormed (entries ++ [e]) := by
  constructor
  · intro x hx
    rcases List.mem_append.mp hx with hold | hlast
    · exact h.entry_ok x hold
    · rw [List.mem_singleton.mp hlast]
      exact he
  · rw [List.map_append, List.nodup_append]
    refine ⟨h.nodup, by simp, ?_⟩
    intro a ha b hb
    obtain ⟨s, hs, rfl⟩ := List.mem_map.mp ha
    rw [List.map_singleton, List.mem_singleton] at hb
    rw [hb]
    exact hnew s hs

/-- How the loop ends well: at the extra NUL, or by one more entry and then the same. -/
theorem parseEntries_eq_ok {room : ℕ} {data : Bytes} {seen entries : List Entry}
    {position last : ℕ} (h : parseEntries room data seen position = .ok (entries, last)) :
    (∃ rest, data = 0 :: rest ∧ seen ≠ [] ∧ entries = seen ∧ last = position) ∨
    ∃ room' text rest entry, room = room' + 1 ∧ memchr 0 data = some (text, rest) ∧ text ≠ [] ∧
      parseEntry seen text = .ok entry ∧
      parseEntries room' rest (seen ++ [entry]) (position + text.length + 1) =
        .ok (entries, last) := by
  cases data with
  | nil => simp [parseEntries] at h
  | cons c rest =>
    unfold parseEntries at h
    by_cases hc : c = 0
    · subst hc
      simp only [if_true] at h
      split_ifs at h with hseen
      cases h
      exact Or.inl ⟨rest, rfl, hseen, rfl, rfl⟩
    · simp only [if_neg hc] at h
      split at h
      · cases h
      · rename_i room'
        split at h
        · cases h
        · rename_i text rest' hmem
          split at h
          · cases h
          · rename_i entry hentry
            refine Or.inr ⟨room', text, rest', entry, rfl, hmem, ?_, hentry, h⟩
            rintro rfl
            have heq := (memchr_eq_some_iff.mp hmem).1
            exact hc (List.cons.inj heq).1

theorem parseEntries_wellFormed {room : ℕ} {data : Bytes} {seen entries : List Entry}
    {position last : ℕ} (hseen : WellFormed seen)
    (h : parseEntries room data seen position = .ok (entries, last)) :
    WellFormed entries := by
  induction room generalizing data seen position with
  | zero =>
    rcases parseEntries_eq_ok h with ⟨_, _, _, rfl, _⟩ | ⟨room', _, _, _, hroom, _⟩
    · exact hseen
    · omega
  | succ room ih =>
    rcases parseEntries_eq_ok h with ⟨_, _, _, rfl, _⟩ | ⟨_, _, _, entry, hroom, _, _, hentry, hrest⟩
    · exact hseen
    · obtain ⟨_, hok, hnew⟩ := parseEntry_eq_ok_iff.mp hentry
      cases hroom
      exact ih (hseen.snoc hok hnew) hrest

/-! ### A turn of the loop -/

section Turn

variable {room position : ℕ} {text rest : Bytes} {seen : List Entry}

theorem memchr_notMem {c : UInt8} (h : c ∉ text) : memchr c text = none := by
  cases hsplit : memchr c text with
  | none => rfl
  | some parts =>
    have heq := (memchr_eq_some_iff.mp hsplit).1
    exact absurd (by rw [heq]; simp) h

theorem parseEntry_noEquals (h : 61 ∉ text) : parseEntry seen text = .error .invalid := by
  rw [parseEntry, memchr_notMem h]

theorem parseEntries_unended (hne : text ≠ []) (hnul : 0 ∉ text) :
    parseEntries room text seen position = .error .invalid := by
  obtain ⟨c, cs, rfl⟩ := List.exists_cons_of_ne_nil hne
  have hc : c ≠ 0 := fun hc => hnul (by simp [hc])
  unfold parseEntries
  rw [if_neg hc, memchr_notMem hnul]
  cases room <;> rfl

theorem parseEntries_full (hne : text ≠ []) (hnul : 0 ∉ text) :
    parseEntries 0 (text ++ 0 :: rest) seen position = .error .invalid := by
  obtain ⟨c, cs, rfl⟩ := List.exists_cons_of_ne_nil hne
  have hc : c ≠ 0 := fun hc => hnul (by simp [hc])
  rw [List.cons_append]
  unfold parseEntries
  rw [if_neg hc]

/-- With room, a text up to its NUL is one entry, and the loop goes on behind it. -/
theorem parseEntries_ended (hne : text ≠ []) (hnul : 0 ∉ text) :
    parseEntries (room + 1) (text ++ 0 :: rest) seen position =
      match parseEntry seen text with
      | .error e => .error e
      | .ok e => parseEntries room rest (seen ++ [e]) (position + text.length + 1) := by
  have hsplit : memchr 0 (text ++ 0 :: rest) = some (text, rest) := memchr_append hnul
  obtain ⟨c, cs, rfl⟩ := List.exists_cons_of_ne_nil hne
  have hc : c ≠ 0 := fun hc => hnul (by simp [hc])
  rw [List.cons_append] at hsplit ⊢
  rw [parseEntries, if_neg hc]
  cases hentry : parseEntry seen (c :: cs) with
  | error e => simp only [hsplit, hentry]
  | ok e => simp only [hsplit, hentry]

end Turn

/-! ### Serialized entries -/

/-- The payload text of some lines, each closed by its NUL. -/
def lines (texts : List Bytes) : Bytes := texts.flatMap fun t => t ++ [0]

@[simp] theorem lines_nil : lines [] = [] := rfl

@[simp] theorem lines_cons (t : Bytes) (ts : List Bytes) : lines (t :: ts) = t ++ 0 :: lines ts := by
  simp [lines]

theorem lines_append (ts us : List Bytes) : lines (ts ++ us) = lines ts ++ lines us := by
  simp [lines]

theorem lines_length (texts : List Bytes) :
    (lines texts).length = (texts.map fun t => t.length + 1).sum := by
  induction texts with
  | nil => rfl
  | cons t ts ih =>
    rw [lines_cons, List.map_cons, List.sum_cons, ← ih, List.length_append, List.length_cons]
    omega

/-- The size of a payload does not depend on the order of its lines. -/
theorem lines_length_perm {texts texts' : List Bytes} (h : texts.Perm texts') :
    (lines texts).length = (lines texts').length := by
  rw [lines_length, lines_length, (h.map _).sum_nat]

/-- The parser has room for every entry it reads and counts their lines. -/
theorem parseEntries_size {room : ℕ} {data : Bytes} {seen entries : List Entry}
    {position last : ℕ} (h : parseEntries room data seen position = .ok (entries, last)) :
    ∃ new, entries = seen ++ new ∧ new.length ≤ room ∧
      last = position + (lines (new.map Entry.text)).length := by
  induction room generalizing data seen position with
  | zero =>
    rcases parseEntries_eq_ok h with ⟨_, _, _, rfl, rfl⟩ | ⟨_, _, _, _, hroom, _⟩
    · exact ⟨[], by simp⟩
    · cases hroom
  | succ room ih =>
    rcases parseEntries_eq_ok h with ⟨_, _, _, rfl, rfl⟩ | ⟨_, _, _, e, hroom, _, _, hentry, hrest⟩
    · exact ⟨[], by simp⟩
    · cases hroom
      obtain ⟨rfl, _, _⟩ := parseEntry_eq_ok_iff.mp hentry
      obtain ⟨new, rfl, hlength, rfl⟩ := ih hrest
      refine ⟨e :: new, by simp, by simpa using hlength, ?_⟩
      simp only [List.map_cons, lines_cons, List.length_append, List.length_cons]
      omega

/-- Whatever the parser reads from serialized lines, it reads one entry a line, in order. -/
theorem parseEntries_lines {texts : List Bytes} {room : ℕ} {tail : Bytes}
    {seen entries : List Entry} {position last : ℕ} (htexts : ∀ t ∈ texts, t ≠ [] ∧ 0 ∉ t)
    (h : parseEntries room (lines texts ++ 0 :: tail) seen position = .ok (entries, last)) :
    ∃ new, entries = seen ++ new ∧ new.map Entry.text = texts ∧
      last = position + (lines texts).length := by
  induction texts generalizing room seen position with
  | nil =>
    rw [lines_nil, List.nil_append] at h
    unfold parseEntries at h
    rw [if_pos rfl] at h
    split_ifs at h
    cases h
    exact ⟨[], by simp⟩
  | cons t ts ih =>
    obtain ⟨hne, hnul⟩ := htexts t (List.mem_cons_self ..)
    rw [lines_cons, List.append_assoc, List.cons_append] at h
    cases room with
    | zero =>
      rw [parseEntries_full hne hnul] at h
      cases h
    | succ room =>
      rw [parseEntries_ended hne hnul] at h
      cases hentry : parseEntry seen t with
      | error e =>
        rw [hentry] at h
        cases h
      | ok entry =>
        rw [hentry] at h
        obtain ⟨new, rfl, hnew, rfl⟩ := ih (fun u hu => htexts u (List.mem_cons_of_mem _ hu)) h
        refine ⟨entry :: new, by simp, ?_, by simp; omega⟩
        rw [List.map_cons, hnew, ← (parseEntry_eq_ok_iff.mp hentry).1]

/-- Well-formed entries that fit are read back from their serialization. -/
theorem parseEntries_serialized {new : List Entry} {room : ℕ} {tail : Bytes} {seen : List Entry}
    {position : ℕ} (hall : WellFormed (seen ++ new)) (hroom : new.length ≤ room)
    (hne : seen ++ new ≠ []) :
    parseEntries room (lines (new.map Entry.text) ++ 0 :: tail) seen position =
      .ok (seen ++ new, position + (lines (new.map Entry.text)).length) := by
  induction new generalizing room seen position with
  | nil =>
    have hseen : seen ≠ [] := by simpa using hne
    unfold parseEntries
    simp [hseen]
  | cons e es ih =>
    obtain ⟨room, rfl⟩ : ∃ n, room = n + 1 := ⟨room - 1, by simp at hroom; omega⟩
    have hok : EntryOk e := hall.entry_ok e (by simp)
    have hnul : 0 ∉ e.text := by
      simp [Entry.text, hok.nul_notMem_name, hok.nul_notMem_value]
    have hfresh : ∀ s ∈ seen, s.name ≠ e.name := by
      have hnodup := hall.nodup
      rw [List.map_append, List.nodup_append] at hnodup
      intro s hs
      exact hnodup.2.2 s.name (List.mem_map_of_mem hs) e.name (by simp)
    have hentry := parseEntry_eq_ok_iff.mpr ⟨rfl, hok, hfresh⟩
    have hall' : WellFormed ((seen ++ [e]) ++ es) := by simpa using hall
    have hrest : parseEntries room (lines (es.map Entry.text) ++ 0 :: tail) (seen ++ [e])
        (position + e.text.length + 1) = _ :=
      ih hall' (by simpa using hroom) (by simp)
    rw [List.map_cons, lines_cons, List.append_assoc, List.cons_append,
      parseEntries_ended (by simp [Entry.text]) hnul, hentry]
    simp only [hrest]
    simp
    omega

/-- With room for all lines, more room changes nothing. -/
theorem parseEntries_room {texts : List Bytes} {room room' : ℕ} {tail : Bytes}
    {seen : List Entry} {position : ℕ} (htexts : ∀ t ∈ texts, t ≠ [] ∧ 0 ∉ t)
    (hroom : texts.length ≤ room) (hroom' : texts.length ≤ room') :
    parseEntries room (lines texts ++ 0 :: tail) seen position =
      parseEntries room' (lines texts ++ 0 :: tail) seen position := by
  induction texts generalizing room room' seen position with
  | nil =>
    rw [lines_nil, List.nil_append]
    unfold parseEntries
    rw [if_pos rfl, if_pos rfl]
  | cons t ts ih =>
    obtain ⟨n, rfl⟩ : ∃ n, room = n + 1 := ⟨room - 1, by simp at hroom; omega⟩
    obtain ⟨n', rfl⟩ : ∃ n, room' = n + 1 := ⟨room' - 1, by simp at hroom'; omega⟩
    obtain ⟨hne, hnul⟩ := htexts t (List.mem_cons_self ..)
    rw [lines_cons, List.append_assoc, List.cons_append, parseEntries_ended hne hnul,
      parseEntries_ended hne hnul]
    cases parseEntry seen t with
    | error e => rfl
    | ok entry =>
      exact ih (fun u hu => htexts u (List.mem_cons_of_mem _ hu)) (by simpa using hroom)
        (by simpa using hroom')

theorem parseEntry_error {seen : List Entry} {text : Bytes} {e : EnvError}
    (h : parseEntry seen text = .error e) : e = .invalid := by
  unfold parseEntry at h
  split at h
  · cases h
    rfl
  · split_ifs at h
    · cases h
      rfl
    · cases h
      rfl
    · cases h
      rfl
    · cases h
      rfl

/-- The loop has one refusal. -/
theorem parseEntries_error {room : ℕ} {data : Bytes} {seen : List Entry} {position : ℕ}
    {e : EnvError} (h : parseEntries room data seen position = .error e) : e = .invalid := by
  induction room generalizing data seen position with
  | zero =>
    cases data with
    | nil =>
      cases h
      rfl
    | cons c rest =>
      unfold parseEntries at h
      split_ifs at h
      · cases h
        rfl
      · cases h
        rfl
  | succ room ih =>
    cases data with
    | nil =>
      cases h
      rfl
    | cons c rest =>
      unfold parseEntries at h
      split_ifs at h
      · cases h
        rfl
      · simp only at h
        split at h
        · cases h
          rfl
        · split at h
          · rename_i hentry
            cases h
            exact parseEntry_error hentry
          · exact ih h

theorem parseFields_error {entries : List Entry} {used : ℕ} {e : EnvError}
    (h : parseFields entries used = .error e) : e = .invalid := by
  unfold parseFields at h
  split_ifs at h
  · cases h
    rfl
  · split at h
    · simp only at h
      split_ifs at h
      cases h
      rfl
    · cases h
      rfl

/-! ### Whole records -/

/-- What the parser guarantees of a view it returns. -/
structure View.Ok (v : View) : Prop where
  wellFormed : WellFormed v.entries
  used_le : v.used + headroom ≤ dataSize
  schema : get v.entries (ascii "epk_state_schema") = some (ascii "1")
  generation : decimal (get v.entries (ascii "epk_state_generation")) = some v.generation
  floor : decimal (get v.entries (ascii "epk_os_floor")) = some v.floor
  epoch : decimal (get v.entries (ascii "epk_trust_epoch")) = some v.epoch
  policy_pos : 0 < b64Size (get v.entries (ascii "epk_trust_policy"))
  policy_le : b64Size (get v.entries (ascii "epk_trust_policy")) ≤ 6144
  policySig : b64Size (get v.entries (ascii "epk_trust_policy_sig")) = 64

theorem parse_eq_ok {r : Record} {v : View} (h : parse r = .ok v) :
    ∃ position, parseEntries maxEntries r.data [] 0 = .ok (v.entries, position) ∧ v.Ok := by
  unfold parse at h
  split at h
  · cases h
  · rename_i entries position hentries
    simp only at h
    split_ifs at h with hroom
    unfold parseFields at h
    split_ifs at h with hschema
    split at h
    · rename_i generation floor epoch hgeneration hfloor hepoch
      simp only at h
      split_ifs at h with hsize
      cases h
      simp only [not_or, not_lt, not_not] at hsize hschema
      refine ⟨position, hentries, ?_⟩
      exact {
        wellFormed := parseEntries_wellFormed WellFormed.nil hentries
        used_le := by simp only [headroom] at hroom ⊢; omega
        schema := hschema
        generation := hgeneration
        floor := hfloor
        epoch := hepoch
        policy_pos := Nat.pos_of_ne_zero hsize.1
        policy_le := hsize.2.1
        policySig := hsize.2.2
      }
    · cases h

theorem parse_ok {r : Record} {v : View} (h : parse r = .ok v) : v.Ok :=
  (parse_eq_ok h).choose_spec.2

/-- The view's entries fit the table, and `used` is what they take with the extra NUL. -/
theorem parse_size {r : Record} {v : View} (h : parse r = .ok v) :
    v.entries.length ≤ maxEntries ∧ v.used = (lines (v.entries.map Entry.text)).length + 1 := by
  unfold parse at h
  split at h
  · cases h
  · rename_i entries position hentries
    obtain ⟨new, rfl, hlength, rfl⟩ := parseEntries_size hentries
    simp only at h
    unfold parseFields at h
    split_ifs at h
    split at h
    · simp only at h
      split_ifs at h
      cases h
      exact ⟨hlength, by simp⟩
    · cases h

/-- The fields are read by name. -/
theorem parseFields_ok {entries : List Entry} {used generation floor epoch : ℕ}
    (hschema : get entries (ascii "epk_state_schema") = some (ascii "1"))
    (hgeneration : decimal (get entries (ascii "epk_state_generation")) = some generation)
    (hfloor : decimal (get entries (ascii "epk_os_floor")) = some floor)
    (hepoch : decimal (get entries (ascii "epk_trust_epoch")) = some epoch)
    (hpos : 0 < b64Size (get entries (ascii "epk_trust_policy")))
    (hle : b64Size (get entries (ascii "epk_trust_policy")) ≤ 6144)
    (hsig : b64Size (get entries (ascii "epk_trust_policy_sig")) = 64) :
    parseFields entries used = .ok ⟨entries, used, generation, floor, epoch⟩ := by
  rw [parseFields, if_neg (not_not.mpr hschema), hgeneration, hfloor, hepoch]
  simp only
  rw [if_neg]
  omega

/-- Values a record can hold: they fit, and they carry the protocol-2 fields. -/
structure Storable (values : List Entry) (v : View) : Prop where
  wellFormed : WellFormed values
  length_le : values.length ≤ maxEntries
  room : (lines (values.map Entry.text)).length + 1 + headroom ≤ dataSize
  fields : parseFields values ((lines (values.map Entry.text)).length + 1) = .ok v

theorem Storable.ne_nil {values : List Entry} {v : View} (h : Storable values v) :
    values ≠ [] := by
  rintro rfl
  exact absurd h.fields (by simp [parseFields, get])

/-- Stored values are read back, whatever follows the extra NUL. -/
theorem Storable.parse_eq {values : List Entry} {v : View} (h : Storable values v) {r : Record}
    (tail : Bytes) (hdata : r.data = lines (values.map Entry.text) ++ 0 :: tail) :
    parse r = .ok v := by
  have hroom := h.room
  have hwf : WellFormed ([] ++ values) := h.wellFormed
  have hentries : parseEntries maxEntries (lines (values.map Entry.text) ++ 0 :: tail) [] 0 = _ :=
    parseEntries_serialized hwf h.length_le (by simpa using h.ne_nil)
  simp only [List.nil_append, Nat.zero_add] at hentries
  rw [parse, hdata, hentries]
  simp only
  rw [if_neg (by omega), h.fields]

/-- Only the payload is parsed. -/
theorem parse_congr {r s : Record} (h : r.data = s.data) : parse r = parse s := by
  simp only [parse, h]

@[simp] theorem parse_setFlag (r : Record) (f : UInt8) : parse (r.setFlag f) = parse r :=
  parse_congr rfl

@[simp] theorem parse_setCrc (r : Record) : parse r.setCrc = parse r := parse_congr rfl

end Epilykos.PlatformEnv
