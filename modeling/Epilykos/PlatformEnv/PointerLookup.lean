import Epilykos.Lib.Pointers
import Epilykos.PlatformEnv.Build

/-!
The environment guard as it works in memory: the views with their pointers into a record, and
looking names up in them. A view and the entries that the parser is modelled with elsewhere
say the same as long as the record is not written.
-/

namespace Epilykos.PlatformEnv.Pointer

open Checked

/-- The arrays of a commit: the two records, the desired record of a snapshot, the next
record, the arena of names, the digits of a generation, and the strings of the caller. -/
inductive Place
  | record (i : Index)
  | desired
  | next
  | names
  | generation
  | text (number size : ℕ)
  deriving DecidableEq

def Place.size : Place → ℕ
  | .record _ | .desired | .next | .names => envSize
  | .generation => 21
  | .text _ size => size

abbrev Memory := Checked.Memory Place Place.size

abbrev Ptr := Checked.Ptr Place

abbrev Run := Checked.Run EnvError

/-- A string of the source. -/
def lit (s : String) : Ptr := .literal (ascii s)

structure Entry where
  name : Ptr
  value : Ptr
  nameSize : ℕ

structure View where
  entries : Vector Entry maxEntries
  count : ℕ
  used : ℕ
  generation : ℕ
  floor : ℕ
  epoch : ℕ

section Source

variable (steps : ℕ) (m : Memory)

def nameEqual (entry : Entry) (name : Ptr) : Run Bool := do
  if (← m.strlen name) = entry.nameSize then
    return !(← m.memcmp entry.name name entry.nameSize)
  else return false

/-- Two entries of one name. -/
def sameName (a b : Entry) : Run Bool := do
  if a.nameSize = b.nameSize then return !(← m.memcmp a.name b.name a.nameSize)
  else return false

/-- The value of the first entry that passes a test. -/
def find (view : View) (test : Entry → Run Bool) : Run (Option Ptr) := do
  match ← search steps 0 view.count (fun i _ => do
      let entry ← item view.entries i
      if (← test entry) = true then return .exit entry.value else return .next ()) () with
  | .exit value => return some value
  | .next _ => return none

def get (view : View) (name : Ptr) : Run (Option Ptr) :=
  find steps view fun entry => nameEqual m entry name

def equivalent (view : View) (entry : Entry) : Run (Option Ptr) :=
  find steps view fun other => sameName m entry other

end Source

/-! ### What a view says -/

/-- The entry's text lies at its pointers, with a NUL behind it. -/
structure Entry.Holds (m : Memory) (c : Entry) (e : PlatformEnv.Entry) : Prop where
  text : m.At c.name (e.text ++ [0])
  size : c.nameSize = e.name.length
  value : c.value = ⟨c.name.block, c.name.offset + (e.name.length + 1)⟩
  noNul : 0 ∉ e.value

/-- The entries of a view, in the array `b`. -/
structure View.Holds (m : Memory) (b : Place) (c : View) (entries : List PlatformEnv.Entry) :
    Prop where
  count : c.count = entries.length
  length_le : entries.length ≤ maxEntries
  entry : ∀ i (h : i < entries.length), ∀ h' : i < maxEntries,
    c.entries[i].Holds m entries[i] ∧ c.entries[i].name.block = .array b

/-- A pointer that may be NULL, and the string it stands for. -/
inductive OptText (m : Memory) (ok : Block Place → Prop) : Option Ptr → Option Bytes → Prop
  | none : OptText m ok none none
  | some {p : Ptr} {s : Bytes} : m.Text p s → ok p.block → OptText m ok (some p) (some s)

variable {steps : ℕ} {m m' : Memory} {b : Place} {c : Entry} {e : PlatformEnv.Entry}

theorem Entry.Holds.name_at (h : c.Holds m e) : m.At c.name e.name := by
  have htext := h.text
  rw [PlatformEnv.Entry.text, List.append_assoc] at htext
  exact htext.left

theorem Entry.Holds.value_text (h : c.Holds m e) : m.Text c.value e.value := by
  have htext := h.text
  have hsplit : e.text ++ [0] = (e.name ++ [61]) ++ (e.value ++ [0]) := by
    simp [PlatformEnv.Entry.text]
  rw [hsplit] at htext
  have hright := htext.right
  rw [List.length_append, List.length_singleton] at hright
  rw [h.value]
  exact ⟨hright, h.noNul⟩

theorem Entry.Holds.value_block (h : c.Holds m e) : c.value.block = c.name.block := by
  rw [h.value]

theorem Entry.Holds.frame (h : c.Holds m e) (hsame : m.SameBut b m')
    (hb : c.name.block ≠ .array b) : c.Holds m' e :=
  ⟨hsame.at hb h.text, h.size, h.value, h.noNul⟩

theorem View.Holds.frame {view : View} {entries : List PlatformEnv.Entry} {b' : Place}
    (h : view.Holds m b entries) (hsame : m.SameBut b' m') (hb : b ≠ b') :
    view.Holds m' b entries := by
  refine ⟨h.count, h.length_le, fun i hi hi' => ?_⟩
  obtain ⟨hholds, hblock⟩ := h.entry i hi hi'
  refine ⟨hholds.frame hsame ?_, hblock⟩
  rw [hblock]
  exact fun heq => hb (Block.array.inj heq)

theorem OptText.frame {ok : Block Place → Prop} {p : Option Ptr} {s : Option Bytes}
    (h : OptText m ok p s) (hsame : m.SameBut b m') (hb : ¬ ok (.array b)) : OptText m' ok p s := by
  cases h with
  | none => exact .none
  | some htext hok =>
    refine .some (hsame.text ?_ htext) hok
    intro heq
    exact hb (heq ▸ hok)

theorem OptText.weaken {ok ok' : Block Place → Prop} {p : Option Ptr} {s : Option Bytes}
    (h : OptText m ok p s) (hok : ∀ c, ok c → ok' c) : OptText m ok' p s := by
  cases h with
  | none => exact .none
  | some htext h => exact .some htext (hok _ h)

/-! ### Comparing names -/

theorem nameEqual_eq {name : Ptr} {s : Bytes} (h : c.Holds m e) (hname : m.Text name s) :
    nameEqual m c name = .ok (e.name == s) := by
  have hlen := hname.strlen (ε := EnvError)
  rw [nameEqual, hlen, ok_bind, h.size]
  by_cases heq : s.length = e.name.length
  · rw [if_pos heq, h.name_at.memcmp hname.at_nul.left rfl heq, ok_bind, bne, Bool.not_not]
    rfl
  · rw [if_neg heq]
    have hne : e.name ≠ s := fun hs => heq (congrArg List.length hs.symm)
    rw [beq_false_of_ne hne]
    rfl

theorem sameName_eq {c' : Entry} {e' : PlatformEnv.Entry} (h : c.Holds m e) (h' : c'.Holds m e') :
    sameName m c c' = .ok (e.name == e'.name) := by
  rw [sameName, h.size, h'.size]
  by_cases heq : e.name.length = e'.name.length
  · rw [if_pos heq, h.name_at.memcmp h'.name_at rfl heq.symm, ok_bind, bne, Bool.not_not]
    rfl
  · rw [if_neg heq]
    have hne : e.name ≠ e'.name := fun hs => heq (congrArg List.length hs)
    rw [beq_false_of_ne hne]
    rfl

section Find

variable {view : View} {entries : List PlatformEnv.Entry}

theorem find_ends {test : Entry → Run Bool} {p : PlatformEnv.Entry → Bool}
    (h : view.Holds m b entries) (hsteps : maxEntries < steps)
    (htest : ∀ c e, c.Holds m e → test c = .ok (p e)) {E : EnvError → Prop} :
    Ends (find steps view test)
      (fun r => OptText m (· = .array b) r ((entries.find? p).map PlatformEnv.Entry.value)) E := by
  have hle := h.length_le
  rw [find, h.count]
  refine Ends.bind (Ends.searchList (p := p)
    (fun e value => m.Text value e.value ∧ value.block = .array b) (by omega) ?_) ?_
  · intro i hi
    obtain ⟨hholds, hblock⟩ := h.entry i hi (by omega)
    rw [item_eq (show i < maxEntries by omega), ok_bind, htest _ _ hholds, ok_bind]
    by_cases hp : p entries[i] = true
    · rw [if_pos hp]
      exact ⟨hp, hholds.value_text, hholds.value_block.trans hblock⟩
    · rw [if_neg hp]
      exact Bool.eq_false_iff.mpr hp
  · intro r hr
    cases r with
    | exit value =>
      obtain ⟨e, he, htext, hblock⟩ := hr
      rw [he]
      exact .some htext hblock
    | next s =>
      rw [hr]
      exact .none

theorem get_ends {name : Ptr} {s : Bytes} (h : view.Holds m b entries)
    (hsteps : maxEntries < steps) (hname : m.Text name s) {E : EnvError → Prop} :
    Ends (get steps m view name)
      (fun r => OptText m (· = .array b) r (PlatformEnv.get entries s)) E :=
  find_ends h hsteps fun _ _ hc => nameEqual_eq hc hname

theorem equivalent_ends {c : Entry} {e : PlatformEnv.Entry} (h : view.Holds m b entries)
    (hsteps : maxEntries < steps) (hc : c.Holds m e) {E : EnvError → Prop} :
    Ends (equivalent steps m view c)
      (fun r => OptText m (· = .array b) r (PlatformEnv.get entries e.name)) E := by
  refine Ends.mono (find_ends (p := fun o => e.name == o.name) h hsteps
    fun _ _ ho => sameName_eq hc ho) ?_ fun _ he => he
  intro r hr
  have hsymm : (fun o : PlatformEnv.Entry => e.name == o.name) = fun o => o.name == e.name := by
    funext o
    exact Bool.beq_comm
  rwa [hsymm] at hr

end Find

theorem lit_text {s : String} (h : 0 ∉ ascii s) : m.Text (lit s) (ascii s) := Memory.text_literal h

end Epilykos.PlatformEnv.Pointer
