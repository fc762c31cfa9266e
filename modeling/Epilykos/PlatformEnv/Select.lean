import Epilykos.PlatformEnv.Parse

/-!
Which of the two records counts. A record whose CRC fails is ignored; a CRC-valid record that
does not parse is an error even if the other one parses. Between two good records the greater
generation wins if it takes nothing back, and equal generations must agree on every epk_*
entry before the wrapping active flag decides.
-/

namespace Epilykos.PlatformEnv

/-- Which copy: offset A or offset B. -/
inductive Index
  | a
  | b
  deriving DecidableEq, Repr

/-- 1 - index. -/
def Index.other : Index → Index
  | .a => .b
  | .b => .a

@[simp] theorem Index.other_other (i : Index) : i.other.other = i := by cases i <;> rfl

@[simp] theorem Index.other_ne (i : Index) : i.other ≠ i := by cases i <;> simp [Index.other]

@[simp] theorem Index.ne_other (i : Index) : i ≠ i.other := by cases i <;> simp [Index.other]

theorem Index.eq_or_eq_other (i j : Index) : i = j ∨ i = j.other := by
  cases i <;> cases j <;> simp [Index.other]

/-- The two records on the card. -/
abbrev Device := Index → Record

structure Selection where
  index : Index
  generation : ℕ
  osFloor : ℕ
  trustEpoch : ℕ
  used : ℕ
  deriving DecidableEq, Repr

def notOlder (newer older : View) : Bool :=
  if newer.floor < older.floor ∨ newer.epoch < older.epoch then false
  else if newer.epoch = older.epoch ∧
      (get newer.entries (ascii "epk_trust_policy") ≠ get older.entries (ascii "epk_trust_policy") ∨
        get newer.entries (ascii "epk_trust_policy_sig") ≠
          get older.entries (ascii "epk_trust_policy_sig")) then false
  else true

def selection (view : View) (index : Index) : Selection :=
  ⟨index, view.generation, view.floor, view.epoch, view.used⟩

/-- U-Boot's incremental active flag, including 255 -> 0. -/
def newerFlag (a b : UInt8) : Index :=
  if a = 255 ∧ b = 0 then .b
  else if a = 0 ∧ b = 255 then .a
  else if a < b then .b else .a

/-- A record that counts, or nothing when its CRC fails. -/
def validView (r : Record) : Except EnvError (Option View) :=
  if r.crcValid then (parse r).map some else .ok none

/-- The chosen index with its view. -/
def choose (a b : Record) : Except EnvError (Index × View) :=
  match validView a, validView b with
  | .error e, _ => .error e
  | _, .error e => .error e
  | .ok none, .ok none => .error .invalid
  | .ok (some va), .ok none => .ok (.a, va)
  | .ok none, .ok (some vb) => .ok (.b, vb)
  | .ok (some va), .ok (some vb) =>
    if va.generation ≠ vb.generation then
      if va.generation < vb.generation then
        if notOlder vb va then .ok (.b, vb) else .error .conflict
      else if notOlder va vb then .ok (.a, va) else .error .conflict
    else if !sameCritical va vb then .error .conflict
    else match newerFlag a.flag b.flag with
      | .a => .ok (.a, va)
      | .b => .ok (.b, vb)

def epkEnvSelect (a b : Record) : Except EnvError Selection :=
  (choose a b).map fun c => selection c.2 c.1

/-! ### The order between views -/

/-- The policy and its signature as stored. -/
def View.policyPair (v : View) : Option Bytes × Option Bytes :=
  (get v.entries (ascii "epk_trust_policy"), get v.entries (ascii "epk_trust_policy_sig"))

/-- `newer` takes back neither floor nor epoch, nor a policy within its epoch. -/
structure NotOlder (newer older : View) : Prop where
  floor_le : older.floor ≤ newer.floor
  epoch_le : older.epoch ≤ newer.epoch
  policy_eq : older.epoch = newer.epoch → newer.policyPair = older.policyPair

theorem notOlder_iff {newer older : View} : notOlder newer older = true ↔ NotOlder newer older := by
  unfold notOlder
  constructor
  · intro h
    split_ifs at h with hlt hpolicy
    simp only [not_or, not_lt] at hlt
    refine ⟨hlt.1, hlt.2, fun heq => ?_⟩
    simp only [heq, true_and, not_or, not_not] at hpolicy
    exact Prod.ext hpolicy.1 hpolicy.2
  · rintro ⟨hfloor, hepoch, hpolicy⟩
    rw [if_neg (by omega), if_neg]
    rintro ⟨heq, hne⟩
    have hpair := hpolicy heq.symm
    simp only [View.policyPair, Prod.mk.injEq] at hpair
    exact hne.elim (fun h => h hpair.1) (fun h => h hpair.2)

theorem NotOlder.refl (v : View) : NotOlder v v := ⟨Nat.le_refl _, Nat.le_refl _, fun _ => rfl⟩

theorem NotOlder.trans {u v w : View} (huv : NotOlder v u) (hvw : NotOlder w v) : NotOlder w u := by
  refine ⟨huv.floor_le.trans hvw.floor_le, huv.epoch_le.trans hvw.epoch_le, fun heq => ?_⟩
  have h1 := huv.epoch_le
  have h2 := hvw.epoch_le
  rw [hvw.policy_eq (by omega), huv.policy_eq (by omega)]

/-- Two views agree on every epk_* name. -/
def SameCritical (v w : View) : Prop :=
  ∀ name, isCritical name = true → get v.entries name = get w.entries name

theorem SameCritical.refl (v : View) : SameCritical v v := fun _ _ => rfl

theorem SameCritical.symm {v w : View} (h : SameCritical v w) : SameCritical w v :=
  fun name hname => (h name hname).symm

theorem SameCritical.trans {u v w : View} (huv : SameCritical u v) (hvw : SameCritical v w) :
    SameCritical u w :=
  fun name hname => (huv name hname).trans (hvw name hname)

theorem sameCritical_iff {v w : View} (hv : WellFormed v.entries) :
    sameCritical v w = true ↔ SameCritical v w := by
  simp only [sameCritical, Bool.and_eq_true, List.all_eq_true, Bool.or_eq_true,
    Bool.not_eq_true', beq_iff_eq]
  constructor
  · rintro ⟨hvw, hwv⟩ name hname
    cases hget : get v.entries name with
    | some value =>
      have h := hvw _ (mem_of_get hget)
      simp only [hname, Bool.true_eq_false, false_or] at h
      exact h.symm
    | none =>
      cases hother : get w.entries name with
      | none => rfl
      | some value =>
        have h := hwv _ (mem_of_get hother)
        simp [hname, hget] at h
  · intro h
    refine ⟨fun e he => ?_, fun e he => ?_⟩
    · cases hc : isCritical e.name with
      | false => exact Or.inl rfl
      | true => exact Or.inr ((h e.name hc).symm.trans (get_of_mem hv.nodup he))
    · cases hc : isCritical e.name with
      | false => exact Or.inl rfl
      | true =>
        refine Or.inr ?_
        rw [h e.name hc]
        exact get_isSome_iff.mpr ⟨e, he, rfl⟩

/-! ### Choosing -/

private theorem toNat_succ_flag {f : UInt8} (h : f ≠ 255) : (f + 1).toNat = f.toNat + 1 := by
  have hne : f.toNat ≠ 255 := fun heq => h (UInt8.toNat_inj.mp heq)
  have hbound := f.toNat_lt
  rw [UInt8.toNat_add, UInt8.toNat_one]
  omega

theorem newerFlag_succ_right (f : UInt8) : newerFlag f (f + 1) = .b := by
  by_cases h : f = 255
  · subst h
    rfl
  · have hsucc := toNat_succ_flag h
    have hlt : f < f + 1 := by
      rw [UInt8.lt_iff_toNat_lt]
      omega
    have hne : f + 1 ≠ 0 := fun hz => by simp [hz] at hsucc
    rw [newerFlag, if_neg (fun hw => h hw.1), if_pos hlt]
    rw [if_neg]
    rintro ⟨rfl, hw⟩
    exact absurd hw (by decide)

theorem newerFlag_succ_left (f : UInt8) : newerFlag (f + 1) f = .a := by
  by_cases h : f = 255
  · subst h
    rfl
  · have hsucc := toNat_succ_flag h
    have hlt : ¬ f + 1 < f := by
      rw [UInt8.lt_iff_toNat_lt]
      omega
    rw [newerFlag, if_neg, if_neg hlt]
    · simp
    · rintro ⟨hw, rfl⟩
      exact absurd hw (by decide)

theorem validView_of_invalid {r : Record} (h : r.crcValid = false) : validView r = .ok none := by
  simp [validView, h]

theorem validView_of_parse {r : Record} {v : View} (hc : r.crcValid = true)
    (hp : parse r = .ok v) : validView r = .ok (some v) := by
  simp [validView, hc, hp, Except.map]

theorem validView_eq_some {r : Record} {v : View} (h : validView r = .ok (some v)) :
    r.crcValid = true ∧ parse r = .ok v := by
  unfold validView at h
  split_ifs at h with hc
  · cases hp : parse r with
    | error e => simp [hp, Except.map] at h
    | ok w => simpa [hp, Except.map, hc] using h
  · cases h

theorem validView_eq_none {r : Record} (h : validView r = .ok none) : r.crcValid = false := by
  unfold validView at h
  split_ifs at h with hc
  · cases hp : parse r <;> simp [hp, Except.map] at h
  · simpa using hc

/-- `choose` on a pair of records. -/
def Device.choose (d : Device) : Except EnvError (Index × View) :=
  PlatformEnv.choose (d .a) (d .b)

def Device.select (d : Device) : Except EnvError Selection := epkEnvSelect (d .a) (d .b)

/-- How the other record stands to the chosen view: it does not count, it is an older
generation, or it is the same generation with the same epk_* entries. -/
def Supersedes (v : View) (other : Record) : Prop :=
  other.crcValid = false ∨ ∃ w, other.crcValid = true ∧ parse other = .ok w ∧
    (w.generation < v.generation ∧ NotOlder v w ∨
      w.generation = v.generation ∧ SameCritical v w)

theorem Device.choose_ok {d : Device} {c : Index} {v : View} (h : d.choose = .ok (c, v)) :
    (d c).crcValid = true ∧ parse (d c) = .ok v ∧ Supersedes v (d c.other) := by
  unfold Device.choose PlatformEnv.choose at h
  split at h
  · cases h
  · cases h
  · cases h
  · rename_i va ha hb
    cases h
    exact ⟨(validView_eq_some ha).1, (validView_eq_some ha).2, Or.inl (validView_eq_none hb)⟩
  · rename_i vb ha hb
    cases h
    exact ⟨(validView_eq_some hb).1, (validView_eq_some hb).2, Or.inl (validView_eq_none ha)⟩
  · rename_i va vb ha hb
    obtain ⟨hca, hpa⟩ := validView_eq_some ha
    obtain ⟨hcb, hpb⟩ := validView_eq_some hb
    split_ifs at h with hne hlt hba hab hsame
    · cases h
      exact ⟨hcb, hpb, Or.inr ⟨va, hca, hpa, Or.inl ⟨hlt, notOlder_iff.mp hba⟩⟩⟩
    · cases h
      exact ⟨hca, hpa, Or.inr ⟨vb, hcb, hpb, Or.inl ⟨by omega, notOlder_iff.mp hab⟩⟩⟩
    · have hcrit : SameCritical va vb :=
        (sameCritical_iff (parse_ok hpa).wellFormed).mp (by simpa using hsame)
      have hgen : va.generation = vb.generation := not_not.mp hne
      split at h
      · cases h
        exact ⟨hca, hpa, Or.inr ⟨vb, hcb, hpb, Or.inr ⟨hgen.symm, hcrit⟩⟩⟩
      · cases h
        exact ⟨hcb, hpb, Or.inr ⟨va, hca, hpa, Or.inr ⟨hgen, hcrit.symm⟩⟩⟩

theorem Device.choose_of_other_invalid {d : Device} {c : Index} {v : View}
    (hc : (d c).crcValid = true) (hp : parse (d c) = .ok v)
    (ho : (d c.other).crcValid = false) : d.choose = .ok (c, v) := by
  unfold Device.choose PlatformEnv.choose
  cases c with
  | a =>
    have hb : validView (d .b) = .ok none := validView_of_invalid ho
    rw [validView_of_parse hc hp, hb]
  | b =>
    have ha : validView (d .a) = .ok none := validView_of_invalid ho
    rw [validView_of_parse hc hp, ha]

theorem Device.choose_of_newer {d : Device} {c : Index} {v w : View}
    (hc : (d c).crcValid = true) (hp : parse (d c) = .ok v)
    (hoc : (d c.other).crcValid = true) (hop : parse (d c.other) = .ok w)
    (hgen : w.generation < v.generation) (hold : NotOlder v w) : d.choose = .ok (c, v) := by
  have hb := notOlder_iff.mpr hold
  unfold Device.choose PlatformEnv.choose
  cases c with
  | a =>
    have ho : validView (d .b) = .ok (some w) := validView_of_parse hoc hop
    rw [validView_of_parse hc hp, ho]
    simp only [if_neg (Nat.lt_asymm hgen), hb, if_true, if_pos (Nat.ne_of_gt hgen)]
  | b =>
    have ho : validView (d .a) = .ok (some w) := validView_of_parse hoc hop
    rw [validView_of_parse hc hp, ho]
    simp only [if_pos hgen, hb, if_true, if_pos (Nat.ne_of_lt hgen)]

/-- Equal generations: the record one flag ahead is chosen, also when the flag wraps. -/
theorem Device.choose_of_flag {d : Device} {c : Index} {v w : View}
    (hc : (d c).crcValid = true) (hp : parse (d c) = .ok v)
    (hoc : (d c.other).crcValid = true) (hop : parse (d c.other) = .ok w)
    (hgen : w.generation = v.generation) (hcrit : SameCritical v w)
    (hflag : (d c).flag = (d c.other).flag + 1) : d.choose = .ok (c, v) := by
  unfold Device.choose PlatformEnv.choose
  cases c with
  | a =>
    have ho : validView (d .b) = .ok (some w) := validView_of_parse hoc hop
    have hf : newerFlag (d .a).flag (d .b).flag = .a := by
      rw [hflag]
      exact newerFlag_succ_left _
    have hs := (sameCritical_iff (parse_ok hp).wellFormed).mpr hcrit
    rw [validView_of_parse hc hp, ho]
    simp [hgen, hs, hf]
  | b =>
    have ho : validView (d .a) = .ok (some w) := validView_of_parse hoc hop
    have hf : newerFlag (d .a).flag (d .b).flag = .b := by
      rw [hflag]
      exact newerFlag_succ_right _
    have hs := (sameCritical_iff (parse_ok hop).wellFormed).mpr hcrit.symm
    rw [validView_of_parse hc hp, ho]
    simp [hgen, hs, hf]

theorem Device.select_of_choose {d : Device} {c : Index} {v : View} (h : d.choose = .ok (c, v)) :
    d.select = .ok (selection v c) := by
  unfold Device.choose at h
  simp [Device.select, epkEnvSelect, h, Except.map]

theorem Device.choose_of_select {d : Device} {sel : Selection} (h : d.select = .ok sel) :
    ∃ v, d.choose = .ok (sel.index, v) ∧ sel = selection v sel.index := by
  unfold Device.select epkEnvSelect at h
  cases hc : d.choose with
  | error e => simp [Device.choose] at hc; simp [hc, Except.map] at h
  | ok p =>
    simp only [Device.choose] at hc
    simp only [hc, Except.map, Except.ok.injEq] at h
    subst h
    exact ⟨p.2, rfl, rfl⟩

end Epilykos.PlatformEnv
