import Epilykos.PlatformEnv.Seed

/-!
Commits on a card that does what it is told, until the power fails. A cut leaves the record
being written with its old bytes, its new bytes or bytes the checksum refuses. Whatever is cut,
the selected record is the one before the operation or the one it was building.
-/

namespace Epilykos.PlatformEnv

open Program

def honest : Behaviour io Device
  | d, .read i, a, d' => a = some (d i) ∧ d' = d
  | d, .write i r, a, d' => a = true ∧ d' = d.set i r

/-- What a power cut in the middle of a call leaves. -/
def torn : Device → IoCall → Device → Prop
  | d, .read _, d' => d' = d
  | d, .write i r, d' => ∃ r', d' = d.set i r' ∧ (r' = d i ∨ r' = r ∨ r'.crcValid = false)

theorem honest_reads : ReadsDevice honest := fun _ _ _ _ h => ⟨h.2, Or.inr h.1⟩

inductive Outcome
  | returned (out : Selection)
  | raised (e : EnvError)
  | cut

/-- One operation, run to its end or cut. -/
inductive OpStep (op : Op) (d : Device) : Outcome → Device → Prop
  | returned {out : Selection} {d' : Device} :
      Runs (· = ·) honest (d, op.prog) (d', .ret out) → OpStep op d (.returned out) d'
  | raised {e : EnvError} {d' : Device} :
      Runs (· = ·) honest (d, op.prog) (d', .raise e) → OpStep op d (.raised e) d'
  | cut {d' : Device} : Cut honest torn op.prog d d' → OpStep op d .cut d'

/-- Any number of operations. -/
abbrev History : Device → Device → Prop :=
  Relation.ReflTransGen fun d d' => ∃ op outcome, OpStep op d outcome d'

/-- The view of the selected record. -/
def Device.view (d : Device) : Option View := d.choose.toOption.map Prod.snd

/-- The view an operation is building. -/
def Op.building (op : Op) (d : Device) : Option View :=
  (op.next d).toOption.bind fun p => (parse p.2).toOption

/-! ### The device during one replication -/

section Replication

variable {d : Device} {c : Index} {v w : View} {changes : List Change} {next : Record}

theorem choose_first_torn (hchoose : d.choose = .ok (c, v)) {r : Record}
    (hr : r.crcValid = false) : (d.set c.other r).choose = .ok (c, v) := by
  obtain ⟨hcrc, hparse, _⟩ := Device.choose_ok hchoose
  exact Device.choose_of_other_invalid (by simpa using hcrc) (by simpa using hparse)
    (by simpa using hr)

/-- The record just written is chosen over the one it was built from. -/
theorem choose_first (hchoose : d.choose = .ok (c, v)) (hb : Built v changes next w) :
    (d.set c.other (next.setFlag ((d c).flag + 1))).choose = .ok (c.other, w) := by
  obtain ⟨hcrc, hparse, _⟩ := Device.choose_ok hchoose
  have hnew : (d.set c.other (next.setFlag ((d c).flag + 1)) c.other).crcValid = true := by
    simpa using hb.crcValid
  have hnewParse : parse (d.set c.other (next.setFlag ((d c).flag + 1)) c.other) = .ok w := by
    simpa using hb.parsed
  rcases hb.newer_or_same (parse_ok hparse) with hlt | ⟨heq, hsame⟩
  · exact Device.choose_of_newer hnew hnewParse (by simpa using hcrc) (by simpa using hparse)
      hlt hb.notOlder
  · exact Device.choose_of_flag hnew hnewParse (by simpa using hcrc) (by simpa using hparse)
      heq hsame.symm (by simp)

theorem choose_second_torn (hb : Built v changes next w) {f : UInt8} {r : Record}
    (hr : r.crcValid = false) :
    ((d.set c.other (next.setFlag f)).set c r).choose = .ok (c.other, w) := by
  refine Device.choose_of_other_invalid ?_ ?_ (by simpa using hr)
  · simpa using hb.crcValid
  · simpa using hb.parsed

theorem choose_second (hb : Built v changes next w) {f : UInt8} :
    ((d.set c.other (next.setFlag f)).set c (next.setFlag (f + 1))).choose = .ok (c, w) := by
  refine Device.choose_of_flag (w := w) ?_ ?_ ?_ ?_ rfl (SameCritical.refl w) (by simp)
  · simpa using hb.crcValid
  · simpa using hb.parsed
  · simpa using hb.crcValid
  · simpa using hb.parsed

/-- One of two views is selected. -/
def SelectsEither (v w : View) (d : Device) : Prop :=
  ∃ i x, d.choose = .ok (i, x) ∧ (x = v ∨ x = w)

/-- The condition `C` holds here and whatever a cut in the middle of the call leaves. -/
def Robust (C : Device → Prop) (d : Device) (k : IoCall) : Prop :=
  C d ∧ ∀ d', torn d k d' → C d'

theorem robust_read {C : Device → Prop} {i : Index} (h : C d) : Robust C d (.read i) :=
  ⟨h, fun _ hd => hd ▸ h⟩

theorem robust_write {C : Device → Prop} {i : Index} {r : Record} (h : C d) (hnew : C (d.set i r))
    (htorn : ∀ r', r'.crcValid = false → C (d.set i r')) : Robust C d (.write i r) := by
  refine ⟨h, ?_⟩
  rintro _ ⟨r', rfl, rfl | rfl | hr⟩
  · simpa [Device.set] using h
  · exact hnew
  · exact htorn r' hr

theorem safe_writeBack {allowed : Device → IoCall → Prop} {i : Index}
    {Q : Unit → Device → Prop} {E : EnvError → Device → Prop} (hwrite : allowed d (.write i next))
    (hread : allowed (d.set i next) (.read i)) (hQ : Q () (d.set i next)) :
    Safe (· = ·) honest allowed (writeBack i next) Q E d := by
  refine Safe.bind ?_
  rintro _ rfl
  refine ⟨hwrite, ?_⟩
  rintro _ _ ⟨rfl, rfl⟩
  refine Safe.bind (safe_readRecord honest_reads hread ?_ fun h => absurd h.1 (by simp))
  simpa using hQ

theorem replicated_eq (d : Device) (c : Index) (next : Record) (f : UInt8) (i : Index) :
    ∃ g, ((d.set c.other (next.setFlag f)).set c (next.setFlag (f + 1))) i = next.setFlag g := by
  rcases Index.eq_or_eq_other i c with rfl | rfl
  · exact ⟨f + 1, by simp⟩
  · exact ⟨f, by simp⟩

theorem safe_replicate (hchoose : d.choose = .ok (c, v)) (hb : Built v changes next w) :
    Safe (· = ·) honest (Robust (SelectsEither v w)) (replicate (d c).flag c next)
      (fun out d' => d'.choose = .ok (c, w) ∧ out = selection w c) (fun _ _ => False) d := by
  have hold : SelectsEither v w d := ⟨c, v, hchoose, Or.inl rfl⟩
  have hfirst : SelectsEither v w (d.set c.other (next.setFlag ((d c).flag + 1))) :=
    ⟨c.other, w, choose_first hchoose hb, Or.inr rfl⟩
  have hdone := choose_second (d := d) (c := c) hb (f := (d c).flag + 1)
  have hsecond : SelectsEither v w _ := ⟨c, w, hdone, Or.inr rfl⟩
  unfold replicate
  refine Safe.bind (safe_writeBack ?_ (robust_read hfirst) ?_)
  · exact robust_write hold hfirst fun r hr =>
      ⟨c, v, choose_first_torn hchoose hr, Or.inl rfl⟩
  refine Safe.bind (safe_writeBack ?_ (robust_read hsecond) ?_)
  · exact robust_write hfirst hsecond fun r hr =>
      ⟨c.other, w, choose_second_torn hb hr, Or.inr rfl⟩
  refine safe_readBoth honest_reads (fun _ => robust_read hsecond)
    (fun _ h => absurd h.1 (by simp)) ?_
  simp only [Device.pair_self]
  rw [if_neg]
  · refine safe_ofExcept (fun out hout => ?_) fun e he => ?_
    · rw [Device.select_of_choose hdone] at hout
      cases hout
      exact ⟨hdone, rfl⟩
    · rw [Device.select_of_choose hdone] at he
      cases he
  · -- both records now differ from `next` in the flag only
    have hcopy := replicated_eq d c next ((d c).flag + 1)
    obtain ⟨fa, ha⟩ := hcopy .a
    obtain ⟨fb, hb'⟩ := hcopy .b
    simp [ha, hb', hb.crcValid]

end Replication

/-! ### One operation -/

/-- Selected after an operation on `d`: the view before it or the one it was building. -/
def Aftermath (op : Op) (d d' : Device) : Prop :=
  ∃ i x, d'.choose = .ok (i, x) ∧ (d.view = some x ∨ op.building d = some x)

theorem Device.view_of_choose {d : Device} {c : Index} {v : View} (h : d.choose = .ok (c, v)) :
    d.view = some v := by
  simp [Device.view, h, Except.toOption]

theorem building_of_next {op : Op} {d : Device} {c : Index} {r : Record} {w : View}
    (hnext : op.next d = .ok (c, r)) (hparse : parse r = .ok w) : op.building d = some w := by
  simp [Op.building, hnext, hparse, Except.toOption]

theorem safe_prog {d : Device} {c : Index} {v : View} (op : Op) (hchoose : d.choose = .ok (c, v)) :
    Safe (· = ·) honest (Robust (Aftermath op d)) op.prog
      (fun out d' => ∃ w, op.building d = some w ∧ d'.choose = .ok (c, w) ∧ out = selection w c)
      (fun e d' => d' = d ∧ op.next d = .error e) d := by
  have hview := Device.view_of_choose hchoose
  have hold : Aftermath op d d := ⟨c, v, hchoose, Or.inl hview⟩
  refine Op.prog_safe honest_reads (fun _ => robust_read hold) (fun _ h => absurd h.1 (by simp))
    (fun _ he => ⟨rfl, he⟩) fun c' next hnext => ?_
  obtain ⟨v', changes, w, hchoose', hb⟩ := Op.next_ok hnext
  obtain ⟨rfl, rfl⟩ : c = c' ∧ v = v' := by simpa [hchoose] using hchoose'
  have hbuilding := building_of_next hnext hb.parsed
  refine ((safe_replicate hchoose hb).weaken fun t k hC => ?_).mono
    (fun out t hQ => ⟨w, hbuilding, hQ.1, hQ.2⟩) fun _ _ hE => hE.elim
  have himp : ∀ t, SelectsEither v w t → Aftermath op d t := by
    rintro t ⟨i, x, hx, rfl | rfl⟩
    · exact ⟨i, x, hx, Or.inl hview⟩
    · exact ⟨i, x, hx, Or.inr hbuilding⟩
  exact ⟨himp t hC.1, fun t' ht => himp t' (hC.2 t' ht)⟩

/-- After any outcome one of the two views is selected, and after OK the one built. -/
theorem OpStep.selects {op : Op} {d d' : Device} {outcome : Outcome} {c : Index} {v : View}
    (hchoose : d.choose = .ok (c, v)) (h : OpStep op d outcome d') :
    ∃ i x, d'.choose = .ok (i, x) ∧ (x = v ∨ op.building d = some x) ∧
      ∀ out, outcome = .returned out → op.building d = some x ∧ out = selection x i := by
  have hsafe := safe_prog op hchoose
  cases h with
  | returned hrun =>
    obtain ⟨w, hbuilding, hnew, rfl⟩ := hsafe.result hrun
    refine ⟨c, w, hnew, Or.inr hbuilding, ?_⟩
    rintro _ ⟨⟩
    exact ⟨hbuilding, rfl⟩
  | raised hrun =>
    obtain ⟨rfl, _⟩ := hsafe.exception hrun
    exact ⟨c, v, hchoose, Or.inl rfl, by rintro _ ⟨⟩⟩
  | cut hcut =>
    have hends : Aftermath op d d' := by
      refine (hsafe.mono (fun out t hQ => ?_) fun e t hE => ?_).cut hcut
      · obtain ⟨w, hbuilding, hnew, _⟩ := hQ
        exact ⟨c, w, hnew, Or.inr hbuilding⟩
      · rw [hE.1]
        exact ⟨c, v, hchoose, Or.inl (Device.view_of_choose hchoose)⟩
    obtain ⟨i, x, hx, hview | hbuilding⟩ := hends
    · rw [Device.view_of_choose hchoose] at hview
      exact ⟨i, x, hx, Or.inl (Option.some.inj hview).symm, by rintro _ ⟨⟩⟩
    · exact ⟨i, x, hx, Or.inr hbuilding, by rintro _ ⟨⟩⟩

/-- The honest card as a function. -/
def serve (d : Device) : (k : IoCall) → io.Ans k × Device
  | .read i => (some (d i), d)
  | .write i r => (true, d.set i r)

theorem serve_honest : Follows serve honest := by
  rintro d (i | ⟨i, r⟩)
  · exact ⟨rfl, rfl⟩
  · exact ⟨rfl, rfl⟩

theorem Op.terminates (op : Op) (d : Device) :
    ∃ outcome d', outcome ≠ .cut ∧ OpStep op d outcome d' := by
  have hrun := runs_run serve_honest op.prog d
  cases hres : (op.prog.run serve d).1 with
  | ok out =>
    rw [hres] at hrun
    exact ⟨.returned out, _, by simp, .returned hrun⟩
  | error e =>
    rw [hres] at hrun
    exact ⟨.raised e, _, by simp, .raised hrun⟩

theorem OpStep.of_error {op : Op} {d d' : Device} {c : Index} {v : View} {e : EnvError}
    {outcome : Outcome} (hchoose : d.choose = .ok (c, v)) (hnext : op.next d = .error e)
    (h : OpStep op d outcome d') (hreturns : outcome ≠ .cut) : outcome = .raised e ∧ d' = d := by
  have hsafe := safe_prog op hchoose
  cases h with
  | returned hrun =>
    obtain ⟨w, hbuilding, _⟩ := hsafe.result hrun
    simp [Op.building, hnext, Except.toOption] at hbuilding
  | raised hrun =>
    obtain ⟨rfl, he⟩ := hsafe.exception hrun
    rw [hnext] at he
    cases he
    exact ⟨rfl, rfl⟩
  | cut _ => exact absurd rfl hreturns

theorem Op.run_ok {op : Op} {d : Device} {c : Index} {r : Record} (hnext : op.next d = .ok (c, r)) :
    ∃ out, (op.prog.run serve d).1 = .ok out := by
  obtain ⟨v, _, _, hchoose, _⟩ := Op.next_ok hnext
  have hrun := runs_run serve_honest op.prog d
  cases hres : (op.prog.run serve d).1 with
  | ok out => exact ⟨out, rfl⟩
  | error e =>
    rw [hres] at hrun
    have he := ((safe_prog op hchoose).exception hrun).2
    rw [hnext] at he
    cases he

theorem OpStep.of_ok {op : Op} {d d' : Device} {c : Index} {r : Record} {outcome : Outcome}
    (hnext : op.next d = .ok (c, r)) (h : OpStep op d outcome d') (hreturns : outcome ≠ .cut) :
    ∃ out, outcome = .returned out := by
  obtain ⟨v, _, _, hchoose, _⟩ := Op.next_ok hnext
  cases h with
  | returned _ => exact ⟨_, rfl⟩
  | raised hrun =>
    have he := ((safe_prog op hchoose).exception hrun).2
    rw [hnext] at he
    cases he
  | cut _ => exact absurd rfl hreturns

/-! ### Histories -/

/-- Nothing is taken back, and a generation has one critical content. -/
structure Advances (older newer : View) : Prop where
  notOlder : NotOlder newer older
  generation : older.generation < newer.generation ∨
    older.generation = newer.generation ∧ SameCritical older newer

theorem Advances.refl (v : View) : Advances v v :=
  ⟨NotOlder.refl v, Or.inr ⟨rfl, SameCritical.refl v⟩⟩

theorem Advances.trans {u v w : View} (huv : Advances u v) (hvw : Advances v w) :
    Advances u w := by
  refine ⟨huv.notOlder.trans hvw.notOlder, ?_⟩
  rcases huv.generation with hlt | ⟨heq, hsame⟩
  · rcases hvw.generation with hlt' | ⟨heq', _⟩ <;> exact Or.inl (by omega)
  · rcases hvw.generation with hlt' | ⟨heq', hsame'⟩
    · exact Or.inl (by omega)
    · exact Or.inr ⟨heq.trans heq', hsame.trans hsame'⟩

theorem Advances.generation_le {older newer : View} (h : Advances older newer) :
    older.generation ≤ newer.generation := by
  rcases h.generation with hlt | ⟨heq, _⟩
  · exact Nat.le_of_lt hlt
  · exact Nat.le_of_eq heq

theorem advances_of_building {op : Op} {d : Device} {c : Index} {v w : View}
    (hchoose : d.choose = .ok (c, v)) (h : op.building d = some w) : Advances v w := by
  cases hnext : op.next d with
  | error e => simp [Op.building, hnext, Except.toOption] at h
  | ok p =>
    obtain ⟨v', changes, w', hchoose', hb⟩ := Op.next_ok (c := p.1) (r := p.2) hnext
    obtain ⟨-, rfl⟩ : c = p.1 ∧ v = v' := by simpa [hchoose] using hchoose'
    have hw : w' = w := by simpa [Op.building, hnext, hb.parsed, Except.toOption] using h
    subst hw
    exact ⟨hb.notOlder, hb.newer_or_same (parse_ok (Device.choose_ok hchoose).2.1)⟩

theorem OpStep.advances {op : Op} {d d' : Device} {outcome : Outcome} {c : Index} {v : View}
    (hchoose : d.choose = .ok (c, v)) (h : OpStep op d outcome d') :
    ∃ i x, d'.choose = .ok (i, x) ∧ Advances v x := by
  obtain ⟨i, x, hx, rfl | hbuilding, _⟩ := h.selects hchoose
  · exact ⟨i, x, hx, Advances.refl x⟩
  · exact ⟨i, x, hx, advances_of_building hchoose hbuilding⟩

theorem History.advances {d d' : Device} (h : History d d') {c : Index} {v : View}
    (hchoose : d.choose = .ok (c, v)) : ∃ i x, d'.choose = .ok (i, x) ∧ Advances v x := by
  induction h with
  | refl => exact ⟨c, v, hchoose, Advances.refl v⟩
  | tail _ hstep ih =>
    obtain ⟨i, x, hx, hvx⟩ := ih
    obtain ⟨op, outcome, hop⟩ := hstep
    obtain ⟨j, y, hy, hxy⟩ := hop.advances hx
    exact ⟨j, y, hy, hvx.trans hxy⟩

theorem Seeded.selects {d : Device} (h : Seeded d) : ∃ v, d.choose = .ok (.b, v) := by
  obtain ⟨va, vb, ha, hb, heq⟩ := h.parsed
  have hgen : va.generation = vb.generation := by
    have h1 := (parse_ok ha).generation
    rw [heq, (parse_ok hb).generation] at h1
    exact (Option.some.inj h1).symm
  refine ⟨vb, Device.choose_of_flag (w := va) (h.crcValid .b) hb (h.crcValid .a) ha hgen ?_ ?_⟩
  · intro name _
    rw [heq]
  · rw [h.flag_b]
    exact (congrArg (· + 1) h.flag_a).symm

/-- Whatever operations a card has been through, and wherever each was cut: a record is
selected, the counters never fall, a policy never changes within its epoch, and the next
operation leaves the entries it found or the entries it was building. -/
theorem commits_crash_safe {d₀ d₁ d₂ : Device} (hseed : Seeded d₀) (h₁ : History d₀ d₁)
    (h₂ : History d₁ d₂) :
    ∃ s₁ s₂, d₁.select = .ok s₁ ∧ d₂.select = .ok s₂ ∧
      s₁.generation ≤ s₂.generation ∧ s₁.osFloor ≤ s₂.osFloor ∧ s₁.trustEpoch ≤ s₂.trustEpoch ∧
      (s₁.trustEpoch = s₂.trustEpoch →
        d₁.view.map View.policyPair = d₂.view.map View.policyPair) ∧
      ∀ op outcome d₃, OpStep op d₂ outcome d₃ →
        (∃ s₃, d₃.select = .ok s₃) ∧
        (d₃.view.map View.entries = d₂.view.map View.entries ∨
          d₃.view.map View.entries = (op.building d₂).map View.entries) ∧
        ∀ out, outcome = .returned out → d₃.select = .ok out ∧
          d₃.view.map View.entries = (op.building d₂).map View.entries := by
  obtain ⟨v, hv⟩ := hseed.selects
  obtain ⟨i₁, v₁, hv₁, _⟩ := h₁.advances hv
  obtain ⟨i₂, v₂, hv₂, hadv⟩ := h₂.advances hv₁
  refine ⟨_, _, Device.select_of_choose hv₁, Device.select_of_choose hv₂, hadv.generation_le,
    hadv.notOlder.floor_le, hadv.notOlder.epoch_le, fun heq => ?_, ?_⟩
  · rw [Device.view_of_choose hv₁, Device.view_of_choose hv₂]
    exact congrArg some (hadv.notOlder.policy_eq heq).symm
  · intro op outcome d₃ hop
    obtain ⟨i₃, v₃, hv₃, heither, hreturned⟩ := hop.selects hv₂
    rw [Device.view_of_choose hv₂, Device.view_of_choose hv₃, Device.select_of_choose hv₃]
    refine ⟨⟨_, rfl⟩, heither.imp (fun h => by rw [h]) fun h => by rw [h], fun out hout => ?_⟩
    obtain ⟨hbuilding, rfl⟩ := hreturned out hout
    exact ⟨rfl, by rw [hbuilding]⟩

theorem commits_crash_safe_sample : ∃ out d, OpStep (.commit raiseFloor) (seedDevice sampleValues)
    (.returned out) d ∧ ∃ s₁ s₂, (seedDevice sampleValues).select = .ok s₁ ∧ d.select = .ok s₂ ∧
      s₁.generation ≤ s₂.generation := by
  obtain ⟨outcome, d, hreturns, hstep⟩ := Op.terminates (.commit raiseFloor) (seedDevice sampleValues)
  obtain ⟨out, rfl⟩ := hstep.of_ok next_raiseFloor hreturns
  obtain ⟨s₁, s₂, h₁, h₂, hgen, _⟩ :=
    commits_crash_safe (seeded_seedDevice storable_sample) .refl (.single ⟨_, _, hstep⟩)
  exact ⟨out, d, hstep, s₁, s₂, h₁, h₂, hgen⟩

end Epilykos.PlatformEnv
