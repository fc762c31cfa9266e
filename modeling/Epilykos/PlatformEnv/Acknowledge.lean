import Epilykos.PlatformEnv.CrashSafety

/-!
What an acknowledgement is worth when the backend cannot be trusted with writes: they may be
dropped, torn, sent to the other record or reported wrongly. Reads return what the device
holds or fail. An acknowledged commit is on both records all the same, because both were read
again after the last write; a refusal comes before the first write.
-/

namespace Epilykos.PlatformEnv

open Program

/-- A write may do anything to either record and report anything. -/
def faulty : Behaviour io Device
  | d, .read i, a, d' => d' = d ∧ (a = none ∨ a = some (d i))
  | _, .write _ _, _, _ => True

theorem faulty_reads : ReadsDevice faulty := fun _ _ _ _ h => h

/-- Both records carry the commit, and it survives the loss of either. -/
structure Acknowledged (d : Device) (out : Selection) : Prop where
  crcValid : ∀ i, (d i).crcValid = true
  data_eq : (d .a).data = (d .b).data
  select : d.select = .ok out
  survives : ∀ i r, r.crcValid = false → ∃ out', (d.set i r).select = .ok out' ∧
    out'.generation = out.generation ∧ out'.osFloor = out.osFloor ∧
    out'.trustEpoch = out.trustEpoch

/-- The records an operation may write satisfy `P`. -/
def Writes (P : Record → Prop) : Device → IoCall → Prop
  | _, .read _ => True
  | _, .write _ r => P r

section Faulty

variable {d : Device} {P : Record → Prop} {Q : Selection → Device → Prop}
  {E : EnvError → Device → Prop}

theorem safe_writeBack_faulty {i : Index} {next : Record} {Q : Unit → Device → Prop}
    (hP : P next) (hQ : ∀ d', d' i = next → Q () d') (hE : ∀ d', E .io d') :
    Safe (· = ·) faulty (Writes P) (writeBack i next) Q E d := by
  refine Safe.bind ?_
  rintro _ rfl
  refine ⟨hP, fun written d' _ => ?_⟩
  cases written with
  | false => exact hE d'
  | true =>
    simp only [Safe, Bool.not_true, Bool.false_eq_true, if_false]
    refine Safe.bind (safe_readRecord faulty_reads trivial ?_ fun _ => hE d')
    by_cases hback : d' i = next
    · simpa [hback] using hQ d' hback
    · simpa [hback] using hE d'

/-- Two equal payloads under valid checksums, the chosen record one flag ahead. -/
theorem acknowledged_of_readBack {c : Index} {next : Record} {w : View}
    (hnext : parse next = .ok w) (hcrc : ∀ i, (d i).crcValid = true)
    (hflag : (d c).flag = (d c.other).flag + 1) (hdata : ∀ i, (d i).data = next.data) :
    ∃ out, d.select = .ok out ∧ Acknowledged d out := by
  have hparse : ∀ i, parse (d i) = .ok w := fun i => (parse_congr (hdata i)).trans hnext
  have hselect := Device.select_of_choose
    (Device.choose_of_flag (hcrc c) (hparse c) (hcrc c.other) (hparse c.other) rfl
      (SameCritical.refl w) hflag)
  refine ⟨_, hselect, hcrc, (hdata .a).trans (hdata .b).symm, hselect, fun i r hr => ?_⟩
  have hother : (d.set i r).choose = .ok (i.other, w) :=
    Device.choose_of_other_invalid (by simpa using hcrc i.other)
      (by simpa using hparse i.other) (by simpa using hr)
  exact ⟨_, Device.select_of_choose hother, rfl, rfl, rfl⟩

theorem safe_replicate_faulty {flag : UInt8} {c : Index} {next : Record} {w : View}
    (hnext : parse next = .ok w) (hP : ∀ f, P (next.setFlag f)) :
    Safe (· = ·) faulty (Writes P) (replicate flag c next)
      (fun out d' => Acknowledged d' out ∧ ∀ i, (d' i).data = next.data)
      (fun e _ => e = .io) d := by
  refine Safe.bind (safe_writeBack_faulty (hP _) (fun d₁ _ => ?_) fun _ => rfl)
  refine Safe.bind (safe_writeBack_faulty (hP _) (fun d₂ _ => ?_) fun _ => rfl)
  refine safe_readBoth faulty_reads (fun _ => trivial) (fun _ _ => rfl) ?_
  simp only [Device.pair_self]
  split_ifs with hbad
  · exact rfl
  simp only [not_or, Bool.not_eq_true', Bool.not_eq_false, not_not] at hbad
  obtain ⟨hcrcA, hcrcB, hflag, hflagOther, hdataA, hdataB⟩ := hbad
  have hcrc : ∀ i, (d₂ i).crcValid = true := by rintro (_ | _) <;> assumption
  have hdata : ∀ i, (d₂ i).data = next.data := by rintro (_ | _) <;> assumption
  have hnewer : (d₂ c).flag = (d₂ c.other).flag + 1 := by
    rw [hflag, hflagOther, UInt8.sub_add_cancel]
  obtain ⟨out, hselect, hack⟩ := acknowledged_of_readBack hnext hcrc hnewer hdata
  refine safe_ofExcept (fun out' hout => ?_) fun e he => ?_
  · rw [hselect] at hout
    cases hout
    exact ⟨hack, hdata⟩
  · rw [hselect] at he
    cases he

theorem safe_prog_faulty (op : Op) (d : Device) :
    Safe (· = ·) faulty (Writes fun _ => True) op.prog (fun out d' => Acknowledged d' out)
      (fun e d' => e ≠ .io → d' = d) d := by
  refine Op.prog_safe faulty_reads (fun _ => trivial) (fun _ _ _ => rfl) (fun _ _ _ => rfl) ?_
  intro c next hnext
  obtain ⟨v, changes, w, _, hb⟩ := Op.next_ok hnext
  exact (safe_replicate_faulty hb.parsed fun _ => trivial).mono (fun _ _ h => h.1)
    fun _ _ he hne => absurd he hne

end Faulty

/-- On every backend whose reads return what the device holds, a commit that returns OK is on
both records and survives the loss of either; any error but `io` leaves the device as it was. -/
theorem commit_acknowledged (op : Op) (d d' : Device) :
    (∀ out, Runs (· = ·) faulty (d, op.prog) (d', .ret out) → Acknowledged d' out) ∧
      ∀ e, Runs (· = ·) faulty (d, op.prog) (d', .raise e) → e ≠ .io → d' = d :=
  ⟨fun _ hrun => (safe_prog_faulty op d).result hrun,
    fun _ hrun => (safe_prog_faulty op d).exception hrun⟩

theorem commit_acknowledged_sample : ∃ out d',
    Runs (· = ·) faulty (seedDevice sampleValues, (Op.commit raiseFloor).prog) (d', .ret out) ∧
      Acknowledged d' out := by
  have hserve : Follows serve faulty := by
    rintro d (i | ⟨i, r⟩)
    · exact ⟨rfl, Or.inr rfl⟩
    · exact trivial
  obtain ⟨out, hout⟩ := Op.run_ok next_raiseFloor
  have hrun := runs_run hserve (Op.commit raiseFloor).prog (seedDevice sampleValues)
  rw [hout] at hrun
  exact ⟨out, _, hrun, (commit_acknowledged _ _ _).1 out hrun⟩

end Epilykos.PlatformEnv
