import Epilykos.OsBootstrap.BuildSeed
import Epilykos.OsUpdate.OnCard

/-!
A card in service, from the two records the builder made. The builder, the loader's library,
the loader's script and the updater each read the records in their own way; over the life of a
card they agree on what it says.
-/

namespace Epilykos.OsBootstrap

open Program PlatformEnv

open OsUpdate (Env Slot World CardMoves Json Platform latin entryVars Stores)

/-! ### The seed, as the updater reads it -/

/-- The environment of a seed: no job, both slots with all of their attempts. -/
def seedEnv (osSequence trustEpoch : ℕ) (policyRaw signature : Bytes) : Env :=
  { bootOrder := [.a, .b], left := fun _ => 3, osFloor := osSequence, trustPolicy := policyRaw,
    trustPolicySig := signature, trustEpoch, osPending := none, osTarget := none, osFrom := none,
    osTargetSequence := none, osTargetSha256 := none, osPhase := none, osTrialStarted := none }

/-- The two records of a seed, written to the card. -/
def Seed.device (seed : Seed) : Device
  | .a => seed.a
  | .b => seed.b

section Seeds

variable {osSequence trustEpoch : ℕ} {policyRaw signature : Bytes} {entries : List Entry}

theorem seedEnv_noJob : (seedEnv osSequence trustEpoch policyRaw signature).NoJob :=
  ⟨rfl, rfl, rfl, rfl, rfl, rfl, rfl⟩

theorem latin_str (n : ℕ) : latin (str n) = toString n := by
  have hdigit : ∀ c ∈ Nat.toDigits 10 n, Char.ofNat c.toNat.toUInt8.toNat = c := by
    intro c hc
    have hd := OsUpdate.toDigits_isDigit c hc
    have hge := OsUpdate.digit_ge hd
    have hlt := OsUpdate.digit_lt hd
    have hzero : ('0' : Char).toNat = 48 := rfl
    have hsmall : c.toNat.toUInt8.toNat = c.toNat := Nat.mod_eq_of_lt (by omega)
    rw [hsmall, Char.ofNat_toNat]
  have hmap : (Nat.toDigits 10 n).map ((fun b => Char.ofNat b.toNat) ∘ fun c => c.toNat.toUInt8) =
      Nat.toDigits 10 n := (List.map_congr_left hdigit).trans (List.map_id' _)
  rw [latin, str_eq, List.map_map, hmap]
  exact String.toList_inj.mp (by simp)

/-- The items of a seed read as its environment, whatever the defaults beside them. -/
theorem stores_seed (hget : ∀ name, isReserved name = true → get entries name =
    get (seedItems osSequence trustEpoch policyRaw signature) name) :
    Stores entries (seedEnv osSequence trustEpoch policyRaw signature) := by
  have hvars : ∀ name, isReserved (ascii name) = true → entryVars entries name =
      entryVars (seedItems osSequence trustEpoch policyRaw signature) name := fun name hname =>
    congrArg (OsUpdate.textOr latin) (hget _ hname)
  have hnone : ∀ name, isReserved (ascii name) = true →
      get (seedItems osSequence trustEpoch policyRaw signature) (ascii name) = none →
      entryVars entries name = "" := fun name hname hitem => by rw [hvars name hname, entryVars, hitem]; rfl
  have habsent : ∀ name ∈ ["epk_os_pending", "epk_os_target", "epk_os_from",
      "epk_os_target_sequence", "epk_os_target_sha256", "epk_os_phase", "epk_os_trial_started"],
      entryVars entries name = "" := by
    intro name hname
    refine hnone name ?_ ?_
    · revert name
      decide +kernel
    · have hnames : ascii name ∉ seedNames := by
        revert name
        decide +kernel
      rw [← seedItems_names osSequence trustEpoch policyRaw signature] at hnames
      exact get_eq_none_iff.mpr fun e he heq => hnames (heq ▸ List.mem_map_of_mem he)
  refine ⟨⟨?_, fun t => ?_, ?_, ?_, ?_, ?_, ?_, ?_, ?_⟩, ?_, ?_, ?_, ?_⟩
  · rw [hvars _ (by decide +kernel)]
    simp +decide [entryVars, seedItems, PlatformEnv.get, seedEnv]
  · cases t with
    | a =>
      rw [hvars _ (by decide +kernel)]
      simp +decide [entryVars, seedItems, PlatformEnv.get, seedEnv, Slot.counter]
    | b =>
      rw [hvars _ (by decide +kernel)]
      simp +decide [entryVars, seedItems, PlatformEnv.get, seedEnv, Slot.counter]
  · exact habsent _ (by simp)
  · exact habsent _ (by simp)
  · exact habsent _ (by simp)
  · exact habsent _ (by simp)
  · exact habsent _ (by simp)
  · exact habsent _ (by simp)
  · exact habsent _ (by simp)
  · rw [hvars _ (by decide +kernel)]
    simp +decide [entryVars, seedItems, PlatformEnv.get, seedEnv, latin_str]
  · rw [hvars _ (by decide +kernel)]
    simp +decide [entryVars, seedItems, PlatformEnv.get, seedEnv, latin_str]
  · rw [hget _ (by decide +kernel)]
    simp +decide [seedItems, PlatformEnv.get, seedEnv, b64Decode_encode]
  · rw [hget _ (by decide +kernel)]
    simp +decide [seedItems, PlatformEnv.get, seedEnv, b64Decode_encode]

end Seeds

section Built

variable {O : OsUpdate.Oracles} {defaults : Bytes} {platform : Json} {policyRaw signature : Bytes}
  {seed : Seed} {defs : List Entry} {plat : Platform} {epoch : ℕ}

/-- The card reads as the environment its seed was built for. -/
theorem BuiltFrom.onCard (h : BuiltFrom O defaults platform policyRaw signature seed defs plat epoch) :
    OsUpdate.Reads seed.device (seedEnv plat.osSequence epoch policyRaw signature) := by
  have hdefs := parseDefaults_ok h.defaults
  obtain ⟨⟨used, hselect⟩, hparse⟩ := h.reads
  obtain ⟨v, hchoose, _⟩ := Device.choose_of_select (d := seed.device) hselect
  refine ⟨.b, v, hchoose, stores_seed fun name hname => ?_, by simp [seedEnv], by simp [seedEnv],
    by simp [seedEnv]⟩
  obtain ⟨v', hv', hget⟩ := hparse seed.b (by simp)
  obtain rfl := Except.ok.inj (hv'.symm.trans (Device.choose_ok hchoose).2.1)
  rw [hget, seedValues, update_seedItems hdefs, get_append_of_none (hdefs.get_reserved hname)]

end Built

/-! ### What is on the card -/

/-- The record that is selected says what the box believes, and the loader accepts it. -/
structure InService (w : World) (d : Device) : Prop where
  selected : ∃ i v, d.select = .ok (selection v i) ∧ parse (d i) = .ok v ∧
    v.floor = w.env.osFloor ∧ v.epoch = w.env.trustEpoch ∧ (entryVars v.entries).Holds w.env ∧
    OsUpdate.doBootGuard (entryVars v.entries) = true ∧
    OsUpdate.checkState (entryVars v.entries) =
      (do OsUpdate.orHalt (← OsUpdate.uboot .envGuard) "native state unavailable")
  tracked : OsUpdate.Tracked w.env

/-- A number the loader reads is the one the updater wrote. -/
theorem decimal_vars {entries : List Entry} {name : String} {m n : ℕ}
    (hvalue : decimal (get entries (ascii name)) = some m)
    (htext : entryVars entries name = toString n) : m = n := by
  cases hget : get entries (ascii name) with
  | none => simp [hget, decimal] at hvalue
  | some bytes =>
    rw [hget] at hvalue
    obtain rfl : bytes = str m := decimal_inj hvalue (decimal_str (decimal_le hvalue))
    rw [entryVars, hget, OsUpdate.textOr_some, latin_str] at htext
    exact OsUpdate.toString_inj htext

theorem inService {O : OsUpdate.Oracles} {w₀ w : World} {d₀ d : Device}
    (hseed : OsUpdate.Seeded w₀) (hd : OsUpdate.Reads d₀ w₀.env)
    (hrun : Relation.ReflTransGen (CardMoves O) (w₀, d₀) (w, d)) :
    InService w d ∧ OsUpdate.Forward w₀.env w.env := by
  obtain ⟨hbox, ⟨i, v, hchoose, hstores, hp⟩, _, hsound⟩ := OsUpdate.card_run hseed hd hrun
  have hparse := (Device.choose_ok hchoose).2.1
  have hok := parse_ok hparse
  have hpath := (OsUpdate.run_traced hseed.traced hbox).path
  refine ⟨⟨⟨i, v, Device.select_of_choose hchoose, hparse, ?_, ?_, hstores.vars, ?_, ?_⟩, ?_⟩, ?_⟩
  · exact decimal_vars hok.floor hstores.floor
  · exact decimal_vars hok.epoch hstores.epoch
  · rw [OsUpdate.doBootGuard_eq hstores.vars hp]
    exact (OsUpdate.Env.accepted_iff.mp hsound.env).1
  · exact OsUpdate.checkState_accepted hstores.vars hsound.env
  · exact OsUpdate.tracked_run (x := w₀.shared) (.noJob hseed.noJob) hpath
  · exact OsUpdate.forward_run hpath

/-- From the records the builder made, through whatever the box does and wherever its writes are
torn: one record is selected, it says what the updater believes, and the loader accepts it. -/
theorem seed_in_service {O : OsUpdate.Oracles} {σ : Type} {W : Behaviour OsUpdate.Host σ} {s s' : σ}
    {defaults : Bytes} {platform : Json} {policyRaw signature rootPubkey : Bytes} {seed : Seed}
    (hbuild : Runs (· = ·) W (s, buildSeed O defaults platform policyRaw signature rootPubkey)
      (s', .ret seed)) :
    ∃ plat epoch, validatePlatform platform = .ok plat ∧ StatesEpoch O policyRaw epoch ∧
      ∀ (O' : OsUpdate.Oracles) (w₀ w : World) (d : Device),
        w₀.env = seedEnv plat.osSequence epoch policyRaw signature → w₀.journal = none →
        Relation.ReflTransGen (CardMoves O') (w₀, seed.device) (w, d) →
        InService w d ∧ plat.osSequence ≤ w.env.osFloor ∧ epoch ≤ w.env.trustEpoch := by
  obtain ⟨defs, plat, epoch, h⟩ := buildSeed_gives.safe.result hbuild
  refine ⟨plat, epoch, h.platform, h.states, fun O' w₀ w d henv hjournal hrun => ?_⟩
  have hseed : OsUpdate.Seeded w₀ := by
    refine ⟨henv ▸ seedEnv_noJob, ?_, ?_, hjournal⟩
    · rw [henv]
      rfl
    · rw [henv]
      rfl
  obtain ⟨hservice, hforward⟩ := inService hseed (henv ▸ h.onCard) hrun
  rw [henv] at hforward
  exact ⟨hservice, hforward.floor, hforward.epoch⟩

theorem seed_in_service_sample : ∃ (seed : Seed) (plat : Platform) (epoch : ℕ), validatePlatform samplePlatform = .ok plat ∧
    StatesEpoch sampleOracles samplePolicyRaw epoch ∧
      ∀ (O' : OsUpdate.Oracles) (w₀ w : World) (d : Device),
        w₀.env = seedEnv plat.osSequence epoch samplePolicyRaw sampleSignature →
        w₀.journal = none → Relation.ReflTransGen (CardMoves O') (w₀, seed.device) (w, d) →
        InService w d ∧ plat.osSequence ≤ w.env.osFloor ∧ epoch ≤ w.env.trustEpoch := by
  obtain ⟨seed, hseed⟩ := sampleBuild_ok
  have hrun := runs_run (OsUpdate.World.serve_follows sampleOracles) sampleBuild sampleBox
  rw [hseed] at hrun
  exact ⟨seed, seed_in_service hrun⟩

end Epilykos.OsBootstrap
