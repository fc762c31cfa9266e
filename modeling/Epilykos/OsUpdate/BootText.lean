import Epilykos.OsUpdate.BootScript
import Mathlib.Tactic.Linarith

/-!
The two views of the environment: the updater's values and the text the loader reads. On the
text of an environment the script accepts exactly what `Env.accepted` accepts, and what it
then saves is the text of the environment `bootSlot` gives.
-/

namespace Epilykos.OsUpdate

open Program PlatformEnv

/-! ### Numbers as text -/

theorem digit_lt {c : Char} (h : c.isDigit = true) : c.toNat - '0'.toNat < 10 := by
  simp only [Char.isDigit, Bool.and_eq_true, decide_eq_true_eq, ge_iff_le] at h
  have hc : c.toNat = c.val.toNat := rfl
  have h₂ := UInt32.le_iff_toNat_le.mp h.2
  have h0 : ('0' : Char).toNat = 48 := rfl
  have h9 : ('9' : Char).val.toNat = 57 := rfl
  omega

theorem digit_ge {c : Char} (h : c.isDigit = true) : 48 ≤ c.toNat := by
  simp only [Char.isDigit, Bool.and_eq_true, decide_eq_true_eq, ge_iff_le] at h
  exact UInt32.le_iff_toNat_le.mp h.1

theorem ofDigitChars_lt {cs : List Char} (h : ∀ c ∈ cs, c.isDigit = true) :
    Nat.ofDigitChars 10 cs 0 < 10 ^ cs.length := by
  induction cs with
  | nil => simp
  | cons c cs ih =>
    have hc := digit_lt (h c (by simp))
    have hcs := ih fun d hd => h d (by simp [hd])
    rw [Nat.ofDigitChars_cons, Nat.ofDigitChars_eq_ofDigitChars_zero, List.length_cons, pow_succ]
    nlinarith

/-- strcmp orders digits of one length as the numbers they spell. -/
theorem strGreater_digits {as bs : List Char} (hlength : as.length = bs.length)
    (ha : ∀ c ∈ as, c.isDigit = true) (hb : ∀ c ∈ bs, c.isDigit = true) :
    strGreater as bs = decide (Nat.ofDigitChars 10 bs 0 < Nat.ofDigitChars 10 as 0) := by
  induction as generalizing bs with
  | nil =>
    obtain rfl : bs = [] := List.eq_nil_of_length_eq_zero hlength.symm
    simp [strGreater]
  | cons a as ih =>
    obtain ⟨b, bs, rfl⟩ := List.exists_cons_of_length_eq_add_one hlength.symm
    have hlength' : as.length = bs.length := by simpa using hlength
    have has : ∀ c ∈ as, c.isDigit = true := fun c hc => ha c (by simp [hc])
    have hbs : ∀ c ∈ bs, c.isDigit = true := fun c hc => hb c (by simp [hc])
    have hla := ofDigitChars_lt has
    have hlb := ofDigitChars_lt hbs
    rw [Nat.ofDigitChars_cons, Nat.ofDigitChars_eq_ofDigitChars_zero, Nat.ofDigitChars_cons,
      Nat.ofDigitChars_eq_ofDigitChars_zero (l := as)]
    rw [hlength'] at hla ⊢
    unfold strGreater
    split_ifs with hab
    · subst hab
      rw [ih hlength' has hbs]
      simp
    · have hda : 48 ≤ a.toNat := digit_ge (ha a (by simp))
      have hdb : 48 ≤ b.toNat := digit_ge (hb b (by simp))
      have hne : a.toNat ≠ b.toNat := fun h => hab (Char.toNat_inj.mp h)
      have h0 : ('0' : Char).toNat = 48 := rfl
      rw [h0]
      by_cases hlt : b.toNat < a.toNat
      · have : b.toNat - 48 + 1 ≤ a.toNat - 48 := by omega
        simp only [hlt, decide_true, Bool.true_eq, decide_eq_true_eq]
        nlinarith [Nat.zero_le (10 ^ bs.length)]
      · have : a.toNat - 48 + 1 ≤ b.toNat - 48 := by omega
        simp only [hlt, decide_false, Bool.false_eq, decide_eq_false_iff_not, not_lt]
        nlinarith [Nat.zero_le (10 ^ bs.length)]

theorem toDigits_head_ne_zero {n : ℕ} (h : 0 < n) : (Nat.toDigits 10 n).head? ≠ some '0' := by
  induction n using Nat.strong_induction_on with
  | _ n ih =>
    by_cases hlt : n < 10
    · rw [Nat.toDigits_of_lt_base hlt]
      have hdigit : ∀ m < 10, 0 < m → [Nat.digitChar m].head? ≠ some '0' := by decide
      exact hdigit n hlt h
    · rw [Nat.toDigits_of_base_le (by omega) (by omega), List.head?_append_of_ne_nil]
      · exact ih (n / 10) (by omega) (by omega)
      · exact Nat.toDigits_ne_nil

theorem uint64Max_digits : "18446744073709551615".toList = Nat.toDigits 10 uint64Max := by
  decide +kernel

theorem toDigits_isDigit {n : ℕ} : ∀ c ∈ Nat.toDigits 10 n, c.isDigit = true := fun _ hc =>
  Nat.isDigit_of_mem_toDigits (by omega) (by omega) hc

/-- At most 20 digits, and with 20 at most 2^64 - 1. -/
theorem sequence_bound (n : ℕ) :
    (!(decide (20 < (Nat.toDigits 10 n).length) || (Nat.toDigits 10 n).length == 20 &&
      strGreater (Nat.toDigits 10 n) "18446744073709551615".toList)) =
    decide (n ≤ uint64Max) := by
  have hlength : (Nat.toDigits 10 n).length ≤ 20 ↔ n < 10 ^ 20 :=
    Nat.length_toDigits_le_iff (by omega) (by omega)
  have hshort : (Nat.toDigits 10 n).length ≤ 19 ↔ n < 10 ^ 19 :=
    Nat.length_toDigits_le_iff (by omega) (by omega)
  have hmax : (Nat.toDigits 10 uint64Max).length = 20 := by decide +kernel
  have hvalue : uint64Max = 18446744073709551615 := rfl
  by_cases h20 : (Nat.toDigits 10 n).length = 20
  · rw [uint64Max_digits, strGreater_digits (h20.trans hmax.symm) toDigits_isDigit
      toDigits_isDigit, Nat.ofDigitChars_ten_toDigits, Nat.ofDigitChars_ten_toDigits]
    by_cases hn : n ≤ uint64Max
    · simp [h20, hn]
    · simp [h20, Nat.lt_of_not_le hn]
  · by_cases hn : n ≤ uint64Max
    · have : (Nat.toDigits 10 n).length ≤ 20 := hlength.mpr (by omega)
      simp [h20, hn, this]
    · have : ¬ (Nat.toDigits 10 n).length ≤ 19 := fun h => hn (by
        have := hshort.mp h
        omega)
      simp [hn]
      omega

theorem isDigit_eq (c : Char) : c.isDigit = (decide ('0' ≤ c) && decide (c ≤ '9')) := rfl

theorem one_le_of_isDigit {c : Char} (h : c.isDigit = true) (hne : c ≠ '0') : '1' ≤ c := by
  have hge := digit_ge h
  have h0 : c.toNat ≠ 48 := fun h => hne (Char.toNat_inj.mp h)
  refine UInt32.le_iff_toNat_le.mpr ?_
  show 49 ≤ c.toNat
  omega

/-- The guard's syntax check of the text of a number. -/
theorem positiveSequence_toString (n : ℕ) :
    positiveSequence (toString n) = (decide (0 < n) && decide (n ≤ uint64Max)) := by
  have htext : (toString n).toList = Nat.toDigits 10 n := by simp
  have hbound := sequence_bound n
  have hdigits := toDigits_isDigit (n := n)
  have hhead := toDigits_head_ne_zero (n := n)
  unfold positiveSequence
  rw [htext]
  cases hd : Nat.toDigits 10 n with
  | nil => exact absurd hd Nat.toDigits_ne_nil
  | cons c cs =>
    rw [hd] at hbound hdigits hhead
    have hc := hdigits c (by simp)
    have hcs : (cs.all fun d => decide ('0' ≤ d) && decide (d ≤ '9')) = true :=
      List.all_eq_true.mpr fun d hd => hdigits d (by simp [hd])
    have hnine : c ≤ '9' := by
      rw [isDigit_eq, Bool.and_eq_true, decide_eq_true_eq, decide_eq_true_eq] at hc
      exact hc.2
    simp only [List.length_cons] at hbound
    simp only [hbound, hcs, hnine, decide_true, Bool.and_true]
    by_cases hn : 0 < n
    · have hone := one_le_of_isDigit hc fun h => hhead hn (by rw [h]; rfl)
      simp [hn, hone]
    · obtain rfl : n = 0 := by omega
      rw [Nat.toDigits_zero, List.cons.injEq] at hd
      rw [← hd.1]
      decide

/-! ### The text of an environment -/

def Phase.text : Phase → String
  | .ready => "ready"
  | .activationIntent => "activation_intent"
  | .activated => "activated"
  | .trying => "trying"
  | .confirming => "confirming"
  | .promoting => "promoting"

/-- A variable that is not set reads as the empty string. -/
def textOr {α : Type} (text : α → String) : Option α → String
  | none => ""
  | some a => text a

@[simp] theorem textOr_none {α : Type} (text : α → String) : textOr text none = "" := rfl

@[simp] theorem textOr_some {α : Type} (text : α → String) (a : α) :
    textOr text (some a) = text a := rfl

theorem textOr_isSet {α : Type} {text : α → String} {x : Option α}
    (h : ∀ a, x = some a → text a ≠ "") : (textOr text x != "") = x.isSome := by
  cases x with
  | none => simp
  | some a => simpa using h a rfl

theorem Slot.text_ne_empty (s : Slot) : s.text ≠ "" := by cases s <;> decide

theorem Slot.text_inj {s t : Slot} : s.text = t.text ↔ s = t := by
  cases s <;> cases t <;> decide

theorem Phase.text_ne_empty (p : Phase) : p.text ≠ "" := by cases p <;> decide

/-- The variables of the loader hold what the updater's environment says. -/
structure Vars.Holds (v : Vars) (env : Env) : Prop where
  order : v "BOOT_ORDER" = " ".intercalate (env.bootOrder.map Slot.text)
  left : ∀ s : Slot, v s.counter = toString (env.left s)
  pending : v "epk_os_pending" = textOr id env.osPending
  target : v "epk_os_target" = textOr Slot.text env.osTarget
  from_ : v "epk_os_from" = textOr Slot.text env.osFrom
  sequence : v "epk_os_target_sequence" = textOr toString env.osTargetSequence
  sha256 : v "epk_os_target_sha256" = textOr id env.osTargetSha256
  phase : v "epk_os_phase" = textOr Phase.text env.osPhase
  trial : v "epk_os_trial_started" = textOr id env.osTrialStarted

/-- The variables as U-Boot imports them. -/
def Env.text (env : Env) : Vars := fun name =>
  if name = "BOOT_ORDER" then " ".intercalate (env.bootOrder.map Slot.text)
  else if name = "BOOT_A_LEFT" then toString (env.left .a)
  else if name = "BOOT_B_LEFT" then toString (env.left .b)
  else if name = "epk_os_pending" then textOr id env.osPending
  else if name = "epk_os_target" then textOr Slot.text env.osTarget
  else if name = "epk_os_from" then textOr Slot.text env.osFrom
  else if name = "epk_os_target_sequence" then textOr toString env.osTargetSequence
  else if name = "epk_os_target_sha256" then textOr id env.osTargetSha256
  else if name = "epk_os_phase" then textOr Phase.text env.osPhase
  else if name = "epk_os_trial_started" then textOr id env.osTrialStarted
  else ""

theorem Env.text_holds (env : Env) : env.text.Holds env :=
  ⟨rfl, fun s => by cases s <;> rfl, rfl, rfl, rfl, rfl, rfl, rfl, rfl⟩

/-- The environment has no variable set to an empty value. -/
structure Env.Printable (env : Env) : Prop where
  pending : env.osPending ≠ some ""
  sha256 : env.osTargetSha256 ≠ some ""
  trial : env.osTrialStarted ≠ some ""

section Text

variable {v : Vars} {env : Env}

theorem isDigest_ne_empty {d : Digest} (h : isDigest d = true) : d ≠ "" := by
  rintro rfl
  revert h
  decide

theorem doBootGuard_eq (h : v.Holds env) (hp : env.Printable) : doBootGuard v = bootGuard env := by
  unfold doBootGuard bootGuard
  rw [h.pending, h.sequence, h.sha256]
  cases hpending : env.osPending with
  | none => rfl
  | some pending =>
    have hne : pending ≠ "" := fun he => hp.pending (he ▸ hpending)
    have hseq : positiveSequence (textOr toString env.osTargetSequence) =
        (env.osTargetSequence.any fun n => 0 < n && n ≤ uint64Max) := by
      cases env.osTargetSequence with
      | none => decide
      | some n => exact positiveSequence_toString n
    have hhash : ((textOr id env.osTargetSha256).length == 64 &&
        (textOr id env.osTargetSha256).toList.all lowerHex) =
          env.osTargetSha256.any isDigest := by
      cases env.osTargetSha256 with
      | none => decide
      | some d => rfl
    simp only [textOr_some, id, hne, if_false, hseq, ← hhash, Bool.and_assoc]

/-- An environment the loader accepts has no empty value. -/
theorem Env.printable (h : env.accepted = true) : env.Printable := by
  simp only [accepted, Bool.and_eq_true] at h
  obtain ⟨⟨⟨hguard, -⟩, -⟩, hpending⟩ := h
  unfold bootGuard at hguard
  unfold pendingValid at hpending
  cases hp : env.osPending with
  | none =>
    simp only [hp, Bool.and_eq_true, Option.isNone_iff_eq_none] at hpending
    refine ⟨by simp [hp], ?_, ?_⟩
    · simp [hpending.2]
    · simp [hpending]
  | some pending =>
    simp only [hp, Bool.and_eq_true] at hguard hpending
    have hne : pending ≠ "" := by
      rintro rfl
      exact absurd hguard.1.1 (by decide)
    refine ⟨by simpa [hp] using hne, ?_, ?_⟩
    · intro hsha
      rw [hsha] at hguard
      exact isDigest_ne_empty hguard.2 rfl
    · intro htrial
      rw [htrial] at hpending
      have := hpending.1.2
      simp at this
      exact hne this

/-- A check that passes exactly when `ok`, and halts otherwise. -/
def Passes (p : Hush Unit) (ok : Bool) : Prop :=
  if ok then p = .ret () else ∃ msg, p = .raise msg

theorem passes_orHalt {cond ok : Bool} {msg : String} (h : cond = ok) :
    Passes (orHalt cond msg) ok := by
  subst h
  cases cond with
  | true => rfl
  | false => exact ⟨msg, rfl⟩

theorem Passes.and {p q : Hush Unit} {ok ok' : Bool} (hp : Passes p ok) (hq : Passes q ok') :
    Passes (p >>= fun _ => q) (ok && ok') := by
  cases ok with
  | true =>
    obtain rfl : p = .ret () := hp
    exact hq
  | false =>
    obtain ⟨msg, rfl⟩ := hp
    exact ⟨msg, rfl⟩

/-- The slots of the script's first check. -/
theorem slots_text (t f : Option Slot) :
    (textOr Slot.text t == "A" && textOr Slot.text f == "B" ||
      textOr Slot.text t == "B" && textOr Slot.text f == "A") =
    t.any fun t => f == some t.other := by
  rcases t with _ | _ | _ <;> rcases f with _ | _ | _ <;> decide

theorem phase_text (phase : Option Phase) :
    oneOf (textOr Phase.text phase)
      ["ready", "activation_intent", "activated", "trying", "confirming", "promoting"] =
    phase.isSome := by
  rcases phase with _ | _ | _ | _ | _ | _ | _ <;> decide

theorem phase_ready (phase : Option Phase) :
    (textOr Phase.text phase == "ready") = (phase == some .ready) := by
  rcases phase with _ | _ | _ | _ | _ | _ | _ <;> decide

/-- The checks of the pending variables pass on what `pendingValid` accepts. -/
theorem checkPending_passes (h : v.Holds env) (hp : env.Printable) :
    Passes (checkPending v) env.pendingValid := by
  have htarget : (textOr Slot.text env.osTarget != "") = env.osTarget.isSome :=
    textOr_isSet fun s _ => s.text_ne_empty
  have hfrom : (textOr Slot.text env.osFrom != "") = env.osFrom.isSome :=
    textOr_isSet fun s _ => s.text_ne_empty
  have hphase : (textOr Phase.text env.osPhase != "") = env.osPhase.isSome :=
    textOr_isSet fun p _ => p.text_ne_empty
  have hseq : (textOr toString env.osTargetSequence != "") = env.osTargetSequence.isSome :=
    textOr_isSet fun n _ => Nat.repr_ne_empty
  have hsha : (textOr id env.osTargetSha256 != "") = env.osTargetSha256.isSome :=
    textOr_isSet fun d hd he => hp.sha256 (hd.trans (congrArg some he))
  have htrial : (textOr id env.osTrialStarted != "") = env.osTrialStarted.isSome :=
    textOr_isSet fun d hd he => hp.trial (hd.trans (congrArg some he))
  unfold checkPending Env.pendingValid
  rw [h.pending, h.target, h.from_, h.sequence, h.sha256, h.phase, h.trial]
  cases hpending : env.osPending with
  | none =>
    rw [if_neg (by simp)]
    apply passes_orHalt
    simp only [htarget, hfrom, hphase, hseq, hsha, htrial]
    simp
  | some pending =>
    have hne : pending ≠ "" := fun he => hp.pending (he ▸ hpending)
    have hidentity : (!(textOr toString env.osTargetSequence == "" ||
        textOr id env.osTargetSha256 == "")) =
          (env.osTargetSequence.isSome && env.osTargetSha256.isSome) := by
      rw [← hseq, ← hsha]
      simp [bne]
    have hjob : (!(textOr id env.osTrialStarted != "" &&
        textOr id env.osTrialStarted != textOr id (some pending))) =
          env.osTrialStarted.all fun t => t == pending := by
      rw [htrial]
      cases env.osTrialStarted with
      | none => rfl
      | some t => simp [bne]
    have hready : (!(textOr Phase.text env.osPhase == "ready" &&
        textOr id env.osTrialStarted != "")) =
          !(env.osPhase == some .ready && env.osTrialStarted.isSome) := by
      rw [phase_ready, htrial]
    rw [if_pos (by simpa using hne)]
    simp only [Bool.and_assoc]
    rw [← Bool.and_assoc env.osTargetSequence.isSome]
    exact (passes_orHalt (slots_text _ _)).and ((passes_orHalt hidentity).and
      ((passes_orHalt (phase_text _)).and ((passes_orHalt hjob).and (passes_orHalt hready))))

theorem toString_inj {m n : ℕ} (h : toString m = toString n) : m = n := by
  have hvalue := congrArg (fun s : String => Nat.ofDigitChars 10 s.toList 0) h
  simpa using hvalue

theorem counter_text (n : ℕ) : oneOf (toString n) ["0", "1", "2", "3"] = decide (n ≤ 3) := by
  by_cases h : n ≤ 3
  · have hall : ∀ m ≤ 3, oneOf (toString m) ["0", "1", "2", "3"] = true := by decide +kernel
    rw [hall n h, decide_eq_true h]
  · have htexts : ["0", "1", "2", "3"] = [0, 1, 2, 3].map (toString : ℕ → String) := by
      decide +kernel
    rw [decide_eq_false h]
    refine Bool.eq_false_iff.mpr fun hmem => h ?_
    have hmem' := List.contains_iff_mem.mp hmem
    rw [htexts] at hmem'
    obtain ⟨m, hm, heq⟩ := List.mem_map.mp hmem'
    obtain rfl := toString_inj heq
    revert hm
    simp
    omega

theorem order_text (order : List Slot) :
    oneOf (" ".intercalate (order.map Slot.text)) ["A B", "B A", "A", "B"] =
      [[Slot.a, .b], [.b, .a], [.a], [.b]].contains order := by
  rcases order with _ | ⟨x, _ | ⟨y, _ | ⟨z, rest⟩⟩⟩
  · decide +kernel
  · cases x <;> decide +kernel
  · cases x <;> cases y <;> decide +kernel
  · have hlong : ∀ text ∈ ["A B", "B A", "A", "B"],
        " ".intercalate ((x :: y :: z :: rest).map Slot.text) ≠ text := by
      intro text hmem htext
      have hlength := congrArg String.length htext
      have hshort : ∀ text ∈ ["A B", "B A", "A", "B"], text.length ≤ 3 := by decide +kernel
      have hone : ∀ s : Slot, s.text.length = 1 := fun s => by cases s <;> decide +kernel
      have hspace : " ".length = 1 := by decide +kernel
      simp only [List.map_cons, String.intercalate_cons_cons, String.length_append, hone,
        hspace] at hlength
      have := hshort text hmem
      omega
    have hnone : oneOf (" ".intercalate ((x :: y :: z :: rest).map Slot.text))
        ["A B", "B A", "A", "B"] = false :=
      Bool.eq_false_iff.mpr fun hmem => hlong _ (List.contains_iff_mem.mp hmem) rfl
    rw [hnone]
    simp

/-- With the record of the card imported, the checks before the search pass on the text of
what the loader accepts, and halt on the text of anything else. -/
theorem checkState_passes (h : v.Holds env) (hp : env.Printable) :
    ∃ f, checkState v = .call (F := Uboot) .envGuard f ∧
      f false = .raise "native state unavailable" ∧
      ∀ ok : Bool, Passes (f ok) (ok && env.accepted) := by
  refine ⟨_, rfl, rfl, fun ok => ?_⟩
  have ha : oneOf (v "BOOT_A_LEFT") ["0", "1", "2", "3"] = decide (env.left .a ≤ 3) := by
    rw [show v "BOOT_A_LEFT" = _ from h.left .a, counter_text]
  have hb : oneOf (v "BOOT_B_LEFT") ["0", "1", "2", "3"] = decide (env.left .b ≤ 3) := by
    rw [show v "BOOT_B_LEFT" = _ from h.left .b, counter_text]
  have horder : oneOf (v "BOOT_ORDER") ["A B", "B A", "A", "B"] = env.orderValid := by
    rw [h.order]
    exact order_text _
  unfold Env.accepted Env.countersValid
  simp only [Bool.and_assoc]
  rw [← Bool.and_assoc]
  exact (passes_orHalt (by rw [doBootGuard_eq h hp])).and ((passes_orHalt horder).and
    ((passes_orHalt ha).and ((passes_orHalt hb).and (checkPending_passes h hp))))

/-- Only the record itself can still be refused. -/
theorem checkState_accepted (h : v.Holds env) (ha : env.accepted = true) :
    checkState v = (do orHalt (← uboot .envGuard) "native state unavailable") := by
  obtain ⟨f, hf, hfalse, hpass⟩ := checkState_passes h (Env.printable ha)
  rw [hf]
  refine congrArg (Prog.call (F := Uboot) UbootCall.envGuard) (funext fun ok => ?_)
  cases ok with
  | true =>
    have htrue := hpass true
    rw [ha] at htrue
    exact htrue
  | false => exact hfalse

/-- What is not accepted never gets past the checks. -/
theorem checkState_refused (h : v.Holds env) (hp : env.Printable) (ha : env.accepted = false) :
    (checkState v).Gives fun _ => False := by
  obtain ⟨f, hf, -, hpass⟩ := checkState_passes h hp
  rw [hf]
  intro ok
  have hok := hpass ok
  rw [ha, Bool.and_false] at hok
  obtain ⟨msg, hmsg⟩ := hok
  rw [hmsg]
  trivial

/-! ### The search and the save -/

theorem ready_text (phase : Option Phase) :
    textOr Phase.text phase = "ready" ↔ phase = some .ready := by
  rcases phase with _ | _ | _ | _ | _ | _ | _ <;> decide

theorem target_text (t : Option Slot) (s : Slot) :
    s.text = textOr Slot.text t ↔ t = some s := by
  rcases t with _ | _ | _ <;> cases s <;> decide

/-- One word of the order: an eligible slot is kept when none was yet. -/
theorem trySlot_text {ram : Vars} {s : Slot} (h : v.Holds env) (hp : env.Printable)
    (hram : ∀ name, name ≠ "epb_slot" → name ≠ "epb_part" → ram name = v name)
    (hnone : ram "epb_slot" = "") :
    trySlot ram s.text = if env.eligible s then (ram.set "epb_slot" s.text).set "epb_part" s.part
      else ram := by
  have hpending : ram "epk_os_pending" ≠ "" ↔ env.osPending.isSome = true := by
    rw [hram _ (by decide) (by decide), h.pending]
    cases hos : env.osPending with
    | none => simp
    | some pending =>
      have : pending ≠ "" := fun he => hp.pending (hos.trans (congrArg some he))
      simpa using this
  have hready : ram "epk_os_phase" = "ready" ↔ env.osPhase = some .ready := by
    rw [hram _ (by decide) (by decide), h.phase, ready_text]
  have htarget : s.text = ram "epk_os_target" ↔ env.osTarget = some s := by
    rw [hram _ (by decide) (by decide), h.target, target_text]
  have hleft : ram s.counter ≠ "0" ↔ env.left s ≠ 0 := by
    have hzero : ("0" : String) = toString 0 := rfl
    rw [hram _ (by cases s <;> decide) (by cases s <;> decide), h.left, hzero]
    exact not_congr ⟨toString_inj, congrArg toString⟩
  have hstart : (if s.text = "A" ∧ ram "BOOT_A_LEFT" ≠ "0" then
        (ram.set "epb_slot" "A").set "epb_part" "2"
      else if s.text = "B" ∧ ram "BOOT_B_LEFT" ≠ "0" then
        (ram.set "epb_slot" "B").set "epb_part" "3"
      else ram) =
      if ram s.counter ≠ "0" then (ram.set "epb_slot" s.text).set "epb_part" s.part else ram := by
    cases s with
    | a => by_cases hz : ram "BOOT_A_LEFT" = "0" <;> simp [Slot.text, Slot.part, Slot.counter, hz]
    | b => by_cases hz : ram "BOOT_B_LEFT" = "0" <;> simp [Slot.text, Slot.part, Slot.counter, hz]
  have hskip : (ram "epk_os_pending" ≠ "" ∧ ram "epk_os_phase" = "ready" ∧
      s.text = ram "epk_os_target") ↔
      (env.osPending.isSome && env.osPhase == some .ready && env.osTarget == some s) = true := by
    rw [hready, htarget]
    simp [hpending, and_assoc]
  unfold trySlot Env.eligible
  rw [if_pos hnone, hstart]
  by_cases hready' : ram "epk_os_pending" ≠ "" ∧ ram "epk_os_phase" = "ready" ∧
      s.text = ram "epk_os_target"
  · simp [hready', hskip.mp hready']
  · have hpass := Bool.eq_false_iff.mpr (mt hskip.mpr hready')
    rw [if_neg hready', hpass]
    by_cases hzero : env.left s = 0
    · simp [hzero, mt hleft.mp]
    · simp [hzero, hleft.mpr hzero]

/-- A slot that was found is kept. -/
theorem trySlot_found {ram : Vars} (h : ram "epb_slot" ≠ "") (words : List String) :
    words.foldl trySlot ram = ram := by
  induction words with
  | nil => rfl
  | cons word words ih =>
    have hkept : trySlot ram word = ram := by
      unfold trySlot
      rw [if_neg h]
    rw [List.foldl_cons, hkept]
    exact ih

/-- The search finds what `select` finds. -/
theorem findSlot_text (h : v.Holds env) (hp : env.Printable) (horder : env.orderValid = true) :
    findSlot v "epb_slot" = textOr Slot.text env.select := by
  have hfields : fields (v "BOOT_ORDER") = env.bootOrder.map Slot.text := by
    rw [h.order]
    have hall : ∀ order ∈ [[Slot.a, .b], [.b, .a], [.a], [.b]],
        fields (" ".intercalate (order.map Slot.text)) = order.map Slot.text := by
      decide +kernel
    exact hall _ (List.contains_iff_mem.mp horder)
  have hfold : ∀ (words : List Slot) (ram : Vars),
      (∀ name, name ≠ "epb_slot" → name ≠ "epb_part" → ram name = v name) →
      ram "epb_slot" = "" →
      ((words.map Slot.text).foldl trySlot ram) "epb_slot" =
        textOr Slot.text (words.find? env.eligible) := by
    intro words
    induction words with
    | nil => exact fun ram _ hnone => hnone
    | cons word words ih =>
      intro ram hram hnone
      rw [List.map_cons, List.foldl_cons, trySlot_text h hp hram hnone, List.find?_cons]
      by_cases heligible : env.eligible word = true
      · have hslot : ((ram.set "epb_slot" word.text).set "epb_part" word.part) "epb_slot" =
            word.text := by
          rw [Vars.set_other _ _ (by decide), Vars.set_same]
        rw [heligible, if_pos rfl, trySlot_found (by rw [hslot]; exact word.text_ne_empty), hslot]
        rfl
      · rw [if_neg heligible, Bool.eq_false_iff.mpr heligible]
        exact ih ram hram hnone
  unfold findSlot Env.select
  rw [hfields]
  refine hfold _ _ (fun name h₁ h₂ => ?_) ?_
  · rw [Vars.set_other _ _ h₂, Vars.set_other _ _ h₁]
  · rw [Vars.set_other _ _ (by decide), Vars.set_same]

/-- The variables saved for a launch are the text of `launch`. -/
theorem Vars.Spends.holds {s : Slot} {after : Vars} (hs : v.Spends s after) (h : v.Holds env)
    (hp : env.Printable) (hvalid : env.left s ≤ 3) : after.Holds (env.launch s) := by
  have hrest : ∀ name, name ∉ ["epb_halt", "epb_reset", "epb_slot", "epb_part",
      "epk_os_trial_started", "BOOT_A_LEFT", "BOOT_B_LEFT"] → after name = v name := by
    intro name hname
    refine hs.rest name fun hmem => hname ?_
    simp only [touched, List.mem_cons, List.not_mem_nil, or_false] at hmem
    cases s <;> simp only [Slot.counter] at hmem <;> simp only [List.mem_cons] <;> tauto
  refine ⟨?_, ?_, ?_, ?_, ?_, ?_, ?_, ?_, ?_⟩
  · rw [hrest _ (by decide), h.order, Env.launch_bootOrder]
  · intro t
    rw [Env.launch_left]
    by_cases hne : t = s
    · subst hne
      have hcounter := hs.counter
      have hspent := hs.spent
      have hall : ∀ n ≤ 3, ∀ text ∈ ["0", "1", "2"], digit text + 1 = digit (toString n) →
          text = toString (n - 1) := by decide +kernel
      rw [Vars.attempts, Vars.attempts, h.left] at hspent
      rw [Function.update_self]
      exact hall _ hvalid _ hcounter hspent
    · rw [Function.update_of_ne hne, hs.other hne, h.left]
  · rw [hrest _ (by decide), h.pending, Env.launch_osPending]
  · rw [hrest _ (by decide), h.target, Env.launch_osTarget]
  · rw [hrest _ (by decide), h.from_, Env.launch_osFrom]
  · rw [hrest _ (by decide), h.sequence, Env.launch_osTargetSequence]
  · rw [hrest _ (by decide), h.sha256, Env.launch_osTargetSha256]
  · rw [hrest _ (by decide), h.phase, Env.launch_osPhase]
  · rw [hs.trial]
    unfold Vars.trialAfter
    rw [h.pending, h.target, h.trial]
    cases hos : env.osPending with
    | none => rw [if_neg (by simp), Env.launch_other (Or.inl hos)]
    | some pending =>
      have hne : pending ≠ "" := fun he => hp.pending (hos.trans (congrArg some he))
      by_cases ht : env.osTarget = some s
      · rw [if_pos ⟨by simpa using hne, ((target_text _ _).mpr ht).symm⟩, Env.launch_trial hos ht]
      · rw [if_neg fun hc => ht ((target_text _ _).mp hc.2.symm), Env.launch_other (Or.inr ht)]

/-- The checks ask for the record only. -/
theorem checkState_makes (v : Vars) :
    (checkState v).Makes (F := Uboot) fun call => ∀ c x c', Card.Does c call x c' → c' = c := by
  have hhalt : ∀ cond msg, (orHalt cond msg).Makes (F := Uboot)
      fun call => ∀ c x c', Card.Does c call x c' → c' = c := fun _ _ => makes_raiseIf _
  refine ⟨fun c x c' h => h, fun ok => ?_⟩
  refine (hhalt _ _).bind fun _ => (hhalt _ _).bind fun _ => (hhalt _ _).bind fun _ =>
    (hhalt _ _).bind fun _ => ?_
  unfold checkPending
  split_ifs
  · exact (hhalt _ _).bind fun _ => (hhalt _ _).bind fun _ => (hhalt _ _).bind fun _ =>
      (hhalt _ _).bind fun _ => hhalt _ _
  · exact hhalt _ _

/-- The commands set first do not matter to the text of an environment. -/
theorem Vars.Holds.start (h : v.Holds env) (halt reset : String) :
    ((v.set "epb_halt" halt).set "epb_reset" reset).Holds env := by
  have hkept : ∀ name, name ≠ "epb_halt" → name ≠ "epb_reset" →
      ((v.set "epb_halt" halt).set "epb_reset" reset) name = v name := fun name h₁ h₂ => by
    rw [Vars.set_other _ _ h₂, Vars.set_other _ _ h₁]
  refine ⟨?_, fun s => ?_, ?_, ?_, ?_, ?_, ?_, ?_, ?_⟩
  · rw [hkept _ (by decide) (by decide), h.order]
  · rw [hkept _ (by cases s <;> decide) (by cases s <;> decide), h.left]
  · rw [hkept _ (by decide) (by decide), h.pending]
  · rw [hkept _ (by decide) (by decide), h.target]
  · rw [hkept _ (by decide) (by decide), h.from_]
  · rw [hkept _ (by decide) (by decide), h.sequence]
  · rw [hkept _ (by decide) (by decide), h.sha256]
  · rw [hkept _ (by decide) (by decide), h.phase]
  · rw [hkept _ (by decide) (by decide), h.trial]

end Text

/-- A boot of the script, whatever fails in it and wherever it is cut, leaves the environment
it found or the one `bootSlot` gives. -/
theorem boot_refines {c c' : Card} {env : Env} (hboot : Card.Boot c c')
    (h : c.flash.Holds env) (hp : env.Printable) :
    c'.flash.Holds env ∨ ∃ s env', bootSlot env = some (s, env') ∧ c'.flash.Holds env' := by
  by_cases ha : env.accepted = true
  · rcases hboot.within with ⟨hflash, -⟩ | ⟨-, ⟨s, hspends⟩, -⟩
    · exact Or.inl (hflash ▸ h)
    · have horder : env.orderValid = true := by
        simp only [Env.accepted, Bool.and_eq_true] at ha
        exact ha.1.1.2
      have hselect : env.select = some s := by
        have hfound := findSlot_text h hp horder
        rw [hspends.chosen] at hfound
        exact (target_text _ _).mp hfound
      refine Or.inr ⟨s, env.launch s, bootSlot_eq_some.mpr ⟨ha, hselect, rfl⟩, ?_⟩
      exact hspends.holds h hp (Env.accepted_left ha s)
  · left
    have hnever := checkState_refused
      (h.start "epk_boot_halt; while true; do sleep 1; done" "reset; run epb_halt") hp
      (Bool.eq_false_iff.mpr ha)
    have hmakes : (bootScript c.flash).Makes (F := Uboot)
        fun call => ∀ c x c', Card.Does c call x c' → c' = c :=
      (checkState_makes _).bind_never hnever
    have hkept : c'.flash = c.flash :=
      Safe.stops (C := fun t => t.flash = c.flash) (hmakes.safe (fun _ _ hrely ht => hrely ▸ ht)
        (fun t call hcall ht => ⟨ht, fun x t' hdoes => hcall t x t' hdoes ▸ ht⟩) rfl) hboot
    rw [hkept]
    exact h

end Epilykos.OsUpdate
