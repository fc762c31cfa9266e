import Epilykos.OsBootstrap.BuildSeed
import Mathlib.Data.List.Perm.Subperm

/-!
The card checker's own reading of the two environments, tools/check_card_image.py, beside the
loader's. It refuses duplicates, bad checksums and missing headroom as the loader does, but
looks at neither the characters nor the number of the entries, and its base64 is lenient.
-/

namespace Epilykos.OsBootstrap

open Program PlatformEnv
open OsUpdate (Json Err OsProg Oracles Digest Platform)

/-! ### Reading a copy -/

/-- The entries from here on, and the position after the extra NUL. -/
def parseEnvFrom (values : List Entry) (position : ℕ) (data : Bytes) :
    Except Err (List Entry × ℕ) :=
  match data with
  | [] => .error .value
  | c :: rest =>
    if c = 0 then .ok (values, position + 1)
    else match _hmem : memchr 0 (c :: rest) with
      | none => .error .value
      | some (text, after) =>
        if text.any (128 ≤ ·) then .error .value
        else match memchr 61 text with
          | none => .error .value
          | some (name, value) =>
            if (get values name).isSome then .error .value
            else parseEnvFrom (values ++ [⟨name, value⟩]) (position + text.length + 1) after
termination_by data.length
decreasing_by
  have hsplit := congrArg List.length (memchr_eq_some_iff.mp _hmem).1
  simp only [List.length_cons, List.length_append] at hsplit ⊢
  omega

def parseEnv (r : Record) : Except Err (UInt8 × List Entry × ℕ) :=
  if packCrc (zlibCrc32 r.data) ≠ r.crc then .error .value
  else (parseEnvFrom [] 0 r.data).map fun p => (r.flag, p.1, p.2)

/-- Equality of two dictionaries. -/
def sameItems (a b : List Entry) : Bool :=
  a.length == b.length && a.all fun e => get b e.name == some e.value

/-! ### Base64 -/

/-- The bytes of a last group without its padding. -/
def lastBytes : List ℕ → Bytes
  | [x, y] => [(x * 4 + y / 16).toUInt8]
  | [x, y, z] => [(x * 4 + y / 16).toUInt8, (y % 16 * 16 + z / 4).toUInt8]
  | _ => []

/-- binascii.a2b_base64 in strict mode, with the digits of the group under way and the padding
seen. Padding that nothing needs is passed over; unused bits are not looked at. -/
def a2bBase64From (quad : List ℕ) (pads : ℕ) (started : Bool) : Bytes → Option Bytes
  | [] => if quad = [] then some [] else none
  | c :: rest =>
    if c = 61 then
      if 2 ≤ quad.length ∧ 4 ≤ quad.length + (pads + 1) then
        if rest = [] then some (lastBytes quad) else none
      else a2bBase64From quad (if 2 ≤ quad.length then pads + 1 else pads) true rest
    else match b64Digit c with
      | none => none
      | some d =>
        if started then none
        else match quad with
          | [x, y, z] => (a2bBase64From [] 0 false rest).map fun tail =>
            (x * 4 + y / 16).toUInt8 :: (y % 16 * 16 + z / 4).toUInt8 ::
              (z % 4 * 64 + d).toUInt8 :: tail
          | quad => a2bBase64From (quad ++ [d]) 0 false rest

/-- `base64.b64decode(text, validate=True)` -/
def a2bBase64 (text : Bytes) : Option Bytes :=
  if text.head? = some 61 then none else a2bBase64From [] 0 false text

/-! ### The environments of a card -/

/-- What a fresh card says, beside its policy. -/
def expected (osSequence : ℕ) : List Entry := [
  ⟨ascii "BOOT_ORDER", ascii "A B"⟩,
  ⟨ascii "BOOT_A_LEFT", ascii "3"⟩,
  ⟨ascii "BOOT_B_LEFT", ascii "3"⟩,
  ⟨ascii "epk_state_schema", ascii "1"⟩,
  ⟨ascii "epk_state_generation", ascii "0"⟩,
  ⟨ascii "epk_os_floor", str osSequence⟩]

/-- TRANSACTION: present only while a job runs. -/
def transaction : List Bytes :=
  ["epk_os_pending", "epk_os_target", "epk_os_from", "epk_os_target_sequence",
    "epk_os_target_sha256", "epk_os_phase", "epk_os_trial_started"].map ascii

structure EnvReport where
  envFreeBytes : ℕ
  trustEpoch : ℕ
  policySha256 : Digest

/-- `base64.b64decode(env[name], validate=True)` -/
def decodeItem (env : List Entry) (name : Bytes) : Except Err Bytes :=
  match get env name with
  | none => .error .key
  | some text =>
    match a2bBase64 text with
    | none => .error .value
    | some raw => .ok raw

/-- check_env without a seed directory. -/
def checkEnv (O : Oracles) (a b : Record) (plat : Platform) (rootPem : Bytes) :
    OsProg EnvReport := do
  let (flagA, envA, used) ← Prog.ofExcept (parseEnv a)
  let (flagB, envB, _) ← Prog.ofExcept (parseEnv b)
  .raiseIf (flagA ≠ 1 ∨ flagB ≠ 2 ∨ sameItems envA envB = false) .value
  .raiseIf (dataSize - used < headroom) .value
  .raiseIf ((expected plat.osSequence).any fun e => get envA e.name != some e.value) .value
  .raiseIf (transaction.any fun name => (get envA name).isSome) .value
  let policyRaw ← Prog.ofExcept (decodeItem envA (ascii "epk_trust_policy"))
  let signature ← Prog.ofExcept (decodeItem envA (ascii "epk_trust_policy_sig"))
  let policy ← OsUpdate.verifyPolicy O policyRaw signature rootPem plat.board plat.channel none
  .raiseIf (get envA (ascii "epk_trust_epoch") ≠ some (str policy.trustEpoch)) .value
  return { envFreeBytes := dataSize - used, trustEpoch := policy.trustEpoch,
           policySha256 := O.sha256 policyRaw }

/-- The form the loader wants of a copy: names and values in its characters, no more entries
than its table holds, and canonical base64. -/
def InLoaderForm (r : Record) : Prop :=
  ∃ entries tail, r.data = lines (entries.map Entry.text) ++ 0 :: tail ∧
    (∀ e ∈ entries, EntryOk e) ∧ entries.length ≤ maxEntries ∧
    b64Size (get entries (ascii "epk_trust_policy")) ≠ 0 ∧
    b64Size (get entries (ascii "epk_trust_policy_sig")) ≠ 0

/-- The two copies on the card. -/
def card (a b : Record) : Device
  | .a => a
  | .b => b

/-- The loader takes the pair, with the numbers of a fresh card. -/
def Selects (a b : Record) (osSequence trustEpoch : ℕ) : Prop :=
  ∃ sel, epkEnvSelect a b = .ok sel ∧ sel.generation = 0 ∧ sel.osFloor = osSequence ∧
    sel.trustEpoch = trustEpoch

/-! ### Base64 sizes -/

theorem lastBytes_length {quad : List ℕ} (hmin : 2 ≤ quad.length) (hmax : quad.length ≤ 3) :
    (lastBytes quad).length = (quad.length + 0) * 3 / 4 := by
  rcases Nat.lt_or_ge quad.length 3 with hlt | hge
  · obtain ⟨x, y, rfl⟩ := List.length_eq_two.mp (by omega : quad.length = 2)
    simp [lastBytes]
  · obtain ⟨x, y, z, rfl⟩ := List.length_eq_three.mp (by omega : quad.length = 3)
    simp [lastBytes]

/-- Digits, then padding; the size is that of the digits. -/
theorem a2bBase64From_parts {text raw : Bytes} {quad : List ℕ} {pads : ℕ} {started : Bool}
    (hquad : quad.length ≤ 3) (h : a2bBase64From quad pads started text = some raw) :
    ∃ digits padding, text = digits ++ padding ∧ (∀ c ∈ digits, (b64Digit c).isSome) ∧
      (∀ c ∈ padding, c = 61) ∧ (started = true → digits = []) ∧
      raw.length = (quad.length + digits.length) * 3 / 4 := by
  induction text generalizing quad pads started raw with
  | nil =>
    rw [a2bBase64From] at h
    split_ifs at h with hnil
    cases h
    exact ⟨[], [], by simp [hnil]⟩
  | cons c rest ih =>
    rw [a2bBase64From] at h
    by_cases hpad : c = 61
    · rw [if_pos hpad] at h
      by_cases hlast : 2 ≤ quad.length ∧ 4 ≤ quad.length + (pads + 1)
      · rw [if_pos hlast] at h
        split_ifs at h with hrest
        cases h
        refine ⟨[], [c], by simp [hrest], by simp, by simpa using hpad, fun _ => rfl, ?_⟩
        exact lastBytes_length hlast.1 hquad
      · rw [if_neg hlast] at h
        obtain ⟨digits, padding, rfl, hdigits, hpadding, hstarted, hlength⟩ := ih hquad h
        obtain rfl := hstarted rfl
        exact ⟨[], c :: padding, rfl, by simp, by simpa [hpad] using hpadding, fun _ => rfl,
          hlength⟩
    · rw [if_neg hpad] at h
      cases hd : b64Digit c with
      | none =>
        rw [hd] at h
        cases h
      | some d =>
        rw [hd] at h
        simp only at h
        split_ifs at h with hstarted
        have hsome : (b64Digit c).isSome := by
          rw [hd]
          rfl
        split at h
        · obtain ⟨tail, htail, rfl⟩ := Option.map_eq_some_iff.mp h
          obtain ⟨digits, padding, rfl, hdigits, hpadding, _, hlength⟩ := ih (by simp) htail
          refine ⟨c :: digits, padding, rfl, ?_, hpadding, fun hs => absurd hs hstarted, ?_⟩
          · exact List.forall_mem_cons.mpr ⟨hsome, hdigits⟩
          · simp only [List.length_cons, List.length_nil, hlength]
            omega
        · rename_i hthree
          have hne : quad.length ≠ 3 := fun hlen => by
            obtain ⟨x, y, z, rfl⟩ := List.length_eq_three.mp hlen
            exact hthree x y z rfl
          obtain ⟨digits, padding, rfl, hdigits, hpadding, _, hlength⟩ :=
            ih (by rw [List.length_append, List.length_singleton]; omega) h
          refine ⟨c :: digits, padding, rfl, ?_, hpadding, fun hs => absurd hs hstarted, ?_⟩
          · exact List.forall_mem_cons.mpr ⟨hsome, hdigits⟩
          · rw [hlength, List.length_append, List.length_singleton, List.length_cons]
            omega

theorem b64Padding_parts {digits padding : Bytes} (hdigits : ∀ c ∈ digits, (b64Digit c).isSome)
    (hpadding : ∀ c ∈ padding, c = 61) (hlength : 2 ≤ digits.length + padding.length) :
    b64Padding (digits ++ padding) = min padding.length 2 := by
  have hdigit : ∀ i < digits.length, (digits ++ padding).getD i 0 ≠ 61 := by
    intro i hi
    rw [List.getD_append _ _ _ _ hi, List.getD_eq_getElem _ _ hi]
    exact digit_ne_pad (hdigits _ (List.getElem_mem hi))
  have hpad : ∀ i, digits.length ≤ i → i < digits.length + padding.length →
      (digits ++ padding).getD i 0 = 61 := by
    intro i hle hlt
    rw [List.getD_append_right _ _ _ _ hle, List.getD_eq_getElem _ _ (by omega)]
    exact hpadding _ (List.getElem_mem _)
  rw [b64Padding, List.length_append]
  rcases Nat.lt_or_ge padding.length 1 with hzero | hone
  · rw [if_neg (hdigit _ (by omega)), if_neg (hdigit _ (by omega))]
    omega
  · rw [if_pos (hpad _ (by omega) (by omega))]
    rcases Nat.lt_or_ge padding.length 2 with hlt | hge
    · rw [if_neg (hdigit _ (by omega))]
      omega
    · rw [if_pos (hpad _ (by omega) (by omega))]
      omega

/-- What the checker decodes is as long as the loader says, wherever the loader takes it. -/
theorem b64Size_of_a2b {text raw : Bytes} (h : a2bBase64 text = some raw)
    (hsize : b64Size (some text) ≠ 0) : b64Size (some text) = raw.length := by
  rw [a2bBase64] at h
  split_ifs at h with hhead
  obtain ⟨digits, padding, rfl, hdigits, hpadding, _, hlength⟩ :=
    a2bBase64From_parts (by simp) h
  simp only [b64Size] at hsize ⊢
  split_ifs at hsize ⊢ with hlen hany
  · exact absurd rfl hsize
  · exact absurd rfl hsize
  · exact absurd rfl hsize
  · exact absurd rfl hsize
  · rw [not_or, not_not, List.length_append] at hlen
    have hpad := b64Padding_parts hdigits hpadding (by omega)
    rw [hpad, List.length_append] at hany ⊢
    rw [List.length_nil, Nat.zero_add] at hlength
    have hshort : padding.length ≤ 2 := by
      by_contra hlong
      have hmem : (61 : UInt8) ∈ (digits ++ padding).take
          (digits.length + padding.length - min padding.length 2) := by
        rw [List.mem_take_iff_getElem]
        refine ⟨digits.length, by rw [List.length_append]; omega, ?_⟩
        rw [List.getElem_append_right (Nat.le_refl _)]
        exact hpadding _ (List.getElem_mem _)
      refine hany (List.any_eq_true.mpr ⟨61, hmem, rfl⟩)
    rw [Nat.min_eq_left hshort]
    omega

/-! ### What the checker knows -/

/-- A payload is the lines of one list of entries only. -/
theorem entries_unique {xs ys : List Entry} {tail tail' : Bytes}
    (hxs : ∀ e ∈ xs, 61 ∉ e.name ∧ 0 ∉ e.text) (hys : ∀ e ∈ ys, 61 ∉ e.name ∧ 0 ∉ e.text)
    (h : lines (xs.map Entry.text) ++ 0 :: tail = lines (ys.map Entry.text) ++ 0 :: tail') :
    xs = ys := by
  have hhead : ∀ {e : Entry} {rest : Bytes}, 0 ∉ e.text → ∀ after, e.text ++ rest ≠ 0 :: after := by
    intro e rest hnul after heq
    obtain ⟨c, cs, hc⟩ := List.exists_cons_of_ne_nil (show e.text ≠ [] by simp [Entry.text])
    rw [hc, List.cons_append] at heq
    exact hnul (hc ▸ (List.cons.inj heq).1 ▸ .head _)
  induction xs generalizing ys with
  | nil =>
    cases ys with
    | nil => rfl
    | cons e ys =>
      rw [List.map_nil, lines_nil, List.nil_append, List.map_cons, lines_cons,
        List.append_assoc] at h
      exact absurd h.symm (hhead (hys e (.head _)).2 tail)
  | cons e xs ih =>
    cases ys with
    | nil =>
      rw [List.map_nil, lines_nil, List.nil_append, List.map_cons, lines_cons,
        List.append_assoc] at h
      exact absurd h (hhead (hxs e (.head _)).2 tail')
    | cons e' ys =>
      rw [List.map_cons, List.map_cons, lines_cons, lines_cons, List.append_assoc,
        List.append_assoc, List.cons_append, List.cons_append] at h
      have hline := congrArg (memchr 0) h
      rw [memchr_append (hxs e (.head _)).2, memchr_append (hys e' (.head _)).2] at hline
      obtain ⟨htext, hrest⟩ := Prod.mk.inj (Option.some.inj hline)
      have hsplit := congrArg (memchr 61) htext
      rw [Entry.text, Entry.text, memchr_append (hxs e (.head _)).1,
        memchr_append (hys e' (.head _)).1] at hsplit
      obtain ⟨hname, hvalue⟩ := Prod.mk.inj (Option.some.inj hsplit)
      have heq : e = e' := by
        cases e
        cases e'
        exact congrArg₂ Entry.mk hname hvalue
      rw [heq, ih (fun d hd => hxs d (.tail _ hd)) (fun d hd => hys d (.tail _ hd)) hrest]

/-- What was read, as the text it was read from. -/
structure ReadFrom (values new : List Entry) (data : Bytes) : Prop where
  data : ∃ tail, data = lines (new.map Entry.text) ++ 0 :: tail
  split : ∀ e ∈ new, 61 ∉ e.name ∧ 0 ∉ e.text
  nodup : (values.map Entry.name).Nodup → ((values ++ new).map Entry.name).Nodup

theorem parseEnvFrom_ok {values env : List Entry} {position used : ℕ} {data : Bytes}
    (h : parseEnvFrom values position data = .ok (env, used)) :
    ∃ new, env = values ++ new ∧ used = position + (lines (new.map Entry.text)).length + 1 ∧
      ReadFrom values new data := by
  fun_induction parseEnvFrom values position data with
  | case1 => cases h
  | case2 values position rest =>
    cases h
    exact ⟨[], by simp, by simp, ⟨⟨rest, rfl⟩, by simp, by simp⟩⟩
  | case3 => cases h
  | case4 => cases h
  | case5 => cases h
  | case6 => cases h
  | case7 values position c rest _ text after htext _ name value hsplit hfresh ih =>
    obtain ⟨new, rfl, rfl, ⟨tail, hdata⟩, hnul, hnodup⟩ := ih h
    obtain ⟨hline, htextnul⟩ := memchr_eq_some_iff.mp htext
    obtain ⟨hentry, hname⟩ := memchr_eq_some_iff.mp hsplit
    change text = (⟨name, value⟩ : Entry).text at hentry
    refine ⟨⟨name, value⟩ :: new, by simp, ?_, ⟨⟨tail, ?_⟩, ?_, ?_⟩⟩
    · rw [List.map_cons, lines_cons, List.length_append, List.length_cons, ← hentry]
      omega
    · rw [hline, List.map_cons, lines_cons, ← hentry, hdata, List.append_assoc]
      rfl
    · exact List.forall_mem_cons.mpr ⟨⟨hname, hentry ▸ htextnul⟩, hnul⟩
    · intro hvalues
      rw [List.append_assoc, List.singleton_append] at hnodup
      refine hnodup ?_
      rw [List.map_append, List.map_cons, List.map_nil]
      refine List.nodup_append.mpr ⟨hvalues, List.nodup_singleton _, ?_⟩
      intro a ha b hb
      obtain ⟨e, he, rfl⟩ := List.mem_map.mp ha
      rw [List.mem_singleton.mp hb]
      exact get_eq_none_iff.mp (Option.not_isSome_iff_eq_none.mp hfresh) e he

/-- A copy as the checker reads it. -/
structure Copy (r : Record) (env : List Entry) (used : ℕ) : Prop where
  crc : r.crcValid = true
  used : used = (lines (env.map Entry.text)).length + 1
  data : ∃ tail, r.data = lines (env.map Entry.text) ++ 0 :: tail
  split : ∀ e ∈ env, 61 ∉ e.name ∧ 0 ∉ e.text
  nodup : (env.map Entry.name).Nodup

theorem parseEnv_ok {r : Record} {flag : UInt8} {env : List Entry} {used : ℕ}
    (h : parseEnv r = .ok (flag, env, used)) : flag = r.flag ∧ Copy r env used := by
  rw [parseEnv] at h
  split_ifs at h with hcrc
  cases hread : parseEnvFrom [] 0 r.data with
  | error e =>
    rw [hread] at h
    cases h
  | ok p =>
    rw [hread] at h
    cases h
    obtain ⟨new, henv, hused, hdata, hnul, hnodup⟩ := parseEnvFrom_ok hread
    rw [List.nil_append] at henv
    refine ⟨rfl, ?_, ?_, ?_, ?_, ?_⟩
    · have hset := Record.setCrc_crcValid r
      rwa [Record.crcValid_congr (r := r.setCrc) (s := r) (by
        rw [← not_not.mp hcrc, zlibCrc32_eq]
        rfl) rfl] at hset
    · rw [hused, henv]
      omega
    · exact henv ▸ hdata
    · exact henv ▸ hnul
    · exact henv ▸ hnodup (by simp)

theorem sameItems_perm {a b : List Entry} (ha : (a.map Entry.name).Nodup)
    (h : sameItems a b = true) : a.Perm b := by
  rw [sameItems, Bool.and_eq_true, beq_iff_eq, List.all_eq_true] at h
  have hsub : a ⊆ b := fun e he => mem_of_get (by simpa using h.2 e he)
  exact (ha.of_map.subperm hsub).perm_of_length_le h.1.ge

/-- What the checker has found before it reports. -/
structure Accepted (O : Oracles) (a b : Record) (plat : Platform) (epoch : ℕ) (env : List Entry)
    (policyRaw signature : Bytes) : Prop where
  copyA : ∃ used, Copy a env used ∧ used + headroom ≤ dataSize
  copyB : ∃ envB used, Copy b envB used ∧ env.Perm envB
  flag_a : a.flag = 1
  flag_b : b.flag = 2
  expected : ∀ e ∈ expected plat.osSequence, PlatformEnv.get env e.name = some e.value
  policy : decodeItem env (ascii "epk_trust_policy") = .ok policyRaw
  policySig : decodeItem env (ascii "epk_trust_policy_sig") = .ok signature
  trustEpoch : PlatformEnv.get env (ascii "epk_trust_epoch") = some (str epoch)
  checked : policyRaw ≠ [] ∧ policyRaw.length ≤ OsUpdate.policyMax ∧ signature.length = 64 ∧
    epoch ≤ uint64Max ∧ StatesEpoch O policyRaw epoch

theorem checkEnv_gives {O : Oracles} {a b : Record} {plat : Platform} {rootPem : Bytes} :
    (checkEnv O a b plat rootPem).Gives fun report => ∃ env policyRaw signature,
      Accepted O a b plat report.trustEpoch env policyRaw signature := by
  unfold checkEnv
  refine Prog.Gives.bind (gives_ofExcept fun _ h => h) fun copyA hA => ?_
  refine Prog.Gives.bind (gives_ofExcept fun _ h => h) fun copyB hB => ?_
  obtain ⟨flagA, envA, used⟩ := copyA
  obtain ⟨flagB, envB, usedB⟩ := copyB
  obtain ⟨rfl, hcopyA⟩ := parseEnv_ok hA
  obtain ⟨rfl, hcopyB⟩ := parseEnv_ok hB
  refine Prog.Gives.bind gives_raiseIf fun _ hsame => ?_
  refine Prog.Gives.bind gives_raiseIf fun _ hroom => ?_
  refine Prog.Gives.bind gives_raiseIf fun _ hexpected => ?_
  refine Prog.Gives.bind (gives_true _) fun _ _ => ?_
  refine Prog.Gives.bind (gives_ofExcept fun _ h => h) fun policyRaw hpolicyRaw => ?_
  refine Prog.Gives.bind (gives_ofExcept fun _ h => h) fun signature hsignature => ?_
  refine Prog.Gives.bind verifyPolicy_gives fun policy hpolicy => ?_
  refine Prog.Gives.bind gives_raiseIf fun _ hepoch => ?_
  simp only [not_or, not_not, Bool.not_eq_false] at hsame hepoch
  refine ⟨envA, policyRaw, signature, ⟨used, hcopyA, ?_⟩, ⟨envB, usedB, hcopyB, ?_⟩, hsame.1,
    hsame.2.1, ?_, hpolicyRaw, hsignature, hepoch, hpolicy⟩
  · simp only [headroom] at hroom ⊢
    omega
  · exact sameItems_perm hcopyA.nodup hsame.2.2
  · intro e he
    by_contra hne
    exact hexpected (List.any_eq_true.mpr ⟨e, he, by simpa using hne⟩)

theorem split_of_ok {e : Entry} (h : EntryOk e) : 61 ∉ e.name ∧ 0 ∉ e.text := by
  refine ⟨h.equals_notMem, ?_⟩
  rw [Entry.text, List.mem_append, List.mem_cons, not_or, not_or]
  exact ⟨h.nul_notMem_name, by decide, h.nul_notMem_value⟩

section Accepted

variable {O : Oracles} {a b : Record} {plat : Platform} {epoch : ℕ} {env : List Entry}
  {policyRaw signature : Bytes}

theorem decodeItem_ok {name raw : Bytes} (h : decodeItem env name = .ok raw)
    (hsize : b64Size (PlatformEnv.get env name) ≠ 0) :
    b64Size (PlatformEnv.get env name) = raw.length := by
  rw [decodeItem] at h
  cases hget : PlatformEnv.get env name with
  | none =>
    rw [hget] at h
    cases h
  | some text =>
    rw [hget] at h hsize
    simp only at h
    cases hraw : a2bBase64 text with
    | none =>
      rw [hraw] at h
      cases h
    | some bytes =>
      rw [hraw] at h
      obtain rfl := Except.ok.inj h
      exact b64Size_of_a2b hraw hsize

/-- The view the loader has of either copy. -/
def freshView (env : List Entry) (used osSequence epoch : ℕ) : View :=
  ⟨env, used, 0, osSequence, epoch⟩

/-- A copy with the entries of the first in any order is one the loader reads. -/
theorem Accepted.parse (h : Accepted O a b plat epoch env policyRaw signature)
    (hplat : plat.osSequence ≤ uint64Max) (hok : ∀ e ∈ env, EntryOk e)
    (hcount : env.length ≤ maxEntries)
    (hpolicy : b64Size (PlatformEnv.get env (ascii "epk_trust_policy")) ≠ 0)
    (hsig : b64Size (PlatformEnv.get env (ascii "epk_trust_policy_sig")) ≠ 0)
    {r : Record} {copy : List Entry} {used : ℕ} (hcopy : Copy r copy used)
    (hperm : env.Perm copy) :
    PlatformEnv.parse r = .ok (freshView copy used plat.osSequence epoch) := by
  obtain ⟨usedA, hcopyA, hroom⟩ := h.copyA
  have hget : ∀ name, PlatformEnv.get copy name = PlatformEnv.get env name := fun name =>
    (get_perm hperm hcopyA.nodup name).symm
  have hexpected := h.expected
  simp only [OsBootstrap.expected, List.mem_cons, List.not_mem_nil, or_false, forall_eq_or_imp,
    forall_eq] at hexpected
  obtain ⟨_, _, _, hschema, hgeneration, hfloor⟩ := hexpected
  obtain ⟨hne, hle, hlength, hmax, _⟩ := h.checked
  have hpolicySize := decodeItem_ok h.policy hpolicy
  have hsigSize := decodeItem_ok h.policySig hsig
  have hstorable : Storable copy (freshView copy used plat.osSequence epoch) := by
    refine ⟨⟨fun e he => hok e (hperm.mem_iff.mpr he), hcopy.nodup⟩, hperm.length_eq ▸ hcount, ?_, ?_⟩
    · have hsame := lines_length_perm (hperm.map Entry.text)
      have hused := hcopyA.used
      omega
    · rw [← hcopy.used, freshView]
      refine parseFields_ok ?_ ?_ ?_ ?_ ?_ ?_ ?_
      · rw [hget, hschema]
      · rw [hget, hgeneration]
        rfl
      · rw [hget, hfloor, decimal_str hplat]
      · rw [hget, h.trustEpoch, decimal_str hmax]
      · rw [hget]
        exact Nat.pos_of_ne_zero hpolicy
      · rw [hget, hpolicySize]
        exact hle
      · rw [hget, hsigSize, hlength]
  obtain ⟨tail, hdata⟩ := hcopy.data
  exact hstorable.parse_eq tail hdata

theorem Accepted.selects (h : Accepted O a b plat epoch env policyRaw signature)
    (hplat : plat.osSequence ≤ uint64Max) (hform : InLoaderForm a) :
    Selects a b plat.osSequence epoch := by
  obtain ⟨entries, tail, hdata, hok, hcount, hpolicy, hsig⟩ := hform
  obtain ⟨usedA, hcopyA, _⟩ := h.copyA
  obtain ⟨envB, usedB, hcopyB, hperm⟩ := h.copyB
  obtain ⟨tail', hdata'⟩ := hcopyA.data
  obtain rfl : entries = env := by
    refine entries_unique (fun e he => ?_) hcopyA.split (hdata.symm.trans hdata')
    exact split_of_ok (hok e he)
  have ha := h.parse hplat hok hcount hpolicy hsig hcopyA (List.Perm.refl _)
  have hb := h.parse hplat hok hcount hpolicy hsig hcopyB hperm
  have hcritical : SameCritical (freshView envB usedB plat.osSequence epoch)
      (freshView entries usedA plat.osSequence epoch) := fun name _ =>
    (get_perm hperm hcopyA.nodup name).symm
  have hflag : (card a b .b).flag = (card a b .a).flag + 1 := by
    rw [card, card, h.flag_a, h.flag_b]
    rfl
  have hchoose := @Device.choose_of_flag (card a b) .b _ _ hcopyB.crc hb hcopyA.crc ha rfl
    hcritical hflag
  have hselect : epkEnvSelect (card a b .a) (card a b .b) =
      .ok (selection (freshView envB usedB plat.osSequence epoch) .b) :=
    Device.select_of_choose hchoose
  rw [card, card] at hselect
  exact ⟨selection (freshView envB usedB plat.osSequence epoch) .b, hselect, rfl, rfl, rfl⟩

theorem Accepted.inLoaderForm (h : Accepted O a b plat epoch env policyRaw signature)
    (hselects : Selects a b plat.osSequence epoch) : InLoaderForm a := by
  obtain ⟨sel, hsel, _⟩ := hselects
  obtain ⟨_, hcopyA, _⟩ := h.copyA
  cases hparse : PlatformEnv.parse a with
  | error e =>
    have hview : validView a = .error e := by simp [validView, hcopyA.crc, hparse, Except.map]
    rw [epkEnvSelect, choose, hview] at hsel
    cases hsel
  | ok v =>
    obtain ⟨position, hentries, hok⟩ := parse_eq_ok hparse
    obtain ⟨tail, hdata⟩ := hcopyA.data
    have htexts : ∀ t ∈ env.map Entry.text, t ≠ [] ∧ 0 ∉ t := by
      intro t ht
      obtain ⟨e, he, rfl⟩ := List.mem_map.mp ht
      exact ⟨by simp [Entry.text], (hcopyA.split e he).2⟩
    rw [hdata] at hentries
    obtain ⟨new, hnew, hlines, _⟩ := parseEntries_lines htexts hentries
    rw [List.nil_append] at hnew
    have hsig := hok.policySig
    exact ⟨v.entries, tail, by rw [hdata, hnew, hlines], hok.wellFormed.entry_ok,
      (parse_size hparse).1, hok.policy_pos.ne', by omega⟩

end Accepted

/-- Where the checker raises nothing, the loader takes the pair with the numbers of the
platform and the policy if and only if the copies are in the loader's form. -/
theorem checkEnv_selects_iff {O : Oracles} {σ : Type} {W : Behaviour OsUpdate.Host σ} {s s' : σ}
    {a b : Record} {platform : Json} {plat : Platform} {rootPem : Bytes} {report : EnvReport}
    (hplatform : validatePlatform platform = .ok plat)
    (hrun : Runs (· = ·) W (s, checkEnv O a b plat rootPem) (s', .ret report)) :
    (∃ env policyRaw, (∃ used, Copy a env used) ∧
      decodeItem env (ascii "epk_trust_policy") = .ok policyRaw ∧
      StatesEpoch O policyRaw report.trustEpoch) ∧
    (Selects a b plat.osSequence report.trustEpoch ↔ InLoaderForm a) := by
  obtain ⟨env, policyRaw, signature, h⟩ := checkEnv_gives.safe.result hrun
  obtain ⟨_, _, _, hplat⟩ := validatePlatform_ok hplatform
  obtain ⟨used, hcopy, _⟩ := h.copyA
  exact ⟨⟨env, policyRaw, ⟨used, hcopy⟩, h.policy, h.checked.2.2.2.2⟩,
    h.inLoaderForm, h.selects hplat⟩

/-! ### Two cards -/

theorem parseEnvFrom_line {values : List Entry} {position : ℕ} {text after name value : Bytes}
    (hnul : 0 ∉ text) (hclean : text.any (128 ≤ ·) = false)
    (hentry : memchr 61 text = some (name, value)) (hfresh : ¬ (PlatformEnv.get values name).isSome) :
    parseEnvFrom values position (text ++ 0 :: after) =
      parseEnvFrom (values ++ [⟨name, value⟩]) (position + text.length + 1) after := by
  have hline : memchr 0 (text ++ 0 :: after) = some (text, after) := memchr_append hnul
  cases text with
  | nil => cases hentry
  | cons c cs =>
    have hzero : c ≠ 0 := fun heq => hnul (heq ▸ .head _)
    rw [List.cons_append] at hline ⊢
    rw [parseEnvFrom, if_neg hzero]
    split
    · rename_i hnone
      rw [hline] at hnone
      cases hnone
    · rename_i text rest hsome
      rw [hline] at hsome
      obtain ⟨rfl, rfl⟩ := Prod.mk.inj (Option.some.inj hsome)
      rw [if_neg (by simp [hclean]), hentry]
      simp only
      rw [if_neg hfresh]

/-- Lines the checker reads, whatever the loader makes of them. -/
theorem parseEnvFrom_lines {values new : List Entry} {position : ℕ} {tail : Bytes}
    (hnodup : ((values ++ new).map Entry.name).Nodup)
    (hsplit : ∀ e ∈ new, 61 ∉ e.name ∧ 0 ∉ e.text) (hascii : ∀ e ∈ new, ∀ c ∈ e.text, c < 128) :
    parseEnvFrom values position (lines (new.map Entry.text) ++ 0 :: tail) =
      .ok (values ++ new, position + (lines (new.map Entry.text)).length + 1) := by
  induction new generalizing values position with
  | nil =>
    rw [List.map_nil, lines_nil, List.nil_append, List.append_nil, parseEnvFrom]
    rfl
  | cons e new ih =>
    obtain ⟨hname, hnul⟩ := hsplit e (.head _)
    have hclean : e.text.any (128 ≤ ·) = false := by
      rw [List.any_eq_false]
      intro d hd
      simpa using hascii e (.head _) d hd
    have hfresh : ¬ (PlatformEnv.get values e.name).isSome := by
      rw [get_isSome_iff]
      rintro ⟨v, hv, heq⟩
      rw [List.map_append, List.nodup_append] at hnodup
      exact hnodup.2.2 _ (List.mem_map_of_mem hv) _ (.head _) heq
    rw [List.append_cons] at hnodup
    rw [List.map_cons, lines_cons, List.append_assoc, List.cons_append,
      parseEnvFrom_line hnul hclean (memchr_append hname) hfresh,
      ih hnodup (fun d hd => hsplit d (.tail _ hd)) (fun d hd => hascii d (.tail _ hd))]
    rw [List.append_assoc, List.length_append, List.length_cons]
    exact congrArg (fun n => Except.ok (values ++ e :: new, n)) (by omega)

/-- What the checker wants of the entries of a copy; the numbers are those of the sample. -/
structure Passes (values : List Entry) : Prop where
  nodup : (values.map Entry.name).Nodup
  split : ∀ e ∈ values, 61 ∉ e.name ∧ 0 ∉ e.text
  plain : ∀ e ∈ values, ∀ c ∈ e.text, c < 128
  room : (lines (values.map Entry.text)).length + 1 + headroom ≤ dataSize
  same : sameItems values values = true
  expected : ((OsBootstrap.expected samplePlat.osSequence).any fun e =>
    PlatformEnv.get values e.name != some e.value) = false
  idle : (transaction.any fun name => (PlatformEnv.get values name).isSome) = false
  policy : decodeItem values (ascii "epk_trust_policy") = .ok samplePolicyRaw
  signature : decodeItem values (ascii "epk_trust_policy_sig") = .ok sampleSignature
  epoch : PlatformEnv.get values (ascii "epk_trust_epoch") = some (str 2)

theorem Passes.parseEnv {values : List Entry} (h : Passes values) (flag : UInt8) :
    OsBootstrap.parseEnv (seedRecord values flag) =
      .ok (flag, values, (lines (values.map Entry.text)).length + 1) := by
  have hroom := h.room
  obtain ⟨n, hn⟩ : ∃ n, dataSize = (lines (values.map Entry.text)).length + (n + 1) :=
    ⟨dataSize - (lines (values.map Entry.text)).length - 1, by omega⟩
  have hdata : (seedRecord values flag).data = lines (values.map Entry.text) ++
      0 :: (List.replicate dataSize 255).take n := by
    rw [seedRecord, Record.setCrc_data]
    simp only [hn, List.take_length_add_append, List.take_succ_cons]
  have hcrc : packCrc (zlibCrc32 (seedRecord values flag).data) = (seedRecord values flag).crc := by
    rw [zlibCrc32_eq]
    rfl
  rw [OsBootstrap.parseEnv, if_neg (not_not.mpr hcrc), hdata,
    @parseEnvFrom_lines [] values 0 _ h.nodup h.split h.plain, List.nil_append, Nat.zero_add]
  rfl

theorem Passes.checkEnv {values : List Entry} (h : Passes values) :
    ∃ report, ((OsBootstrap.checkEnv sampleOracles (seedRecord values 1) (seedRecord values 2)
      samplePlat sampleRoot).run (OsUpdate.World.serve sampleOracles) sampleBox).1 = .ok report := by
  have hroom := h.room
  have hheadroom : ¬ dataSize - ((lines (values.map Entry.text)).length + 1) < headroom := by
    simp only [headroom] at hroom ⊢
    omega
  have hpolicy := run_of_fst verifyPolicy_sample
  have hepoch : ¬ PlatformEnv.get values (ascii "epk_trust_epoch") ≠
      some (str sampleVerified.trustEpoch) := not_not.mpr h.epoch
  rw [OsBootstrap.checkEnv, h.parseEnv 1, h.parseEnv 2, Prog.ofExcept_ok, Prog.ofExcept_ok,
    Prog.ret_bind]
  simp only
  rw [Prog.ret_bind]
  simp only
  rw [Prog.raiseIf_neg (by simp [h.same]), Prog.raiseIf_neg hheadroom,
    Prog.raiseIf_neg (by simp [h.expected]), Prog.raiseIf_neg (by simp [h.idle]), h.policy,
    h.signature, Prog.ofExcept_ok, Prog.ofExcept_ok]
  simp only [Prog.ret_bind]
  rw [run_bind_ok hpolicy, Prog.raiseIf_neg hepoch]
  exact ⟨_, rfl⟩

theorem a2bBase64From_digit {quad : List ℕ} {n pads : ℕ} {rest : Bytes} (hn : n < 64)
    (hquad : quad.length ≤ 2) :
    a2bBase64From quad pads false (OsUpdate.b64Char n :: rest) =
      a2bBase64From (quad ++ [n]) 0 false rest := by
  have hdigit := b64Digit_char hn
  have hpad : OsUpdate.b64Char n ≠ 61 := digit_ne_pad (by rw [hdigit]; rfl)
  rw [a2bBase64From, if_neg hpad, hdigit]
  simp only [Bool.false_eq_true, if_false]
  split
  · simp at hquad
  · rfl

theorem a2bBase64From_group {x y z n pads : ℕ} {rest : Bytes} (hn : n < 64) :
    a2bBase64From [x, y, z] pads false (OsUpdate.b64Char n :: rest) =
      (a2bBase64From [] 0 false rest).map fun tail =>
        (x * 4 + y / 16).toUInt8 :: (y % 16 * 16 + z / 4).toUInt8 ::
          (z % 4 * 64 + n).toUInt8 :: tail := by
  have hdigit := b64Digit_char hn
  have hpad : OsUpdate.b64Char n ≠ 61 := digit_ne_pad (by rw [hdigit]; rfl)
  rw [a2bBase64From, if_neg hpad, hdigit]
  simp only [Bool.false_eq_true, if_false]

theorem byte_of {n : ℕ} {x : UInt8} (h : n = x.toNat) : n.toUInt8 = x := by
  rw [h]
  exact UInt8.ofNat_toNat

/-- The checker reads back what the builder encodes. -/
theorem a2bBase64From_encode (raw : Bytes) :
    a2bBase64From [] 0 false (OsUpdate.b64Encode raw) = some raw := by
  fun_induction OsUpdate.b64Encode raw with
  | case1 => rfl
  | case2 x =>
    have hx := x.toNat_lt
    rw [a2bBase64From_digit (by omega) (by simp), a2bBase64From_digit (by omega) (by simp)]
    change some [_] = _
    rw [byte_of (x := x) (by omega)]
  | case3 x y =>
    have hx := x.toNat_lt
    have hy := y.toNat_lt
    rw [a2bBase64From_digit (by omega) (by simp), a2bBase64From_digit (by omega) (by simp),
      a2bBase64From_digit (by omega) (by simp)]
    change some [_, _] = _
    rw [byte_of (x := x) (by omega), byte_of (x := y) (by omega)]
  | case4 x y z rest ih =>
    have hx := x.toNat_lt
    have hy := y.toNat_lt
    have hz := z.toNat_lt
    rw [a2bBase64From_digit (by omega) (by simp), a2bBase64From_digit (by omega) (by simp),
      a2bBase64From_digit (by omega) (by simp)]
    change a2bBase64From [_, _, _] 0 false _ = _
    rw [a2bBase64From_group (by omega), ih, Option.map_some, byte_of (x := x) (by omega),
      byte_of (x := y) (by omega), byte_of (x := z) (by omega)]

theorem a2bBase64_encode (raw : Bytes) : a2bBase64 (OsUpdate.b64Encode raw) = some raw := by
  have hchar : ∀ n < 64, OsUpdate.b64Char n ≠ 61 := fun n hn =>
    digit_ne_pad (by rw [b64Digit_char hn]; rfl)
  have hhead : (OsUpdate.b64Encode raw).head? ≠ some 61 := by
    fun_cases OsUpdate.b64Encode raw with
    | case1 => simp
    | case2 x =>
      have hx := x.toNat_lt
      simpa using hchar (x.toNat / 4) (by omega)
    | case3 x y =>
      have hx := x.toNat_lt
      simpa using hchar (x.toNat / 4) (by omega)
    | case4 x y z rest =>
      have hx := x.toNat_lt
      simpa using hchar (x.toNat / 4) (by omega)
  rw [a2bBase64, if_neg hhead, a2bBase64From_encode]

theorem b64Encode_length (raw : Bytes) : (OsUpdate.b64Encode raw).length ≤ raw.length / 3 * 4 + 4 := by
  obtain ⟨body, last, heq, _, hlength, hlast⟩ := b64Encode_parts raw
  have hfour : last.length ≤ 4 := by
    generalize raw.length % 3 = m at hlast
    cases hlast <;> simp
  rw [heq, List.length_append]
  omega

theorem sample_checked : Checked 12 2 samplePolicyRaw sampleSignature := by
  have hrun := runs_run (OsUpdate.World.serve_follows sampleOracles) (OsUpdate.verifyPolicy
    sampleOracles samplePolicyRaw sampleSignature sampleRoot samplePlat.board samplePlat.channel
    none) sampleBox
  rw [verifyPolicy_sample] at hrun
  obtain ⟨hne, hle, hlength, hmax, _⟩ := verifyPolicy_gives.safe.result hrun
  exact ⟨by decide, hmax, hne, hle, hlength⟩

theorem plain_of_ok {e : Entry} (h : EntryOk e) : ∀ c ∈ e.text, c < 128 := by
  have hcodes : ∀ n < 256, isNameChar (UInt8.ofNat n) = true ∨ isPrintable (UInt8.ofNat n) = true →
      UInt8.ofNat n < 128 := by
    decide +kernel
  have hplain : ∀ c : UInt8, isNameChar c = true ∨ isPrintable c = true → c < 128 := by
    intro c
    have hc := hcodes c.toNat c.toNat_lt
    rwa [UInt8.ofNat_toNat] at hc
  intro c hc
  rw [Entry.text, List.mem_append, List.mem_cons] at hc
  rcases hc with hc | rfl | hc
  · exact hplain c (Or.inl (h.name_chars c hc))
  · decide
  · exact hplain c (Or.inr (h.value_chars c hc))

/-- The entries of the sample behind others. -/
def cardValues (extra : List Entry) : List Entry :=
  extra ++ seedItems 12 2 samplePolicyRaw sampleSignature

theorem cardValues_passes {extra : List Entry}
    (hnodup : (extra.map Entry.name ++ seedNames).Nodup)
    (hsplit : ∀ e ∈ extra, 61 ∉ e.name ∧ 0 ∉ e.text) (hplain : ∀ e ∈ extra, ∀ c ∈ e.text, c < 128)
    (hsize : (extra.map entrySize).sum ≤ 1000)
    (hidle : ∀ name ∈ transaction, name ∉ extra.map Entry.name) : Passes (cardValues extra) := by
  have hitems := seedItems_ok sample_checked
  have hnames : ((cardValues extra).map Entry.name).Nodup := by
    rw [cardValues, List.map_append, seedItems_names]
    exact hnodup
  have hget : ∀ e ∈ seedItems 12 2 samplePolicyRaw sampleSignature,
      PlatformEnv.get (cardValues extra) e.name = some e.value := fun e he =>
    get_of_mem hnames (List.mem_append_right _ he)
  have hall := hget
  simp only [seedItems, List.mem_cons, List.not_mem_nil, or_false, forall_eq_or_imp,
    forall_eq] at hall
  obtain ⟨horder, ha, hb, hschema, hgeneration, hfloor, hepoch, hpolicy, hsig⟩ := hall
  refine ⟨hnames, ?_, ?_, ?_, ?_, ?_, ?_, ?_, ?_, hepoch⟩
  · exact fun e he => (List.mem_append.mp he).elim (hsplit e) fun he => split_of_ok (hitems e he)
  · exact fun e he => (List.mem_append.mp he).elim (hplain e) fun he => plain_of_ok (hitems e he)
  · have hraw := sample_checked.policy_le
    have hsignature := sample_checked.signature
    have hlength := b64Encode_length samplePolicyRaw
    have hlength' := b64Encode_length sampleSignature
    have hrest : ∀ policy sig : Bytes, ([⟨ascii "BOOT_ORDER", ascii "A B"⟩,
        ⟨ascii "BOOT_A_LEFT", ascii "3"⟩, ⟨ascii "BOOT_B_LEFT", ascii "3"⟩,
        ⟨ascii "epk_state_schema", ascii "1"⟩, ⟨ascii "epk_state_generation", ascii "0"⟩,
        ⟨ascii "epk_os_floor", str 12⟩, ⟨ascii "epk_trust_epoch", str 2⟩,
        ⟨ascii "epk_trust_policy", policy⟩, ⟨ascii "epk_trust_policy_sig", sig⟩].map
          entrySize).sum = 159 + policy.length + sig.length := by
      intro policy sig
      have hnames : (ascii "BOOT_ORDER").length = 10 ∧ (ascii "BOOT_A_LEFT").length = 11 ∧
          (ascii "BOOT_B_LEFT").length = 11 ∧ (ascii "epk_state_schema").length = 16 ∧
          (ascii "epk_state_generation").length = 20 ∧ (ascii "epk_os_floor").length = 12 ∧
          (ascii "epk_trust_epoch").length = 15 ∧ (ascii "epk_trust_policy").length = 16 ∧
          (ascii "epk_trust_policy_sig").length = 20 := by
        decide +kernel
      have hvalues : (ascii "A B").length = 3 ∧ (ascii "3").length = 1 ∧ (ascii "1").length = 1 ∧
          (ascii "0").length = 1 ∧ (str 12).length = 2 ∧ (str 2).length = 1 := by
        decide +kernel
      simp only [List.map_cons, List.map_nil, List.sum_cons, List.sum_nil, entrySize]
      omega
    rw [lines_size, cardValues, List.map_append, List.sum_append_nat, seedItems, hrest]
    rw [OsUpdate.policyMax] at hraw
    simp only [headroom, dataSize, envSize]
    omega
  · rw [sameItems, Bool.and_eq_true]
    exact ⟨beq_self_eq_true _, List.all_eq_true.mpr fun e he => by
      rw [get_of_mem hnames he]
      exact beq_self_eq_true _⟩
  · rw [List.any_eq_false]
    simp only [OsBootstrap.expected, List.mem_cons, List.not_mem_nil, or_false, forall_eq_or_imp,
      forall_eq, horder, ha, hb, hschema, hgeneration]
    refine ⟨by simp, by simp, by simp, by simp, by simp, ?_⟩
    change (PlatformEnv.get (cardValues extra) (ascii "epk_os_floor") != some (str 12)) ≠ true
    rw [hfloor]
    simp
  · rw [List.any_eq_false]
    intro name hname hsome
    rw [get_isSome_iff] at hsome
    obtain ⟨e, he, rfl⟩ := hsome
    rcases List.mem_append.mp he with he | he
    · exact hidle _ hname (List.mem_map_of_mem he)
    · have hseed : e.name ∈ seedNames := List.mem_map_of_mem he
      have hapart : ∀ name ∈ transaction, name ∉ seedNames := by decide +kernel
      exact hapart _ hname hseed
  · rw [decodeItem, hpolicy]
    simp only [a2bBase64_encode]
  · rw [decodeItem, hsig]
    simp only [a2bBase64_encode]

/-- A name the loader does not know. -/
def spaced : List Entry := [⟨ascii "boot delay", ascii "2"⟩]

theorem spaced_passes : Passes (cardValues spaced) :=
  cardValues_passes (by decide +kernel) (by decide +kernel) (by decide +kernel) (by decide +kernel)
    (by decide +kernel)

/-- The copy of values that pass is in the loader's form if and only if its entries are. -/
theorem Passes.form {values : List Entry} (h : Passes values) {flag : UInt8}
    (hform : InLoaderForm (seedRecord values flag)) : ∀ e ∈ values, EntryOk e := by
  obtain ⟨entries, tail, hdata, hok, _⟩ := hform
  obtain ⟨tail', hdata'⟩ := (parseEnv_ok (h.parseEnv flag)).2.data
  have hentries := entries_unique (fun e he => split_of_ok (hok e he)) h.split
    (hdata.symm.trans hdata')
  exact hentries ▸ hok

/-- The checker passes a card whose loader refuses both copies. -/
theorem spacedCard_refused : validatePlatform samplePlatform = .ok samplePlat ∧ ∃ report,
    ((checkEnv sampleOracles (seedRecord (cardValues spaced) 1) (seedRecord (cardValues spaced) 2)
      samplePlat sampleRoot).run (OsUpdate.World.serve sampleOracles) sampleBox).1 = .ok report ∧
    ¬ Selects (seedRecord (cardValues spaced) 1) (seedRecord (cardValues spaced) 2)
      samplePlat.osSequence report.trustEpoch := by
  obtain ⟨report, hreport⟩ := spaced_passes.checkEnv
  have hrun := runs_run (OsUpdate.World.serve_follows sampleOracles) (checkEnv sampleOracles
    (seedRecord (cardValues spaced) 1) (seedRecord (cardValues spaced) 2) samplePlat sampleRoot)
    sampleBox
  rw [hreport] at hrun
  obtain ⟨env, policyRaw, signature, haccepted⟩ := checkEnv_gives.safe.result hrun
  refine ⟨validatePlatform_sample, report, hreport, fun hselects => ?_⟩
  have hok := spaced_passes.form (haccepted.inLoaderForm hselects) _ (.head _)
  have hspace := hok.name_chars 32 (by decide +kernel)
  revert hspace
  decide

theorem fresh_passes : Passes (cardValues []) :=
  cardValues_passes (by simpa using seedNames_nodup) (by simp) (by simp) (by simp) (by simp)

theorem checkEnv_selects_sample : ∃ report,
    ((checkEnv sampleOracles (seedRecord (cardValues []) 1) (seedRecord (cardValues []) 2)
      samplePlat sampleRoot).run (OsUpdate.World.serve sampleOracles) sampleBox).1 = .ok report ∧
    Selects (seedRecord (cardValues []) 1) (seedRecord (cardValues []) 2) samplePlat.osSequence
      report.trustEpoch := by
  obtain ⟨report, hreport⟩ := fresh_passes.checkEnv
  have hrun := runs_run (OsUpdate.World.serve_follows sampleOracles) (checkEnv sampleOracles
    (seedRecord (cardValues []) 1) (seedRecord (cardValues []) 2) samplePlat sampleRoot) sampleBox
  rw [hreport] at hrun
  refine ⟨report, hreport, (checkEnv_selects_iff validatePlatform_sample hrun).2.mpr ?_⟩
  obtain ⟨tail, hdata⟩ := (parseEnv_ok (fresh_passes.parseEnv 1)).2.data
  have hget : ∀ e ∈ cardValues [], PlatformEnv.get (cardValues []) e.name = some e.value :=
    fun e he => get_of_mem fresh_passes.nodup he
  simp only [cardValues, List.nil_append, seedItems, List.mem_cons, List.not_mem_nil, or_false,
    forall_eq_or_imp, forall_eq] at hget
  obtain ⟨_, _, _, _, _, _, _, hpolicy, hsig⟩ := hget
  refine ⟨cardValues [], tail, hdata, seedItems_ok sample_checked, by decide, ?_, ?_⟩
  · rw [cardValues, List.nil_append, seedItems, hpolicy, b64Size_encode sample_checked.policy_ne]
    exact (List.length_pos_of_ne_nil sample_checked.policy_ne).ne'
  · have hsignature := sample_checked.signature
    rw [cardValues, List.nil_append, seedItems, hsig, b64Size_encode, hsignature]
    · decide
    · rintro hnil
      rw [hnil] at hsignature
      cases hsignature

end Epilykos.OsBootstrap
