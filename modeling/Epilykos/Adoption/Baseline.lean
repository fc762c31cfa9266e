import Epilykos.Adoption.Lines

/-!
The identity that image.env preloads, by both readers: they agree on it where every key of it
has a line of the file of its own and the reference has one separator.
-/

namespace Epilykos.Adoption

open Text
open PlatformEnv (Bytes ascii uint64Max)
open OsUpdate (Json pyInt)

/-! ### Identities -/

/-- The fields of an object are those of the app. -/
structure Reports (fields : List (String × Json)) (app : Identity) : Prop where
  channel : field fields "channel" = .str app.channel
  sequence : field fields "sequence" = .int app.sequence
  digest : field fields "digest" = .str app.digest
  imageId : field fields "image_id" = .str app.imageId
  release : field fields "release" = .str app.release

/-- An identity that passed. -/
structure Valid (app : Identity) : Prop where
  channel : isChannel app.channel.toList = true
  sequence : 1 ≤ app.sequence ∧ app.sequence ≤ uint64Max
  digest : isDigest app.digest.toList = true
  imageId : isImageId app.imageId.toList = true
  release : isRelease app.release.toList = true

theorem strField_ok {form : List Char → Bool} {msg s : String} {value : Json}
    (h : strField form msg value = .ok s) : value = .str s ∧ form s.toList = true := by
  cases value with
  | str s' =>
    rw [strField] at h
    split_ifs at h with hform
    obtain rfl := Except.ok.inj h
    exact ⟨rfl, hform⟩
  | _ => cases h

theorem integer_ok {n m : ℕ} (h : integer n = .ok m) : m = n ∧ 1 ≤ n ∧ n ≤ uint64Max := by
  rw [integer] at h
  split_ifs at h with hrange
  exact ⟨(Except.ok.inj h).symm, hrange⟩

theorem intField_ok {value : Json} {n : ℕ} (h : intField value = .ok n) :
    value = .int n ∧ 1 ≤ n ∧ n ≤ uint64Max := by
  unfold intField at h
  split at h
  · obtain ⟨rfl, hrange⟩ := integer_ok h
    exact ⟨rfl, hrange⟩
  · cases h

theorem bind_ok {ε α β : Type} {x : Except ε α} {f : α → Except ε β} {b : β}
    (h : (x >>= f) = .ok b) : ∃ a, x = .ok a ∧ f a = .ok b := by
  cases x with
  | error e => cases h
  | ok a => exact ⟨a, rfl, h⟩

theorem identity_ok {value : Json} {app : Identity} (h : identity value = .ok app) :
    ∃ fields, value = .obj fields ∧ Reports fields app ∧ Valid app := by
  cases value with
  | obj fields =>
    rw [identity] at h
    obtain ⟨channel, hchannel, h⟩ := bind_ok h
    obtain ⟨sequence, hsequence, h⟩ := bind_ok h
    obtain ⟨digest, hdigest, h⟩ := bind_ok h
    obtain ⟨imageId, himageId, h⟩ := bind_ok h
    obtain ⟨release, hrelease, h⟩ := bind_ok h
    obtain rfl := Except.ok.inj h
    obtain ⟨hchannel, hc⟩ := strField_ok hchannel
    obtain ⟨hsequence, hs⟩ := intField_ok hsequence
    obtain ⟨hdigest, hd⟩ := strField_ok hdigest
    obtain ⟨himageId, hi⟩ := strField_ok himageId
    obtain ⟨hrelease, hr⟩ := strField_ok hrelease
    exact ⟨fields, rfl, ⟨hchannel, hsequence, hdigest, himageId, hrelease⟩, ⟨hc, hs, hd, hi, hr⟩⟩
  | _ => cases h

theorem identity_of {fields : List (String × Json)} {app : Identity} (h : Reports fields app)
    (hvalid : Valid app) : identity (.obj fields) = .ok app := by
  have hint : intField (.int app.sequence) = .ok app.sequence := if_pos hvalid.sequence
  simp only [identity, h.channel, h.sequence, h.digest, h.imageId, h.release, strField,
    hvalid.channel, hvalid.digest, hvalid.imageId, hvalid.release, if_true, hint]
  rfl

theorem reports_json (app : Identity) :
    ∃ fields, app.json = .obj fields ∧ Reports fields app :=
  ⟨_, rfl, ⟨rfl, rfl, rfl, rfl, rfl⟩⟩

/-! ### Numbers -/

theorem isDigit_range {c : Char} (h : c.isDigit = true) : 48 ≤ c.toNat ∧ c.toNat ≤ 57 := by
  simp only [Char.isDigit, Bool.and_eq_true, decide_eq_true_eq] at h
  exact h

theorem isDigit_not_space {c : Char} (h : c.isDigit = true) : isSpace c = false := by
  have hrange := isDigit_range h
  by_contra hspace
  rw [Bool.not_eq_false] at hspace
  simp only [isSpace, Bool.or_eq_true, Bool.and_eq_true, decide_eq_true_eq, beq_iff_eq] at hspace
  omega

/-- What `decimal` accepts: digits, with or without a newline. -/
theorem decimalText_ok {text : List Char} {n : ℕ} (h : decimalText text = .ok n) :
    ∃ digits, (text = digits ∨ text = digits ++ ['\n']) ∧ digits.all Char.isDigit = true ∧
      digits ≠ [] ∧ n = Nat.ofDigitChars 10 digits 0 ∧ 1 ≤ n := by
  simp only [decimalText] at h
  split_ifs at h with hnewline hdigits hdigits
  · obtain ⟨rfl, hone, -⟩ := integer_ok h
    refine ⟨text.dropLast, Or.inr ?_, hdigits.1, hdigits.2.1, rfl, hone⟩
    obtain ⟨a, ha⟩ := List.getLast?_eq_some_iff.mp hnewline
    rw [ha, List.dropLast_concat]
  · obtain ⟨rfl, hone, -⟩ := integer_ok h
    exact ⟨text, Or.inl rfl, hdigits.1, hdigits.2.1, rfl, hone⟩

theorem dropWhile_keep {p : Char → Bool} (hp : ∀ c, p c = true → isSpace c = true)
    {text : List Char} (h : ∀ c ∈ text.head?, isSpace c = false) : text.dropWhile p = text := by
  cases text with
  | nil => rfl
  | cons c text =>
    refine List.dropWhile_cons_of_neg ?_
    intro hc
    have hspace := hp c hc
    rw [h c rfl] at hspace
    cases hspace

theorem trim_keep {p : Char → Bool} (hp : ∀ c, p c = true → isSpace c = true)
    {text : List Char} (hhead : ∀ c ∈ text.head?, isSpace c = false)
    (hlast : ∀ c ∈ text.getLast?, isSpace c = false) :
    ((text.dropWhile p).reverse.dropWhile p).reverse = text := by
  rw [dropWhile_keep hp hhead, dropWhile_keep hp (by simpa using hlast), List.reverse_reverse]

theorem pySpace (c : Char)
    (h : (c == ' ' || ('\t' ≤ c && c ≤ '\r') || ('\x1c' ≤ c && c ≤ '\x1f')) = true) :
    isSpace c = true := by
  simp only [Bool.or_eq_true, Bool.and_eq_true, decide_eq_true_eq, beq_iff_eq] at h
  obtain (rfl | ⟨h1, h2⟩) | ⟨h1, h2⟩ := h
  · rfl
  · have h1' : 9 ≤ c.toNat := h1
    have h2' : c.toNat ≤ 13 := h2
    simp [isSpace, h1', h2']
  · have h1' : 28 ≤ c.toNat := h1
    have h2' : c.toNat ≤ 31 := h2
    have h3 : c.toNat ≤ 32 := by omega
    simp [isSpace, h1', h3]

theorem mem_of_groups {p q : Char → Bool} {text : List Char}
    (h : ∀ g ∈ text.splitOnP p, ∀ c ∈ g, q c = true) : ∀ c ∈ text, q c = true ∨ p c = true := by
  induction text with
  | nil => simp
  | cons c text ih =>
    rw [List.splitOnP_cons_eq_if_modifyHead] at h
    rw [List.forall_mem_cons]
    by_cases hc : p c = true
    · rw [if_pos hc, List.forall_mem_cons] at h
      exact ⟨Or.inr hc, ih h.2⟩
    · obtain ⟨g, gs, hgs⟩ := List.exists_cons_of_ne_nil (List.splitOnP_ne_nil p text)
      rw [if_neg hc, hgs, List.modifyHead_cons, List.forall_mem_cons, List.forall_mem_cons] at h
      refine ⟨Or.inl h.1.1, ih ?_⟩
      rw [hgs, List.forall_mem_cons]
      exact ⟨h.1.2, h.2⟩

/-- `int()` of text without white space at its ends. -/
theorem pyInt_chars {text : List Char} {n : ℤ} (h : pyInt (String.ofList text) = some n)
    (hhead : ∀ c ∈ text.head?, isSpace c = false)
    (hlast : ∀ c ∈ text.getLast?, isSpace c = false) :
    ∀ c ∈ text, c.isDigit = true ∨ c = '_' ∨ c = '-' ∨ c = '+' := by
  have hdigits : ∀ digits : List Char,
      ((digits.splitOn '_').all fun g => !g.isEmpty && g.all Char.isDigit) = true →
        ∀ c ∈ digits, c.isDigit = true ∨ c = '_' := by
    intro digits hall c hc
    rw [List.all_eq_true] at hall
    have hmem := mem_of_groups (p := (· == '_')) (q := Char.isDigit)
      (fun g hg d hd => by
        have hg' := hall g hg
        simp only [Bool.and_eq_true, List.all_eq_true] at hg'
        exact hg'.2 d hd) c hc
    simpa using hmem
  simp only [pyInt, String.toList_ofList] at h
  rw [trim_keep pySpace hhead hlast] at h
  have hsigned : ∀ rest : List Char,
      ((rest.splitOn '_').all fun g => !g.isEmpty && g.all Char.isDigit) = true →
        ∀ c ∈ rest, c.isDigit = true ∨ c = '_' ∨ c = '-' ∨ c = '+' := by
    intro rest hall c hc
    obtain hd | hu := hdigits rest hall c hc
    · exact Or.inl hd
    · exact Or.inr (Or.inl hu)
  split at h
  · rw [List.forall_mem_cons]
    exact ⟨by simp, hsigned _ (Option.ite_none_right_eq_some.mp h).1⟩
  · rw [List.forall_mem_cons]
    exact ⟨by simp, hsigned _ (Option.ite_none_right_eq_some.mp h).1⟩
  · exact hsigned _ (Option.ite_none_right_eq_some.mp h).1

theorem pyInt_digits {digits : List Char} (h : digits.all Char.isDigit = true) (hne : digits ≠ []) :
    pyInt (String.ofList digits) = some (Nat.ofDigitChars 10 digits 0 : ℤ) := by
  have hspace : ∀ c ∈ digits, isSpace c = false := fun c hc =>
    isDigit_not_space (List.all_eq_true.mp h c hc)
  simp only [pyInt, String.toList_ofList]
  rw [trim_keep pySpace (fun c hc => hspace c (List.mem_of_mem_head? hc))
    (fun c hc => hspace c (List.mem_of_getLast? hc))]
  have hsplit : digits.splitOn '_' = [digits] := by
    refine List.splitOnP_eq_singleton ?_
    intro c hc
    have hdigit := List.all_eq_true.mp h c hc
    rw [beq_eq_false_iff_ne]
    rintro rfl
    exact absurd hdigit (by decide)
  split
  · exact absurd (List.all_eq_true.mp h '-' List.mem_cons_self) (by decide)
  · exact absurd (List.all_eq_true.mp h '+' List.mem_cons_self) (by decide)
  · rw [hsplit, if_pos (by simpa [hne] using h), Nat.ofDigitChars_eq_foldl]
    simp [Nat.mul_comm]

/-! ### The baseline -/

theorem isKey_all : isKey keyChannel = true ∧ isKey keySequence = true ∧ isKey keyRelease = true ∧
    isKey keyImageRef = true ∧ isKey keyImageId = true := by
  decide +kernel

theorem isHex_not_space {c : Char} (h : isHex c = true) : c ≠ '@' ∧ isSpace c = false := by
  have hrange : (48 ≤ c.toNat ∧ c.toNat ≤ 57) ∨ (97 ≤ c.toNat ∧ c.toNat ≤ 102) := by
    simp only [isHex, Bool.or_eq_true, Bool.and_eq_true, decide_eq_true_eq] at h
    obtain hdigit | hletter := h
    · exact Or.inl (isDigit_range hdigit)
    · exact Or.inr hletter
  constructor
  · rintro rfl
    exact absurd hrange (by decide)
  · by_contra hspace
    rw [Bool.not_eq_false] at hspace
    simp only [isSpace, Bool.or_eq_true, Bool.and_eq_true, decide_eq_true_eq, beq_iff_eq] at hspace
    omega

theorem isImageId_char {text : List Char} (h : isImageId text = true) :
    text ≠ [] ∧ ∀ c ∈ text, c ≠ '@' ∧ isSpace c = false := by
  simp only [isImageId, Bool.and_eq_true, beq_iff_eq, List.all_eq_true] at h
  refine ⟨?_, fun c hc => isHex_not_space (h.2 c hc)⟩
  rintro rfl
  exact absurd h.1 (by decide)

theorem isDigest_char {text : List Char} (h : isDigest text = true) :
    text ≠ [] ∧ ∀ c ∈ text, c ≠ '@' ∧ isSpace c = false := by
  simp only [isDigest, Bool.and_eq_true] at h
  obtain ⟨rest, rfl⟩ := List.isPrefixOf_iff_prefix.mp h.1
  rw [List.drop_left] at h
  have hstart : ∀ c ∈ digestStart, c ≠ '@' ∧ isSpace c = false := by
    simp [digestStart, isSpace]
  refine ⟨by simp [digestStart], ?_⟩
  intro c hc
  obtain hc | hc := List.mem_append.mp hc
  · exact hstart c hc
  · exact (isImageId_char h.2).2 c hc

theorem isNameChar_at : isNameChar '@' = false := by decide

/-- The reference: one character may be anything, the rest is fixed up to the digest. -/
theorem isPinned_ok {ref : List Char} (h : isPinned ref = true) : ∃ any name digest,
    ref = "docker".toList ++ any :: ("io/".toList ++ (name ++ '@' :: digest)) ∧
      '@' ∉ name ∧ isDigest digest = true := by
  unfold isPinned at h
  cases hrest : ref.drop 6 with
  | nil =>
    rw [hrest] at h
    cases h
  | cons any rest =>
    simp only [hrest, Bool.and_eq_true, beq_iff_eq] at h
    obtain ⟨⟨⟨⟨⟨⟨hdocker, -⟩, hio⟩, -⟩, -⟩, hat⟩, hdigest⟩ := h
    obtain ⟨digest, hdigest'⟩ := List.head?_eq_some_iff.mp hat
    refine ⟨any, (rest.drop 3).takeWhile isNameChar, digest, ?_, ?_, ?_⟩
    · rw [← hdocker, ← hio, ← hdigest', List.takeWhile_append_dropWhile, List.take_append_drop,
        ← hrest, List.take_append_drop]
    · intro hmem
      have hname := List.all_eq_true.mp List.all_takeWhile '@' hmem
      rw [isNameChar_at] at hname
      cases hname
    · rwa [hdigest'] at hdigest

/-- What the strict reader took from the values. -/
structure BaseOf (values : Values) (base : Identity) : Prop where
  channel : ∃ text, values.lookup keyChannel = some text ∧ base.channel = String.ofList text
  sequence : ∃ text, values.lookup keySequence = some text ∧
    decimalText text = .ok base.sequence
  release : ∃ text, values.lookup keyRelease = some text ∧ base.release = String.ofList text
  imageRef : ∃ ref, values.lookup keyImageRef = some ref ∧ isPinned ref = true ∧
    base.digest = String.ofList (afterLast ref)
  imageId : ∃ text, values.lookup keyImageId = some text ∧ base.imageId = String.ofList text
  valid : Valid base

theorem ofText_str {text : Option (List Char)} {s : String} (h : ofText text = .str s) :
    ∃ chars, text = some chars ∧ s = String.ofList chars := by
  cases text with
  | none => cases h
  | some chars => exact ⟨chars, rfl, (Json.str.inj h).symm⟩

theorem parseBaselineText_ok {values : Values} {base : Identity}
    (h : parseBaselineText values = .ok base) : BaseOf values base := by
  rw [parseBaselineText] at h
  split_ifs at h with hpinned
  rw [Bool.not_eq_true', Bool.not_eq_false] at hpinned
  obtain ⟨sequence, hsequence, h⟩ := bind_ok h
  obtain ⟨fields, hfields, hreports, hvalid⟩ := identity_ok h
  obtain rfl := (Json.obj.inj hfields).symm
  obtain ⟨channel, hchannel, hc⟩ := ofText_str hreports.channel
  obtain ⟨release, hrelease, hr⟩ := ofText_str hreports.release
  obtain ⟨imageId, himageId, hi⟩ := ofText_str hreports.imageId
  have hnumber : sequence = base.sequence := Int.ofNat.inj (Json.int.inj hreports.sequence)
  refine ⟨⟨channel, hchannel, hc⟩, ?_, ⟨release, hrelease, hr⟩, ?_, ⟨imageId, himageId, hi⟩, hvalid⟩
  · cases hlookup : values.lookup keySequence with
    | none =>
      rw [hlookup] at hsequence
      cases hsequence
    | some text =>
      rw [hlookup] at hsequence
      exact ⟨text, rfl, by rw [← hnumber]; exact hsequence⟩
  · cases hlookup : values.lookup keyImageRef with
    | none =>
      rw [hlookup] at hpinned
      cases hpinned
    | some ref =>
      rw [hlookup] at hpinned hreports
      exact ⟨ref, rfl, hpinned, (Json.str.inj hreports.digest).symm⟩

theorem str_ofList {a b : List Char} : Json.str (String.ofList a) = .str (String.ofList b) ↔ a = b := by
  constructor
  · intro h
    have hlists := congrArg String.toList (Json.str.inj h)
    rwa [String.toList_ofList, String.toList_ofList] at hlists
  · rintro rfl
    rfl

theorem pyInt_zero : pyInt (String.ofList ['0']) = some 0 := by
  rw [pyInt_digits (by decide) (by simp)]
  rfl

/-- A text with a break in it, and none at its ends, is no number. -/
theorem pyInt_break {text : List Char} (hhead : ∀ c ∈ text.head?, isSpace c = false)
    (hlast : ∀ c ∈ text.getLast?, isSpace c = false) (hbreak : ∃ c ∈ text, isBreak c = true) :
    pyInt (String.ofList text) = none := by
  cases hint : pyInt (String.ofList text) with
  | none => rfl
  | some n =>
    obtain ⟨c, hc, hcb⟩ := hbreak
    obtain hdigit | rfl | rfl | rfl := pyInt_chars hint hhead hlast c hc
    · have hspace := isBreak_isSpace hcb
      rw [isDigit_not_space hdigit] at hspace
      cases hspace
    all_goals exact absurd hcb (by decide)

section Image

variable {text : List Char} {values : Values} {base : Identity}

/-- The sequence as a plain decimal. -/
theorem BaseOf.digits (hb : BaseOf values base) (h : Read text values) :
    ∃ digits, values.lookup keySequence = some digits ∧ digits.all Char.isDigit = true ∧
      digits ≠ [] ∧ base.sequence = Nat.ofDigitChars 10 digits 0 ∧ 1 ≤ base.sequence := by
  obtain ⟨s, hs, hdecimal⟩ := hb.sequence
  obtain ⟨digits, rfl | rfl, hall, hne, hn, hone⟩ := decimalText_ok hdecimal
  · exact ⟨s, hs, hall, hne, hn, hone⟩
  · have hnewline := h.value_printable ((h.lookup isKey_all.2.1 _).mp hs) '\n' (by simp)
    exact absurd hnewline (by decide)

theorem digits_ends {digits : List Char} (h : digits.all Char.isDigit = true) :
    (∀ c ∈ digits.head?, isSpace c = false) ∧ ∀ c ∈ digits.getLast?, isSpace c = false := by
  rw [List.all_eq_true] at h
  exact ⟨fun c hc => isDigit_not_space (h c (List.mem_of_mem_head? hc)),
    fun c hc => isDigit_not_space (h c (List.mem_of_getLast? hc))⟩

/-- The lenient reader gets the sequence from a line of its own, and zero otherwise. -/
theorem BaseOf.sequence_cases (hb : BaseOf values base) (h : Read text values) :
    (envSequence (fileEnv text) = base.sequence ∧
      ∃ digits, values.lookup keySequence = some digits ∧ OwnLine text keySequence digits) ∨
    (envSequence (fileEnv text) = 0 ∧
      ∀ digits, values.lookup keySequence = some digits → ¬OwnLine text keySequence digits) := by
  obtain ⟨digits, hdigits, hall, hne, hn, hone⟩ := hb.digits h
  have hkey := isKey_all.2.1
  obtain ⟨hhead, hlast⟩ := digits_ends hall
  have hown : ∀ digits', values.lookup keySequence = some digits' →
      (OwnLine text keySequence digits' ↔
        (fileEnv text).reverse.lookup keySequence = some digits) := by
    intro digits' hdigits'
    obtain rfl := Option.some.inj (hdigits.symm.trans hdigits')
    rw [ownLine_iff hkey, ← h.lookup_file hkey]
  obtain hlookup | hlookup | ⟨more, hlookup, hbreak, hlast'⟩ :=
    h.lookup_cases hkey hdigits hne hlast
  · refine Or.inr ⟨?_, ?_⟩
    · rw [envSequence, hlookup, Option.getD_none, pyInt_zero]
      rfl
    · intro digits' hdigits' hline
      rw [hown digits' hdigits', hlookup] at hline
      cases hline
  · refine Or.inl ⟨?_, digits, hdigits, (hown digits hdigits).mpr hlookup⟩
    rw [envSequence, hlookup, Option.getD_some, pyInt_digits hall hne, hn]
    rfl
  · refine Or.inr ⟨?_, ?_⟩
    · obtain ⟨d, rest, rfl⟩ := List.exists_cons_of_ne_nil hne
      obtain ⟨c, hc, hcb⟩ := hbreak
      rw [envSequence, hlookup, Option.getD_some, pyInt_break (by simpa using hhead) hlast'
        ⟨c, List.mem_append_right _ hc, hcb⟩]
      rfl
    · intro digits' hdigits' hline
      rw [hown digits' hdigits', hlookup] at hline
      have hnil : more = [] := by simpa using Option.some.inj hline
      obtain ⟨c, hc, -⟩ := hbreak
      rw [hnil] at hc
      cases hc

theorem BaseOf.sequence_iff (hb : BaseOf values base) (h : Read text values) {digits : List Char}
    (hdigits : values.lookup keySequence = some digits) :
    envSequence (fileEnv text) = base.sequence ↔ OwnLine text keySequence digits := by
  obtain ⟨-, -, -, -, -, hone⟩ := hb.digits h
  obtain ⟨heq, digits', hdigits', hown⟩ | ⟨hzero, hnot⟩ := hb.sequence_cases h
  · obtain rfl := Option.some.inj (hdigits.symm.trans hdigits')
    exact ⟨fun _ => hown, fun _ => heq⟩
  · refine ⟨fun heq => ?_, fun hown => absurd hown (hnot digits hdigits)⟩
    omega

/-- `ref.split('@', 1)[1] if '@' in ref else ''` -/
def afterFirst (ref : List Char) : List Char := ((partition '@' ref).map Prod.snd).getD []

theorem afterLast_eq {a b : List Char} (hb : '@' ∉ b) : afterLast (a ++ '@' :: b) = b := by
  have hall : ∀ c ∈ b.reverse, (c != '@') = true := by
    intro c hc
    rw [bne_iff_ne]
    rintro rfl
    exact hb (List.mem_reverse.mp hc)
  rw [afterLast, List.reverse_append, List.reverse_cons, List.append_assoc,
    List.takeWhile_append_of_pos hall, List.singleton_append, List.takeWhile_cons_of_neg (by simp),
    List.append_nil, List.reverse_reverse]

theorem afterFirst_eq {a : List Char} (ha : '@' ∉ a) (b : List Char) :
    afterFirst (a ++ '@' :: b) = b := by
  rw [afterFirst, partition_eq ha]
  rfl

/-- The digest of a reference, its own one when there is one separator only. -/
theorem isPinned_digest {ref : List Char} (h : isPinned ref = true) (more : List Char) :
    isDigest (afterLast ref) = true ∧ (∀ c ∈ ref.getLast?, isSpace c = false) ∧ ref ≠ [] ∧
      ((ref.count '@' = 1 ∧ afterFirst (ref ++ more) = afterLast ref ++ more) ∨
        (ref.count '@' ≠ 1 ∧ '@' ∈ afterFirst (ref ++ more))) := by
  obtain ⟨any, name, digest, rfl, hname, hdigest⟩ := isPinned_ok h
  obtain ⟨hne, hchars⟩ := isDigest_char hdigest
  have hat : '@' ∉ digest := fun hmem => (hchars '@' hmem).1 rfl
  have hsplit : "docker".toList ++ any :: ("io/".toList ++ (name ++ '@' :: digest)) =
      ("docker".toList ++ any :: ("io/".toList ++ name)) ++ '@' :: digest := by simp
  have hdocker : "docker".toList.count '@' = 0 := by decide +kernel
  have hio : "io/".toList.count '@' = 0 := by decide +kernel
  have hcount : ("docker".toList ++ any :: ("io/".toList ++ (name ++ '@' :: digest))).count '@' =
      if any = '@' then 2 else 1 := by
    have hn := List.count_eq_zero.mpr hname
    have hd := List.count_eq_zero.mpr hat
    rw [hsplit]
    simp only [List.count_append, List.count_cons, hn, hd, hdocker, hio, beq_iff_eq, if_true]
    split_ifs with hany
    · rfl
    · rfl
  refine ⟨?_, ?_, by simp, ?_⟩
  · rw [hsplit, afterLast_eq hat]
    exact hdigest
  · intro c hc
    rw [hsplit, List.getLast?_append_cons, List.getLast?_cons_of_ne_nil hne] at hc
    exact (hchars c (List.mem_of_getLast? hc)).2
  · rw [hcount]
    by_cases hany : any = '@'
    · subst hany
      refine Or.inr ⟨by simp, ?_⟩
      rw [List.append_assoc, List.cons_append, afterFirst_eq (List.count_eq_zero.mp hdocker)]
      simp
    · refine Or.inl ⟨if_neg hany, ?_⟩
      have hbefore : '@' ∉ "docker".toList ++ any :: ("io/".toList ++ name) := by
        simp only [List.mem_append, List.mem_cons, List.count_eq_zero.mp hdocker,
          List.count_eq_zero.mp hio, hname, Ne.symm hany, or_self, not_false_eq_true]
      rw [hsplit, List.append_assoc, List.cons_append, afterFirst_eq hbefore, afterLast_eq hat]

theorem BaseOf.digest_iff (hb : BaseOf values base) (h : Read text values) {ref : List Char}
    (href : values.lookup keyImageRef = some ref) :
    Json.str (String.ofList (afterFirst (getText (fileEnv text) keyImageRef))) =
        .str base.digest ↔
      OwnLine text keyImageRef ref ∧ ref.count '@' = 1 := by
  obtain ⟨ref', href', hpinned, hdigest⟩ := hb.imageRef
  obtain rfl := Option.some.inj (href'.symm.trans href)
  have hkey := isKey_all.2.2.2.1
  rw [hdigest, str_ofList, ownLine_iff hkey, ← h.lookup_file hkey, getText]
  obtain ⟨hvalid, hlast, hne, -⟩ := isPinned_digest hpinned []
  obtain ⟨hdne, hchars⟩ := isDigest_char hvalid
  obtain hlookup | hlookup | ⟨more, hlookup, ⟨c, hc, hbreak⟩, -⟩ :=
    h.lookup_cases hkey href hne hlast
  · rw [hlookup]
    refine ⟨fun heq => absurd heq.symm hdne, fun heq => by cases heq.1⟩
  · rw [hlookup, Option.getD_some]
    obtain ⟨-, -, -, ⟨hcount, hfirst⟩ | ⟨hcount, hfirst⟩⟩ := isPinned_digest hpinned []
    · rw [List.append_nil, List.append_nil] at hfirst
      exact ⟨fun _ => ⟨rfl, hcount⟩, fun _ => hfirst⟩
    · rw [List.append_nil] at hfirst
      refine ⟨fun heq => ?_, fun heq => absurd heq.2 hcount⟩
      exact absurd rfl (hchars '@' (heq ▸ hfirst)).1
  · rw [hlookup, Option.getD_some]
    have hmore : more ≠ [] := List.ne_nil_of_mem hc
    constructor
    · intro heq
      obtain ⟨-, -, -, ⟨-, hfirst⟩ | ⟨-, hfirst⟩⟩ := isPinned_digest hpinned more
      · rw [hfirst] at heq
        exact absurd (List.append_right_eq_self.mp heq) hmore
      · exact absurd rfl (hchars '@' (heq ▸ hfirst)).1
    · intro heq
      exact absurd (List.append_right_eq_self.mp (Option.some.inj heq.1)) hmore

/-- The keys that make the identity. -/
def appKeys : List (List Char) := [keyChannel, keySequence, keyRelease, keyImageRef, keyImageId]

/-- The keys of the identity have lines of their own, and the reference has one separator. -/
def PlainImage (text : List Char) (values : Values) : Prop :=
  (∀ key ∈ appKeys, ∃ value, values.lookup key = some value ∧ OwnLine text key value) ∧
    ∀ ref, values.lookup keyImageRef = some ref → ref.count '@' = 1

theorem strField_iff (h : Read text values) {key value : List Char} (hkey : isKey key = true)
    (hne : value ≠ []) : Json.str (String.ofList (getText (fileEnv text) key)) =
      .str (String.ofList value) ↔ OwnLine text key value := by
  rw [str_ofList, h.getText_iff hkey hne]

/-- The lenient baseline is the strict one where image.env is plain. -/
theorem baseline_reports_iff (hb : BaseOf values base) (h : Read text values) :
    Reports (baseline (fileEnv text)) base ↔ PlainImage text values := by
  obtain ⟨kChannel, kSequence, kRelease, kImageRef, kImageId⟩ := isKey_all
  obtain ⟨channel, hchannel, hc⟩ := hb.channel
  obtain ⟨digits, hdigits, -⟩ := hb.digits h
  obtain ⟨release, hrelease, hr⟩ := hb.release
  obtain ⟨ref, href, -⟩ := hb.imageRef
  obtain ⟨imageId, himageId, hi⟩ := hb.imageId
  have hcne : channel ≠ [] := by
    rintro rfl
    have hvalid := hb.valid.channel
    rw [hc] at hvalid
    exact absurd hvalid (by decide +kernel)
  have hrne : release ≠ [] := by
    rintro rfl
    have hvalid := hb.valid.release
    rw [hr] at hvalid
    exact absurd hvalid (by decide +kernel)
  have hine : imageId ≠ [] := by
    rintro rfl
    have hvalid := hb.valid.imageId
    rw [hi] at hvalid
    exact absurd hvalid (by decide +kernel)
  have hchannelIff := strField_iff h kChannel hcne
  have hreleaseIff := strField_iff h kRelease hrne
  have himageIff := strField_iff h kImageId hine
  have hsequenceIff := hb.sequence_iff h hdigits
  have hdigestIff := hb.digest_iff h href
  rw [← hc] at hchannelIff
  rw [← hr] at hreleaseIff
  rw [← hi] at himageIff
  constructor
  · intro hreports
    obtain ⟨hrefLine, hcount⟩ := hdigestIff.mp hreports.digest
    refine ⟨?_, fun ref' href' => by rwa [← Option.some.inj (href.symm.trans href')]⟩
    intro key hkey
    simp only [appKeys, List.mem_cons, List.not_mem_nil, or_false] at hkey
    obtain rfl | rfl | rfl | rfl | rfl := hkey
    · exact ⟨channel, hchannel, hchannelIff.mp hreports.channel⟩
    · exact ⟨digits, hdigits, hsequenceIff.mp (Json.int.inj hreports.sequence)⟩
    · exact ⟨release, hrelease, hreleaseIff.mp hreports.release⟩
    · exact ⟨ref, href, hrefLine⟩
    · exact ⟨imageId, himageId, himageIff.mp hreports.imageId⟩
  · intro ⟨hlines, hcount⟩
    have hline : ∀ {key value : List Char}, key ∈ appKeys → values.lookup key = some value →
        OwnLine text key value := by
      intro key value hkey hvalue
      obtain ⟨value', hvalue', hown⟩ := hlines key hkey
      rwa [← Option.some.inj (hvalue.symm.trans hvalue')] at hown
    refine ⟨hchannelIff.mpr (hline (by simp [appKeys]) hchannel), ?_,
      hdigestIff.mpr ⟨hline (by simp [appKeys]) href, hcount ref href⟩,
      himageIff.mpr (hline (by simp [appKeys]) himageId),
      hreleaseIff.mpr (hline (by simp [appKeys]) hrelease)⟩
    exact congrArg Json.int (hsequenceIff.mpr (hline (by simp [appKeys]) hdigits))

/-- Lenient text that is a well-formed value is the strict value. -/
theorem getText_value (h : Read text values) {key value other : List Char} (hkey : isKey key = true)
    (hvalue : values.lookup key = some value) (hne : value ≠ [])
    (hlast : ∀ c ∈ value.getLast?, isSpace c = false) (hother : other ≠ [])
    (hspace : ∀ c ∈ other, isSpace c = false) (heq : getText (fileEnv text) key = other) :
    other = value := by
  rw [getText] at heq
  obtain hlookup | hlookup | ⟨more, hlookup, ⟨c, hc, hbreak⟩, -⟩ :=
    h.lookup_cases hkey hvalue hne hlast
  · rw [hlookup] at heq
    exact absurd heq.symm hother
  · rw [hlookup] at heq
    exact heq.symm
  · rw [hlookup, Option.getD_some] at heq
    have hnot := hspace c (heq ▸ List.mem_append_right value hc)
    rw [isBreak_isSpace hbreak] at hnot
    cases hnot

theorem isAlphanum_range {c : Char} (h : c.isAlphanum = true) :
    48 ≤ c.toNat ∧ c.toNat ≤ 122 := by
  have hkinds : (c.isUpper || c.isLower || c.isDigit) = true := h
  rw [Bool.or_eq_true, Bool.or_eq_true] at hkinds
  obtain (hupper | hlower) | hdigit := hkinds
  · have hrange := isUpper_range hupper
    omega
  · have hbounds : (decide (c.val ≥ 'a'.val) && decide (c.val ≤ 'z'.val)) = true := hlower
    have hrange : c.val ≥ 'a'.val ∧ c.val ≤ 'z'.val := by
      rwa [Bool.and_eq_true, decide_eq_true_eq, decide_eq_true_eq] at hbounds
    have h1 : 97 ≤ c.toNat := hrange.1
    have h2 : c.toNat ≤ 122 := hrange.2
    omega
  · have hrange := isDigit_range hdigit
    omega

theorem isRelease_char {text : List Char} (h : isRelease text = true) :
    text ≠ [] ∧ ∀ c ∈ text, isSpace c = false := by
  simp only [isRelease, Bool.and_eq_true, decide_eq_true_eq, List.all_eq_true] at h
  refine ⟨List.length_pos_iff.mp h.1.1, ?_⟩
  intro c hc
  by_contra hspace
  rw [Bool.not_eq_false] at hspace
  have hchar := h.2 c hc
  simp only [Bool.or_eq_true, beq_iff_eq] at hchar
  have hrange : 43 ≤ c.toNat ∧ c.toNat ≤ 122 := by
    obtain (((halnum | rfl) | rfl) | rfl) | rfl := hchar
    · have := isAlphanum_range halnum
      omega
    all_goals decide
  simp only [isSpace, Bool.or_eq_true, Bool.and_eq_true, decide_eq_true_eq, beq_iff_eq] at hspace
  omega

theorem isChannel_char {text : List Char} (h : isChannel text = true) :
    text ≠ [] ∧ ∀ c ∈ text, isSpace c = false := by
  simp only [isChannel, Bool.or_eq_true, beq_iff_eq] at h
  obtain rfl | rfl := h
  · simp [isSpace]
  · simp [isSpace]

/-- An identity that the lenient baseline reports is the strict one. -/
theorem reports_eq (hb : BaseOf values base) (h : Read text values) {app : Identity}
    (happ : Valid app) (hreports : Reports (baseline (fileEnv text)) app) : app = base := by
  obtain ⟨kChannel, kSequence, kRelease, kImageRef, kImageId⟩ := isKey_all
  obtain ⟨channel, hchannel, hc⟩ := hb.channel
  obtain ⟨release, hrelease, hr⟩ := hb.release
  obtain ⟨ref, href, hpinned, hd⟩ := hb.imageRef
  obtain ⟨imageId, himageId, hi⟩ := hb.imageId
  -- a text field: what is there is a well-formed text, as the strict value is
  have hfield : ∀ {key value : List Char} {s : String}, isKey key = true →
      values.lookup key = some value → (value ≠ [] ∧ ∀ c ∈ value, isSpace c = false) →
      (s.toList ≠ [] ∧ ∀ c ∈ s.toList, isSpace c = false) →
      Json.str (String.ofList (getText (fileEnv text) key)) = .str s → s = String.ofList value := by
    intro key value s hkey hvalue hform hs heq
    rw [← String.ofList_toList (s := s), str_ofList] at heq
    rw [← getText_value h hkey hvalue hform.1
      (fun c hc => hform.2 c (List.mem_of_getLast? hc)) hs.1 hs.2 heq, String.ofList_toList]
  have htext : ∀ {chars : List Char} {s : String}, s = String.ofList chars → s.toList = chars :=
    fun hs => by rw [hs, String.toList_ofList]
  have hhex : ∀ {chars : List Char}, isImageId chars = true →
      chars ≠ [] ∧ ∀ c ∈ chars, isSpace c = false := fun himage =>
    ⟨(isImageId_char himage).1, fun c hc => ((isImageId_char himage).2 c hc).2⟩
  have h1 : app.channel = base.channel := by
    rw [hc]
    exact hfield kChannel hchannel (htext hc ▸ isChannel_char hb.valid.channel)
      (isChannel_char happ.channel) hreports.channel
  have h2 : app.sequence = base.sequence := by
    have hsequence : envSequence (fileEnv text) = app.sequence := Json.int.inj hreports.sequence
    have hone := happ.sequence.1
    obtain ⟨heq, -⟩ | ⟨hzero, -⟩ := hb.sequence_cases h
    · omega
    · omega
  have h3 : app.imageId = base.imageId := by
    rw [hi]
    exact hfield kImageId himageId (htext hi ▸ hhex hb.valid.imageId) (hhex happ.imageId)
      hreports.imageId
  have h4 : app.release = base.release := by
    rw [hr]
    exact hfield kRelease hrelease (htext hr ▸ isRelease_char hb.valid.release)
      (isRelease_char happ.release) hreports.release
  have h5 : app.digest = base.digest := by
    obtain ⟨hdne, hchars⟩ := isDigest_char happ.digest
    obtain ⟨-, hlast, hne, -⟩ := isPinned_digest hpinned []
    have heq : afterFirst (getText (fileEnv text) keyImageRef) = app.digest.toList := by
      rw [← str_ofList, String.ofList_toList]
      exact hreports.digest
    rw [getText] at heq
    obtain hlookup | hlookup | ⟨more, hlookup, ⟨c, hc, hbreak⟩, -⟩ :=
      h.lookup_cases kImageRef href hne hlast
    · rw [hlookup] at heq
      exact absurd heq.symm hdne
    · rw [hlookup, Option.getD_some, ← List.append_nil ref] at heq
      obtain ⟨-, -, -, ⟨-, hfirst⟩ | ⟨-, hat⟩⟩ := isPinned_digest hpinned []
      · rw [hfirst, List.append_nil] at heq
        rw [hd, heq, String.ofList_toList]
      · exact absurd rfl (hchars '@' (heq ▸ hat)).1
    · rw [hlookup, Option.getD_some] at heq
      obtain ⟨-, -, -, ⟨-, hfirst⟩ | ⟨-, hat⟩⟩ := isPinned_digest hpinned more
      · rw [hfirst] at heq
        have hspace := (hchars c (heq ▸ List.mem_append_right _ hc)).2
        rw [isBreak_isSpace hbreak] at hspace
        cases hspace
      · exact absurd rfl (hchars '@' (heq ▸ hat)).1
  obtain ⟨c1, c2, c3, c4, c5⟩ := app
  obtain ⟨d1, d2, d3, d4, d5⟩ := base
  simp only at h1 h2 h3 h4 h5
  rw [h1, h2, h3, h4, h5]

end Image

end Epilykos.Adoption
