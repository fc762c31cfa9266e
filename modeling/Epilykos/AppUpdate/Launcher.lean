import Epilykos.AppUpdate.Faults

/-!
Which application epilykos-run starts. The updater compares numbers and writes active.env;
the launcher reads that text again, takes a sequence of at most nine digits from it and
compares it with the text of image.env.
-/

namespace Epilykos.AppUpdate

open OsUpdate (Release Active activeText)

/-! ### image.env and active.env -/

/-- image.env, where the sequence is a plain decimal. -/
structure ImageEnv where
  release : String
  channel : String
  sequence : List Char
  imageRef : String
  imageId : String
  plain : sequence ≠ [] ∧ sequence.all Char.isDigit

/-- More digits than this `int()` refuses to convert. -/
def maxStrDigits : ℕ := 4300

/-- `int()` of a plain decimal. -/
def pyInt (digits : List Char) : Option ℕ :=
  if digits.length ≤ maxStrDigits then some (Nat.ofDigitChars 10 digits 0) else none

/-- The sequence it states. -/
def ImageEnv.number (env : ImageEnv) : ℕ := Nat.ofDigitChars 10 env.sequence 0

/-- What this OS image preloaded. -/
def ImageEnv.baseline (env : ImageEnv) : Release where
  release := env.release
  channel := env.channel
  sequence := (pyInt env.sequence).getD 0
  digest := ((Text.partition '@' env.imageRef.toList).map fun p => String.ofList p.2).getD ""
  imageId := env.imageId

def keyImageId : List Char := "EPILYKOS_ACTIVE_IMAGE_ID=".toList

def keySequence : List Char := "EPILYKOS_ACTIVE_SEQUENCE=".toList

def keyRelease : List Char := "EPILYKOS_ACTIVE_RELEASE=".toList

/-- active.env as `_set_active` writes it. -/
def fileText (a : Active) : List Char :=
  keyImageId ++ a.imageId.toList ++ '\n' ::
    (keySequence ++ Nat.toDigits 10 a.sequence ++ '\n' ::
      (keyRelease ++ a.release.toList ++ ['\n']))

/-! ### epilykos-run -/

/-- What a line has after the name, where it begins with it. -/
def after (name line : List Char) : Option (List Char) :=
  if name.isPrefixOf line then some (line.drop name.length) else none

/-- The value a line gives to the name, where it has the form asked for. -/
def valueOf (name : List Char) (form : List Char → Bool) (line : List Char) :
    Option (List Char) :=
  (after name line).filter form

/-- `sed -n 's/^name\(form\)$/\1/p'` -/
def sedValue (name : List Char) (form : List Char → Bool) (text : List Char) : List Char :=
  List.intercalate ['\n'] ((Text.linesFrom [] text).filterMap (valueOf name form))

/-- `[0-9a-f]\{64\}` -/
def isImageId (chars : List Char) : Bool := chars.length == 64 && chars.all isHex

/-- `[0-9]\{1,9\}` -/
def isShortDecimal (chars : List Char) : Bool :=
  1 ≤ chars.length && chars.length ≤ 9 && chars.all Char.isDigit

/-- A number as the shell's test reads it. -/
def shellInt (chars : List Char) : Option ℕ :=
  let n := Nat.ofDigitChars 10 chars 0
  if chars ≠ [] ∧ chars.all Char.isDigit ∧ n < 2 ^ 63 then some n else none

/-- `[ a -ge b ]`: an error is not true. -/
def testGe (a b : List Char) : Bool :=
  match shellInt a, shellInt b with
  | some m, some n => n ≤ m
  | _, _ => false

/-- `${text:-0}` -/
def orZero (text : List Char) : List Char := if text = [] then ['0'] else text

/-- The image epilykos-run starts. -/
def launch (env : ImageEnv) (active : Option (List Char)) (imageExists : String → Bool) :
    String :=
  match active with
  | none => env.imageId
  | some text =>
    let activeId := sedValue keyImageId isImageId text
    let activeSeq := sedValue keySequence isShortDecimal text
    if activeId ≠ [] ∧ activeSeq ≠ [] ∧ testGe activeSeq (orZero env.sequence) ∧
        imageExists (String.ofList activeId) then String.ofList activeId
    else env.imageId

/-! ### What the launcher reads of active.env -/

theorem after_append (name value : List Char) : after name (name ++ value) = some value := by
  rw [after, if_pos (by simp), List.drop_left]

theorem after_other {name other : List Char} (h : ¬ name <+: other) (h' : ¬ other <+: name)
    (value : List Char) : after name (other ++ value) = none := by
  rw [after, if_neg]
  intro hpre
  rcases List.prefix_or_prefix_of_prefix (List.isPrefixOf_iff_prefix.mp hpre)
    (List.prefix_append other value) with hname | hother
  · exact h hname
  · exact h' hother

theorem newline_not_digit {n : ℕ} : '\n' ∉ Nat.toDigits 10 n := by
  intro hmem
  have hdigit := Nat.isDigit_of_mem_toDigits (by omega) (by omega) hmem
  revert hdigit
  decide

theorem newline_not_hex {chars : List Char} (h : isImageId chars) : '\n' ∉ chars := by
  intro hmem
  rw [isImageId, Bool.and_eq_true, List.all_eq_true] at h
  have hhex := h.2 _ hmem
  revert hhex
  decide

theorem newline_not_release (s : String) : '\n' ∉ (activeText s).toList := by
  intro hmem
  rw [activeText, String.toList_ofList, List.mem_filter] at hmem
  have hkept := hmem.2
  revert hkept
  decide

/-- The three lines of active.env. -/
theorem lines_fileText {a : Active} (hid : isImageId a.imageId.toList)
    (hrelease : '\n' ∉ a.release.toList) :
    Text.linesFrom [] (fileText a) = [keyImageId ++ a.imageId.toList,
      keySequence ++ Nat.toDigits 10 a.sequence, keyRelease ++ a.release.toList] := by
  have hfirst : '\n' ∉ keyImageId ++ a.imageId.toList := by
    intro hmem
    rcases List.mem_append.mp hmem with hmem | hmem
    · revert hmem
      decide +kernel
    · exact newline_not_hex hid hmem
  have hsecond : '\n' ∉ keySequence ++ Nat.toDigits 10 a.sequence := by
    intro hmem
    rcases List.mem_append.mp hmem with hmem | hmem
    · revert hmem
      decide +kernel
    · exact newline_not_digit hmem
  have hthird : '\n' ∉ keyRelease ++ a.release.toList := by
    intro hmem
    rcases List.mem_append.mp hmem with hmem | hmem
    · revert hmem
      decide +kernel
    · exact hrelease hmem
  rw [fileText, Text.linesFrom_append hfirst, Text.linesFrom_append hsecond,
    Text.linesFrom_append hthird]
  rfl

section Values

variable {form : List Char → Bool} {name other value : List Char}

theorem valueOf_own (h : form value = true) : valueOf name form (name ++ value) = some value := by
  rw [valueOf, after_append, Option.filter_some, if_pos h]

theorem valueOf_formless (h : form value = false) : valueOf name form (name ++ value) = none := by
  rw [valueOf, after_append, Option.filter_some, if_neg (by simp [h])]

theorem valueOf_other (h : ¬ name <+: other) (h' : ¬ other <+: name) :
    valueOf name form (other ++ value) = none := by
  rw [valueOf, after_other h h', Option.filter_none]

end Values

theorem sedValue_imageId {a : Active} (hid : isImageId a.imageId.toList)
    (hrelease : '\n' ∉ a.release.toList) :
    sedValue keyImageId isImageId (fileText a) = a.imageId.toList := by
  rw [sedValue, lines_fileText hid hrelease, List.filterMap_cons_some (valueOf_own hid),
    List.filterMap_cons_none (valueOf_other (by decide +kernel) (by decide +kernel)),
    List.filterMap_cons_none (valueOf_other (by decide +kernel) (by decide +kernel))]
  simp

/-- Of more than nine digits nothing is read. -/
theorem sedValue_sequence {a : Active} (hid : isImageId a.imageId.toList)
    (hrelease : '\n' ∉ a.release.toList) :
    sedValue keySequence isShortDecimal (fileText a) =
      if a.sequence < 10 ^ 9 then Nat.toDigits 10 a.sequence else [] := by
  have hother : valueOf keySequence isShortDecimal (keyRelease ++ a.release.toList) = none :=
    valueOf_other (by decide +kernel) (by decide +kernel)
  have hdigits : (Nat.toDigits 10 a.sequence).all Char.isDigit := List.all_eq_true.mpr fun c hc =>
    Nat.isDigit_of_mem_toDigits (by omega) (by omega) hc
  have hpos : 1 ≤ (Nat.toDigits 10 a.sequence).length := List.length_pos_iff.mpr Nat.toDigits_ne_nil
  have hlength : (Nat.toDigits 10 a.sequence).length ≤ 9 ↔ a.sequence < 10 ^ 9 :=
    Nat.length_toDigits_le_iff (by omega) (by omega)
  rw [sedValue, lines_fileText hid hrelease,
    List.filterMap_cons_none (valueOf_other (by decide +kernel) (by decide +kernel))]
  by_cases hlt : a.sequence < 10 ^ 9
  · have hshort : isShortDecimal (Nat.toDigits 10 a.sequence) = true := by
      simp only [isShortDecimal, hpos, hlength.mpr hlt, hdigits, decide_true, Bool.and_self]
    rw [if_pos hlt, List.filterMap_cons_some (valueOf_own hshort),
      List.filterMap_cons_none hother]
    simp
  · have hlong : isShortDecimal (Nat.toDigits 10 a.sequence) = false := by
      simp only [isShortDecimal, mt hlength.mp hlt, decide_false, Bool.and_false, Bool.false_and]
    rw [if_neg hlt, List.filterMap_cons_none (valueOf_formless hlong),
      List.filterMap_cons_none hother]
    simp

/-! ### The choice made twice -/

theorem shellInt_short {n : ℕ} (h : n < 10 ^ 9) : shellInt (Nat.toDigits 10 n) = some n := by
  have hdigits : (Nat.toDigits 10 n).all Char.isDigit := List.all_eq_true.mpr fun c hc =>
    Nat.isDigit_of_mem_toDigits (by omega) (by omega) hc
  rw [shellInt, Nat.ofDigitChars_ten_toDigits, if_pos ⟨Nat.toDigits_ne_nil, hdigits, by omega⟩]

theorem orZero_plain (env : ImageEnv) : orZero env.sequence = env.sequence := if_neg env.plain.1

/-- Over nine digits or fewer the shell's comparison is exact. -/
theorem testGe_short {env : ImageEnv} {n : ℕ} (hlt : n < 10 ^ 9) :
    testGe (Nat.toDigits 10 n) (orZero env.sequence) = true ↔ env.number ≤ n := by
  rw [testGe, orZero_plain, shellInt_short hlt]
  by_cases hrange : env.number < 2 ^ 63
  · have hshell : shellInt env.sequence = some env.number :=
      if_pos ⟨env.plain.1, env.plain.2, hrange⟩
    rw [hshell]
    exact decide_eq_true_iff
  · have hshell : shellInt env.sequence = none := if_neg fun h => hrange h.2.2
    rw [hshell]
    exact iff_of_false (by simp) (by omega)

/-- `_set_active(current())` -/
def reactivate : UpdProg Unit := do setActive (← current)

/-- What `_set_active` leaves of active.env. -/
def Running.active : Running → Option Active
  | .baseline _ => none
  | .promoted r => some r.toActive

theorem reactivate_run (O : Oracles) (w : World) :
    (reactivate.run (World.serve O) w).2 =
      { w with app := { w.app with active := (currentOf w.image w.app.current).active } } := by
  change ((setActive (currentOf w.image w.app.current)).run (World.serve O) w).2 = _
  cases currentOf w.image w.app.current <;> rfl

/-- The image epilykos-run starts on this host. -/
def started (env : ImageEnv) (w : World) : String :=
  launch env (w.app.active.map fileText) fun id => id ∈ w.images

/-- What of the updater's choice the launcher can follow. -/
def Agrees (env : ImageEnv) : Running → Prop
  | .baseline _ => True
  | .promoted r => r.imageId = env.imageId ∨ r.sequence < 10 ^ 9 ∧ env.number ≤ r.sequence

theorem launch_promoted {env : ImageEnv} {r : Release} {imageExists : String → Bool}
    (hid : isImageId r.imageId.toList) (hexists : imageExists r.imageId) :
    launch env (some (fileText r.toActive)) imageExists = r.imageId ↔
      Agrees env (.promoted r) := by
  have hrelease : '\n' ∉ r.toActive.release.toList := newline_not_release r.release
  have hactive : isImageId r.toActive.imageId.toList := hid
  have hname : r.imageId.toList ≠ [] := by
    intro hnil
    rw [hnil] at hid
    cases hid
  have himage : String.ofList r.toActive.imageId.toList = r.imageId := String.ofList_toList
  rw [launch, sedValue_imageId hactive hrelease, sedValue_sequence hactive hrelease, himage]
  by_cases hlt : r.sequence < 10 ^ 9
  · rw [if_pos (show r.toActive.sequence < 10 ^ 9 from hlt)]
    have htest := @testGe_short env _ hlt
    by_cases hle : env.number ≤ r.sequence
    · rw [if_pos ⟨hname, Nat.toDigits_ne_nil, htest.mpr hle, hexists⟩]
      exact iff_of_true rfl (Or.inr ⟨hlt, hle⟩)
    · rw [if_neg fun h => hle (htest.mp h.2.2.1)]
      exact ⟨fun h => Or.inl h.symm, fun h => h.elim Eq.symm fun h => absurd h.2 hle⟩
  · rw [if_neg (show ¬ r.toActive.sequence < 10 ^ 9 from hlt), if_neg fun h => h.2.1 rfl]
    exact ⟨fun h => Or.inl h.symm, fun h => h.elim Eq.symm fun h => absurd h.1 hlt⟩

theorem currentOf_cases (image : Release) (cur : Option Release) :
    currentOf image cur = .baseline image ∨
      ∃ r, image.sequence ≤ r.sequence ∧ currentOf image cur = .promoted r := by
  cases cur with
  | none => exact Or.inl rfl
  | some r =>
    by_cases hnewer : image.sequence ≤ r.sequence
    · exact Or.inr ⟨r, hnewer, if_pos hnewer⟩
    · exact Or.inl (if_neg hnewer)

/-- Where `int()` reads image.env, a promoted release of at most nine digits is followed. -/
theorem agrees_short {env : ImageEnv} {cur : Option Release} {r : Release}
    (hread : env.sequence.length ≤ maxStrDigits)
    (hcur : currentOf env.baseline cur = .promoted r) (hlt : r.sequence < 10 ^ 9) :
    Agrees env (currentOf env.baseline cur) := by
  have hbase : env.baseline.sequence = env.number := by
    rw [ImageEnv.baseline, pyInt, if_pos hread, Option.getD_some, ImageEnv.number]
  rcases currentOf_cases env.baseline cur with hbaseline | ⟨r', hnewer, hpromoted⟩
  · rw [hbaseline]
    trivial
  · obtain rfl : r' = r := Running.promoted.inj (hpromoted.symm.trans hcur)
    rw [hpromoted]
    exact Or.inr ⟨hlt, by omega⟩

/-- After `_set_active(current())` the launcher starts the image of current(), for exactly
the choices it can follow. -/
theorem launcher_follows (O : Oracles) {env : ImageEnv} {w : World} (himage : w.image = env.baseline)
    (hpromoted : ∀ r, currentOf w.image w.app.current = .promoted r →
      isImageId r.imageId.toList ∧ r.imageId ∈ w.images) :
    let w' := (reactivate.run (World.serve O) w).2
    started env w' = (currentOf w'.image w'.app.current).toRelease.imageId ↔
      Agrees env (currentOf w'.image w'.app.current) := by
  intro w'
  have hrun : w' = _ := reactivate_run O w
  rw [hrun]
  change launch env ((currentOf w.image w.app.current).active.map fileText) _ =
    (currentOf w.image w.app.current).toRelease.imageId ↔ Agrees env (currentOf w.image w.app.current)
  rcases currentOf_cases w.image w.app.current with hcur | ⟨r, _, hcur⟩
  · rw [hcur, himage]
    exact iff_of_true rfl trivial
  · obtain ⟨hid, hstored⟩ := hpromoted r hcur
    rw [hcur]
    exact launch_promoted hid (decide_eq_true hstored)

/-! ### A sequence of ten digits -/

def sampleImageId (c : Char) : String := String.ofList (List.replicate 64 c)

/-- image.env of an OS image of sequence 7. -/
def sampleEnv : ImageEnv where
  release := "2.7.0-dev"
  channel := "dev"
  sequence := ['7']
  imageRef := "docker.io/example/app@" ++ sampleDigest '7'
  imageId := sampleImageId '7'
  plain := by decide

def signedCandidate (sequence : ℕ) : Candidate :=
  { release := "3.0.0-dev", channel := "dev", sequence, digest := sampleDigest 'a',
    source := "example/app" }

/-- A release of this sequence is promoted, and both images are in storage. -/
def promotedWorld (sequence : ℕ) : World :=
  { sampleWorld with
    image := sampleEnv.baseline
    app := { sampleWorld.app with
      current := some ((signedCandidate sequence).withImage (sampleImageId 'a')) }
    images := [sampleImageId '7', sampleImageId 'a'] }

theorem launcher_follows_short :
    started sampleEnv (reactivate.run (World.serve sampleOracles) (promotedWorld 999999999)).2 =
      sampleImageId 'a' := by
  have hcur : currentOf (promotedWorld 999999999).image (promotedWorld 999999999).app.current =
      .promoted ((signedCandidate 999999999).withImage (sampleImageId 'a')) := by decide +kernel
  refine (launcher_follows sampleOracles rfl ?_).mpr (agrees_short (by decide) hcur (by decide))
  intro r hr
  obtain rfl := Running.promoted.inj (hcur.symm.trans hr)
  exact ⟨by decide +kernel, by decide +kernel⟩

/-- A release `validate` accepts, of sequence 10^9, is current and is not started. -/
theorem launcher_refuses :
    validate sampleOracles sampleEnv.baseline (sampleManifest 1000000000 (sampleDigest 'a')) =
        .ok (signedCandidate 1000000000) ∧
      (let w := (reactivate.run (World.serve sampleOracles) (promotedWorld 1000000000)).2
      (currentOf w.image w.app.current).toRelease.imageId = sampleImageId 'a' ∧
        w.images = [sampleImageId '7', sampleImageId 'a'] ∧
        started sampleEnv w = sampleImageId '7') := by
  decide +kernel

end Epilykos.AppUpdate
