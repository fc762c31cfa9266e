import Epilykos.Adoption.Source
import Mathlib.Data.List.TakeWhile

/-!
image.env by both readers. The strict one ends lines where `str.splitlines` does, the lenient
one where a file does, which is at fewer characters. So a line of the file holds one or more
lines of the strict reading, and sets only what the first of them sets.
-/

namespace Epilykos.Adoption

open Text
open OsUpdate (Json)

/-! ### Text -/

theorem partition_eq {sep : Char} {a : List Char} (ha : sep ∉ a) (b : List Char) :
    partition sep (a ++ sep :: b) = some (a, b) := by
  induction a with
  | nil => exact if_pos rfl
  | cons c a ih =>
    rw [List.mem_cons, not_or] at ha
    rw [List.cons_append, partition, if_neg (Ne.symm ha.1), ih ha.2]
    rfl

theorem partition_some {sep : Char} {text a b : List Char} (h : partition sep text = some (a, b)) :
    text = a ++ sep :: b ∧ sep ∉ a := by
  induction text generalizing a with
  | nil => cases h
  | cons c text ih =>
    rw [partition] at h
    split_ifs at h with hc
    · obtain ⟨rfl, rfl⟩ : [] = a ∧ text = b := by simpa using h
      exact ⟨by rw [hc]; rfl, by simp⟩
    · obtain ⟨⟨x, y⟩, hp, hxy⟩ := Option.map_eq_some_iff.mp h
      obtain ⟨rfl, rfl⟩ := Prod.mk.inj hxy
      obtain ⟨htext, hsep⟩ := ih hp
      refine ⟨by rw [htext]; rfl, ?_⟩
      rw [List.mem_cons, not_or]
      exact ⟨Ne.symm hc, hsep⟩

theorem partition_isSome {sep : Char} {text : List Char} (h : sep ∈ text) :
    ∃ a b, partition sep text = some (a, b) := by
  obtain ⟨a, b, rfl, ha⟩ := List.eq_append_cons_of_mem h
  exact ⟨a, b, partition_eq ha b⟩

theorem isBreak_isSpace {c : Char} (h : isBreak c = true) : isSpace c = true := by
  simp only [isBreak, isSpace, Bool.or_eq_true, Bool.and_eq_true, decide_eq_true_eq, beq_iff_eq]
    at h ⊢
  omega

/-- White space at the end goes; what stands before another character stays. -/
theorem rstrip_append {c : Char} (hc : isSpace c = false) (a b : List Char) :
    rstrip (a ++ c :: b) = a ++ c :: rstrip b := by
  have hdrop : ∀ xs ys : List Char, (xs ++ c :: ys).dropWhile isSpace =
      xs.dropWhile isSpace ++ c :: ys := by
    intro xs ys
    induction xs with
    | nil => rw [List.nil_append, List.dropWhile_cons_of_neg (by simp [hc])]; rfl
    | cons d xs ih =>
      cases hd : isSpace d with
      | true => rw [List.cons_append, List.dropWhile_cons_of_pos hd, ih,
          List.dropWhile_cons_of_pos hd]
      | false => rw [List.cons_append, List.dropWhile_cons_of_neg (by simp [hd]),
          List.dropWhile_cons_of_neg (by simp [hd])]; rfl
  rw [rstrip, List.reverse_append, List.reverse_cons, List.append_assoc, List.singleton_append,
    hdrop, List.reverse_append, List.reverse_cons, List.reverse_reverse, rstrip, List.append_assoc,
    List.singleton_append]

theorem rstrip_spaces {rest : List Char} (h : ∀ c ∈ rest, isSpace c = true) : rstrip rest = [] := by
  rw [rstrip, List.dropWhile_eq_nil_iff.mpr (by simpa using h)]
  rfl

/-- A value with what follows it on the line: the value alone, or with a break in it. -/
theorem rstrip_value {value rest : List Char} (hne : value ≠ [])
    (hlast : ∀ c ∈ value.getLast?, isSpace c = false) (hrest : ∀ c ∈ rest.head?, isBreak c = true) :
    rstrip (value ++ rest) = value ∨
      ∃ more, rstrip (value ++ rest) = value ++ more ∧ ∃ c ∈ more, isBreak c = true := by
  obtain ⟨a, c, rfl⟩ := (List.eq_nil_or_concat value).resolve_left hne
  rw [List.concat_eq_append] at hlast ⊢
  have hc : isSpace c = false := hlast c (by simp)
  rw [List.append_assoc, List.singleton_append, rstrip_append hc]
  by_cases hblank : ∀ d ∈ rest, isSpace d = true
  · exact Or.inl (by rw [rstrip_spaces hblank])
  · refine Or.inr ⟨rstrip rest, by simp, ?_⟩
    rw [not_forall] at hblank
    obtain ⟨e, he⟩ := hblank
    rw [Classical.not_imp, Bool.not_eq_true] at he
    obtain ⟨d, rest, rfl⟩ := List.exists_cons_of_ne_nil (List.ne_nil_of_mem he.1)
    have hd : isBreak d = true := hrest d rfl
    have hmem : e ∈ rest := by
      refine List.mem_of_ne_of_mem ?_ he.1
      intro hed
      rw [hed, isBreak_isSpace hd] at he
      exact absurd he.2 (by simp)
    obtain ⟨x, y, rfl⟩ := List.append_of_mem hmem
    refine ⟨d, ?_, hd⟩
    rw [← List.cons_append, rstrip_append he.2]
    simp

/-! ### The strict reading -/

/-- What a line sets. -/
def entryOf (line : List Char) : Option (List Char × List Char) :=
  if line.head? = some '#' then none else partition '=' line

/-- A line that the strict reader takes. -/
def Taken (line : List Char) : Prop :=
  line.head? = some '#' ∨
    ∃ key value, partition '=' line = some (key, value) ∧ isKey key = true ∧
      line.all printable = true

theorem addLine_ok {values values' : Values} {line : List Char} (hne : line ≠ [])
    (h : addLine values line = .ok values') : Taken line ∧
      values' = values ++ (entryOf line).toList ∧
      ((values.map Prod.fst).Nodup → (values'.map Prod.fst).Nodup) := by
  rw [addLine] at h
  by_cases hhash : line.head? = some '#'
  · rw [if_pos (Or.inr hhash)] at h
    obtain rfl := Except.ok.inj h
    exact ⟨Or.inl hhash, by simp [entryOf, hhash], id⟩
  rw [if_neg (not_or.mpr ⟨hne, hhash⟩)] at h
  cases hp : partition '=' line with
  | none =>
    rw [hp] at h
    cases h
  | some p =>
    obtain ⟨key, value⟩ := p
    simp only [hp] at h
    by_cases hprint : line.all printable = true
    · rw [if_neg (by simp [hprint])] at h
      by_cases hkey : (!isKey key || (values.map Prod.fst).contains key) = true
      · rw [if_pos hkey] at h
        cases h
      · rw [if_neg hkey] at h
        obtain rfl := Except.ok.inj h
        simp only [Bool.or_eq_true, Bool.not_eq_true', not_or, Bool.not_eq_false] at hkey
        refine ⟨Or.inr ⟨key, value, hp, hkey.1, hprint⟩, by simp [entryOf, hhash, hp], ?_⟩
        intro hnodup
        rw [List.map_append, List.nodup_append]
        refine ⟨hnodup, by simp, ?_⟩
        intro a ha b hb hab
        obtain rfl : b = key := by simpa using hb
        exact hkey.2 (by simpa [hab] using ha)
    · rw [if_pos (by simpa using hprint)] at h
      cases h

theorem foldlM_addLine {lines : List (List Char)} {values values' : Values}
    (h : lines.foldlM addLine values = .ok values') :
    (∀ line ∈ lines.filter (· ≠ []), Taken line) ∧
      values' = values ++ (lines.filter (· ≠ [])).filterMap entryOf ∧
      ((values.map Prod.fst).Nodup → (values'.map Prod.fst).Nodup) := by
  induction lines generalizing values with
  | nil =>
    obtain rfl := Except.ok.inj h
    simp
  | cons line lines ih =>
    rw [List.foldlM_cons] at h
    cases hline : addLine values line with
    | error e =>
      rw [hline] at h
      cases h
    | ok values₁ =>
      rw [hline] at h
      obtain ⟨hall, hvalues, hnodup⟩ := ih h
      by_cases hne : line = []
      · subst hne
        obtain rfl := Except.ok.inj hline
        simpa using ⟨by simpa using hall, by simpa using hvalues, hnodup⟩
      · obtain ⟨htaken, rfl, hnodup₁⟩ := addLine_ok hne hline
        refine ⟨?_, ?_, fun hn => hnodup (hnodup₁ hn)⟩
        · rw [List.filter_cons_of_pos (by simpa using hne), List.forall_mem_cons]
          exact ⟨htaken, hall⟩
        · rw [hvalues, List.filter_cons_of_pos (by simpa using hne), List.append_assoc]
          cases hentry : entryOf line with
          | none => simp [List.filterMap_cons_none hentry]
          | some e => simp [List.filterMap_cons_some hentry]

/-- A text that the strict reader takes, with its values: what its lines set, and no key
twice. -/
structure Read (text : List Char) (values : Values) : Prop where
  taken : ∀ piece ∈ runs isBreak text, Taken piece
  entries : values = (runs isBreak text).filterMap entryOf
  nodup : (values.map Prod.fst).Nodup

theorem envText_read {text : List Char} {values : Values} (h : envText text = .ok values) :
    Read text values := by
  obtain ⟨hall, hvalues, hnodup⟩ := foldlM_addLine h
  rw [splitlines_runs] at hall hvalues
  exact ⟨hall, by simpa using hvalues, hnodup (by simp)⟩

/-! ### The lines of the file -/

theorem strip_lead {lead text : List Char} (hlead : ∀ c ∈ lead, isSpace c = true)
    (htext : ∀ c ∈ text.head?, isSpace c = false) : strip (lead ++ text) = rstrip text := by
  rw [strip, lstrip, List.dropWhile_append_of_pos hlead, ← lstrip, lstrip_eq htext]

theorem isUpper_range {c : Char} (h : c.isUpper = true) : 65 ≤ c.toNat ∧ c.toNat ≤ 90 := by
  have hupper : c.val ≥ 'A'.val ∧ c.val ≤ 'Z'.val := of_decide_eq_true h
  exact hupper

theorem isKey_head {key : List Char} (h : isKey key = true) :
    ∃ c more, key = c :: more ∧ isSpace c = false ∧ c ≠ '#' ∧ '=' ∉ key := by
  obtain ⟨hne, hall⟩ : key ≠ [] ∧ ∀ c ∈ key, c.isUpper = true ∨ c = '_' := by
    simpa [isKey] using h
  obtain ⟨c, more, rfl⟩ := List.exists_cons_of_ne_nil hne
  have hchar : ∀ d ∈ c :: more, 65 ≤ d.toNat ∧ d.toNat ≤ 95 := by
    intro d hd
    obtain hupper | rfl := hall d hd
    · have := isUpper_range hupper
      omega
    · decide
  have hc := hchar c List.mem_cons_self
  refine ⟨c, more, rfl, ?_, ?_, ?_⟩
  · by_contra hspace
    rw [Bool.not_eq_false] at hspace
    simp only [isSpace, Bool.or_eq_true, Bool.and_eq_true, decide_eq_true_eq, beq_iff_eq] at hspace
    omega
  · rintro rfl
    exact absurd hc.1 (by decide)
  · intro heq
    exact absurd (hchar '=' heq).1 (by decide)

/-- A line of the file that sets a key sets what the first strict line in it sets, with all
that follows up to the white space at the end. -/
theorem assign_spec {line : List Char} {key v : List Char}
    (htaken : ∀ piece ∈ runs isBreak line, Taken piece) (h : assign line = some (key, v))
    (hkey : isKey key = true) : ∃ value rest more,
      (runs isBreak line).filterMap entryOf = (key, value) :: more ∧
      v = rstrip (value ++ rest) ∧ ∀ c ∈ rest.head?, isBreak c = true := by
  rw [assign] at h
  split_ifs at h with hassign
  obtain ⟨c, chars, rfl, hc, hhash, hsep⟩ := isKey_head hkey
  obtain ⟨hstrip, -⟩ := partition_some h
  cases hruns : runs isBreak line with
  | nil =>
    have hbreaks := runs_eq_nil hruns '=' hassign.1
    cases hbreaks
  | cons piece pieces =>
    obtain ⟨lead, rest, rfl, hlead, hrest⟩ := runs_head hruns
    have hspaces : ∀ d ∈ lead, isSpace d = true := fun d hd => isBreak_isSpace (hlead d hd)
    rw [hruns, List.forall_mem_cons] at htaken
    obtain hcomment | ⟨key', value, hpart, hkey', -⟩ := htaken.1
    · -- a comment behind breaks sets no key
      obtain ⟨tail, rfl⟩ := List.head?_eq_some_iff.mp hcomment
      rw [strip_lead hspaces (by simp; decide), List.cons_append] at hstrip
      have hhead := rstrip_append (c := '#') (by decide) [] (tail ++ rest)
      rw [List.nil_append] at hhead
      rw [hhead] at hstrip
      exact absurd (List.cons.inj hstrip).1.symm hhash
    · obtain ⟨c', chars', rfl, hc', hhash', hsep'⟩ := isKey_head hkey'
      obtain ⟨rfl, -⟩ := partition_some hpart
      have hsplit : c' :: chars' ++ '=' :: value ++ rest =
          (c' :: chars') ++ '=' :: (value ++ rest) := by simp
      rw [strip_lead hspaces (by simpa using hc'), hsplit,
        rstrip_append (by decide)] at hstrip
      have hpair := congrArg (partition '=') hstrip
      rw [partition_eq hsep', partition_eq hsep] at hpair
      obtain ⟨hkeys, rfl⟩ := Prod.mk.inj (Option.some.inj hpair)
      have hentry : entryOf (c' :: chars' ++ '=' :: value) = some (c :: chars, value) := by
        rw [entryOf, if_neg (by simpa using hhash'), hpart, hkeys]
      exact ⟨value, rest, _, List.filterMap_cons_some hentry, rfl, hrest⟩

/-! ### What a key gets -/

/-- The keys of the form among the pairs. -/
def goodKeys (env : Values) : List (List Char) :=
  (env.filter fun p => isKey p.1).map Prod.fst

theorem goodKeys_cons {key : List Char} (hkey : isKey key = true) (v : List Char) (env : Values) :
    goodKeys ((key, v) :: env) = key :: goodKeys env := by
  simp [goodKeys, hkey]

theorem goodKeys_skip {key : List Char} (hkey : ¬isKey key = true) (v : List Char)
    (env : Values) : goodKeys ((key, v) :: env) = goodKeys env := by
  simp [goodKeys, hkey]

theorem lookup_iff {env : Values} (hnodup : (goodKeys env).Nodup) {key : List Char}
    (hkey : isKey key = true) (v : List Char) : env.lookup key = some v ↔ (key, v) ∈ env := by
  induction env with
  | nil => simp
  | cons p env ih =>
    obtain ⟨k, w⟩ := p
    have htail : (goodKeys env).Nodup := by
      refine hnodup.sublist (List.Sublist.map _ ?_)
      exact (List.sublist_cons_self _ _).filter _
    by_cases hk : key = k
    · subst hk
      rw [List.lookup_cons_self, List.mem_cons, Option.some.injEq, Prod.mk.injEq]
      constructor
      · rintro rfl
        exact Or.inl ⟨rfl, rfl⟩
      · rintro (⟨-, rfl⟩ | hmem)
        · rfl
        · rw [goodKeys_cons hkey, List.nodup_cons] at hnodup
          refine absurd (List.mem_map.mpr ⟨(key, v), ?_, rfl⟩) hnodup.1
          exact List.mem_filter.mpr ⟨hmem, hkey⟩
    · have hbeq : (key == k) = false := by simpa using hk
      rw [List.lookup_cons, hbeq]
      simp only [ih htail, List.mem_cons, Prod.mk.injEq, hk, false_and, false_or]

theorem lookup_reverse_iff {env : Values} (hnodup : (goodKeys env).Nodup) {key : List Char}
    (hkey : isKey key = true) (v : List Char) :
    env.reverse.lookup key = some v ↔ (key, v) ∈ env := by
  have hreverse : (goodKeys env.reverse).Nodup := by
    rw [goodKeys, List.filter_reverse, List.map_reverse, List.nodup_reverse]
    exact hnodup
  rw [lookup_iff hreverse hkey, List.mem_reverse]

theorem assign_nil : assign [] = none := rfl

theorem filterMap_assign (lines : List (List Char)) :
    lines.filterMap assign = (lines.filter (· ≠ [])).filterMap assign := by
  induction lines with
  | nil => rfl
  | cons line lines ih =>
    by_cases hne : line = []
    · subst hne
      rw [List.filterMap_cons_none assign_nil, ih]
      rfl
    · rw [List.filter_cons_of_pos (by simpa using hne), List.filterMap_cons, List.filterMap_cons,
        ih]

theorem fileEnv_eq (text : List Char) : fileEnv text = (runs isNewline text).filterMap assign := by
  rw [fileEnv, filterMap_assign, fileLines_runs]

/-- The keys that the lines of a file set are among those of the strict lines, in order. -/
theorem goodKeys_sublist {lines : List (List Char)}
    (h : ∀ line ∈ lines, ∀ piece ∈ runs isBreak line, Taken piece) :
    (goodKeys (lines.filterMap assign)).Sublist
      (((lines.flatMap (runs isBreak)).filterMap entryOf).map Prod.fst) := by
  induction lines with
  | nil => exact List.nil_sublist _
  | cons line lines ih =>
    rw [List.forall_mem_cons] at h
    have htail := ih h.2
    rw [List.flatMap_cons, List.filterMap_append, List.map_append]
    have hskip := htail.trans (List.sublist_append_right
      (((runs isBreak line).filterMap entryOf).map Prod.fst) _)
    cases hassign : assign line with
    | none => rwa [List.filterMap_cons_none hassign]
    | some p =>
      obtain ⟨key, v⟩ := p
      rw [List.filterMap_cons_some hassign]
      by_cases hkey : isKey key = true
      · obtain ⟨value, rest, more, hentries, -, -⟩ := assign_spec h.1 hassign hkey
        rw [goodKeys_cons hkey, hentries, List.map_cons, List.cons_append]
        exact (htail.trans (List.sublist_append_right _ _)).cons_cons key
      · rwa [goodKeys_skip hkey]

theorem Read.line_taken {text : List Char} {values : Values} (h : Read text values) :
    ∀ line ∈ runs isNewline text, ∀ piece ∈ runs isBreak line, Taken piece := by
  intro line hline piece hpiece
  refine h.taken piece ?_
  rw [runs_refine (q := isNewline) (fun _ => isNewline_isBreak)]
  exact List.mem_flatMap.mpr ⟨line, hline, hpiece⟩

theorem Read.lookup {text : List Char} {values : Values} (h : Read text values)
    {key : List Char} (hkey : isKey key = true) (v : List Char) :
    values.lookup key = some v ↔ (key, v) ∈ values :=
  lookup_iff (h.nodup.sublist (List.filter_sublist.map _)) hkey v

theorem Read.lookup_file {text : List Char} {values : Values} (h : Read text values)
    {key : List Char} (hkey : isKey key = true) (v : List Char) :
    (fileEnv text).reverse.lookup key = some v ↔ (key, v) ∈ fileEnv text := by
  refine lookup_reverse_iff ?_ hkey v
  rw [fileEnv_eq]
  refine (h.nodup.sublist ?_)
  rw [h.entries, runs_refine (q := isNewline) (fun _ => isNewline_isBreak)]
  exact goodKeys_sublist h.line_taken

/-- What the lenient reader gets for a key begins with what the strict one gets. -/
theorem Read.file_value {text : List Char} {values : Values} (h : Read text values)
    {key v : List Char} (hkey : isKey key = true) (hv : (key, v) ∈ fileEnv text) :
    ∃ value rest, values.lookup key = some value ∧ v = rstrip (value ++ rest) ∧
      ∀ c ∈ rest.head?, isBreak c = true := by
  rw [fileEnv_eq, List.mem_filterMap] at hv
  obtain ⟨line, hline, hassign⟩ := hv
  obtain ⟨value, rest, more, hentries, hvalue, hrest⟩ :=
    assign_spec (h.line_taken line hline) hassign hkey
  refine ⟨value, rest, ?_, hvalue, hrest⟩
  rw [h.lookup hkey, h.entries, runs_refine (q := isNewline) (fun _ => isNewline_isBreak),
    List.mem_filterMap]
  have hmem : (key, value) ∈ (runs isBreak line).filterMap entryOf := by simp [hentries]
  obtain ⟨piece, hpiece, hentry⟩ := List.mem_filterMap.mp hmem
  exact ⟨piece, List.mem_flatMap.mpr ⟨line, hline, hpiece⟩, hentry⟩

/-- The key has this value on a line of its own, white space at its ends aside. -/
def OwnLine (text key value : List Char) : Prop :=
  key ++ '=' :: value ∈ (fileLines text).map strip

theorem ownLine_iff {text key : List Char} (hkey : isKey key = true) (value : List Char) :
    OwnLine text key value ↔ (key, value) ∈ fileEnv text := by
  obtain ⟨c, chars, rfl, hc, hhash, hsep⟩ := isKey_head hkey
  rw [OwnLine, fileEnv, List.mem_map, List.mem_filterMap]
  constructor
  · rintro ⟨line, hline, hstrip⟩
    refine ⟨line, hline, ?_⟩
    have hassign : '=' ∈ line ∧ line.head? ≠ some '#' := by
      refine ⟨strip_subset (by simp [hstrip]), ?_⟩
      intro hhead
      obtain ⟨tail, rfl⟩ := List.head?_eq_some_iff.mp hhead
      have hkeep : strip ([] ++ '#' :: tail) = rstrip ('#' :: tail) :=
        strip_lead (by simp) (by simp; decide)
      have hhead' := rstrip_append (c := '#') (by decide) [] tail
      rw [List.nil_append] at hkeep hhead'
      rw [hkeep, hhead'] at hstrip
      exact hhash (List.cons.inj hstrip).1.symm
    rw [assign, if_pos hassign, hstrip, partition_eq hsep]
  · rintro ⟨line, hline, hassign⟩
    rw [assign] at hassign
    split_ifs at hassign with hcond
    exact ⟨line, hline, (partition_some hassign).1⟩

theorem printable_not_break {c : Char} (h : printable c = true) : isBreak c = false := by
  by_contra hbreak
  rw [Bool.not_eq_false] at hbreak
  simp only [printable, isBreak, Bool.or_eq_true, Bool.and_eq_true, decide_eq_true_eq, beq_iff_eq]
    at h hbreak
  omega

theorem Read.value_printable {text : List Char} {values : Values} (h : Read text values)
    {key value : List Char} (hmem : (key, value) ∈ values) :
    ∀ c ∈ value, printable c = true := by
  rw [h.entries, List.mem_filterMap] at hmem
  obtain ⟨piece, hpiece, hentry⟩ := hmem
  rw [entryOf] at hentry
  split_ifs at hentry with hhash
  obtain hcomment | ⟨key', value', hpart, -, hall⟩ := h.taken piece hpiece
  · exact absurd hcomment hhash
  · intro c hc
    rw [hpart] at hentry
    obtain ⟨rfl, rfl⟩ := Prod.mk.inj (Option.some.inj hentry)
    rw [(partition_some hpart).1, List.all_eq_true] at hall
    exact hall c (by simp [hc])

/-- The lenient reader gets the strict value, or that value with a break behind it, or nothing. -/
theorem Read.lookup_cases {text : List Char} {values : Values} (h : Read text values)
    {key value : List Char} (hkey : isKey key = true) (hvalue : values.lookup key = some value)
    (hne : value ≠ []) (hlast : ∀ c ∈ value.getLast?, isSpace c = false) :
    (fileEnv text).reverse.lookup key = none ∨
    (fileEnv text).reverse.lookup key = some value ∨
    ∃ more, (fileEnv text).reverse.lookup key = some (value ++ more) ∧
      (∃ c ∈ more, isBreak c = true) ∧ ∀ c ∈ (value ++ more).getLast?, isSpace c = false := by
  cases hlookup : (fileEnv text).reverse.lookup key with
  | none => exact Or.inl rfl
  | some v =>
    obtain ⟨value', rest, hvalue', rfl, hrest⟩ :=
      h.file_value hkey ((h.lookup_file hkey v).mp hlookup)
    obtain rfl : value = value' := Option.some.inj (hvalue.symm.trans hvalue')
    obtain heq | ⟨more, heq, hbreak⟩ := rstrip_value hne hlast hrest
    · exact Or.inr (Or.inl (by rw [heq]))
    · refine Or.inr (Or.inr ⟨more, by rw [heq], hbreak, ?_⟩)
      rw [← heq]
      exact last_rstrip _

/-- The two readers agree on a value where it has a line of its own. -/
theorem Read.getText_iff {text : List Char} {values : Values} (h : Read text values)
    {key value : List Char} (hkey : isKey key = true) (hne : value ≠ []) :
    getText (fileEnv text) key = value ↔ OwnLine text key value := by
  rw [ownLine_iff hkey, ← h.lookup_file hkey, getText]
  constructor
  · intro heq
    cases hlookup : (fileEnv text).reverse.lookup key with
    | none =>
      rw [hlookup] at heq
      exact absurd heq.symm hne
    | some v =>
      rw [hlookup] at heq
      rw [← heq]
      rfl
  · intro hlookup
    rw [hlookup]
    rfl

end Epilykos.Adoption
