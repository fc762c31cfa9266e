import Epilykos.Lib.Text

/-!
The lines of a text that are not empty, whatever ends a line: one splitting refines another
when it ends lines at more characters. `str.splitlines` and the lines of a file are two such
splittings.
-/

namespace Text

/-- The stretches between the characters of one kind, without the empty ones. -/
def runs (p : Char → Bool) (text : List Char) : List (List Char) :=
  (text.splitOnP p).filter (· ≠ [])

theorem runs_nil (p : Char → Bool) : runs p [] = [] := by
  simp [runs]

theorem runs_append (p : Char → Bool) {c : Char} (hc : p c = true) (u v : List Char) :
    runs p (u ++ c :: v) = runs p u ++ runs p v := by
  rw [runs, List.splitOnP_append_cons u v hc, List.filter_append]
  rfl

theorem runs_single {p : Char → Bool} {text : List Char} (h : ∀ c ∈ text, p c = false)
    (hne : text ≠ []) : runs p text = [text] := by
  rw [runs, List.splitOnP_eq_singleton h]
  simp [hne]

/-- A text is a stretch, or a stretch, a separator and a text. -/
theorem runs_cases (p : Char → Bool) {motive : List Char → Prop}
    (single : ∀ u, (∀ c ∈ u, p c = false) → motive u)
    (cons : ∀ u c v, (∀ d ∈ u, p d = false) → p c = true → motive v → motive (u ++ c :: v))
    (text : List Char) : motive text := by
  have hgo : ∀ v u, (∀ d ∈ u, p d = false) → motive (u ++ v) := by
    intro v
    induction v with
    | nil =>
      intro u hu
      rw [List.append_nil]
      exact single u hu
    | cons c v ih =>
      intro u hu
      cases hc : p c with
      | true => exact cons u c v hu hc (ih [] (by simp))
      | false =>
        rw [List.append_cons]
        refine ih (u ++ [c]) ?_
        intro d hd
        obtain hd | hd := List.mem_append.mp hd
        · exact hu d hd
        · rw [List.mem_singleton.mp hd, hc]
  exact hgo text [] (by simp)

theorem mem_runs {p : Char → Bool} {text line : List Char} (h : line ∈ runs p text) :
    line ≠ [] ∧ (∀ c ∈ line, p c = false) ∧ line ⊆ text := by
  induction text using runs_cases p with
  | single u hu =>
    by_cases hne : u = []
    · subst hne
      simp [runs_nil] at h
    · rw [runs_single hu hne, List.mem_singleton] at h
      subst h
      exact ⟨hne, hu, fun _ hc => hc⟩
  | cons u c v hu hc ih =>
    rw [runs_append p hc, List.mem_append] at h
    obtain h | h := h
    · by_cases hne : u = []
      · subst hne
        simp [runs_nil] at h
      · rw [runs_single hu hne, List.mem_singleton] at h
        subst h
        exact ⟨hne, hu, fun _ hd => List.mem_append_left _ hd⟩
    · obtain ⟨hne, hbreaks, hsub⟩ := ih h
      exact ⟨hne, hbreaks, fun _ hd => List.mem_append_right _ (List.mem_cons_of_mem _ (hsub hd))⟩

/-- A text without a stretch is separators. -/
theorem runs_eq_nil {p : Char → Bool} {text : List Char} (h : runs p text = []) :
    ∀ c ∈ text, p c = true := by
  induction text using runs_cases p with
  | single u hu =>
    by_cases hne : u = []
    · simp [hne]
    · rw [runs_single hu hne] at h
      cases h
  | cons u c v hu hc ih =>
    rw [runs_append p hc, List.append_eq_nil_iff] at h
    have hnil : u = [] := by
      by_contra hne
      rw [runs_single hu hne] at h
      cases h.1
    rw [hnil, List.nil_append, List.forall_mem_cons]
    exact ⟨hc, ih h.2⟩

/-- The first stretch stands behind separators and before one, or at the end. -/
theorem runs_head {p : Char → Bool} {text first : List Char} {more : List (List Char)}
    (h : runs p text = first :: more) : ∃ lead rest, text = lead ++ (first ++ rest) ∧
      (∀ c ∈ lead, p c = true) ∧ ∀ c ∈ rest.head?, p c = true := by
  induction text using runs_cases p with
  | single u hu =>
    by_cases hne : u = []
    · rw [hne, runs_nil] at h
      cases h
    · rw [runs_single hu hne] at h
      obtain ⟨rfl, -⟩ := List.cons.inj h
      exact ⟨[], [], by simp, by simp, by simp⟩
  | cons u c v hu hc ih =>
    rw [runs_append p hc] at h
    by_cases hne : u = []
    · subst hne
      obtain ⟨lead, rest, rfl, hlead, hrest⟩ := ih h
      refine ⟨c :: lead, rest, rfl, ?_, hrest⟩
      rw [List.forall_mem_cons]
      exact ⟨hc, hlead⟩
    · rw [runs_single hu hne] at h
      obtain ⟨rfl, -⟩ := List.cons.inj h
      refine ⟨[], c :: v, by simp, by simp, ?_⟩
      intro d hd
      obtain rfl : c = d := by simpa using hd
      exact hc

/-- The finer lines are the finer lines of the coarser ones. -/
theorem runs_refine {p q : Char → Bool} (hqp : ∀ c, q c = true → p c = true)
    (text : List Char) : runs p text = (runs q text).flatMap (runs p) := by
  have hstretch : ∀ u, (∀ c ∈ u, q c = false) → runs p u = (runs q u).flatMap (runs p) := by
    intro u hu
    by_cases hne : u = []
    · subst hne
      rfl
    · rw [runs_single hu hne, List.flatMap_singleton]
  induction text using runs_cases q with
  | single u hu => exact hstretch u hu
  | cons u c v hu hc ih =>
    rw [runs_append q hc, runs_append p (hqp c hc), List.flatMap_append, ih, hstretch u hu]

theorem filter_single {p : Char → Bool} {line : List Char} (h : ∀ c ∈ line, p c = false) :
    ([line] : List (List Char)).filter (· ≠ []) = runs p line := by
  by_cases hne : line = []
  · subst hne
    rfl
  · rw [runs_single h hne]
    simp [hne]

theorem filter_cons {p : Char → Bool} {line : List Char} (h : ∀ c ∈ line, p c = false)
    (lines : List (List Char)) :
    (line :: lines).filter (· ≠ []) = runs p line ++ lines.filter (· ≠ []) := by
  rw [← List.singleton_append, List.filter_append, filter_single h]

/-- `str.splitlines` without its empty lines. -/
theorem splitlinesFrom_runs (text : List Char) {line : List Char}
    (hline : ∀ c ∈ line, isBreak c = false) :
    (splitlinesFrom line text).filter (· ≠ []) = runs isBreak (line ++ text) := by
  fun_induction splitlinesFrom line text with
  | case1 => rfl
  | case2 line h => rw [filter_single hline, List.append_nil]
  | case3 line rest ih =>
    have hrest := runs_append isBreak (c := '\n') (by decide) [] rest
    rw [runs_append isBreak (c := '\r') (by decide), ← List.nil_append ('\n' :: rest), hrest,
      runs_nil, List.nil_append, filter_cons hline, ih (by simp)]
    rfl
  | case4 line c rest hnot hbreak ih =>
    rw [runs_append isBreak hbreak, filter_cons hline, ih (by simp)]
    rfl
  | case5 line c rest hnot hbreak ih =>
    rw [ih, List.append_assoc, List.singleton_append]
    intro d hd
    obtain hd | hd := List.mem_append.mp hd
    · exact hline d hd
    · simpa [List.mem_singleton.mp hd] using hbreak

theorem splitlines_runs (text : List Char) :
    (splitlines text).filter (· ≠ []) = runs isBreak text :=
  splitlinesFrom_runs text (by simp)

/-- What ends a line of a file opened as text. -/
def isNewline (c : Char) : Bool := c == '\n' || c == '\r'

theorem isNewline_isBreak {c : Char} (h : isNewline c = true) : isBreak c = true := by
  obtain rfl | rfl : c = '\n' ∨ c = '\r' := by simpa [isNewline] using h
  · rfl
  · rfl

theorem linesFrom_runs (text : List Char) {line : List Char}
    (hline : ∀ c ∈ line, (c == '\n') = false) :
    (linesFrom line text).filter (· ≠ []) = runs (· == '\n') (line ++ text) := by
  fun_induction linesFrom line text with
  | case1 => rfl
  | case2 line h => rw [filter_single hline, List.append_nil]
  | case3 line rest ih =>
    rw [runs_append _ (by simp), filter_cons hline, ih (by simp)]
    rfl
  | case4 line c rest hc ih =>
    rw [ih, List.append_assoc, List.singleton_append]
    intro d hd
    obtain hd | hd := List.mem_append.mp hd
    · exact hline d hd
    · simpa [List.mem_singleton.mp hd] using hc

theorem runs_stretch {p q : Char → Bool} {u : List Char} (hp : ∀ c ∈ u, p c = false)
    (hq : ∀ c ∈ u, q c = false) : runs p u = runs q u := by
  rw [← filter_single hp, filter_single hq]

/-- Universal newlines change what ends a line and no line. -/
theorem universal_runs (text : List Char) {u : List Char} (hu : ∀ c ∈ u, isNewline c = false) :
    runs (· == '\n') (u ++ universal text) = runs isNewline (u ++ text) := by
  have hline : ∀ {u : List Char}, (∀ c ∈ u, isNewline c = false) →
      runs (· == '\n') u = runs isNewline u := by
    intro u hu
    refine runs_stretch ?_ hu
    intro c hc
    have := hu c hc
    simp only [isNewline, Bool.or_eq_false_iff] at this
    exact this.1
  fun_induction universal text generalizing u with
  | case1 => simpa using hline hu
  | case2 rest ih =>
    have hrest := runs_append isNewline (c := '\n') (by decide) [] rest
    have htail := ih (u := []) (by simp)
    rw [runs_append _ (by simp), runs_append isNewline (by decide), ← List.nil_append ('\n' :: rest),
      hrest, runs_nil, List.nil_append, hline hu]
    simpa using htail
  | case3 c rest hnot ih =>
    by_cases hc : isNewline c = true
    · have hone : (if c = '\r' then '\n' else c) = '\n' := by
        obtain rfl | rfl : c = '\n' ∨ c = '\r' := by simpa [isNewline] using hc
        · rfl
        · rfl
      have htail := ih (u := []) (by simp)
      rw [hone, runs_append _ (by simp), runs_append isNewline hc, hline hu]
      simpa using htail
    · have hsame : (if c = '\r' then '\n' else c) = c := by
        refine if_neg ?_
        intro hcr
        exact hc (by simp [isNewline, hcr])
      rw [hsame, List.append_cons, List.append_cons u c rest]
      refine ih ?_
      intro d hd
      obtain hd | hd := List.mem_append.mp hd
      · exact hu d hd
      · simpa [List.mem_singleton.mp hd] using hc

/-- The lines of a file without the empty ones. -/
theorem fileLines_runs (text : List Char) :
    (fileLines text).filter (· ≠ []) = runs isNewline text := by
  have huniversal := universal_runs text (u := []) (by simp)
  rw [fileLines, linesFrom_runs _ (by simp)]
  simpa using huniversal

end Text
