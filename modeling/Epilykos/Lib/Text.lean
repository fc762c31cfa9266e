import Mathlib.Data.List.Basic

/-!
Text as lists of characters, with the operations on it that a scripting language has built
in: white space, stripping, words, lines and the first separator. Nothing here depends on
what the text is.
-/

namespace Text

/-- `str.isspace` of one character. -/
def isSpace (c : Char) : Bool :=
  let n := c.toNat
  (9 ≤ n && n ≤ 13) || (28 ≤ n && n ≤ 32) || n == 0x85 || n == 0xa0 || n == 0x1680 ||
    (0x2000 ≤ n && n ≤ 0x200a) || n == 0x2028 || n == 0x2029 || n == 0x202f || n == 0x205f ||
    n == 0x3000

/-- What `str.splitlines` ends a line at. -/
def isBreak (c : Char) : Bool :=
  let n := c.toNat
  (10 ≤ n && n ≤ 13) || (28 ≤ n && n ≤ 30) || n == 0x85 || n == 0x2028 || n == 0x2029

def lstrip (text : List Char) : List Char := text.dropWhile isSpace

def rstrip (text : List Char) : List Char := (text.reverse.dropWhile isSpace).reverse

def strip (text : List Char) : List Char := rstrip (lstrip text)

/-- `str.split()`, with the word read so far. -/
def wordsFrom (word : List Char) : List Char → List (List Char)
  | [] => if word = [] then [] else [word]
  | c :: rest =>
    if isSpace c then (if word = [] then [] else [word]) ++ wordsFrom [] rest
    else wordsFrom (word ++ [c]) rest

def words (text : List Char) : List (List Char) := wordsFrom [] text

/-- `str.splitlines()`, with the line read so far. A carriage return and a newline after it
are one break. -/
def splitlinesFrom (line : List Char) : List Char → List (List Char)
  | [] => if line = [] then [] else [line]
  | '\r' :: '\n' :: rest => line :: splitlinesFrom [] rest
  | c :: rest =>
    if isBreak c then line :: splitlinesFrom [] rest else splitlinesFrom (line ++ [c]) rest

def splitlines (text : List Char) : List (List Char) := splitlinesFrom [] text

/-- What stands before and after the first separator; `none` where there is none. -/
def partition (sep : Char) : List Char → Option (List Char × List Char)
  | [] => none
  | c :: rest =>
    if c = sep then some ([], rest) else (partition sep rest).map fun p => (c :: p.1, p.2)

/-- `str.split(None, count)`: the remainder keeps its trailing white space. -/
def splitMax : ℕ → List Char → List (List Char)
  | 0, text => if lstrip text = [] then [] else [lstrip text]
  | count + 1, text =>
    if lstrip text = [] then []
    else (lstrip text).takeWhile (!isSpace ·) ::
      splitMax count ((lstrip text).dropWhile (!isSpace ·))

/-- The newlines of a file opened as text. -/
def universal : List Char → List Char
  | [] => []
  | '\r' :: '\n' :: rest => '\n' :: universal rest
  | c :: rest => (if c = '\r' then '\n' else c) :: universal rest

/-- The lines of a text file without their newlines, with the line read so far. -/
def linesFrom (line : List Char) : List Char → List (List Char)
  | [] => if line = [] then [] else [line]
  | c :: rest => if c = '\n' then line :: linesFrom [] rest else linesFrom (line ++ [c]) rest

def fileLines (text : List Char) : List (List Char) := linesFrom [] (universal text)

example : splitlines "a=1\r\nb\n\nc".toList = ["a=1".toList, "b".toList, [], "c".toList] := by
  decide +kernel

/-! ### Stripped text -/

/-- Neither begins nor ends in white space. -/
structure Stripped (text : List Char) : Prop where
  head : ∀ c ∈ text.head?, isSpace c = false
  last : ∀ c ∈ text.getLast?, isSpace c = false

theorem lstrip_eq {text : List Char} (h : ∀ c ∈ text.head?, isSpace c = false) :
    lstrip text = text := by
  cases text with
  | nil => rfl
  | cons c rest => simp [lstrip, h c rfl]

theorem rstrip_eq {text : List Char} (h : ∀ c ∈ text.getLast?, isSpace c = false) :
    rstrip text = text := by
  have hhead : ∀ c ∈ text.reverse.head?, isSpace c = false := by
    rw [List.head?_reverse]
    exact h
  have heq : lstrip text.reverse = text.reverse := lstrip_eq hhead
  rw [rstrip, ← lstrip, heq, List.reverse_reverse]

theorem Stripped.strip_eq {text : List Char} (h : Stripped text) : strip text = text := by
  rw [strip, lstrip_eq h.head, rstrip_eq h.last]

theorem last_append {text rest : List Char} (h : rest ≠ []) :
    (text ++ rest).getLast? = rest.getLast? := by
  rw [List.getLast?_append, List.getLast?_eq_some_getLast h, Option.some_or]

theorem head_lstrip (text : List Char) : ∀ c ∈ (lstrip text).head?, isSpace c = false := by
  intro c hc
  have h := List.head?_dropWhile_not isSpace text
  rw [lstrip] at hc
  rw [Option.mem_def.mp hc] at h
  simpa using h

theorem last_rstrip (text : List Char) : ∀ c ∈ (rstrip text).getLast?, isSpace c = false := by
  intro c hc
  rw [rstrip, List.getLast?_reverse] at hc
  exact head_lstrip text.reverse c hc

theorem rstrip_isPrefix (text : List Char) : rstrip text <+: text := by
  have h := (List.dropWhile_suffix (l := text.reverse) isSpace).reverse
  rwa [List.reverse_reverse] at h

theorem stripped_strip (text : List Char) : Stripped (strip text) := by
  refine ⟨fun c hc => ?_, last_rstrip _⟩
  refine head_lstrip text c ?_
  obtain ⟨rest, hrest⟩ := rstrip_isPrefix (lstrip text)
  rw [← hrest]
  rw [strip] at hc
  cases hr : rstrip (lstrip text) with
  | nil =>
    rw [hr] at hc
    cases hc
  | cons d ds =>
    rw [hr] at hc
    exact hc

theorem strip_subset {text : List Char} {c : Char} (h : c ∈ strip text) : c ∈ text :=
  (List.dropWhile_suffix isSpace).subset ((rstrip_isPrefix _).subset h)

/-! ### Words -/

theorem splitMax_space (count : ℕ) (text : List Char) :
    splitMax count (' ' :: text) = splitMax count text := by
  have hspace : isSpace ' ' = true := by decide +kernel
  have hstrip : lstrip (' ' :: text) = lstrip text := List.dropWhile_cons_of_pos hspace
  cases count with
  | zero => rw [splitMax, splitMax, hstrip]
  | succ count => rw [splitMax, splitMax, hstrip]

theorem splitMax_nil (count : ℕ) : splitMax count [] = [] := by
  cases count <;> rfl

/-- A word and what follows it. -/
theorem splitMax_word (count : ℕ) {word rest : List Char} (hne : word ≠ [])
    (hword : ∀ c ∈ word, isSpace c = false) (hrest : ∀ c ∈ rest.head?, isSpace c = true) :
    splitMax (count + 1) (word ++ rest) = word :: splitMax count rest := by
  have hstrip : lstrip (word ++ rest) = word ++ rest := by
    refine lstrip_eq fun c hc => ?_
    cases word with
    | nil => exact absurd rfl hne
    | cons d ds =>
      obtain rfl : d = c := by simpa using hc
      exact hword d (.head _)
  have hall : ∀ c ∈ word, (!isSpace c) = true := by simpa using hword
  have htake : rest.takeWhile (!isSpace ·) = [] := by
    cases rest with
    | nil => rfl
    | cons c rest => simp [hrest c rfl]
  have hdrop : rest.dropWhile (!isSpace ·) = rest := by
    cases rest with
    | nil => rfl
    | cons c rest => simp [hrest c rfl]
  rw [splitMax, hstrip, if_neg (by simp [hne]), List.takeWhile_append_of_pos hall, htake,
    List.append_nil, List.dropWhile_append_of_pos hall, hdrop]

/-! ### Lines of a file -/

theorem universal_no_return (text : List Char) : '\r' ∉ universal text := by
  induction text using universal.induct with
  | case1 => simp [universal]
  | case2 rest ih => simp [universal, ih]
  | case3 c rest hne ih =>
    rw [universal]
    · by_cases hc : c = '\r' <;> simp [hc, ih, eq_comm]
    · exact hne

theorem mem_linesFrom {line text : List Char} {l : List Char} (h : l ∈ linesFrom line text)
    (hline : '\n' ∉ line) : '\n' ∉ l ∧ ∀ c ∈ l, c ∈ line ∨ c ∈ text := by
  induction text generalizing line with
  | nil =>
    by_cases hempty : line = []
    · simp [linesFrom, hempty] at h
    · obtain rfl : l = line := by simpa [linesFrom, hempty] using h
      exact ⟨hline, fun c hc => .inl hc⟩
  | cons c text ih =>
    rw [linesFrom] at h
    split_ifs at h with hc
    · rcases List.mem_cons.mp h with rfl | h
      · exact ⟨hline, fun c hc => .inl hc⟩
      · obtain ⟨hno, hmem⟩ := ih h (by simp)
        refine ⟨hno, fun d hd => .inr (List.mem_cons_of_mem _ ?_)⟩
        simpa using hmem d hd
    · obtain ⟨hno, hmem⟩ := ih h (by simp [hline, Ne.symm hc])
      refine ⟨hno, fun d hd => ?_⟩
      rcases hmem d hd with hd | hd
      · rcases List.mem_append.mp hd with hd | hd
        · exact .inl hd
        · obtain rfl : d = c := by simpa using hd
          exact .inr (.head _)
      · exact .inr (.tail _ hd)

theorem mem_fileLines {text line : List Char} (h : line ∈ fileLines text) :
    '\n' ∉ line ∧ '\r' ∉ line := by
  obtain ⟨hno, hmem⟩ := mem_linesFrom h (by simp)
  refine ⟨hno, fun hr => ?_⟩
  have hmem := hmem _ hr
  simp [universal_no_return] at hmem

theorem universal_eq {text : List Char} (h : '\r' ∉ text) : universal text = text := by
  induction text with
  | nil => rfl
  | cons c text ih =>
    have hc : c ≠ '\r' := fun heq => h (heq ▸ .head _)
    rw [universal]
    · simp [hc, ih fun hmem => h (.tail _ hmem)]
    · intro rest hcons
      exact fun _ => hc hcons

theorem linesFrom_append {line text : List Char} (htext : '\n' ∉ text) (rest : List Char) :
    linesFrom line (text ++ '\n' :: rest) = (line ++ text) :: linesFrom [] rest := by
  induction text generalizing line with
  | nil => simp [linesFrom]
  | cons c text ih =>
    have hc : c ≠ '\n' := fun heq => htext (heq ▸ .head _)
    rw [List.cons_append, linesFrom, if_neg hc, ih fun hmem => htext (.tail _ hmem)]
    simp

theorem linesFrom_join {lines : List (List Char)} (h : ∀ l ∈ lines, '\n' ∉ l) :
    linesFrom [] (lines.flatMap (· ++ ['\n'])) = lines := by
  induction lines with
  | nil => rfl
  | cons l lines ih =>
    rw [List.flatMap_cons, List.append_assoc, List.singleton_append,
      linesFrom_append (h l (.head _)), List.nil_append, ih fun l hl => h l (.tail _ hl)]

/-- Lines written with a newline each are read back. -/
theorem fileLines_join {lines : List (List Char)} (h : ∀ l ∈ lines, '\n' ∉ l ∧ '\r' ∉ l) :
    fileLines (lines.flatMap (· ++ ['\n'])) = lines := by
  have hreturn : '\r' ∉ lines.flatMap (· ++ ['\n']) := by
    intro hmem
    obtain ⟨l, hl, hmem⟩ := List.mem_flatMap.mp hmem
    rcases List.mem_append.mp hmem with hmem | hmem
    · exact (h l hl).2 hmem
    · simp at hmem
  rw [fileLines, universal_eq hreturn, linesFrom_join fun l hl => (h l hl).1]

end Text
