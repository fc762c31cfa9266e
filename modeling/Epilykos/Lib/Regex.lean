import Mathlib.Data.List.Basic
import Mathlib.Data.Nat.Notation

/-!
Regular expressions as a backtracking matcher reads them: the ways to match come in the order
the matcher tries them in, each with what its groups hold. A match stands where the text says,
its groups hold parts of the text, and a group that every way goes through holds one. Nothing
here depends on what the letters are.
-/

namespace Regex

/-- A place in a text, what stands before it from right to left, and what the groups hold, the
last first. -/
structure Spot (α : Type) where
  before : List α
  after : List α
  groups : List (ℕ × List α)

/-- What a group holds; `none` where it took no part. -/
def Spot.group {α : Type} (s : Spot α) (i : ℕ) : Option (List α) := s.groups.lookup i

inductive Pattern (α : Type)
  | nothing
  | letter (p : α → Bool)
  | seq (q r : Pattern α)
  /-- The second is tried last. -/
  | alt (q r : Pattern α)
  /-- As often as possible first, or as seldom as possible. -/
  | star (lazily : Bool) (r : Pattern α)
  | group (i : ℕ) (r : Pattern α)
  /-- What the group holds, once more. -/
  | again (i : ℕ)
  /-- A place, by what stands before and behind it. -/
  | here (p : List α → List α → Bool)

variable {α : Type}

/-- The place behind the next letters. -/
def Spot.skip (s : Spot α) (n : ℕ) : Spot α :=
  { s with before := (s.after.take n).reverse ++ s.before, after := s.after.drop n }

/-- One way after another, each further on; the number is how many letters are left. -/
def repeated (f : Spot α → List (Spot α)) (lazily : Bool) : ℕ → Spot α → List (Spot α)
  | 0, s => [s]
  | n + 1, s =>
    let more := ((f s).filter fun t => t.after.length < s.after.length).flatMap (repeated f lazily n)
    if lazily then s :: more else more ++ [s]

/-- The ways to match from a place, the first one tried first. -/
def Pattern.run [BEq α] : Pattern α → Spot α → List (Spot α)
  | nothing, s => [s]
  | letter p, s => if s.after.head?.any p then [s.skip 1] else []
  | seq q r, s => (q.run s).flatMap r.run
  | alt q r, s => q.run s ++ r.run s
  | star lazily r, s => repeated r.run lazily s.after.length s
  | group i r, s => (r.run s).map fun t =>
      { t with groups := (i, s.after.take (s.after.length - t.after.length)) :: t.groups }
  | again i, s => match s.group i with
    | some held => if held.isPrefixOf s.after then [s.skip held.length] else []
    | none => []
  | here p, s => if p s.before s.after then [s] else []

/-- The first match at the beginning. -/
def Pattern.match? [BEq α] (r : Pattern α) (text : List α) : Option (Spot α) :=
  (r.run ⟨[], text, []⟩).head?

def Pattern.searchFrom [BEq α] (r : Pattern α) (before : List α) : List α → Option (Spot α)
  | [] => (r.run ⟨before, [], []⟩).head?
  | c :: rest => ((r.run ⟨before, c :: rest, []⟩).head?).or (r.searchFrom (c :: before) rest)

/-- The first match where there is one. -/
def Pattern.search [BEq α] (r : Pattern α) (text : List α) : Option (Spot α) := r.searchFrom [] text

/-! ### Writing patterns -/

def Pattern.seqs : List (Pattern α) → Pattern α
  | [] => .nothing
  | [r] => r
  | r :: rest => .seq r (seqs rest)

def Pattern.many (r : Pattern α) : Pattern α := .star false r

def Pattern.some (r : Pattern α) : Pattern α := .seq r r.many

def Pattern.option (r : Pattern α) : Pattern α := .alt r .nothing

/-- The letters themselves. -/
def Pattern.lit [BEq α] (text : List α) : Pattern α := .seqs (text.map fun c => .letter (· == c))

/-! ### Where a match stands -/

/-- The text read on from one place to another, with parts of it in the new groups. -/
structure Leads (s t : Spot α) : Prop where
  moves : ∃ read, s.after = read ++ t.after ∧ t.before = read.reverse ++ s.before
  holds : ∃ new, t.groups = new ++ s.groups ∧
    ∀ g ∈ new, g.2 <:+: s.before.reverse ++ s.after

theorem Leads.refl (s : Spot α) : Leads s s := ⟨⟨[], rfl, rfl⟩, [], rfl, by simp⟩

theorem Leads.text {s t : Spot α} (h : Leads s t) :
    t.before.reverse ++ t.after = s.before.reverse ++ s.after := by
  obtain ⟨read, hafter, hbefore⟩ := h.moves
  rw [hbefore, hafter, List.reverse_append, List.reverse_reverse, List.append_assoc]

theorem Leads.trans {s t u : Spot α} (h : Leads s t) (h' : Leads t u) : Leads s u := by
  obtain ⟨read, hafter, hbefore⟩ := h.moves
  obtain ⟨read', hafter', hbefore'⟩ := h'.moves
  obtain ⟨new, hgroups, hnew⟩ := h.holds
  obtain ⟨new', hgroups', hnew'⟩ := h'.holds
  refine ⟨⟨read ++ read', ?_, ?_⟩, new' ++ new, ?_, fun g hg => ?_⟩
  · rw [hafter, hafter', List.append_assoc]
  · rw [hbefore', hbefore, List.reverse_append, List.append_assoc]
  · rw [hgroups', hgroups, List.append_assoc]
  · rcases List.mem_append.mp hg with hg | hg
    · rw [← h.text]
      exact hnew' g hg
    · exact hnew g hg

theorem Leads.group {s t : Spot α} (h : Leads s t) {i : ℕ} (hi : (s.group i).isSome) :
    (t.group i).isSome := by
  obtain ⟨new, hgroups, _⟩ := h.holds
  rw [Spot.group, hgroups, List.lookup_append, Option.isSome_or]
  exact Bool.or_eq_true_iff.mpr (.inr hi)

theorem leads_skip (s : Spot α) (n : ℕ) : Leads s (s.skip n) :=
  ⟨⟨s.after.take n, (List.take_append_drop n s.after).symm, rfl⟩, [], rfl, by simp⟩

/-- What every single way keeps, any number of them keep. -/
theorem repeated_keeps {R : Spot α → Spot α → Prop} (hrefl : ∀ s, R s s)
    (htrans : ∀ s t u, R s t → R t u → R s u) {f : Spot α → List (Spot α)} {lazily : Bool}
    (hf : ∀ s t, t ∈ f s → R s t) {n : ℕ} {s t : Spot α} (h : t ∈ repeated f lazily n s) :
    R s t := by
  induction n generalizing s with
  | zero =>
    obtain rfl := List.mem_singleton.mp h
    exact hrefl t
  | succ n ih =>
    have hmore : t ∈ ((f s).filter fun t => t.after.length < s.after.length).flatMap
        (repeated f lazily n) ∨ t = s := by
      rw [repeated] at h
      cases lazily with
      | true => exact (List.mem_cons.mp h).symm
      | false => exact (List.mem_append.mp h).imp_right List.mem_singleton.mp
    rcases hmore with hmore | rfl
    · obtain ⟨u, hu, ht⟩ := List.mem_flatMap.mp hmore
      exact htrans s u t (hf s u (List.mem_filter.mp hu).1) (ih ht)
    · exact hrefl t

variable [BEq α]

theorem run_leads {r : Pattern α} {s t : Spot α} (h : t ∈ r.run s) : Leads s t := by
  induction r generalizing s t with
  | nothing =>
    obtain rfl := List.mem_singleton.mp h
    exact .refl t
  | letter p =>
    rw [Pattern.run] at h
    split_ifs at h
    · obtain rfl := List.mem_singleton.mp h
      exact leads_skip s 1
    · cases h
  | seq q r ihq ihr =>
    obtain ⟨u, hu, ht⟩ := List.mem_flatMap.mp h
    exact (ihq hu).trans (ihr ht)
  | alt q r ihq ihr => exact (List.mem_append.mp h).elim ihq ihr
  | star lazily r ih =>
    have hway : ∀ u v, v ∈ r.run u → Leads u v := fun u v huv => ih huv
    exact repeated_keeps .refl (fun _ _ _ h h' => h.trans h') hway h
  | group i r ih =>
    obtain ⟨u, hu, rfl⟩ := List.mem_map.mp h
    obtain ⟨hmoves, new, hgroups, hnew⟩ := ih hu
    refine ⟨hmoves, _ :: new, congrArg _ hgroups, fun g hg => ?_⟩
    rcases List.mem_cons.mp hg with rfl | hg
    · have hread := List.take_prefix (s.after.length - u.after.length) s.after
      exact hread.isInfix.trans (List.suffix_append _ _).isInfix
    · exact hnew g hg
  | again i =>
    rw [Pattern.run] at h
    split at h
    · split_ifs at h
      · obtain rfl := List.mem_singleton.mp h
        exact leads_skip s _
      · cases h
    · cases h
  | here p =>
    rw [Pattern.run] at h
    split_ifs at h
    · obtain rfl := List.mem_singleton.mp h
      exact .refl t
    · cases h

/-! ### The groups that hold something -/

/-- Every way through the pattern goes through the group. -/
def Pattern.binds (i : ℕ) : Pattern α → Bool
  | group j r => j == i || r.binds i
  | seq q r => q.binds i || r.binds i
  | alt q r => q.binds i && r.binds i
  | _ => false

theorem run_binds {r : Pattern α} {i : ℕ} (hr : r.binds i = true) {s t : Spot α}
    (h : t ∈ r.run s) : (t.group i).isSome := by
  induction r generalizing s t with
  | group j r ih =>
    obtain ⟨u, hu, rfl⟩ := List.mem_map.mp h
    by_cases hij : i = j
    · simp [Spot.group, hij]
    · have hbinds : r.binds i = true := by
        have hji : (j == i) = false := by simp [Ne.symm hij]
        rwa [Pattern.binds, hji, Bool.false_or] at hr
      have hne : (i == j) = false := by simp [hij]
      rw [Spot.group, List.lookup_cons, hne]
      exact ih hbinds hu
  | seq q r ihq ihr =>
    obtain ⟨u, hu, ht⟩ := List.mem_flatMap.mp h
    rcases Bool.or_eq_true_iff.mp hr with hq | hr
    · exact (run_leads ht).group (ihq hq hu)
    · exact ihr hr ht
  | alt q r ihq ihr =>
    obtain ⟨hq, hr⟩ := Bool.and_eq_true_iff.mp hr
    exact (List.mem_append.mp h).elim (ihq hq) (ihr hr)
  | _ => cases hr

/-- A match that was found, with the text it was found in. -/
structure Found (r : Pattern α) (text : List α) (t : Spot α) : Prop where
  group : ∀ i, r.binds i = true → ∃ held, t.group i = some held
  within : ∀ i held, t.group i = some held → held <:+: text

theorem run_found {r : Pattern α} {before after : List α} {t : Spot α}
    (h : (r.run ⟨before, after, []⟩).head? = some t) : Found r (before.reverse ++ after) t := by
  have hmem := List.mem_of_head? h
  obtain ⟨new, hgroups, hnew⟩ := (run_leads hmem).holds
  refine ⟨fun i hi => Option.isSome_iff_exists.mp (run_binds hi hmem), fun i held hheld => ?_⟩
  rw [Spot.group, hgroups, List.append_nil] at hheld
  obtain ⟨l₁, l₂, heq, _⟩ := List.lookup_eq_some_iff.mp hheld
  exact hnew (i, held) (by rw [heq]; simp)

theorem match_found {r : Pattern α} {text : List α} {t : Spot α} (h : r.match? text = some t) :
    Found r text t := by
  have hfound := run_found h
  rwa [List.reverse_nil, List.nil_append] at hfound

theorem search_found {r : Pattern α} {text : List α} {t : Spot α} (h : r.search text = some t) :
    Found r text t := by
  have hgo : ∀ after before, r.searchFrom before after = some t →
      Found r (before.reverse ++ after) t := by
    intro after
    induction after with
    | nil => exact fun before h => run_found h
    | cons c after ih =>
      intro before h
      rw [Pattern.searchFrom] at h
      rcases Option.or_eq_some_iff.mp h with h | ⟨_, h⟩
      · exact run_found h
      · have hfound := ih (c :: before) h
        rwa [List.reverse_cons, List.append_assoc, List.singleton_append] at hfound
  exact hgo text [] h

end Regex
