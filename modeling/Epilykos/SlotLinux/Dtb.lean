import Epilykos.Lib.Binary
import Epilykos.PlatformEnv.Record
import Mathlib.Data.List.Basic

/-!
The check of the device tree of an OS slot. It walks the structure block by offsets that the
file gives, with a depth and no stack. What it lets pass is a tree: one root, markers that
match, and every property inside a node and inside the file.
-/

namespace Epilykos.SlotLinux

open Binary
open PlatformEnv (Bytes ascii)

/-- What a check can end in: a refusal, a read past the end of the file or of a list, or no end
at all. -/
inductive Exn
  | value (msg : String)
  | struct
  | index
  | diverged
  deriving DecidableEq

/-! ### The check -/

/-- A big-endian word at an offset. -/
def word (raw : Bytes) (offset : ℕ) : Except Exn ℕ :=
  match unpackFrom raw offset 4 with
  | some bytes => .ok (bigEndian bytes)
  | none => .error .struct

/-- The next multiple of four. -/
def align (offset : ℕ) : ℕ := (offset + 3) / 4 * 4

/-- What the walk remembers of the tokens behind it. -/
structure Scan where
  depth : ℕ
  roots : ℕ
  compatible : Option (List Bytes)

def compatibleName : Bytes := ascii "compatible"

/-- Token 1, the offset already behind it. -/
def beginNode (raw : Bytes) (stop offset : ℕ) (s : Scan) : Except Exn (ℕ × Scan) :=
  let roots := if s.depth = 0 then s.roots + 1 else s.roots
  if s.depth = 0 ∧ roots ≠ 1 then .error (.value "multiple DTB roots")
  else
    match findNul raw offset stop with
    | none => .error (.value "invalid DTB node")
    | some nul =>
      if s.depth = 0 ∧ slice raw offset nul ≠ [] then .error (.value "invalid DTB node")
      else .ok (align (nul + 1), { s with depth := s.depth + 1, roots := roots })

/-- Token 2. -/
def endNode (s : Scan) : Except Exn Scan :=
  if s.depth = 0 then .error (.value "invalid DTB nesting")
  else .ok { s with depth := s.depth - 1 }

/-- Token 3, the offset already behind it. -/
def property (raw names : Bytes) (stop offset : ℕ) (s : Scan) : Except Exn (ℕ × Scan) :=
  if s.depth < 1 ∨ stop < offset + 8 then .error (.value "invalid DTB property")
  else do
    let size ← word raw offset
    let name ← word raw (offset + 4)
    let offset := offset + 8
    match findNul names name names.length with
    | none => .error (.value "invalid DTB property bounds")
    | some nul =>
      if names.length ≤ name ∨ stop < offset + size then
        .error (.value "invalid DTB property bounds")
      else if s.depth = 1 ∧ slice names name nul = compatibleName then
        if s.compatible.isSome then .error (.value "duplicate DTB compatible")
        else .ok (align (offset + size),
          { s with compatible := some ((slice raw offset (offset + size)).splitOn 0) })
      else .ok (align (offset + size), s)

/-- The walk over the structure block, and whether it came to the END marker at the end. A turn
takes four bytes at least. -/
def walk (raw names : Bytes) (stop : ℕ) : ℕ → ℕ → Scan → Except Exn (Scan × Bool)
  | 0, _, _ => .error .diverged
  | fuel + 1, offset, s =>
    if offset + 4 ≤ stop then do
      let token ← word raw offset
      let offset := offset + 4
      if token = 1 then do
        let (offset, s) ← beginNode raw stop offset s
        walk raw names stop fuel offset s
      else if token = 2 then do
        let s ← endNode s
        walk raw names stop fuel offset s
      else if token = 3 then do
        let (offset, s) ← property raw names stop offset s
        walk raw names stop fuel offset s
      else if token = 4 then walk raw names stop fuel offset s
      else if token = 9 then .ok (s, s.depth = 0 ∧ offset = stop)
      else .error (.value "invalid DTB token")
    else .ok (s, false)

structure Header where
  magic : ℕ
  total : ℕ
  offset : ℕ
  strings : ℕ
  reserve : ℕ
  version : ℕ
  last : ℕ
  stringsSize : ℕ
  structureSize : ℕ

/-- `struct.unpack('>10I', raw[:40])`; the eighth word is not read. -/
def header (raw : Bytes) : Except Exn Header := do
  let magic ← word raw 0
  let total ← word raw 4
  let offset ← word raw 8
  let strings ← word raw 12
  let reserve ← word raw 16
  let version ← word raw 20
  let last ← word raw 24
  let stringsSize ← word raw 32
  let structureSize ← word raw 36
  return { magic, total, offset, strings, reserve, version, last, stringsSize, structureSize }

/-- What the header has to say of a file of this size. -/
def Header.Fits (h : Header) (size : ℕ) : Prop :=
  h.magic = 0xd00dfeed ∧ h.total = size ∧ h.version = 17 ∧ h.last ≤ 17 ∧
    40 ≤ h.offset ∧ h.offset % 4 = 0 ∧ 40 ≤ h.reserve ∧ h.reserve + 16 ≤ h.total ∧
    40 ≤ h.strings ∧ h.strings + h.stringsSize ≤ h.total ∧
    h.offset + h.structureSize ≤ h.total

instance (h : Header) (size : ℕ) : Decidable (h.Fits size) := by
  unfold Header.Fits
  infer_instance

def model : Bytes := ascii "raspberrypi,3-model-b"

def chip : Bytes := ascii "brcm,bcm2837"

def checkDtb (raw : Bytes) : Except Exn Unit :=
  if raw.length < 56 then .error (.value "truncated DTB")
  else do
    let h ← header raw
    if h.Fits raw.length then do
      let stop := h.offset + h.structureSize
      let names := slice raw h.strings (h.strings + h.stringsSize)
      let (s, terminated) ← walk raw names stop raw.length h.offset ⟨0, 0, none⟩
      match terminated, s.compatible with
      | true, some compatible =>
        if compatible.contains model && compatible.contains chip then .ok ()
        else .error (.value "DTB is not a complete Pi3 Model B tree")
      | _, _ => .error (.value "DTB is not a complete Pi3 Model B tree")
    else .error (.value "invalid DTB header")

/-! ### What a structure block says -/

inductive Token
  | beginNode (name : Bytes)
  | endNode
  | prop (name value : Bytes)
  | nop
  | finish

/-- A word of the block. -/
def WordAt (raw : Bytes) (stop offset n : ℕ) : Prop :=
  offset + 4 ≤ stop ∧ word raw offset = .ok n

/-- The token at an offset of the block, and where the next one starts. -/
def At (raw names : Bytes) (stop offset : ℕ) : Token → ℕ → Prop
  | .beginNode name, next => WordAt raw stop offset 1 ∧ TextAt raw (offset + 4) stop name ∧
      next = align (offset + 4 + name.length + 1)
  | .endNode, next => WordAt raw stop offset 2 ∧ next = offset + 4
  | .prop name value, next => WordAt raw stop offset 3 ∧
      WordAt raw stop (offset + 4) value.length ∧
      (∃ n, WordAt raw stop (offset + 8) n ∧ TextAt names n names.length name) ∧
      offset + 12 + value.length ≤ stop ∧
      slice raw (offset + 12) (offset + 12 + value.length) = value ∧
      next = align (offset + 12 + value.length)
  | .nop, next => WordAt raw stop offset 4 ∧ next = offset + 4
  | .finish, next => WordAt raw stop offset 9 ∧ next = offset + 4

/-- The block read as tokens, one after the other. -/
inductive Tokens (raw names : Bytes) (stop : ℕ) : ℕ → List Token → ℕ → Prop
  | nil (offset : ℕ) : Tokens raw names stop offset [] offset
  | cons {offset next last : ℕ} {t : Token} {ts : List Token} :
      At raw names stop offset t next → Tokens raw names stop next ts last →
        Tokens raw names stop offset (t :: ts) last

/-- What a node may hold, with its own properties: the nodes inside it are whole. -/
inductive Items : List Token → List (Bytes × Bytes) → Prop
  | nil : Items [] []
  | nop {ts : List Token} {ps : List (Bytes × Bytes)} : Items ts ps → Items (.nop :: ts) ps
  | prop {ts : List Token} {ps : List (Bytes × Bytes)} (name value : Bytes) :
      Items ts ps → Items (.prop name value :: ts) ((name, value) :: ps)
  | node {inner ts : List Token} {own ps : List (Bytes × Bytes)} (name : Bytes) :
      Items inner own → Items ts ps →
        Items (.beginNode name :: inner ++ .endNode :: ts) ps

/-- The values of the properties of one name. -/
def valuesOf (name : Bytes) (props : List (Bytes × Bytes)) : List Bytes :=
  (props.filter fun p => p.1 = name).map Prod.snd

/-- A whole tree of the board, in a file that holds it: the block is read to its last byte as
one root without a name, with nothing but NOP beside it and the END marker last, and the root
has one `compatible`, with the model and the chip in it. -/
def BoardTree (raw : Bytes) : Prop :=
  ∃ h : Header, header raw = .ok h ∧ h.Fits raw.length ∧
    ∃ (before inner after : List Token) (props : List (Bytes × Bytes)) (value : Bytes),
      Tokens raw (slice raw h.strings (h.strings + h.stringsSize)) (h.offset + h.structureSize)
        h.offset (before ++ .beginNode [] :: inner ++ .endNode :: after ++ [.finish])
        (h.offset + h.structureSize) ∧
      (∀ t ∈ before, t = .nop) ∧ (∀ t ∈ after, t = .nop) ∧ Items inner props ∧
      valuesOf compatibleName props = [value] ∧
      model ∈ value.splitOn 0 ∧ chip ∈ value.splitOn 0

/-! ### Tokens and depth -/

/-- What the walk does with a token. -/
def Scan.next (s : Scan) : Token → Option Scan
  | .beginNode name =>
    if s.depth = 0 then
      if s.roots = 0 ∧ name = [] then some { s with depth := 1, roots := 1 } else none
    else some { s with depth := s.depth + 1 }
  | .endNode => if s.depth = 0 then none else some { s with depth := s.depth - 1 }
  | .prop name value =>
    if s.depth = 0 then none
    else if s.depth = 1 ∧ name = compatibleName then
      if s.compatible.isSome then none
      else some { s with compatible := some (value.splitOn 0) }
    else some s
  | .nop => some s
  | .finish => none

def scan (s : Scan) : List Token → Option Scan
  | [] => some s
  | t :: ts => (s.next t).bind (scan · ts)

theorem scan_cons {s s' : Scan} {t : Token} {ts : List Token} (h : scan s (t :: ts) = some s') :
    ∃ u, s.next t = some u ∧ scan u ts = some s' :=
  Option.bind_eq_some_iff.mp h

/-- The lists of the `compatible` properties of a node. -/
def lists (props : List (Bytes × Bytes)) : List (List Bytes) :=
  (valuesOf compatibleName props).map (List.splitOn 0)

theorem lists_cons (p : Bytes × Bytes) (props : List (Bytes × Bytes)) : lists (p :: props) =
    (if p.1 = compatibleName then [p.2.splitOn 0] else []) ++ lists props := by
  by_cases hp : p.1 = compatibleName
  · simp [lists, valuesOf, hp]
  · simp [lists, valuesOf, hp]

/-- From inside a node the walk comes out of it: behind what the node holds and its end. Only
the properties of the root are looked at. -/
theorem scan_closes {tokens : List Token} {s s' : Scan} (h : scan s tokens = some s')
    (hdeep : 0 < s.depth) (hout : s'.depth = 0) :
    ∃ inner rest props u, tokens = inner ++ .endNode :: rest ∧ Items inner props ∧
      scan u rest = some s' ∧ u.depth = s.depth - 1 ∧ u.roots = s.roots ∧
      u.compatible.toList =
        s.compatible.toList ++ (if s.depth = 1 then lists props else []) := by
  induction hn : tokens.length using Nat.strong_induction_on generalizing tokens s with
  | _ n ih =>
  cases tokens with
  | nil =>
    obtain rfl := Option.some.inj h
    omega
  | cons t ts =>
    obtain ⟨u, hu, hrest⟩ := scan_cons h
    rw [List.length_cons] at hn
    have hdeep' : s.depth ≠ 0 := by omega
    cases t with
    | beginNode name =>
      simp only [Scan.next, hdeep', if_false, Option.some.injEq] at hu
      subst hu
      obtain ⟨inner, rest, own, v, rfl, hinner, hv, hvd, hvr, hvc⟩ :=
        ih ts.length (by omega) hrest (Nat.succ_pos _) rfl
      simp only [Nat.add_sub_cancel, Nat.add_eq_right, hdeep', if_false, List.append_nil]
        at hvd hvr hvc
      rw [List.length_append, List.length_cons] at hn
      obtain ⟨inner', rest', props, w, rfl, hinner', hw, hwd, hwr, hwc⟩ :=
        ih rest.length (by omega) hv (by omega) rfl
      refine ⟨.beginNode name :: inner ++ .endNode :: inner', rest', props, w, by simp,
        .node name hinner hinner', hw, by omega, hwr.trans hvr, ?_⟩
      rw [hwc, hvc, hvd]
    | endNode =>
      simp only [Scan.next, hdeep', if_false, Option.some.injEq] at hu
      subst hu
      exact ⟨[], ts, [], _, rfl, .nil, hrest, rfl, rfl, by simp [lists, valuesOf]⟩
    | prop name value =>
      simp only [Scan.next, hdeep', if_false] at hu
      split_ifs at hu with hroot hseen
      · obtain rfl := Option.some.inj hu
        obtain ⟨inner, rest, props, v, rfl, hinner, hv, hvd, hvr, hvc⟩ :=
          ih ts.length (by omega) hrest (by simpa using hdeep) rfl
        refine ⟨.prop name value :: inner, rest, (name, value) :: props, v, rfl,
          .prop name value hinner, hv, hvd, hvr, ?_⟩
        rw [Option.not_isSome_iff_eq_none] at hseen
        simp only [hroot.1, if_true] at hvc
        simp [hvc, hseen, hroot, lists_cons]
      · obtain rfl := Option.some.inj hu
        obtain ⟨inner, rest, props, v, rfl, hinner, hv, hvd, hvr, hvc⟩ :=
          ih ts.length (by omega) hrest hdeep rfl
        refine ⟨.prop name value :: inner, rest, (name, value) :: props, v, rfl,
          .prop name value hinner, hv, hvd, hvr, ?_⟩
        rw [hvc]
        by_cases hone : s.depth = 1
        · have hname : name ≠ compatibleName := fun hname => hroot ⟨hone, hname⟩
          simp [lists_cons, hone, hname]
        · simp [hone]
    | nop =>
      obtain rfl := Option.some.inj hu
      obtain ⟨inner, rest, props, v, rfl, hinner, hv, hvd, hvr, hvc⟩ :=
        ih ts.length (by omega) hrest hdeep rfl
      exact ⟨.nop :: inner, rest, props, v, rfl, .nop hinner, hv, hvd, hvr, hvc⟩
    | finish => simp [Scan.next] at hu

/-- Behind the root there is nothing but NOP. -/
theorem scan_after {tokens : List Token} {s s' : Scan} (h : scan s tokens = some s')
    (hdepth : s.depth = 0) (hroots : s.roots = 1) :
    (∀ t ∈ tokens, t = .nop) ∧ s' = s := by
  induction tokens with
  | nil => exact ⟨by simp, (Option.some.inj h).symm⟩
  | cons t ts ih =>
    obtain ⟨u, hu, hrest⟩ := scan_cons h
    cases t with
    | nop =>
      obtain rfl := Option.some.inj hu
      obtain ⟨hnop, hs⟩ := ih hrest
      exact ⟨by simpa using hnop, hs⟩
    | beginNode name => simp [Scan.next, hdepth, hroots] at hu
    | endNode => simp [Scan.next, hdepth] at hu
    | prop name value => simp [Scan.next, hdepth] at hu
    | finish => simp [Scan.next] at hu

/-- A walk that ends outside and has seen a `compatible` has walked over one tree. -/
theorem scan_tree {tokens : List Token} {s : Scan} (h : scan ⟨0, 0, none⟩ tokens = some s)
    (hout : s.depth = 0) {compatible : List Bytes} (hseen : s.compatible = some compatible) :
    ∃ before inner after props, tokens = before ++ .beginNode [] :: inner ++ .endNode :: after ∧
      (∀ t ∈ before, t = .nop) ∧ (∀ t ∈ after, t = .nop) ∧ Items inner props ∧
      lists props = [compatible] := by
  induction tokens with
  | nil =>
    obtain rfl := Option.some.inj h
    cases hseen
  | cons t ts ih =>
    obtain ⟨u, hu, hrest⟩ := scan_cons h
    cases t with
    | nop =>
      obtain rfl := Option.some.inj hu
      obtain ⟨before, inner, after, props, rfl, hbefore, hafter, hinner, hlists⟩ := ih hrest
      exact ⟨.nop :: before, inner, after, props, rfl, by simpa using hbefore, hafter, hinner,
        hlists⟩
    | beginNode name =>
      simp only [Scan.next, if_true, true_and] at hu
      split_ifs at hu with hname
      obtain rfl := Option.some.inj hu
      subst hname
      obtain ⟨inner, rest, props, v, rfl, hinner, hv, hvd, hvr, hvc⟩ :=
        scan_closes hrest (by simp) hout
      obtain ⟨hafter, rfl⟩ := scan_after hv (by simpa using hvd) hvr
      refine ⟨[], inner, rest, props, by simp, by simp, hafter, hinner, ?_⟩
      simpa [hseen] using hvc.symm
    | endNode => simp [Scan.next] at hu
    | prop name value => simp [Scan.next] at hu
    | finish => simp [Scan.next] at hu

/-! ### The walk reads tokens -/

/-- Inside the file a word can be read. -/
theorem word_ok (raw : Bytes) (offset : ℕ) (h : offset + 4 ≤ raw.length) :
    ∃ n, word raw offset = .ok n :=
  ⟨_, by rw [word, unpackFrom_eq h]⟩

theorem le_align (n : ℕ) : n ≤ align n := by
  rw [align]
  omega

theorem beginNode_spec (raw : Bytes) (stop offset : ℕ) (s : Scan) :
    (∃ msg, beginNode raw stop offset s = .error (.value msg)) ∨
    ∃ name s', beginNode raw stop offset s = .ok (align (offset + name.length + 1), s') ∧
      TextAt raw offset stop name ∧ s.next (.beginNode name) = some s' := by
  by_cases hroots : s.depth = 0 ∧ (if s.depth = 0 then s.roots + 1 else s.roots) ≠ 1
  · exact Or.inl ⟨_, if_pos hroots⟩
  simp only [beginNode, if_neg hroots]
  cases hnul : findNul raw offset stop with
  | none => exact Or.inl ⟨_, rfl⟩
  | some nul =>
    obtain ⟨-, hlength, htext⟩ := findNul_some hnul
    by_cases hname : s.depth = 0 ∧ slice raw offset nul ≠ []
    · exact Or.inl ⟨_, if_pos hname⟩
    · refine Or.inr ⟨slice raw offset nul,
        ⟨s.depth + 1, if s.depth = 0 then s.roots + 1 else s.roots, s.compatible⟩, ?_, htext, ?_⟩
      · simp only [if_neg hname, hlength]
      · by_cases hdepth : s.depth = 0
        · have hempty : slice raw offset nul = [] := by_contra fun h => hname ⟨hdepth, h⟩
          have hzero : s.roots = 0 := by
            by_contra h
            exact hroots ⟨hdepth, by simp only [hdepth, if_true]; omega⟩
          simp [Scan.next, hdepth, hzero, hempty]
        · simp [Scan.next, hdepth]

theorem endNode_spec (s : Scan) : (∃ msg, endNode s = .error (.value msg)) ∨
    ∃ s', endNode s = .ok s' ∧ s.next .endNode = some s' := by
  by_cases hdepth : s.depth = 0
  · exact Or.inl ⟨_, if_pos hdepth⟩
  · exact Or.inr ⟨_, if_neg hdepth, if_neg hdepth⟩

theorem property_spec {raw : Bytes} (names : Bytes) {stop : ℕ} (hstop : stop ≤ raw.length)
    (offset : ℕ) (s : Scan) : (∃ msg, property raw names stop offset s = .error (.value msg)) ∨
    ∃ name value s', property raw names stop offset s =
        .ok (align (offset + 8 + value.length), s') ∧
      WordAt raw stop offset value.length ∧
      (∃ n, WordAt raw stop (offset + 4) n ∧ TextAt names n names.length name) ∧
      offset + 8 + value.length ≤ stop ∧
      slice raw (offset + 8) (offset + 8 + value.length) = value ∧
      s.next (.prop name value) = some s' := by
  by_cases hroom : s.depth < 1 ∨ stop < offset + 8
  · exact Or.inl ⟨_, if_pos hroom⟩
  obtain ⟨size, hsize⟩ := word_ok raw offset (by omega)
  obtain ⟨n, hn⟩ := word_ok raw (offset + 4) (by omega)
  simp only [property, if_neg hroom, hsize, hn, bind, Except.bind]
  cases hnul : findNul names n names.length with
  | none => exact Or.inl ⟨_, rfl⟩
  | some nul =>
    by_cases hbounds : names.length ≤ n ∨ stop < offset + 8 + size
    · exact Or.inl ⟨_, if_pos hbounds⟩
    have hvalue : (slice raw (offset + 8) (offset + 8 + size)).length = size := by
      rw [length_slice]
      omega
    have htext := (findNul_some hnul).2.2
    have hdepth : s.depth ≠ 0 := by omega
    simp only [if_neg hbounds]
    by_cases hroot : s.depth = 1 ∧ slice names n nul = compatibleName
    · cases hseen : s.compatible with
      | some value => exact Or.inl ⟨_, by simp only [if_pos hroot]; rfl⟩
      | none =>
        refine Or.inr ⟨_, slice raw (offset + 8) (offset + 8 + size), _,
          by rw [if_pos hroot, hvalue]; rfl, ⟨by omega, by rw [hvalue, hsize]⟩,
          ⟨n, ⟨by omega, hn⟩, htext⟩, by omega, by rw [hvalue], ?_⟩
        simp [Scan.next, hroot, hseen]
    · refine Or.inr ⟨_, slice raw (offset + 8) (offset + 8 + size), s,
        by rw [if_neg hroot, hvalue], ⟨by omega, by rw [hvalue, hsize]⟩,
        ⟨n, ⟨by omega, hn⟩, htext⟩, by omega, by rw [hvalue], ?_⟩
      simp [Scan.next, hroot, hdepth]

/-- What a walk is by its end: a refusal; or a state, with tokens up to the END marker when it
came to one. -/
def Walked (raw names : Bytes) (stop offset : ℕ) (s : Scan)
    (result : Except Exn (Scan × Bool)) : Prop :=
  (∃ msg, result = .error (.value msg)) ∨
  ∃ s' terminated, result = .ok (s', terminated) ∧ (terminated = true → s'.depth = 0 ∧
    ∃ tokens, Tokens raw names stop offset (tokens ++ [.finish]) stop ∧
      scan s tokens = some s')

/-- A token before a walk. -/
theorem Walked.cons {raw names : Bytes} {stop offset next : ℕ} {s u : Scan} {t : Token}
    {result : Except Exn (Scan × Bool)} (hat : At raw names stop offset t next)
    (hnext : s.next t = some u) (h : Walked raw names stop next u result) :
    Walked raw names stop offset s result := by
  obtain herror | ⟨s', terminated, hresult, htokens⟩ := h
  · exact Or.inl herror
  · refine Or.inr ⟨s', terminated, hresult, ?_⟩
    intro hterminated
    obtain ⟨hdepth, tokens, hread, hscan⟩ := htokens hterminated
    exact ⟨hdepth, t :: tokens, .cons hat hread, by rw [scan, hnext]; exact hscan⟩

theorem walk_spec {raw : Bytes} (names : Bytes) {stop : ℕ} (hstop : stop ≤ raw.length)
    (fuel offset : ℕ) (s : Scan) (hfuel : 0 < fuel) (hroom : stop < offset + 4 * fuel) :
    Walked raw names stop offset s (walk raw names stop fuel offset s) := by
  induction fuel generalizing offset s with
  | zero => omega
  | succ fuel ih =>
    rw [walk]
    by_cases hin : offset + 4 ≤ stop
    · obtain ⟨token, htoken⟩ := word_ok raw offset (by omega)
      have hword : WordAt raw stop offset token := ⟨hin, htoken⟩
      simp only [if_pos hin, htoken, bind, Except.bind]
      split_ifs with h1 h2 h3 h4 h9
      · subst h1
        obtain ⟨msg, herror⟩ | ⟨name, s', hok, htext, hnext⟩ :=
          beginNode_spec raw stop (offset + 4) s
        · rw [herror]
          exact Or.inl ⟨msg, rfl⟩
        · rw [hok]
          have hle := le_align (offset + 4 + name.length + 1)
          exact .cons (t := .beginNode name) ⟨hword, htext, rfl⟩ hnext (ih _ s' (by omega) (by omega))
      · subst h2
        obtain ⟨msg, herror⟩ | ⟨s', hok, hnext⟩ := endNode_spec s
        · rw [herror]
          exact Or.inl ⟨msg, rfl⟩
        · rw [hok]
          exact .cons (t := .endNode) ⟨hword, rfl⟩ hnext (ih _ s' (by omega) (by omega))
      · subst h3
        obtain ⟨msg, herror⟩ | ⟨name, value, s', hok, hsize, hname, hend, hvalue, hnext⟩ :=
          property_spec names hstop (offset + 4) s
        · rw [herror]
          exact Or.inl ⟨msg, rfl⟩
        · rw [hok]
          have hle := le_align (offset + 12 + value.length)
          exact .cons (t := .prop name value) ⟨hword, hsize, hname, hend, hvalue, rfl⟩ hnext
            (ih _ s' (by omega) (by omega))
      · subst h4
        exact .cons (t := .nop) ⟨hword, rfl⟩ rfl (ih _ s (by omega) (by omega))
      · subst h9
        refine Or.inr ⟨s, _, rfl, ?_⟩
        intro hterminated
        obtain ⟨hdepth, rfl⟩ : s.depth = 0 ∧ offset + 4 = stop := by simpa using hterminated
        exact ⟨hdepth, [], .cons ⟨hword, rfl⟩ (.nil _), rfl⟩
      · exact Or.inl ⟨_, rfl⟩
    · rw [if_neg hin]
      exact Or.inr ⟨s, false, rfl, by simp⟩

/-! ### What passes -/

theorem header_ok (raw : Bytes) (h : 56 ≤ raw.length) : ∃ hd, header raw = .ok hd := by
  have hword : ∀ offset, offset ≤ 36 → ∃ n, word raw offset = .ok n := fun offset hle =>
    word_ok raw offset (by omega)
  obtain ⟨magic, h0⟩ := hword 0 (by omega)
  obtain ⟨total, h4⟩ := hword 4 (by omega)
  obtain ⟨offset, h8⟩ := hword 8 (by omega)
  obtain ⟨strings, h12⟩ := hword 12 (by omega)
  obtain ⟨reserve, h16⟩ := hword 16 (by omega)
  obtain ⟨version, h20⟩ := hword 20 (by omega)
  obtain ⟨last, h24⟩ := hword 24 (by omega)
  obtain ⟨stringsSize, h32⟩ := hword 32 (by omega)
  obtain ⟨structureSize, h36⟩ := hword 36 (by omega)
  refine ⟨⟨magic, total, offset, strings, reserve, version, last, stringsSize, structureSize⟩, ?_⟩
  simp only [header, h0, h4, h8, h12, h16, h20, h24, h32, h36]
  rfl

theorem valuesOf_of_lists {props : List (Bytes × Bytes)} {compatible : List Bytes}
    (h : lists props = [compatible]) :
    ∃ value, valuesOf compatibleName props = [value] ∧ value.splitOn 0 = compatible := by
  rw [lists, List.map_eq_singleton_iff] at h
  exact h

/-- Of any bytes the check ends in a refusal, or it lets a whole tree of the board pass. -/
theorem checkDtb_spec (raw : Bytes) : (∃ msg, checkDtb raw = .error (.value msg)) ∨
    (checkDtb raw = .ok () ∧ BoardTree raw) := by
  rw [checkDtb]
  by_cases hlength : raw.length < 56
  · exact Or.inl ⟨_, if_pos hlength⟩
  obtain ⟨h, hheader⟩ := header_ok raw (by omega)
  simp only [if_neg hlength, hheader, bind, Except.bind]
  by_cases hfits : h.Fits raw.length
  · have hfits' := hfits
    obtain ⟨-, htotal, -, -, hoffset, -, -, -, -, -, hstop⟩ := hfits'
    obtain ⟨msg, herror⟩ | ⟨s, terminated, hwalk, htokens⟩ :=
      walk_spec (slice raw h.strings (h.strings + h.stringsSize))
        (show h.offset + h.structureSize ≤ raw.length by omega) raw.length h.offset ⟨0, 0, none⟩
        (by omega) (by omega)
    · simp only [if_pos hfits, herror]
      exact Or.inl ⟨msg, rfl⟩
    · simp only [if_pos hfits, hwalk]
      cases hterminated : terminated with
      | false => exact Or.inl ⟨_, rfl⟩
      | true =>
        obtain ⟨hdepth, tokens, hread, hscan⟩ := htokens hterminated
        cases hcompatible : s.compatible with
        | none => exact Or.inl ⟨_, rfl⟩
        | some compatible =>
          by_cases hboard : (compatible.contains model && compatible.contains chip) = true
          · have hboth : model ∈ compatible ∧ chip ∈ compatible := by simpa using hboard
            obtain ⟨before, inner, after, props, rfl, hbefore, hafter, hinner, hlists⟩ :=
              scan_tree hscan hdepth hcompatible
            obtain ⟨value, hvalue, rfl⟩ := valuesOf_of_lists hlists
            exact Or.inr ⟨if_pos hboard, h, hheader, hfits, before, inner, after, props, value,
              hread, hbefore, hafter, hinner, hvalue, hboth⟩
          · exact Or.inl ⟨_, if_neg hboard⟩
  · exact Or.inl ⟨_, by rw [if_neg hfits]⟩

/-- Big-endian words. -/
def words (ns : List ℕ) : Bytes :=
  ns.flatMap fun n => [n / 0x1000000, n / 0x10000, n / 0x100, n].map UInt8.ofNat

/-- A root with its one property. -/
def sampleDtb : Bytes :=
  words [0xd00dfeed, 131, 56, 120, 40, 17, 16, 0, 11, 64] ++ List.replicate 16 0 ++
    words [1, 0, 3, 35, 0] ++ model ++ [0] ++ chip ++ [0, 0] ++ words [2, 9] ++
    compatibleName ++ [0]

example : checkDtb sampleDtb = .ok () := by
  decide +kernel

end Epilykos.SlotLinux
