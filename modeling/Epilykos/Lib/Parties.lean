import Epilykos.Lib.Program

/-!
Programs side by side on one state. A party is a program and the part it plays. Parties start,
make their calls one at a time and stop, in any order, and the state also moves by itself. Each
party is shown to be safe alone, relying on what the others guarantee of their calls; together
they then keep the invariant.
-/

namespace Program

variable {F : Interface} {ε α σ ι : Type}

structure Party (F : Interface) (ι : Type) where
  role : ι
  {ε : Type}
  {α : Type}
  prog : Prog F ε α

/-- One move of the parties: `own` is what the state does by itself, `starts` when a party may
start, `resets` what ends all of them at once. -/
inductive PartiesStep (W : Behaviour F σ) (own : σ → σ → Prop)
    (starts : σ → List (Party F ι) → Party F ι → Prop) (resets : σ → σ → Prop) :
    σ × List (Party F ι) → σ × List (Party F ι) → Prop
  | own {s s' : σ} {ps : List (Party F ι)} (h : own s s') :
      PartiesStep W own starts resets (s, ps) (s', ps)
  | call {s s' : σ} {l r : List (Party F ι)} {role : ι} {ε α : Type} {c : F.Call}
      {k : F.Ans c → Prog F ε α} {a : F.Ans c} (h : W s c a s') :
      PartiesStep W own starts resets (s, l ++ ⟨role, .call c k⟩ :: r) (s', l ++ ⟨role, k a⟩ :: r)
  | starts {s : σ} {ps : List (Party F ι)} {p : Party F ι} (h : starts s ps p) :
      PartiesStep W own starts resets (s, ps) (s, p :: ps)
  | stops {s : σ} {l r : List (Party F ι)} {p : Party F ι} :
      PartiesStep W own starts resets (s, l ++ p :: r) (s, l ++ r)
  | resets {s s' : σ} {ps : List (Party F ι)} (h : resets s s') :
      PartiesStep W own starts resets (s, ps) (s', [])

/-! ### Safety and the rely -/

section Rely

variable {rely : σ → σ → Prop} {W : Behaviour F σ} {allowed : σ → F.Call → Prop} {C : σ → Prop}

/-- What is safe stays safe when the others move. -/
theorem Safe.moved {p : Prog F ε α} {Q : α → σ → Prop} {E : ε → σ → Prop} {s s' : σ}
    (h : Safe rely W allowed p Q E s) (hrely : rely s s')
    (htrans : ∀ {s t u}, rely s t → rely t u → rely s u) (hQ : ∀ a, Q a s → Q a s')
    (hE : ∀ e, E e s → E e s') : Safe rely W allowed p Q E s' := by
  cases p with
  | ret a => exact hQ a h
  | raise e => exact hE e h
  | call c k => exact fun s₁ hs₁ => h s₁ (htrans hrely hs₁)

/-- What holds at every call and at the ends holds now. -/
theorem Safe.now {p : Prog F ε α} {s : σ} (h : Safe rely W allowed p (fun _ => C) (fun _ => C) s)
    (hrefl : rely s s) (hallowed : ∀ t c, allowed t c → C t) : C s := by
  cases p with
  | ret a => exact h
  | raise e => exact h
  | call c k => exact hallowed _ _ (h s hrefl).1

/-- And it holds after every call. -/
theorem Safe.after {p : Prog F ε α} {s : σ}
    (h : Safe rely W (fun t _ => C t) p (fun _ => C) (fun _ => C) s) (hrefl : ∀ t, rely t t) :
    Safe rely W (fun t c => C t ∧ ∀ a t', W t c a t' → C t') p (fun _ => C) (fun _ => C) s := by
  induction p generalizing s with
  | ret a => exact h
  | raise e => exact h
  | call c k ih =>
    intro s₁ hs₁
    obtain ⟨hC, hnext⟩ := h s₁ hs₁
    exact ⟨⟨hC, fun a t' hw => (hnext a t' hw).now (hrefl t') fun _ _ h => h⟩,
      fun a t' hw => ih a (hnext a t' hw)⟩

end Rely

/-! ### The composition -/

/-- What all parties keep, what each of them relies on and what it guarantees of its calls. -/
structure Contract (ι σ : Type) where
  inv : σ → Prop
  rely : ι → σ → σ → Prop
  guar : ι → σ → σ → Prop

namespace Contract

variable {C : Contract ι σ} {W : Behaviour F σ} {own : σ → σ → Prop}
  {starts : σ → List (Party F ι) → Party F ι → Prop} {resets : σ → σ → Prop}

/-- The party is safe alone. -/
def Keeps (C : Contract ι σ) (W : Behaviour F σ) (p : Party F ι) (s : σ) : Prop :=
  Safe (C.rely p.role) W (fun t c => C.inv t ∧ ∀ a t', W t c a t' → C.guar p.role t t') p.prog
    (fun _ => C.inv) (fun _ => C.inv) s

/-- Two roles may be played at once: each guarantees what the other relies on. -/
def Compatible (C : Contract ι σ) (r r' : ι) : Prop :=
  (∀ s s', C.inv s → C.guar r s s' → C.rely r' s s') ∧
    ∀ s s', C.inv s → C.guar r' s s' → C.rely r s s'

/-- The side conditions of the composition. -/
structure Composes (C : Contract ι σ) (W : Behaviour F σ) (own : σ → σ → Prop)
    (starts : σ → List (Party F ι) → Party F ι → Prop) (resets : σ → σ → Prop) : Prop where
  refl : ∀ r s, C.rely r s s
  trans : ∀ r {s t u}, C.rely r s t → C.rely r t u → C.rely r s u
  stable : ∀ r {s t}, C.rely r s t → C.inv s → C.inv t
  own : ∀ {s s'}, C.inv s → own s s' → C.inv s' ∧ ∀ r, C.rely r s s'
  starts : ∀ {s ps p}, C.inv s → starts s ps p →
    C.Keeps W p s ∧ ∀ q ∈ ps, C.Compatible p.role q.role
  resets : ∀ {s s'}, C.inv s → resets s s' → C.inv s'

/-- The invariant holds, and every party is safe among the others. -/
structure Holds (C : Contract ι σ) (W : Behaviour F σ) (x : σ × List (Party F ι)) : Prop where
  inv : C.inv x.1
  keeps : ∀ p ∈ x.2, C.Keeps W p x.1
  compatible : x.2.Pairwise fun p q => C.Compatible p.role q.role

theorem Composes.moved (h : C.Composes W own starts resets) {p : Party F ι} {s s' : σ}
    (hp : C.Keeps W p s) (hrely : C.rely p.role s s') : C.Keeps W p s' :=
  Safe.moved hp hrely (h.trans _) (fun _ => h.stable _ hrely) fun _ => h.stable _ hrely

/-- One move keeps it so. -/
theorem Composes.step (h : C.Composes W own starts resets) {x y : σ × List (Party F ι)}
    (hx : C.Holds W x) (hstep : PartiesStep W own starts resets x y) : C.Holds W y := by
  cases hstep with
  | own hown =>
    obtain ⟨hinv, hrely⟩ := h.own hx.inv hown
    exact ⟨hinv, fun p hp => h.moved (hx.keeps p hp) (hrely _), hx.compatible⟩
  | @call s s' l r role ε α c k a hcall =>
    obtain ⟨⟨hinv, hguar⟩, hnext⟩ := hx.keeps ⟨role, .call c k⟩ (by simp) s (h.refl _ _)
    have hkeeps : C.Keeps W ⟨role, k a⟩ s' := hnext a s' hcall
    obtain ⟨hl, hr, hacross⟩ := List.pairwise_append.mp hx.compatible
    obtain ⟨hself, hr⟩ := List.pairwise_cons.mp hr
    have hother : ∀ p ∈ l ++ r, C.rely p.role s s' := by
      intro p hp
      obtain hp | hp := List.mem_append.mp hp
      · exact (hacross p hp _ (.head _)).2 s s' hinv (hguar a s' hcall)
      · exact (hself p hp).1 s s' hinv (hguar a s' hcall)
    refine ⟨hkeeps.now (h.refl _ _) fun _ _ h => h.1, fun p hp => ?_, ?_⟩
    · obtain hp | hp | hp : p ∈ l ∨ p = ⟨role, k a⟩ ∨ p ∈ r := by simpa using hp
      · exact h.moved (hx.keeps p (by simp [hp])) (hother p (by simp [hp]))
      · exact hp ▸ hkeeps
      · exact h.moved (hx.keeps p (by simp [hp])) (hother p (by simp [hp]))
    · refine List.pairwise_append.mpr ⟨hl, List.pairwise_cons.mpr ⟨hself, hr⟩, ?_⟩
      intro p hp q hq
      obtain rfl | hq := List.mem_cons.mp hq
      · exact hacross p hp ⟨role, .call c k⟩ (.head _)
      · exact hacross p hp q (.tail _ hq)
  | starts hstarts =>
    obtain ⟨hkeeps, hcompatible⟩ := h.starts hx.inv hstarts
    exact ⟨hx.inv, List.forall_mem_cons.mpr ⟨hkeeps, hx.keeps⟩,
      List.pairwise_cons.mpr ⟨hcompatible, hx.compatible⟩⟩
  | @stops s l r p =>
    have hsub : (l ++ r).Sublist (l ++ p :: r) :=
      List.Sublist.append_left (List.sublist_cons_self p r) l
    exact ⟨hx.inv, fun q hq => hx.keeps q (hsub.subset hq), hx.compatible.sublist hsub⟩
  | resets hresets => exact ⟨h.resets hx.inv hresets, by simp, .nil⟩

/-- Whatever the order of the moves, the invariant holds. -/
theorem Composes.run (h : C.Composes W own starts resets) {s s' : σ} {ps : List (Party F ι)}
    (hs : C.inv s) (hrun : Relation.ReflTransGen (PartiesStep W own starts resets) (s, []) (s', ps)) :
    C.inv s' := by
  have hholds : ∀ y, Relation.ReflTransGen (PartiesStep W own starts resets) (s, []) y →
      C.Holds W y := by
    intro y hy
    induction hy with
    | refl => exact ⟨hs, by simp, .nil⟩
    | tail _ hstep ih => exact h.step ih hstep
  exact (hholds _ hrun).inv

end Contract

/-! ### A party alone, against a deterministic partner -/

/-- The party runs to its end, where the state may move by itself behind every call. -/
theorem parties_run {W : Behaviour F σ} {own : σ → σ → Prop}
    {starts : σ → List (Party F ι) → Party F ι → Prop} {resets : σ → σ → Prop}
    {h : σ → (c : F.Call) → F.Ans c × σ} {role : ι} {p : Prog F ε α} {s : σ}
    (hcall : ∀ s c, ∃ s₁, W s c (h s c).1 s₁ ∧ Relation.ReflTransGen own s₁ (h s c).2)
    (hstart : starts s [] ⟨role, p⟩) :
    Relation.ReflTransGen (PartiesStep W own starts resets) (s, []) ((p.run h s).2, []) := by
  have hrun : ∀ (q : Prog F ε α) (t : σ),
      Relation.ReflTransGen (PartiesStep W own starts resets) (t, [⟨role, q⟩]) ((q.run h t).2, []) := by
    intro q
    induction q with
    | ret a => exact fun t => .single (.stops (l := []) (r := []))
    | raise e => exact fun t => .single (.stops (l := []) (r := []))
    | call c k ih =>
      intro t
      obtain ⟨t₁, hw, hown⟩ := hcall t c
      refine .head (.call (l := []) (r := []) hw) (.trans ?_ (ih _ _))
      exact hown.lift (fun u => (u, [(⟨role, k (h t c).1⟩ : Party F ι)])) fun _ _ => .own
  exact .head (.starts hstart) (hrun p s)

end Program
