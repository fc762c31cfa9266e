import Epilykos.OsUpdate.Refinement
import Epilykos.PlatformEnv.Snapshot

/-!
The environment on the card. Every batch of the updater, every mark of RAUC and every save of
the loader is one commit of a snapshot over two records, which may be cut with a record half
written. What the programs do against the two records is what they do against one environment
that changes as a whole.
-/

namespace Epilykos.OsUpdate

open Program World PlatformEnv

/-! ### What a record says -/

/-- The text of the bytes of a value. -/
def latin (bytes : Bytes) : String := String.ofList (bytes.map fun b => Char.ofNat b.toNat)

/-- The variables of a record as they are printed; one that is not there reads as empty. -/
def entryVars (entries : List PlatformEnv.Entry) : Vars :=
  fun name => textOr latin (get entries (ascii name))

/-- The entries read as the environment. -/
structure Stores (entries : List PlatformEnv.Entry) (env : Env) : Prop where
  vars : (entryVars entries).Holds env
  floor : entryVars entries "epk_os_floor" = toString env.osFloor
  epoch : entryVars entries "epk_trust_epoch" = toString env.trustEpoch
  policy : (get entries (ascii "epk_trust_policy")).bind b64Decode = some env.trustPolicy
  policySig : (get entries (ascii "epk_trust_policy_sig")).bind b64Decode = some env.trustPolicySig

/-- The selected record of the card reads as the environment. -/
def Reads (d : Device) (env : Env) : Prop :=
  ∃ i v, d.choose = .ok (i, v) ∧ Stores v.entries env ∧ env.Printable

/-- What the tools print of the card, as far as it reads as an environment. -/
def Printed (d : Device) (env : Env) : Prop := ∀ env', Reads d env' → env = env'

/-- A record made to hold the environment. -/
def Exports (desired : Record) (env : Env) : Prop :=
  env.Printable → ∀ v, parse desired = .ok v → Stores v.entries env

section Records

variable {entries entries' : List PlatformEnv.Entry} {env env' : Env} {d d' : Device}

theorem Stores.congr (h : Stores entries env)
    (hsame : ∀ name ≠ generationName, get entries' name = get entries name) :
    Stores entries' env := by
  have hvars : ∀ name, ascii name ≠ generationName → entryVars entries' name = entryVars entries name :=
    fun name hname => congrArg (textOr latin) (hsame _ hname)
  refine ⟨⟨?_, fun s => ?_, ?_, ?_, ?_, ?_, ?_, ?_, ?_⟩, ?_, ?_, ?_, ?_⟩
  · rw [hvars _ (by decide +kernel), h.vars.order]
  · rw [hvars _ (by cases s <;> decide +kernel), h.vars.left]
  · rw [hvars _ (by decide +kernel), h.vars.pending]
  · rw [hvars _ (by decide +kernel), h.vars.target]
  · rw [hvars _ (by decide +kernel), h.vars.from_]
  · rw [hvars _ (by decide +kernel), h.vars.sequence]
  · rw [hvars _ (by decide +kernel), h.vars.sha256]
  · rw [hvars _ (by decide +kernel), h.vars.phase]
  · rw [hvars _ (by decide +kernel), h.vars.trial]
  · rw [hvars _ (by decide +kernel), h.floor]
  · rw [hvars _ (by decide +kernel), h.epoch]
  · rw [hsame _ (by decide +kernel), h.policy]
  · rw [hsame _ (by decide +kernel), h.policySig]

theorem orderText_cons (x : Slot) (xs : List Slot) :
    (" ".intercalate ((x :: xs).map Slot.text)).toList =
      x.text.toList ++ if xs = [] then [] else ' ' :: (" ".intercalate (xs.map Slot.text)).toList := by
  cases xs with
  | nil => simp
  | cons y ys => simp [String.intercalate_cons_cons]

theorem orderText_inj {xs ys : List Slot}
    (h : " ".intercalate (xs.map Slot.text) = " ".intercalate (ys.map Slot.text)) : xs = ys := by
  have hlength : ∀ s : Slot, s.text.toList.length = 1 := by rintro (_ | _) <;> rfl
  have hnil : ∀ (s : Slot) (rest : List Slot), " ".intercalate ((s :: rest).map Slot.text) ≠ "" := by
    intro s rest he
    have hlist := congrArg (List.length ∘ String.toList) he
    rw [Function.comp_apply, orderText_cons, List.length_append, hlength] at hlist
    simp at hlist
  induction xs generalizing ys with
  | nil =>
    cases ys with
    | nil => rfl
    | cons y ys => exact absurd h.symm (hnil y ys)
  | cons x xs ih =>
    cases ys with
    | nil => exact absurd h (hnil x xs)
    | cons y ys =>
      have hlist := congrArg String.toList h
      rw [orderText_cons, orderText_cons] at hlist
      obtain ⟨hhead, htail⟩ := List.append_inj hlist ((hlength x).trans (hlength y).symm)
      obtain rfl : x = y := Slot.text_inj.mp (String.toList_inj.mp hhead)
      by_cases hxs : xs = [] <;> by_cases hys : ys = []
      · rw [hxs, hys]
      · simp [hxs, hys] at htail
      · simp [hxs, hys] at htail
      · rw [if_neg hxs, if_neg hys, List.cons.injEq] at htail
        rw [ih (String.toList_inj.mp htail.2)]

theorem textOr_inj {α : Type} {text : α → String} (hinj : ∀ a b, text a = text b → a = b)
    {x y : Option α} (hx : ∀ a, x = some a → text a ≠ "") (hy : ∀ a, y = some a → text a ≠ "")
    (h : textOr text x = textOr text y) : x = y := by
  cases x with
  | none =>
    cases y with
    | none => rfl
    | some b => exact absurd h.symm (hy b rfl)
  | some a =>
    cases y with
    | none => exact absurd h (hx a rfl)
    | some b => exact congrArg some (hinj a b h)

/-- A record reads as one environment at most. -/
theorem Stores.unique (h : Stores entries env) (h' : Stores entries env') (hp : env.Printable)
    (hp' : env'.Printable) : env = env' := by
  have htext : ∀ {x y : Option String}, x ≠ some "" → y ≠ some "" → textOr id x = textOr id y →
      x = y := fun hx hy => textOr_inj (fun _ _ h => h) (fun a ha he => hx (ha.trans (congrArg some he)))
        fun a ha he => hy (ha.trans (congrArg some he))
  have hslot : ∀ {x y : Option Slot}, textOr Slot.text x = textOr Slot.text y → x = y := fun h =>
    textOr_inj (fun _ _ => Slot.text_inj.mp) (fun p _ => p.text_ne_empty) (fun p _ => p.text_ne_empty) h
  have hnumber : ∀ n : ℕ, toString n ≠ "" := by
    intro n he
    have hlist := congrArg String.toList he
    simp [Nat.toDigits_ne_nil] at hlist
  have horder := orderText_inj (h.vars.order.symm.trans h'.vars.order)
  have hleft : env.left = env'.left :=
    funext fun s => toString_inj ((h.vars.left s).symm.trans (h'.vars.left s))
  have hpending := htext hp.pending hp'.pending (h.vars.pending.symm.trans h'.vars.pending)
  have htarget := hslot (h.vars.target.symm.trans h'.vars.target)
  have hfrom := hslot (h.vars.from_.symm.trans h'.vars.from_)
  have hsequence := textOr_inj (fun _ _ => toString_inj) (fun a _ => hnumber a)
    (fun a _ => hnumber a) (h.vars.sequence.symm.trans h'.vars.sequence)
  have hsha256 := htext hp.sha256 hp'.sha256 (h.vars.sha256.symm.trans h'.vars.sha256)
  have hphaseText : ∀ p q : Phase, p.text = q.text → p = q := by
    intro p q
    cases p <;> cases q <;> decide
  have hphase := textOr_inj hphaseText (fun p _ => p.text_ne_empty) (fun p _ => p.text_ne_empty)
    (h.vars.phase.symm.trans h'.vars.phase)
  have htrial := htext hp.trial hp'.trial (h.vars.trial.symm.trans h'.vars.trial)
  have hfloor := toString_inj (h.floor.symm.trans h'.floor)
  have hepoch := toString_inj (h.epoch.symm.trans h'.epoch)
  have hpolicy := Option.some.inj (h.policy.symm.trans h'.policy)
  have hsig := Option.some.inj (h.policySig.symm.trans h'.policySig)
  obtain ⟨order, left, floor, policy, sig, epoch, pending, target, source, sequence, sha256, phase,
    trial⟩ := env
  simp only at *
  subst horder hleft hfloor hpolicy hsig hepoch hpending htarget hfrom hsequence hsha256 hphase htrial
  rfl

theorem Reads.unique (h : Reads d env) (h' : Reads d env') : env = env' := by
  obtain ⟨i, v, hv, hstores, hp⟩ := h
  obtain ⟨i', v', hv', hstores', hp'⟩ := h'
  obtain ⟨-, rfl⟩ : i = i' ∧ v = v' := by simpa [hv] using hv'
  exact hstores.unique hstores' hp hp'

theorem Reads.printed (h : Reads d env) : Printed d env := fun _ h' => h.unique h'

/-- A commit of the record made for `env'`: the card reads as before or as `env'`, and once it
has returned as `env'`. -/
theorem Reads.op {desired : Record} {outcome : Outcome} (h : Reads d env)
    (hexports : Exports desired env') (hp : env'.Printable)
    (hop : OpStep (.snapshot desired) d outcome d') :
    (Reads d' env ∨ Reads d' env') ∧ ∀ out, outcome = .returned out → Reads d' env' := by
  obtain ⟨c, v, hv, hstores, hprintable⟩ := h
  obtain ⟨i, x, hx, heither, hreturned⟩ := hop.selects hv
  have hbuilt : (Op.snapshot desired).building d = some x → Reads d' env' := by
    intro hbuilding
    cases hnext : (Op.snapshot desired).next d with
    | error e => simp [Op.building, hnext, Except.toOption] at hbuilding
    | ok p =>
      obtain ⟨next, _, _, hparse, _⟩ := Op.next_snapshot (c := p.1) (r := p.2) hnext
      cases hw : parse p.2 with
      | error e => simp [Op.building, hnext, hw, Except.toOption] at hbuilding
      | ok w =>
        obtain rfl : w = x := by simpa [Op.building, hnext, hw, Except.toOption] using hbuilding
        exact ⟨i, w, hx, (hexports hp next hparse).congr fun name hname =>
          snapshot_get hparse hnext hw hname, hp⟩
  refine ⟨heither.imp ?_ hbuilt, ?_⟩
  · rintro rfl
    exact ⟨i, x, hx, hstores, hprintable⟩
  · exact fun out hout => hbuilt (hreturned out hout).1

end Records

/-! ### The box against the card -/

/-- The call answered that its command exited with code zero. -/
def HostCall.exited : (c : HostCall) → Ans c → Prop
  | .setEnv _, x | .markBad _, x | .markActive _, x | .markActiveBooted, x | .markGoodBooted, x =>
    x = .ok
  | _, _ => False

/-- One commit of a record made for the environment, to its end or cut anywhere. -/
def Commits (d : Device) (env : Env) (done : Prop) (d' : Device) : Prop :=
  ∃ desired outcome, Exports desired env ∧ OpStep (.snapshot desired) d outcome d' ∧
    (done → ∃ out, outcome = .returned out)

/-- What a call comes to where the environment is on the card. The environment of the state is
no more than what was printed last. -/
inductive CardOutcome (O : Oracles) : Behaviour Host (World × Device)
  | elsewhere {w w' : World} {d : Device} {c : HostCall} {x : Ans c} (keeps : c.keepsEnv = true)
    (reads : c ≠ .readEnv) (h : Outcome O w c x w') : CardOutcome O (w, d) c x (w', d)
  | reads {w : World} {d : Device} {x : Option Env} (h : ∀ env, x = some env → Printed d env) :
    CardOutcome O (w, d) .readEnv x (w, d)
  /-- The card has the new record. -/
  | commits {w : World} {d d' : Device} {c : HostCall} {x : Ans c} (writes : c.keepsEnv = false)
    (h : Commits d (w.effect c).env (c.exited x) d') (reads : Reads d' (w.effect c).env) :
    CardOutcome O (w, d) c x (w.effect c, d')
  | loses {w : World} {d d' : Device} {env : Env} {c : HostCall} {x : Ans c}
    (writes : c.keepsEnv = false) (h : Commits d (w.effect c).env (c.exited x) d')
    (not_reads : ¬ Reads d' (w.effect c).env) (prints : Printed d' env) :
    CardOutcome O (w, d) c x ({ w with env }, d')

/-- The programs of the box. -/
inductive BoxProgram (O : Oracles) : {α : Type} → OsProg α → Prop
  | request (r : Request) : BoxProgram O (r.prog O)
  | worker : BoxProgram O (runWorker O)
  | supervise (coordinatorExists : Bool) : BoxProgram O (superviseConfirm coordinatorExists)
  | confirm (id : JobId) : BoxProgram O (confirmMain id 3)
  | reconcileBoot : BoxProgram O OsUpdate.reconcileBoot

/-- A move of the box. The loader and RAUC save what they made of what they read, and the power
may go in the save. -/
inductive CardMoves (O : Oracles) : World × Device → World × Device → Prop
  | program {α : Type} {p : OsProg α} {x y : World × Device} (program : BoxProgram O p)
    (h : Stops (CardOutcome O) p x y) : CardMoves O x y
  | boots {w w' : World} {d d' : Device} {env env' : Env} {s : Slot} (prints : Printed d env)
    (boot : bootSlot env = some (s, env')) (h : Commits d env' False d') (reads : Reads d' env')
    (rest : SameDurable { w with env := env', booted := s } w') : CardMoves O (w, d) (w', d')
  | bootCut {w w' : World} {d d' : Device} {env env' last : Env} {s : Slot} (prints : Printed d env)
    (boot : bootSlot env = some (s, env')) (h : Commits d env' False d') (not_reads : ¬ Reads d' env')
    (last_prints : Printed d' last) (rest : SameDurable { w with env := last } w') :
    CardMoves O (w, d) (w', d')
  | marks {w : World} {d d' : Device} {env last : Env} (order : List Slot) (left : Slot → ℕ)
    (prints : Printed d env)
    (horder : [[Slot.a, .b], [.b, .a], [.a], [.b]].contains order = true) (hleft : ∀ s, left s ≤ 3)
    (h : Commits d { env with bootOrder := order, left := left } False d')
    (last_prints : Printed d' last) : CardMoves O (w, d) ({ w with env := last }, d')
  /-- DATA may be lost; nothing else writes the two records. -/
  | elsewhere {w w' : World} {d : Device} (env : w'.env = w.env) (booted : w'.booted = w.booted)
    (journal : w'.journal = w.journal ∨ w'.journal = none) : CardMoves O (w, d) (w', d)

section Box

variable {O : Oracles} {w w' w₀ : World} {d d' d₀ : Device} {env env' : Env} {α : Type}

theorem Commits.reads {done : Prop} (h : Commits d env' done d') (hd : Reads d env)
    (hp : env'.Printable) : Reads d' env ∨ Reads d' env' := by
  obtain ⟨desired, outcome, hexports, hop, _⟩ := h
  exact (hd.op hexports hp hop).1

/-- A commit that loses the new record keeps the old one. -/
theorem Commits.loses {done : Prop} (h : Commits d env' done d') (hd : Reads d env)
    (hp : env'.Printable) (hnot : ¬ Reads d' env') : Reads d' env ∧ ¬ done := by
  obtain ⟨desired, outcome, hexports, hop, hdone⟩ := h
  have hreads := hd.op hexports hp hop
  refine ⟨hreads.1.resolve_right hnot, fun hyes => ?_⟩
  obtain ⟨out, hout⟩ := hdone hyes
  exact hnot (hreads.2 out hout)

theorem Commits.history {done : Prop} (h : Commits d env done d') : History d d' := by
  obtain ⟨desired, outcome, _, hop, _⟩ := h
  exact .single ⟨_, _, hop⟩

theorem World.Sound.printable (h : w.Sound) : w.env.Printable := Env.printable h.env

/-- A call against the card is a call against an environment that changes as a whole. -/
theorem CardOutcome.refines {c : HostCall} {x : Ans c} {y : World × Device}
    (hd : Reads d w.env) (hsound : ∀ w', Outcome O w c x w' → w'.Sound)
    (h : CardOutcome O (w, d) c x y) : Outcome O w c x y.1 ∧ Reads y.2 y.1.env := by
  have htruth : c.keepsEnv = false → truthful O w c x := by
    intro hwrites
    cases c <;> trivial
  cases h with
  | elsewhere hkeeps _ ho => exact ⟨ho, ho.env hkeeps ▸ hd⟩
  | @reads _ _ x hx =>
    refine ⟨⟨?_, .inl rfl⟩, hd⟩
    cases x with
    | none => exact .inl rfl
    | some env => exact .inr (congrArg some (hx env rfl _ hd))
  | commits hwrites _ hreads => exact ⟨⟨htruth hwrites, .inl rfl⟩, hreads⟩
  | loses hwrites hcommits hnot hprints =>
    have heffect := hsound (w.effect c) ⟨htruth hwrites, .inl rfl⟩
    obtain ⟨hold, _⟩ := hcommits.loses hd heffect.printable hnot
    obtain rfl := hprints _ hold
    refine ⟨⟨htruth hwrites, .inr ⟨rfl, ?_⟩⟩, hold⟩
    cases c <;> first | exact id | cases hwrites

/-- The state and the card, and the state whose environment is that of the card. -/
def Mirrors (y : World × Device) (w : World) : Prop := y.1 = w ∧ Reads y.2 w.env

theorem CardOutcome.mirrored {y z : World × Device} {c : HostCall} {x : Ans c} (hy : Mirrors y w)
    (hsound : ∀ w', Outcome O w c x w' → w'.Sound) (h : CardOutcome O y c x z) :
    ∃ w', Outcome O w c x w' ∧ Mirrors z w' := by
  obtain ⟨u, d⟩ := y
  obtain ⟨rfl, hreads⟩ := hy
  obtain ⟨ho, hreads'⟩ := CardOutcome.refines hreads hsound h
  exact ⟨z.1, ho, rfl, hreads'⟩

theorem CardOutcome.history {c : HostCall} {x : Ans c} {y z : World × Device}
    (h : CardOutcome O y c x z) : History y.2 z.2 := by
  cases h with
  | elsewhere => exact .refl
  | reads => exact .refl
  | commits _ h => exact h.history
  | loses _ h => exact h.history

theorem runs_history {p q : OsProg α} {y z : World × Device}
    (h : Runs (· = ·) (CardOutcome O) (y, p) (z, q)) : History y.2 z.2 := by
  generalize hx : (y, p) = a at h
  generalize hy : (z, q) = b at h
  induction h generalizing z q with
  | refl =>
    obtain ⟨rfl, -⟩ := Prod.mk.inj (hx.trans hy.symm)
    exact .refl
  | tail _ hstep ih =>
    obtain ⟨rfl, hcall⟩ := hstep
    obtain ⟨rfl, -⟩ := Prod.mk.inj hy
    exact (ih rfl).trans hcall.history

theorem BoxProgram.moves {p : OsProg α} (hp : BoxProgram O p) (h : Stops (Outcome O) p w w') :
    Moves O w w' := by
  cases hp with
  | request r => exact .request r h
  | worker => exact .worker h
  | supervise coordinatorExists => exact .supervise coordinatorExists h
  | confirm id => exact .confirm id h
  | reconcileBoot => exact .reconcileBoot h

theorem BoxProgram.keepsSound {p : OsProg α} (hp : BoxProgram O p) (hw : w.Sound) :
    Alone O (fun t _ => t.Sound) p (fun _ => World.Sound) (fun _ => World.Sound) w := by
  have hsound : ∀ {β : Type} {q : OsProg β} {Q : β → World → Prop}, KeepsSound O q Q w →
      Alone O (fun t _ => t.Sound) q (fun _ => World.Sound) (fun _ => World.Sound) w :=
    fun h => h.mono (fun _ _ h => h.2) fun _ _ h => h
  cases hp with
  | request r => exact hsound (keepsSound_of_settles (request_settles r) hw)
  | worker => exact hsound (runWorker_keepsSound hw)
  | supervise coordinatorExists => exact hsound (superviseConfirm_keepsSound hw coordinatorExists)
  | confirm id => exact hsound (confirmMain_keepsSound hw id 3)
  | reconcileBoot => exact hsound (keepsSound_of_settles reconcileBoot_settles hw)

/-- A program that stops anywhere, in a write of a record as well, has stopped between two calls
against the environment the card now has. -/
theorem BoxProgram.refines {p : OsProg α} {y : World × Device} (hp : BoxProgram O p)
    (hw : w.Sound) (hd : Reads d w.env) (h : Stops (CardOutcome O) p (w, d) y) :
    BoxMoves O w y.1 ∧ Reads y.2 y.1.env ∧ History d y.2 := by
  have hmirror : Mirrors (w, d) w := ⟨rfl, hd⟩
  obtain ⟨t, hstop, rfl, hreads⟩ := (hp.keepsSound hw).simulates
    (fun _ _ _ _ _ hR hC hcall => hcall.mirrored hR hC) hmirror h
  refine ⟨⟨hp.moves hstop, ?_⟩, hreads, ?_⟩
  · cases hstop with
    | between hrun => exact .inl (runs_booted hrun)
    | within _ htorn => exact htorn.elim
  · cases h with
    | between hrun => exact runs_history hrun
    | within _ htorn => exact htorn.elim

theorem CardMoves.refines {y : World × Device} (hw : w.Sound) (hd : Reads d w.env)
    (h : CardMoves O (w, d) y) : BoxMoves O w y.1 ∧ Reads y.2 y.1.env ∧ History d y.2 := by
  cases h with
  | program hp h => exact hp.refines hw hd h
  | @boots _ w' _ d' env env' s hprints hboot h hreads hrest =>
    obtain rfl := hprints _ hd
    obtain ⟨haccepted, hselect, hlaunch⟩ := bootSlot_eq_some.mp hboot
    subst hlaunch
    have hboots : Boots w s w' := ⟨haccepted, hselect, hrest⟩
    exact ⟨⟨.boots s hboots, .inr ⟨s, hboots⟩⟩, hrest.env ▸ hreads, h.history⟩
  | @bootCut _ w' _ d' env env' last s hprints hboot h hnot hlast hrest =>
    obtain rfl := hprints _ hd
    obtain ⟨haccepted, hselect, hlaunch⟩ := bootSlot_eq_some.mp hboot
    have hp : env'.Printable := Env.printable (hlaunch ▸ Env.accepted_launch haccepted hselect)
    obtain ⟨hold, _⟩ := h.loses hd hp hnot
    obtain rfl := hlast _ hold
    refine ⟨⟨.elsewhere hrest.env (.inl hrest.journal), .inl hrest.booted⟩, ?_, h.history⟩
    exact hrest.env ▸ hold
  | @marks _ _ d' env last order left hprints horder hleft h hlast =>
    obtain rfl := hprints _ hd
    have hp : Env.Printable { w.env with bootOrder := order, left := left } :=
      Env.printable (Env.accepted_marked hw.env horder hleft)
    obtain hold | hnew := h.reads hd hp
    · obtain rfl := hlast _ hold
      exact ⟨⟨.elsewhere rfl (.inl rfl), .inl rfl⟩, hold, h.history⟩
    · obtain rfl := hlast _ hnew
      exact ⟨⟨.marks order left horder hleft rfl, .inl rfl⟩, hnew, h.history⟩
  | elsewhere henv hbooted hjournal =>
    exact ⟨⟨.elsewhere henv hjournal, .inl hbooted⟩, henv ▸ hd, .refl⟩

theorem BoxMoves.sound (h : BoxMoves O w w') (hw : w.Sound) : w'.Sound := h.1.sound hw

theorem card_run {y : World × Device} (hseed : Seeded w₀) (hd : Reads d₀ w₀.env)
    (hrun : Relation.ReflTransGen (CardMoves O) (w₀, d₀) y) :
    Relation.ReflTransGen (BoxMoves O) w₀ y.1 ∧ Reads y.2 y.1.env ∧ History d₀ y.2 ∧ y.1.Sound := by
  induction hrun with
  | refl => exact ⟨.refl, hd, .refl, hseed.sound⟩
  | @tail y z _ hmove ih =>
    obtain ⟨hbox, hreads, hhistory, hsound⟩ := ih
    obtain ⟨hstep, hreads', hhistory'⟩ := CardMoves.refines hsound hreads hmove
    exact ⟨hbox.tail hstep, hreads', hhistory.trans hhistory', hstep.sound hsound⟩

/-- Whatever the box has done to the two records, and wherever it was cut, is what it would have
done to one environment. -/
theorem card_refines (hseed : Seeded w₀) (hd : Reads d₀ w₀.env)
    (hrun : Relation.ReflTransGen (CardMoves O) (w₀, d₀) (w, d)) :
    Relation.ReflTransGen (BoxMoves O) w₀ w ∧ Reads d w.env ∧ History d₀ d := by
  obtain ⟨hbox, hreads, hhistory, _⟩ := card_run hseed hd hrun
  exact ⟨hbox, hreads, hhistory⟩

end Box

/-! ### A boot on the card -/

/-- What the sample card says. -/
def cardEnv : Env :=
  { sampleEnv with
    left := fun _ => 3, osFloor := 12, trustPolicy := ascii "\x7b\x7d",
    trustPolicySig := List.replicate 64 0, trustEpoch := 2 }

/-- The sample card with one attempt of slot A spent. -/
def launchedValues : List PlatformEnv.Entry := ⟨ascii "BOOT_A_LEFT", ascii "2"⟩ :: sampleValues.tail

def launchedView : PlatformEnv.View := ⟨launchedValues, 252, 7, 12, 2⟩

theorem storable_launched : Storable launchedValues launchedView where
  wellFormed := by decide +kernel
  length_le := by decide +kernel
  room := by decide +kernel
  fields := by decide +kernel

theorem card_reads : Reads (seedDevice sampleValues) cardEnv := by
  refine ⟨.b, sampleView, choose_seedDevice storable_sample, ?_, ?_⟩
  · refine ⟨⟨?_, fun s => by cases s <;> decide +kernel, ?_, ?_, ?_, ?_, ?_, ?_, ?_⟩, ?_, ?_, ?_, ?_⟩
    all_goals decide +kernel
  · exact ⟨by decide, by decide, by decide⟩

theorem stores_launched : Stores launchedValues (cardEnv.launch .a) := by
  refine ⟨⟨?_, fun s => by cases s <;> decide +kernel, ?_, ?_, ?_, ?_, ?_, ?_, ?_⟩, ?_, ?_, ?_, ?_⟩
  all_goals decide +kernel

/-- The loader's save of the launch of slot A is committed. -/
theorem launch_commits : ∃ d, Commits (seedDevice sampleValues) (cardEnv.launch .a) False d ∧
    Reads d (cardEnv.launch .a) := by
  have hparse : parse (seedRecord launchedValues 0) = .ok launchedView :=
    parse_seedRecord storable_launched 0
  have hexports : Exports (seedRecord launchedValues 0) (cardEnv.launch .a) := by
    intro _ v hv
    obtain rfl := Except.ok.inj (hparse.symm.trans hv)
    exact stores_launched
  have hfits : PlatformEnv.Fits sampleView launchedView :=
    ⟨by decide +kernel, by decide +kernel, by decide +kernel, by decide +kernel,
      by decide +kernel, by decide +kernel, by decide +kernel⟩
  obtain ⟨r, hnext⟩ := snapshot_next_complete (choose_seedDevice storable_sample)
    (Record.setCrc_crcValid _) hparse rfl hfits
  obtain ⟨outcome, d, hreturns, hop⟩ :=
    Op.terminates (.snapshot (seedRecord launchedValues 0)) (seedDevice sampleValues)
  obtain ⟨out, rfl⟩ := hop.of_ok hnext hreturns
  have hp : (cardEnv.launch .a).Printable := ⟨by decide, by decide, by decide⟩
  exact ⟨d, ⟨_, _, hexports, hop, fun h => h.elim⟩, (card_reads.op hexports hp hop).2 out rfl⟩

theorem card_refines_sample : ∃ d, Relation.ReflTransGen (BoxMoves sampleOracles)
    (sampleWorld cardEnv .a) (sampleWorld (cardEnv.launch .a) .a) ∧ Reads d (cardEnv.launch .a) ∧
      History (seedDevice sampleValues) d := by
  obtain ⟨d, hcommits, hreads⟩ := launch_commits
  have hseed : Seeded (sampleWorld cardEnv .a) :=
    ⟨⟨rfl, rfl, rfl, rfl, rfl, rfl, rfl⟩, by decide, by decide, rfl⟩
  have hboot : CardMoves sampleOracles (sampleWorld cardEnv .a, seedDevice sampleValues)
      (sampleWorld (cardEnv.launch .a) .a, d) :=
    .boots (s := .a) card_reads.printed (bootSlot_eq_some.mpr ⟨by decide, by decide, rfl⟩) hcommits
      hreads ⟨rfl, rfl, rfl, rfl, rfl, rfl, rfl, rfl, rfl, rfl, rfl⟩
  exact ⟨d, card_refines hseed card_reads (.single hboot)⟩

end Epilykos.OsUpdate
