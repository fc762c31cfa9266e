import Epilykos.OsUpdate.Download
import Epilykos.OsUpdate.Rules

/-!
Which entity the bytes of a part belong to. The validator is in the journal and the bytes
are in the part: a response that starts over writes the journal first and empties the part
after it, so in between the record names an entity the part holds no byte of.
-/

namespace Epilykos.OsUpdate

open Program World

/-! ### A server that changes -/

/-- The server may change between two requests, and any call may fail; what it serves under
one strong validator is one entity. A body may end early. -/
def Feeds (O : Oracles) (entityOf : String → Bytes) : Behaviour Host World := fun w c =>
  match c with
  | .openDownload _ resume => fun x w' => ∃ body, w' = { w with pouring := body } ∧
    ∀ r, x = .response r →
      (r.status = 200 → ∀ tag, r.validator = some tag → body = entityOf tag) ∧
      (r.status = 206 → ∀ start tag, resume = some (start, tag) →
        body = (entityOf tag).drop start)
  | .readChunk => fun x w' => w' = w ∧ (∀ data, x ≠ .bytes data) ∨
    ∃ data, x = .bytes data ∧ data <+: w.pouring ∧
      w' = { w with pouring := w.pouring.drop data.length }
  | c => Outcome O w c

/-- The bytes of the job's part. -/
def partOf (w : World) (id : JobId) : Bytes := (w.staging id).part.getD []

/-- The part of a job whose record names a validator holds bytes of that entity, from its
first byte on. -/
def Belongs (entityOf : String → Bytes) (w : World) : Prop :=
  ∀ job, w.journal = some job → ∀ tag, job.validator = some tag →
    partOf w job.id <+: entityOf tag

/-- A response that starts over with a validator meets a part that fits it. -/
def Fits (entityOf : String → Bytes) (w : World) : (c : HostCall) → Ans c → Prop
  | .openDownload _ _, .response r => r.status = 200 → ∀ tag, r.validator = some tag →
    ∀ job, w.journal = some job → partOf w job.id <+: entityOf tag
  | _, _ => True

/-- What the others leave as it is while one download runs. -/
structure SameDownload (w w' : World) : Prop where
  journal : w'.journal = w.journal
  staging : w'.staging = w.staging
  pouring : w'.pouring = w.pouring

/-- An attempt takes the job up from its record, and ends or is stopped at any call; what was
not yet on the disk may be lost; a new job has no validator. -/
inductive Attempt (W : Behaviour Host World) (w : World) : World → Prop
  | downloads {job : Job} {entry : Entry} {w' : World} {p : JobProg Job} :
      w.journal = some job → Runs SameDownload W (w, download job entry) (w', p) → Attempt W w w'
  | loses (id : JobId) (bytes : Bytes) : bytes <+: partOf w id →
      Attempt W w (w.setPart id fun s => { s with part := some bytes })
  | admits (job : Job) : job.validator = none → Attempt W w { w with journal := some job }

/-- Any number of attempts, with power cuts between them. -/
abbrev Attempts (W : Behaviour Host World) : World → World → Prop :=
  Relation.ReflTransGen (Attempt W)

/-- The runs in which every answer fits. -/
def Fitting (O : Oracles) (entityOf : String → Bytes) : Behaviour Host World := fun w c x w' =>
  Feeds O entityOf w c x w' ∧ Fits entityOf w c x

/-! ### What every call keeps -/

section Rules

variable {O : Oracles} {entityOf : String → Bytes} {w w' : World}

theorem SameDownload.refl (w : World) : SameDownload w w := ⟨rfl, rfl, rfl⟩

theorem SameDownload.partOf (h : SameDownload w w') (id : JobId) : partOf w' id = partOf w id := by
  rw [OsUpdate.partOf, h.staging, OsUpdate.partOf]

theorem SameDownload.belongs (h : SameDownload w w') (hw : Belongs entityOf w) :
    Belongs entityOf w' := by
  intro job hjob tag htag
  rw [h.partOf]
  exact hw job (h.journal ▸ hjob) tag htag

/-- The record names the job, and the part and the rest of the body make up its entity. -/
structure Tied (entityOf : String → Bytes) (job : Job) (w : World) : Prop where
  recorded : ∃ record, w.journal = some record ∧ record.id = job.id ∧
    record.validator = job.validator
  body : ∀ tag, job.validator = some tag → partOf w job.id ++ w.pouring = entityOf tag

/-- The record names the job, and its part fits. -/
structure Held (entityOf : String → Bytes) (job : Job) (w : World) : Prop where
  recorded : ∃ record, w.journal = some record ∧ record.id = job.id ∧
    record.validator = job.validator
  part : ∀ tag, job.validator = some tag → partOf w job.id <+: entityOf tag

theorem Tied.held {job : Job} (h : Tied entityOf job w) : Held entityOf job w :=
  ⟨h.recorded, fun tag htag => ⟨_, h.body tag htag⟩⟩

theorem Held.belongs {job : Job} (h : Held entityOf job w) : Belongs entityOf w := by
  obtain ⟨record, hrecord, hid, hvalidator⟩ := h.recorded
  intro record' hrecord' tag htag
  obtain rfl : record = record' := Option.some.inj (hrecord.symm.trans hrecord')
  rw [hid]
  exact h.part tag (hvalidator.symm.trans htag)

theorem Tied.same {job : Job} (hsame : SameDownload w w') (h : Tied entityOf job w) :
    Tied entityOf job w' := by
  refine ⟨hsame.journal ▸ h.recorded, fun tag htag => ?_⟩
  rw [hsame.partOf, hsame.pouring]
  exact h.body tag htag

theorem Held.same {job : Job} (hsame : SameDownload w w') (h : Held entityOf job w) :
    Held entityOf job w' := by
  refine ⟨hsame.journal ▸ h.recorded, fun tag htag => ?_⟩
  rw [hsame.partOf]
  exact h.part tag htag

/-- The part, once it is cut to the offset, and the body make up the job's entity. -/
structure Ready (entityOf : String → Bytes) (job : Job) (offset : ℕ) (w : World) : Prop where
  held : Held entityOf job w
  body : ∀ tag, job.validator = some tag →
    (partOf w job.id).take offset ++ w.pouring = entityOf tag

theorem Ready.same {job : Job} {offset : ℕ} (hsame : SameDownload w w')
    (h : Ready entityOf job offset w) : Ready entityOf job offset w' := by
  refine ⟨h.held.same hsame, fun tag htag => ?_⟩
  rw [hsame.partOf, hsame.pouring]
  exact h.body tag htag

/-- A block is read and not yet in the part. -/
structure Read (entityOf : String → Bytes) (job : Job) (data : Bytes) (w : World) : Prop where
  held : Held entityOf job w
  body : ∀ tag, job.validator = some tag →
    partOf w job.id ++ (data ++ w.pouring) = entityOf tag

theorem Read.same {job : Job} {data : Bytes} (hsame : SameDownload w w')
    (h : Read entityOf job data w) : Read entityOf job data w' := by
  refine ⟨h.held.same hsame, fun tag htag => ?_⟩
  rw [hsame.partOf, hsame.pouring]
  exact h.body tag htag

/-- How a transfer is interrupted: a lost connection leaves what the next attempt starts from. -/
def Interrupted (entityOf : String → Bytes) (job : Job) (e : Err × Job) (w : World) : Prop :=
  Belongs entityOf w ∧ (e.1 = .connection → e.2.id = job.id ∧ Held entityOf e.2 w)

theorem Held.interrupted {job : Job} {e : Err} (h : Held entityOf job w) :
    Interrupted entityOf job (e, job) w := ⟨h.belongs, fun _ => ⟨rfl, h⟩⟩

theorem Interrupted.same {job : Job} {e : Err × Job} (hsame : SameDownload w w')
    (h : Interrupted entityOf job e w) : Interrupted entityOf job e w' :=
  ⟨hsame.belongs h.1, fun hconnection => ⟨(h.2 hconnection).1, (h.2 hconnection).2.same hsame⟩⟩

/-- The safety of a part of the download, in the runs in which every answer fits. -/
abbrev Keeps (O : Oracles) (entityOf : String → Bytes) {ε α : Type} (p : Prog Host ε α)
    (Q : α → World → Prop) (E : ε → World → Prop) (w : World) : Prop :=
  Safe SameDownload (Fitting O entityOf) (fun t _ => Belongs entityOf t) p Q E w

/-- Wherever the program is stopped. -/
theorem keeps_belongs {ε α : Type} {p : Prog Host ε α} {Q : α → World → Prop}
    {E : ε → World → Prop} (h : Keeps O entityOf p Q E w) (hQ : ∀ a, Q a w → Belongs entityOf w)
    (hE : ∀ e, E e w → Belongs entityOf w) : Belongs entityOf w := by
  cases p with
  | ret a => exact hQ a h
  | raise e => exact hE e h
  | call c k => exact (h w (SameDownload.refl w)).1

theorem feeds_reads {c : HostCall} {x : Ans c} (hc : c.reads = true)
    (h : Feeds O entityOf w c x w') : w' = w := by
  cases c <;> first | exact World.Outcome.reads h rfl | cases hc

variable {ε α : Type} {Q : α → World → Prop} {E : ε → World → Prop} {I : World → Prop}

/-- A call that only looks keeps what does not depend on the others. -/
theorem keeps_look {c : HostCall} {k : Ans c → Prog Host ε α} (hc : c.reads = true)
    (hI : ∀ {t t'}, SameDownload t t' → I t → I t') (hbelongs : ∀ {t}, I t → Belongs entityOf t)
    (hw : I w) (h : ∀ x t, I t → Keeps O entityOf (k x) Q E t) :
    Keeps O entityOf (Prog.call (F := Host) c k) Q E w := by
  intro t hsame
  have ht := hI hsame hw
  refine ⟨hbelongs ht, fun x t' hx => ?_⟩
  obtain rfl := feeds_reads hc hx.1
  exact h x t' ht

/-- Any other exception ends the download. -/
theorem Belongs.interrupted {job raised : Job} {e : Err} (he : e ≠ .connection)
    (h : Belongs entityOf w) : Interrupted entityOf job (e, raised) w :=
  ⟨h, fun hconnection => (he hconnection).elim⟩

/-- The record is written, or the exception is no lost connection. -/
theorem save_keeps {raised job' : Job} {k : Unit → JobProg α} {E : Err × Job → World → Prop}
    (hE : ∀ {e t}, e ≠ .connection → Belongs entityOf t → E (e, raised) t)
    (hI : ∀ {t t'}, SameDownload t t' → I t → I t') (hbelongs : ∀ {t}, I t → Belongs entityOf t)
    (hsaved : ∀ {t}, I t → Belongs entityOf (t.effect (.writeJournal job'))) (hw : I w)
    (h : ∀ t, I t → Keeps O entityOf (k ()) Q E (t.effect (.writeJournal job'))) :
    Keeps O entityOf (withJob raised (save job') >>= k) Q E w := by
  intro t hsame
  have ht := hI hsame hw
  refine ⟨hbelongs ht, fun x t' hx => ?_⟩
  have hbelongs' : Belongs entityOf t' := by
    rcases hx.1.2 with rfl | ⟨rfl, _⟩
    · exact hsaved ht
    · exact hbelongs ht
  cases x with
  | done =>
    rcases hx.1.2 with rfl | ⟨_, hnot⟩
    · exact h t ht
    · exact (hnot rfl).elim
  | failed => exact hE (by simp) hbelongs'
  | noLayout => exact hE (by simp) hbelongs'

end Rules

/-! ### One transfer -/

section Transfer

variable {O : Oracles} {entityOf : String → Bytes} {w w' : World} {job : Job}

theorem partOf_setPart (w : World) (id : JobId) (f : Staging → Staging) :
    partOf (w.setPart id f) id = (f (w.staging id)).part.getD [] := by
  rw [partOf, setPart_part]

theorem Tied.saved (h : Tied entityOf job w) :
    Tied entityOf job (w.effect (.writeJournal (job.step .downloading))) :=
  ⟨⟨_, rfl, rfl, rfl⟩, h.body⟩

theorem Tied.read {data : Bytes} (h : Tied entityOf job w) (hdata : data <+: w.pouring) :
    Read entityOf job data { w with pouring := w.pouring.drop data.length } := by
  obtain ⟨rest, hrest⟩ := hdata
  refine ⟨⟨h.recorded, h.held.part⟩, fun tag htag => ?_⟩
  change partOf w job.id ++ (data ++ w.pouring.drop data.length) = _
  rw [← hrest, List.drop_left, hrest]
  exact h.body tag htag

/-- The block read goes to the end of the part. -/
theorem Read.append {data : Bytes} (h : Read entityOf job data w) :
    Tied entityOf job (w.effect (.appendPart job.id data)) := by
  refine ⟨h.held.recorded, fun tag htag => ?_⟩
  change partOf (w.setPart job.id fun s => { s with part := some (s.part.getD [] ++ data) })
    job.id ++ w.pouring = _
  rw [partOf_setPart]
  change (partOf w job.id ++ data) ++ w.pouring = _
  rw [List.append_assoc]
  exact h.body tag htag

theorem append_keeps {data : Bytes} {α : Type} {k : Unit → JobProg α} {Q : α → World → Prop}
    (h : Read entityOf job data w)
    (hnext : ∀ t, Tied entityOf job t → Keeps O entityOf (k ()) Q (Interrupted entityOf job) t) :
    Keeps O entityOf (query (.appendPart job.id data) >>= fun x =>
      Prog.raiseIf ((!x) = true) (.os, job) >>= k) Q (Interrupted entityOf job) w := by
  intro t hsame
  have ht := h.same hsame
  refine ⟨ht.held.belongs, fun x t' hx => ?_⟩
  cases x with
  | true =>
    rcases hx.1.2 with rfl | ⟨_, hnot⟩
    · exact hnext _ ht.append
    · exact (hnot rfl).elim
  | false =>
    rcases hx.1.2 with rfl | ⟨rfl, _⟩
    · exact ht.append.held.interrupted
    · exact ht.held.interrupted

theorem pour_keeps {size fuel got : ℕ} (h : Tied entityOf job w) :
    Keeps O entityOf (pour job size fuel got) (fun _ t => Tied entityOf job t)
      (Interrupted entityOf job) w := by
  induction fuel generalizing got w with
  | zero => exact h.held.interrupted
  | succ fuel ih =>
    refine keeps_look rfl Tied.same (fun ht => ht.held.belongs) h fun x t ht => ?_
    change Keeps O entityOf (Prog.raiseIf ((x == some job.id) = true) _ >>= _) _ _ t
    refine Safe.bind (safe_raiseIf.mpr ⟨fun _ => ht.held.interrupted, fun _ => ?_⟩)
    intro t₁ hsame
    have ht₁ := ht.same hsame
    refine ⟨ht₁.held.belongs, fun x t₂ hx => ?_⟩
    rcases hx.1 with ⟨rfl, hnone⟩ | ⟨data, rfl, hdata, rfl⟩
    · cases x with
      | bytes data => exact (hnone data rfl).elim
      | connection => exact ht₁.held.interrupted
      | failed => exact ht₁.held.interrupted
    · simp only [Prog.bind_ret]
      have hread := ht₁.read hdata
      by_cases hnil : data = []
      · subst hnil
        rw [if_pos rfl]
        exact ht₁
      · rw [if_neg hnil]
        refine Safe.bind (safe_raiseIf.mpr ⟨fun _ => hread.held.interrupted, fun _ => ?_⟩)
        refine append_keeps hread fun t₃ ht₃ => ?_
        refine keeps_look rfl Tied.same (fun ht => ht.held.belongs) ht₃ fun passed t₄ ht₄ => ?_
        cases passed with
        | false => exact ih ht₄
        | true =>
          refine keeps_look rfl Tied.same (fun ht => ht.held.belongs) ht₄ fun refusal t₅ ht₅ => ?_
          cases refusal with
          | some refusal => exact ht₅.held.interrupted
          | none =>
            exact save_keeps Belongs.interrupted Tied.same (fun ht => ht.held.belongs) (fun ht => ht.saved.held.belongs)
              ht₅ fun t₆ ht₆ => ih ht₆.saved

/-- What a transfer that ends well leaves. -/
def Taken (entityOf : String → Bytes) (job job' : Job) (w : World) : Prop :=
  job'.id = job.id ∧ Held entityOf job' w

/-- The part is cut to where the response starts. -/
theorem Ready.opened {offset : ℕ} (h : Ready entityOf job offset w) :
    Tied entityOf job (w.effect (.openPart job.id offset)) := by
  refine ⟨h.held.recorded, fun tag htag => ?_⟩
  change partOf (w.setPart job.id fun s => { s with part := some ((s.part.getD []).take offset) })
    job.id ++ w.pouring = _
  rw [partOf_setPart]
  exact h.body tag htag

theorem Held.opened (h : Held entityOf job w) (offset : ℕ) :
    Held entityOf job (w.effect (.openPart job.id offset)) := by
  refine ⟨h.recorded, fun tag htag => ?_⟩
  change partOf (w.setPart job.id fun s => { s with part := some ((s.part.getD []).take offset) })
    job.id <+: _
  rw [partOf_setPart]
  exact (List.take_prefix _ _).trans (h.part tag htag)

theorem openPart_keeps {offset : ℕ} {α : Type} {k : Unit → JobProg α} {Q : α → World → Prop}
    {I : World → Prop} (hI : ∀ {t t'}, SameDownload t t' → I t → I t')
    (hheld : ∀ {t}, I t → Held entityOf job t) (hw : I w)
    (hnext : ∀ t, I t → Keeps O entityOf (k ()) Q (Interrupted entityOf job)
      (t.effect (.openPart job.id offset))) :
    Keeps O entityOf (query (.openPart job.id offset) >>= fun x =>
      Prog.raiseIf ((!x) = true) (.os, job) >>= k) Q (Interrupted entityOf job) w := by
  intro t hsame
  have ht := hI hsame hw
  refine ⟨(hheld ht).belongs, fun x t' hx => ?_⟩
  cases x with
  | false =>
    rcases hx.1.2 with rfl | ⟨rfl, _⟩
    · exact ((hheld ht).opened offset).interrupted
    · exact (hheld ht).interrupted
  | true =>
    rcases hx.1.2 with rfl | ⟨_, hnot⟩
    · exact hnext t ht
    · exact (hnot rfl).elim

theorem takeIn_keeps {size offset : ℕ} (h : Ready entityOf job offset w) :
    Keeps O entityOf (takeIn job size offset) (Taken entityOf job) (Interrupted entityOf job) w := by
  refine openPart_keeps Ready.same Ready.held h fun t ht => ?_
  refine Safe.bind (Safe.ensure ?_)
  refine (pour_keeps ht.opened).mono (fun got t₁ ht₁ => ?_) fun e t₁ ht₁ => ?_
  · refine keeps_look rfl Tied.same (fun ht => ht.held.belongs) ht₁ fun closed t₂ ht₂ => ?_
    refine safe_raiseIf.mpr ⟨fun _ => ht₂.held.interrupted, fun _ => ?_⟩
    refine Safe.bind (safe_raiseIf.mpr ⟨fun _ => ht₂.held.interrupted, fun _ => ?_⟩)
    exact save_keeps Belongs.interrupted Tied.same (fun ht => ht.held.belongs) (fun ht => ht.saved.held.belongs) ht₂
      fun t₃ ht₃ => ⟨rfl, ht₃.saved.recorded, ht₃.saved.held.part⟩
  · refine keeps_look rfl Interrupted.same (fun ht => ht.1) ht₁ fun closed t₂ ht₂ => ?_
    exact safe_raiseIf.mpr ⟨fun _ => ⟨ht₂.1, fun hconnection => by cases hconnection⟩, fun _ => ht₂⟩

/-- A response that starts over: its body is the entity of its validator, and the part still
holds bytes that fit it. -/
structure Fresh (entityOf : String → Bytes) (job : Job) (validator : Option String)
    (w : World) : Prop where
  held : Held entityOf job w
  fits : ∀ tag, validator = some tag → partOf w job.id <+: entityOf tag
  body : ∀ tag, validator = some tag → w.pouring = entityOf tag

theorem Fresh.same {validator : Option String} (hsame : SameDownload w w')
    (h : Fresh entityOf job validator w) : Fresh entityOf job validator w' := by
  refine ⟨h.held.same hsame, fun tag htag => ?_, fun tag htag => ?_⟩
  · rw [hsame.partOf]
    exact h.fits tag htag
  · rw [hsame.pouring]
    exact h.body tag htag

/-- The record with the new validator. -/
theorem Fresh.ready {validator : Option String} (h : Fresh entityOf job validator w) :
    Ready entityOf { job with validator } 0
      (w.effect (.writeJournal { job with validator })) :=
  ⟨⟨⟨_, rfl, rfl, rfl⟩, h.fits⟩, h.body⟩

/-- What the job and the response must agree on, for each kind of answer. -/
structure Answered (entityOf : String → Bytes) (job : Job) (offset : ℕ) (r : Response)
    (w : World) : Prop where
  held : Held entityOf job w
  fresh : r.status = 200 → Fresh entityOf job r.validator w
  resumed : offset ≠ 0 → r.status = 206 → Ready entityOf job offset w

theorem responseStart_keeps {entry : Entry} {offset : ℕ} {r : Response}
    (h : Answered entityOf job offset r w) :
    Keeps O entityOf (responseStart job entry.bundleSize offset r >>= fun start =>
        takeIn start.1 entry.bundleSize start.2)
      (Taken entityOf job) (Interrupted entityOf job) w := by
  rw [responseStart]
  by_cases hranged : offset ≠ 0 ∧ r.status = 206
  · rw [if_pos hranged]
    have hready := h.resumed hranged.1 hranged.2
    by_cases hrange : r.contentRange = some (offset, entry.bundleSize - 1, entry.bundleSize)
    · rw [if_pos hrange]
      exact takeIn_keeps hready
    · rw [if_neg hrange]
      simp only [Prog.bind_assoc]
      exact openPart_keeps Held.same (fun ht => ht) h.held fun t ht => (ht.opened 0).interrupted
  · rw [if_neg hranged]
    by_cases hwhole : r.status = 200
    · rw [if_pos hwhole]
      simp only [Prog.bind_assoc]
      refine save_keeps Belongs.interrupted Fresh.same (fun ht => ht.held.belongs) (fun ht => ht.ready.held.belongs)
        (h.fresh hwhole) fun t ht => ?_
      have htaken : Keeps O entityOf (takeIn { job with validator := r.validator } entry.bundleSize 0)
        _ _ _ := takeIn_keeps ht.ready
      exact htaken
    · rw [if_neg hwhole]
      exact h.held.interrupted

/-- The offset asked for is the length of the part. -/
structure Asking (entityOf : String → Bytes) (job : Job) (offset : ℕ) (w : World) : Prop where
  held : Held entityOf job w
  length : offset ≠ 0 → offset = (partOf w job.id).length

theorem Asking.same {offset : ℕ} (hsame : SameDownload w w') (h : Asking entityOf job offset w) :
    Asking entityOf job offset w' := by
  refine ⟨h.held.same hsame, fun hoffset => ?_⟩
  rw [hsame.partOf]
  exact h.length hoffset

/-- The answer of the server, and what the job can make of it. -/
theorem Asking.answered {offset : ℕ} {url : String} {r : Response} (h : Asking entityOf job offset w)
    (hx : Fitting O entityOf w (.openDownload url
      ((job.validator.filter fun _ => offset ≠ 0).map fun v => (offset, v))) (.response r) w') :
    Answered entityOf job
      (if (job.validator.filter fun _ => offset ≠ 0).isSome then offset else 0) r w' := by
  obtain ⟨⟨body, rfl, hbody⟩, hfits⟩ := hx
  obtain ⟨hwhole, hranged⟩ := hbody r rfl
  refine ⟨⟨h.held.recorded, h.held.part⟩, fun hstatus => ?_, fun hoffset hstatus => ?_⟩
  · refine ⟨⟨h.held.recorded, h.held.part⟩, fun tag htag => ?_, hwhole hstatus⟩
    obtain ⟨record, hrecord, hid, _⟩ := h.held.recorded
    rw [← hid]
    exact hfits hstatus tag htag record hrecord
  · by_cases hsome : (job.validator.filter fun _ => decide (offset ≠ 0)).isSome = true
    · rw [if_pos hsome] at hoffset ⊢
      refine ⟨⟨h.held.recorded, h.held.part⟩, fun tag htag => ?_⟩
      obtain ⟨rest, hrest⟩ := h.held.part tag htag
      have hresume : job.validator.filter (fun _ => decide (offset ≠ 0)) = some tag := by
        rw [htag, Option.filter_some, if_pos (by simpa using hoffset)]
      rw [hresume] at hranged
      have hlength := h.length hoffset
      change (partOf w job.id).take offset ++ body = _
      rw [hranged hstatus offset tag rfl, ← hrest, hlength, List.take_length, List.drop_left]
    · rw [if_neg hsome] at hoffset
      exact (hoffset rfl).elim

theorem transferAt_keeps {entry : Entry} {offset : ℕ} (h : Asking entityOf job offset w) :
    Keeps O entityOf (transferAt job entry offset) (Taken entityOf job)
      (Interrupted entityOf job) w := by
  intro t hsame
  have ht := h.same hsame
  refine ⟨ht.held.belongs, fun x t' hx => ?_⟩
  cases x with
  | response r => exact responseStart_keeps (ht.answered hx)
  | connection =>
    obtain ⟨⟨body, rfl, _⟩, _⟩ := hx
    exact Held.interrupted ⟨ht.held.recorded, ht.held.part⟩
  | failed =>
    obtain ⟨⟨body, rfl, _⟩, _⟩ := hx
    exact Held.interrupted ⟨ht.held.recorded, ht.held.part⟩

theorem transfer_keeps {entry : Entry} (h : Held entityOf job w) :
    Keeps O entityOf (transfer job entry) (Taken entityOf job) (Interrupted entityOf job) w := by
  intro t hsame
  have ht := h.same hsame
  refine ⟨ht.belongs, fun x t' hx => ?_⟩
  obtain rfl : t' = t := feeds_reads rfl hx.1
  cases x with
  | none => exact ht.interrupted
  | some found =>
    change Keeps O entityOf (transferAt job entry (if entry.bundleSize < found then 0 else found))
      _ _ _
    have hfound : found = (partOf t' job.id).length := by
      rcases hx.1.1 with hnone | hsome
      · cases hnone
      · exact Option.some.inj hsome
    refine transferAt_keeps ⟨ht, fun hoffset => ?_⟩
    by_cases hlarge : entry.bundleSize < found
    · rw [if_pos hlarge] at hoffset
      exact (hoffset rfl).elim
    · rw [if_neg hlarge]
      exact hfound

/-- Each attempt starts from what the one before left. -/
theorem attempts_keeps {entry : Entry} {n : ℕ} (h : Held entityOf job w) :
    Keeps O entityOf (attempts entry n job) (Taken entityOf job)
      (fun _ t => Belongs entityOf t) w := by
  induction n generalizing job w with
  | zero => exact h.belongs
  | succ n ih =>
    refine Safe.tryCatch ((transfer_keeps h).mono (fun _ _ ht => ht) ?_)
    intro e t ht
    obtain ⟨e, job'⟩ := e
    change Keeps O entityOf (if e = .connection then attempts entry n job' else Prog.raise (e, job'))
      _ _ t
    by_cases hconnection : e = .connection
    · rw [if_pos hconnection]
      obtain ⟨hid, hheld⟩ := ht.2 hconnection
      exact (ih hheld).mono (fun _ _ htaken => ⟨htaken.1.trans hid, htaken.2⟩) fun _ _ ht => ht
    · rw [if_neg hconnection]
      exact ht.1

end Transfer

/-! ### Whole runs -/

section Runs

variable {O : Oracles} {entityOf : String → Bytes} {w w' : World} {job : Job}

theorem renamed_keeps (h : Held entityOf job w) :
    Keeps O entityOf (renamed job) (fun _ t => Belongs entityOf t) (fun _ t => Belongs entityOf t)
      w := by
  intro t hsame
  have ht := h.same hsame
  refine ⟨ht.belongs, fun x t' hx => ?_⟩
  have hbelongs : Belongs entityOf t' := by
    rcases hx.1.2 with rfl | ⟨rfl, _⟩
    · refine @Held.belongs entityOf _ job ⟨ht.recorded, fun tag _ => ?_⟩
      change partOf (t.setPart job.id fun s => { part := none, final := s.part }) job.id <+: _
      rw [partOf_setPart]
      exact List.nil_prefix
    · exact ht.belongs
  cases x <;> exact hbelongs

theorem download_keeps {entry : Entry} (hjob : w.journal = some job) (hw : Belongs entityOf w) :
    Keeps O entityOf (download job entry) (fun _ t => Belongs entityOf t)
      (fun _ t => Belongs entityOf t) w := by
  have hheld : Held entityOf job w := ⟨⟨job, hjob, rfl, rfl⟩, hw job hjob⟩
  refine keeps_look rfl Held.same Held.belongs hheld fun made t ht => ?_
  cases made with
  | failed => exact ht.belongs
  | noLayout => exact ht.belongs
  | done =>
    refine keeps_look rfl Held.same Held.belongs ht fun size t₁ ht₁ => ?_
    change Keeps O entityOf (if size = some entry.bundleSize then Prog.ret job else _) _ _ t₁
    by_cases hthere : size = some entry.bundleSize
    · rw [if_pos hthere]
      exact ht₁.belongs
    · rw [if_neg hthere]
      refine keeps_look rfl Held.same Held.belongs ht₁ fun found t₂ ht₂ => ?_
      change Keeps O entityOf (Prog.raiseIf (found = none) _ >>= _) _ _ t₂
      refine Safe.bind (safe_raiseIf.mpr ⟨fun _ => ht₂.belongs, fun _ => ?_⟩)
      have hsaved : ∀ {t}, Held entityOf job t → Held entityOf (job.step .downloading)
          (t.effect (.writeJournal (job.step .downloading))) := fun ht =>
        ⟨⟨_, rfl, rfl, rfl⟩, ht.part⟩
      refine save_keeps (fun _ ht => ht) Held.same Held.belongs (fun ht => (hsaved ht).belongs) ht₂
        fun t₃ ht₃ => Safe.bind ?_
      exact (attempts_keeps (hsaved ht₃)).mono (fun _ _ htaken => renamed_keeps htaken.2)
        fun _ _ ht => ht

/-- Wherever an attempt is stopped. -/
theorem attempt_belongs (hw : Belongs entityOf w) (h : Attempt (Fitting O entityOf) w w') :
    Belongs entityOf w' := by
  cases h with
  | downloads hjob hrun =>
    have hsafe : Keeps O entityOf _ _ _ w' := (download_keeps hjob hw).runs hrun
    exact keeps_belongs hsafe (fun _ ht => ht) fun _ ht => ht
  | loses id bytes hlost =>
    intro job hjob tag htag
    by_cases hid : job.id = id
    · subst hid
      rw [partOf_setPart]
      exact hlost.trans (hw job hjob tag htag)
    · have hother : partOf (w.setPart id fun s => { s with part := some bytes }) job.id =
          partOf w job.id := by
        rw [partOf, partOf, setPart]
        simp [Function.update_of_ne hid]
      rw [hother]
      exact hw job hjob tag htag
  | admits job hnone =>
    intro job' hjob tag htag
    cases hjob
    rw [hnone] at htag
    cases htag

/-- In every run in which a response that starts over meets a part that fits its validator,
the part belongs to the validator recorded, in every state reached. -/
theorem resumed_belongs {O : Oracles} {entityOf : String → Bytes} {w w' : World}
    (hw : Belongs entityOf w) (hreach : Attempts (Fitting O entityOf) w w') :
    Belongs entityOf w' := by
  induction hreach with
  | refl => exact hw
  | tail _ hstep ih => exact attempt_belongs ih hstep

end Runs

/-! ### One entity's bytes under another's validator -/

/-- A server of one entity, in blocks of two bytes. -/
def serving (O : Oracles) (entityOf : String → Bytes) (tag : String) (w : World) :
    (c : HostCall) → Ans c × World
  | .openDownload _ resume => ((reply (entityOf tag) tag resume).1,
    { w with pouring := (reply (entityOf tag) tag resume).2 })
  | .readChunk => (.bytes (w.pouring.take 2), { w with pouring := w.pouring.drop 2 })
  | c => serve O w c

/-- The same server behind a line that fails where the part does not fit its entity. -/
def fitting (O : Oracles) (entityOf : String → Bytes) (tag : String) (w : World) :
    (c : HostCall) → Ans c × World
  | .openDownload url resume =>
    if (w.journal.elim [] fun job => partOf w job.id) <+: entityOf tag then
      serving O entityOf tag w (.openDownload url resume)
    else (.connection, w)
  | c => serving O entityOf tag w c

theorem reply_feeds (entityOf : String → Bytes) (tag : String) (resume : Option (ℕ × String))
    (r : Response) (hr : (reply (entityOf tag) tag resume).1 = .response r) :
    (r.status = 200 → ∀ t, r.validator = some t →
        (reply (entityOf tag) tag resume).2 = entityOf t) ∧
      (r.status = 206 → ∀ start t, resume = some (start, t) →
        (reply (entityOf tag) tag resume).2 = (entityOf t).drop start) := by
  cases resume with
  | none =>
    cases hr
    refine ⟨fun _ t ht => ?_, fun hstatus => by cases hstatus⟩
    cases ht
    rfl
  | some asked =>
    obtain ⟨start, ifRange⟩ := asked
    by_cases htag : ifRange = tag
    · subst htag
      by_cases hinside : start < (entityOf ifRange).length
      · rw [reply_inside ifRange hinside] at hr ⊢
        cases hr
        refine ⟨fun hstatus => (by cases hstatus), fun _ start' t ht => ?_⟩
        cases ht
        rfl
      · rw [reply_past ifRange (Nat.not_lt.mp hinside)] at hr
        cases hr
    · have hwhole : reply (entityOf tag) tag (some (start, ifRange)) =
          reply (entityOf tag) tag none := if_pos htag
      rw [hwhole] at hr ⊢
      cases hr
      refine ⟨fun _ t ht => ?_, fun hstatus => by cases hstatus⟩
      cases ht
      rfl

theorem reply_validator {entity : Bytes} {tag : String} {resume : Option (ℕ × String)}
    {r : Response} (hr : (reply entity tag resume).1 = .response r) : r.validator = some tag := by
  cases resume with
  | none =>
    cases hr
    rfl
  | some asked =>
    simp only [reply] at hr
    split_ifs at hr <;> cases hr <;> rfl

theorem serving_feeds (O : Oracles) (entityOf : String → Bytes) (tag : String) :
    Follows (F := Host) (serving O entityOf tag) (Feeds O entityOf) := by
  intro w c
  cases c with
  | openDownload url resume => exact ⟨_, rfl, reply_feeds entityOf tag resume⟩
  | readChunk =>
    refine Or.inr ⟨_, rfl, List.take_prefix _ _, ?_⟩
    change ({ w with pouring := w.pouring.drop 2 } : World) = _
    congr 1
    rcases w.pouring with _ | ⟨a, _ | ⟨b, rest⟩⟩ <;> rfl
  | _ => exact World.serve_follows O w _

theorem fitting_fits (O : Oracles) (entityOf : String → Bytes) (tag : String) :
    Follows (F := Host) (fitting O entityOf tag) (Fitting O entityOf) := by
  intro w c
  cases c with
  | openDownload url resume =>
    by_cases hfits : (w.journal.elim [] fun job => partOf w job.id) <+: entityOf tag
    · have hserved : fitting O entityOf tag w (.openDownload url resume) =
          serving O entityOf tag w (.openDownload url resume) := if_pos hfits
      rw [hserved]
      refine ⟨serving_feeds O entityOf tag w _, ?_⟩
      cases hr : (reply (entityOf tag) tag resume).1 with
      | response r =>
        change Fits entityOf w (.openDownload url resume) (reply (entityOf tag) tag resume).1
        rw [hr]
        intro _ t ht job hjob
        obtain rfl : tag = t := Option.some.inj ((reply_validator hr).symm.trans ht)
        rw [hjob] at hfits
        exact hfits
      | _ =>
        change Fits entityOf w (.openDownload url resume) (reply (entityOf tag) tag resume).1
        rw [hr]
        trivial
    · have hlost : fitting O entityOf tag w (.openDownload url resume) = (.connection, w) :=
        if_neg hfits
      rw [hlost]
      exact ⟨⟨_, rfl, fun r hr => by cases hr⟩, trivial⟩
  | _ => exact ⟨serving_feeds O entityOf tag w _, trivial⟩

/-- Two packages the server has in turn. -/
def sampleEntity (tag : String) : Bytes := if tag = "v1" then [1, 2, 3] else [4, 5, 6]

/-- A job that has downloaded nothing yet. -/
def freshWorld : World := { sampleWorld sampleEnv .a with journal := some (sampleJob .downloading) }

/-- The job as its record has it. -/
def recordOf (w : World) : Job := w.journal.getD (sampleJob .downloading)

/-- The download is taken up and stopped after so many calls. -/
def attempted (handler : World → (c : HostCall) → Ans c × World) (n : ℕ) (w : World) : World :=
  ((download (recordOf w) sampleEntry).after handler n w).1

theorem attempted_step {W : Behaviour Host World}
    {handler : World → (c : HostCall) → Ans c × World} (hW : Follows (F := Host) handler W) (n : ℕ)
    {w : World} (hjob : w.journal = some (recordOf w)) : Attempt W w (attempted handler n w) := by
  refine .downloads hjob ((runs_after hW n _ _).weaken ?_)
  rintro t _ rfl
  exact SameDownload.refl t

/-- Two bytes of the first package are there. -/
def twoBytes : World := attempted (serving sampleOracles sampleEntity "v1") 11 freshWorld

/-- The server has another package now: its validator is recorded, and the power goes. -/
def torn : World := attempted (serving sampleOracles sampleEntity "v2") 7 twoBytes

/-- Resuming where the record and the part agree. -/
def resumed : World := attempted (fitting sampleOracles sampleEntity "v1") 11
  (attempted (fitting sampleOracles sampleEntity "v1") 11 freshWorld)

theorem resumed_belongs_sample : Belongs sampleEntity resumed := by
  have hstart : Belongs sampleEntity freshWorld := by
    intro job hjob tag htag
    cases hjob
    cases htag
  have hfits := fitting_fits sampleOracles sampleEntity "v1"
  exact resumed_belongs hstart
    ((Relation.ReflTransGen.single (attempted_step hfits 11 rfl)).tail (attempted_step hfits 11 rfl))

/-- The part holds bytes of the first package under the validator of the second, and the next
download returns with a mixture of both. -/
theorem torn_mixes : Belongs sampleEntity freshWorld ∧
    Attempts (Feeds sampleOracles sampleEntity) freshWorld torn ∧ ¬ Belongs sampleEntity torn ∧
    (((download (recordOf torn) sampleEntry).run (serving sampleOracles sampleEntity "v2")
      torn).2.staging sampleId).final = some [1, 2, 6] := by
  have hfeeds := serving_feeds sampleOracles sampleEntity
  refine ⟨?_, ?_, ?_, by rfl⟩
  · intro job hjob tag htag
    cases hjob
    cases htag
  · exact (Relation.ReflTransGen.single (attempted_step (hfeeds "v1") 11 rfl)).tail
      (attempted_step (hfeeds "v2") 7 rfl)
  · intro hbelongs
    have hpart := hbelongs (recordOf torn) rfl "v2" rfl
    revert hpart
    decide +kernel

end Epilykos.OsUpdate
