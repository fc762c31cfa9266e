import Epilykos.OsUpdate.Worker

/-!
The download against a server that has one entity, answers as it should and never fails.
Wherever an earlier attempt was cut, the part is completed, except where it already holds
every byte: then no byte is left to ask for, and the server refuses the range.
-/

namespace Epilykos.OsUpdate

open Program World

/-! ### The server -/

/-- The answer to a request, with the body it comes with. -/
def reply (entity : Bytes) (tag : String) : Option (ℕ × String) → Opened × Bytes
  | none => (.response { status := 200, contentRange := none, validator := some tag }, entity)
  | some (start, ifRange) =>
    if ifRange ≠ tag then
      (.response { status := 200, contentRange := none, validator := some tag }, entity)
    else if start < entity.length then
      (.response { status := 206, contentRange := some (start, entity.length - 1, entity.length),
                   validator := some tag }, entity.drop start)
    -- 416, which urlopen raises as an HTTPError, a URLError
    else (.connection, [])

theorem reply_inside {entity : Bytes} {start : ℕ} (tag : String) (h : start < entity.length) :
    reply entity tag (some (start, tag)) =
      (.response { status := 206, contentRange := some (start, entity.length - 1, entity.length),
                   validator := some tag }, entity.drop start) := by
  simp [reply, h]

theorem reply_past {entity : Bytes} {start : ℕ} (tag : String) (h : entity.length ≤ start) :
    reply entity tag (some (start, tag)) = (.connection, []) := by
  simp [reply, h]

/-- The server, and the host on which everything else works. A body comes in blocks of any
size; only its end is an empty one. -/
def Conforms (O : Oracles) (entity : Bytes) (tag : String) : Behaviour Host World := fun w c =>
  match c with
  | .openDownload _ resume => fun x w' =>
    x = (reply entity tag resume).1 ∧ w' = { w with pouring := (reply entity tag resume).2 }
  | .readChunk => fun x w' => ∃ data, x = .bytes data ∧ data <+: w.pouring ∧
    (data = [] → w.pouring = []) ∧ w' = { w with pouring := w.pouring.drop data.length }
  | .secondsPassed => fun _ w' => w' = w
  | c => fun x w' => x = answer O w c ∧ w' = w.effect c

/-- A download that ends well or badly, alone on such a host. -/
abbrev Downloads (O : Oracles) (entity : Bytes) (tag : String) {ε α : Type} (p : Prog Host ε α)
    (Q : α → World → Prop) (E : ε → World → Prop) (w : World) : Prop :=
  Safe (· = ·) (Conforms O entity tag) (fun _ _ => True) p Q E w

/-- A call that is no business of the server's. -/
theorem downloads_call {O : Oracles} {entity : Bytes} {tag : String} {ε α : Type} {c : HostCall}
    {k : Ans c → Prog Host ε α} {Q : α → World → Prop} {E : ε → World → Prop} {w : World}
    (hc : ∀ x w', Conforms O entity tag w c x w' → x = answer O w c ∧ w' = w.effect c)
    (h : Downloads O entity tag (k (answer O w c)) Q E (w.effect c)) :
    Downloads O entity tag (Prog.call (F := Host) c k) Q E w := by
  refine safe_call.mpr ⟨trivial, fun x w' hx => ?_⟩
  obtain ⟨rfl, rfl⟩ := hc x w' hx
  exact h

/-! ### One transfer -/

/-- So much of the entity is in the part, and the rest is still to come. -/
structure Poured (entity : Bytes) (job : Job) (got : ℕ) (w : World) : Prop where
  part : (w.staging job.id).part = some (entity.take got)
  rest : w.pouring = entity.drop got
  wanted : w.cancel ≠ some job.id

section Transfer

variable {O : Oracles} {entity : Bytes} {tag : String} {job : Job}

theorem setPart_part (w : World) (id : JobId) (f : Staging → Staging) :
    (w.setPart id f).staging id = f (w.staging id) := by
  simp [setPart]

/-- A block more. -/
theorem Poured.append {got : ℕ} {w : World} {data : Bytes} (h : Poured entity job got w)
    (hdata : data <+: w.pouring) :
    Poured entity job (got + data.length)
      (({ w with pouring := w.pouring.drop data.length } : World).effect
        (.appendPart job.id data)) where
  part := by
    have hpart : (w.staging job.id).part.getD [] = entity.take got := by rw [h.part]; rfl
    have hblock : data = (entity.drop got).take data.length := by
      rw [← h.rest]
      exact List.prefix_iff_eq_take.mp hdata
    change ((w.setPart job.id fun s => _).staging job.id).part = _
    rw [setPart_part, hpart, List.take_add, ← hblock]
  rest := by
    change w.pouring.drop data.length = _
    rw [h.rest, List.drop_drop]
  wanted := h.wanted

/-- Enough blocks are asked for, and the part is completed. -/
theorem pour_downloads {fuel got : ℕ} {w : World} (h : Poured entity job got w)
    (hgot : got ≤ entity.length) (hfuel : entity.length - got < fuel) :
    Downloads O entity tag (pour job entity.length fuel got)
      (fun n t => n = entity.length ∧ (t.staging job.id).part = some entity) (fun _ _ => False) w := by
  induction fuel generalizing got w with
  | zero => omega
  | succ fuel ih =>
    refine downloads_call (fun _ _ hx => hx) ?_
    have hwanted : ¬ (w.cancel == some job.id) = true := by simpa using h.wanted
    change Downloads O entity tag (Prog.raiseIf ((w.cancel == some job.id) = true) _ >>= _) _ _ w
    rw [Prog.raiseIf_neg hwanted, Prog.ret_bind]
    refine safe_call.mpr ⟨trivial, ?_⟩
    rintro _ w' ⟨data, rfl, hdata, hend, rfl⟩
    by_cases hnil : data = []
    · have hall : entity.drop got = [] := h.rest ▸ hend hnil
      have hlength : entity.length ≤ got := List.drop_eq_nil_iff.mp hall
      simp only [Prog.bind_ret, if_pos hnil]
      refine ⟨by omega, ?_⟩
      exact h.part.trans (by rw [List.take_of_length_le hlength])
    · have hmore : 0 < data.length := List.length_pos_iff.mpr hnil
      have hfits : got + data.length ≤ entity.length := by
        have := hdata.length_le
        rw [h.rest, List.length_drop] at this
        omega
      simp only [Prog.bind_ret, if_neg hnil]
      rw [Prog.raiseIf_neg (by omega), Prog.ret_bind]
      refine downloads_call (fun _ _ hx => hx) ?_
      have hnext := h.append hdata
      rw [Prog.bind_ret, Prog.raiseIf_neg (by simp [answer]), Prog.ret_bind]
      refine safe_call.mpr ⟨trivial, fun passed w' hw' => ?_⟩
      obtain rfl : w' = _ := hw'
      have hrest : Downloads O entity tag
          (pour job entity.length fuel (got + data.length)) _ _ _ :=
        ih (by exact hnext) hfits (by omega)
      cases passed with
      | false => exact hrest
      | true =>
        refine downloads_call (fun _ _ hx => hx) ?_
        refine downloads_call (fun _ _ hx => hx) ?_
        exact ih ⟨hnext.part, hnext.rest, hnext.wanted⟩ hfits (by omega)

/-- What follows a response, from where it starts. -/
def takeIn (job : Job) (size offset : ℕ) : JobProg Job := do
  .raiseIf (!(← query (.openPart job.id offset))) (.os, job)
  let got ← Prog.ensure (pour job size (size + 1 - offset) offset) do
    .raiseIf (!(← query (.closePart job.id))) (.os, job)
  .raiseIf (got ≠ size) (.connection, job)
  let job := job.step .downloading
  withJob job (save job)
  return job

/-- What a transfer that ends well leaves. -/
def Completed (entity : Bytes) (job : Job) (job' : Job) (w : World) : Prop :=
  job'.id = job.id ∧ (w.staging job.id).part = some entity

theorem takeIn_downloads {offset : ℕ} {w : World}
    (hpart : ((w.staging job.id).part.getD []).take offset = entity.take offset)
    (hrest : w.pouring = entity.drop offset) (hoffset : offset ≤ entity.length)
    (hwanted : w.cancel ≠ some job.id) :
    Downloads O entity tag (takeIn job entity.length offset) (Completed entity job)
      (fun _ _ => False) w := by
  refine downloads_call (fun _ _ hx => hx) ?_
  rw [Prog.bind_ret, Prog.raiseIf_neg (by simp [answer]), Prog.ret_bind]
  have hopened : Poured entity job offset (w.effect (.openPart job.id offset)) := by
    refine ⟨?_, hrest, hwanted⟩
    change ((w.setPart job.id fun s => _).staging job.id).part = _
    rw [setPart_part, hpart]
  refine Safe.bind (Safe.ensure ?_)
  refine (pour_downloads hopened hoffset (by omega)).mono ?_ fun _ _ hfalse => hfalse.elim
  rintro got t ⟨rfl, ht⟩
  refine downloads_call (fun _ _ hx => hx) ?_
  rw [Prog.bind_ret, Prog.raiseIf_neg (by simp [answer])]
  change Downloads O entity tag (Prog.raiseIf (entity.length ≠ entity.length) _ >>= _) _ _ t
  rw [Prog.raiseIf_neg (by simp), Prog.ret_bind]
  refine downloads_call (fun _ _ hx => hx) ?_
  exact ⟨rfl, ht⟩

end Transfer

/-! ### The download -/

/-- What a cut download leaves: bytes of the entity, and the validator they came under. -/
structure Resumable (entity : Bytes) (tag : String) (job : Job) (w : World) : Prop where
  part : (w.staging job.id).part.getD [] <+: entity
  recorded : (w.staging job.id).part.getD [] ≠ [] → job.validator = some tag
  wanted : w.cancel ≠ some job.id

section Download

variable {O : Oracles} {entity : Bytes} {tag : String} {job : Job} {entry : Entry} {w : World}

/-- How many bytes are there. -/
def held (job : Job) (w : World) : ℕ := ((w.staging job.id).part.getD []).length

/-- What follows the look at the part. -/
def transferAt (job : Job) (entry : Entry) (offset : ℕ) : JobProg Job := do
  let resume := job.validator.filter fun _ => offset ≠ 0
  match ← query (.openDownload entry.bundleUrl (resume.map fun v => (offset, v))) with
  | .connection => throw (.connection, job)
  | .failed => throw (.os, job)
  | .response r =>
    let (job, offset) ← responseStart job entry.bundleSize (if resume.isSome then offset else 0) r
    takeIn job entry.bundleSize offset

theorem transfer_downloads_at {Q : Job → World → Prop} {E : Err × Job → World → Prop}
    (hle : held job w ≤ entry.bundleSize)
    (h : Downloads O entity tag (transferAt job entry (held job w)) Q E w) :
    Downloads O entity tag (transfer job entry) Q E w := by
  refine downloads_call (fun _ _ hx => hx) ?_
  change Downloads O entity tag
    (transferAt job entry (if entry.bundleSize < held job w then 0 else held job w)) Q E w
  rw [if_neg (Nat.not_lt.mpr hle)]
  exact h

/-- Nothing is there: the whole entity is asked for. -/
theorem fresh_downloads (hsize : entry.bundleSize = entity.length)
    (hwanted : w.cancel ≠ some job.id) :
    Downloads O entity tag (transferAt job entry 0) (Completed entity job) (fun _ _ => False) w := by
  have hnone : job.validator.filter (fun _ => decide (0 ≠ 0)) = none := by
    cases job.validator <;> rfl
  rw [transferAt, hnone, hsize]
  refine safe_call.mpr ⟨trivial, ?_⟩
  rintro x w' ⟨rfl, rfl⟩
  refine downloads_call (fun _ _ hx => hx) ?_
  exact takeIn_downloads rfl rfl (Nat.zero_le _) hwanted

/-- Where bytes are there, the request is for the rest of what they belong to. -/
theorem Resumable.request {offset : ℕ} (h : Resumable entity tag job w)
    (hoffset : held job w = offset) (hpos : 0 < offset) :
    job.validator.filter (fun _ => decide (offset ≠ 0)) = some tag := by
  have hbytes : (w.staging job.id).part.getD [] ≠ [] := by
    rw [← List.length_pos_iff, ← held]
    omega
  rw [h.recorded hbytes, Option.filter_some, if_pos (by simpa using hpos.ne')]

/-- The bytes from there on are asked for. -/
theorem resumed_downloads (hsize : entry.bundleSize = entity.length) {offset : ℕ}
    (h : Resumable entity tag job w) (hoffset : held job w = offset) (hpos : 0 < offset)
    (hmore : offset < entity.length) :
    Downloads O entity tag (transferAt job entry offset) (Completed entity job)
      (fun _ _ => False) w := by
  have hreply := reply_inside tag hmore
  rw [transferAt, h.request hoffset hpos, hsize]
  refine safe_call.mpr ⟨trivial, fun x w' hw' => ?_⟩
  obtain ⟨hx, rfl⟩ := hw'
  rw [Option.map_some, hreply] at hx ⊢
  subst hx
  have hstart : responseStart job entity.length offset
      { status := 206, contentRange := some (offset, entity.length - 1, entity.length),
        validator := some tag } = Prog.ret (job, offset) := by
    rw [responseStart, if_pos ⟨hpos.ne', rfl⟩, if_pos rfl]
    rfl
  change Downloads O entity tag (responseStart job entity.length offset _ >>= _) _ _ _
  rw [hstart, Prog.ret_bind]
  refine takeIn_downloads ?_ rfl hmore.le h.wanted
  rw [← hoffset]
  exact (List.take_length).trans (List.prefix_iff_eq_take.mp h.part)

/-- Nothing is left to ask for: the server refuses. -/
theorem complete_refused {offset : ℕ} (h : Resumable entity tag job w)
    (hoffset : held job w = offset) (hpos : 0 < offset) (hall : offset = entity.length) :
    Downloads O entity tag (transferAt job entry offset) (fun _ _ => False)
      (fun e t => e = (.connection, job) ∧ t.staging = w.staging ∧ t.cancel = w.cancel) w := by
  have hrequest := h.request hoffset hpos
  rw [transferAt, hrequest]
  refine safe_call.mpr ⟨trivial, fun x w' hw' => ?_⟩
  obtain ⟨hx, rfl⟩ := hw'
  rw [Option.map_some, reply_past tag hall.ge] at hx ⊢
  subst hx
  exact ⟨rfl, rfl, rfl⟩

theorem transfer_downloads (hsize : entry.bundleSize = entity.length)
    (h : Resumable entity tag job w) (hmore : held job w < entity.length ∨ held job w = 0) :
    Downloads O entity tag (transfer job entry) (Completed entity job) (fun _ _ => False) w := by
  have hle : held job w ≤ entry.bundleSize := hsize ▸ h.part.length_le
  refine transfer_downloads_at hle ?_
  by_cases hzero : held job w = 0
  · rw [hzero]
    exact fresh_downloads hsize h.wanted
  · exact resumed_downloads hsize h rfl (Nat.pos_of_ne_zero hzero) (by omega)

theorem attempts_complete (hsize : entry.bundleSize = entity.length)
    (h : Resumable entity tag job w) (hmore : held job w < entity.length ∨ held job w = 0) (n : ℕ) :
    Downloads O entity tag (attempts entry (n + 1) job) (Completed entity job)
      (fun _ _ => False) w :=
  Safe.tryCatch ((transfer_downloads hsize h hmore).mono (fun _ _ ht => ht)
    fun _ _ hfalse => hfalse.elim)

/-- Every attempt is refused. -/
theorem attempts_refused (hsize : entry.bundleSize = entity.length)
    (h : Resumable entity tag job w) (hall : held job w = entity.length) (hpos : 0 < held job w)
    (n : ℕ) :
    Downloads O entity tag (attempts entry n job) (fun _ _ => False) (fun _ _ => True) w := by
  induction n generalizing w with
  | zero => trivial
  | succ n ih =>
    have hrefused : Downloads O entity tag (transfer job entry) _ _ w :=
      transfer_downloads_at (by omega) (complete_refused h rfl hpos hall)
    refine Safe.tryCatch (hrefused.mono (fun _ _ hfalse => hfalse.elim) ?_)
    rintro _ t ⟨rfl, hstaging, hcancel⟩
    have hheld : held job t = held job w := by rw [held, hstaging, held]
    refine ih ⟨?_, ?_, ?_⟩ (by omega) (by omega)
    · rw [hstaging]
      exact h.part
    · rw [hstaging]
      exact h.recorded
    · rw [hcancel]
      exact h.wanted

/-- The final file is there, or bytes of the entity are still to come. -/
def Completable (entity : Bytes) (job : Job) (w : World) : Prop :=
  (w.staging job.id).final.map List.length = some entity.length ∨
    held job w < entity.length ∨ held job w = 0

/-- The job as the attempts take it up, with the record written. -/
def begun (job : Job) (w : World) : World := w.effect (.writeJournal (job.step .downloading))

/-- What follows the attempts. -/
def renamed (job : Job) : JobProg Job := do
  .raiseIf (!(← query (.renamePart job.id))) (.os, job)
  return job

theorem download_begun {Q : Job → World → Prop} {E : Err × Job → World → Prop}
    (hnot : (w.staging job.id).final.map List.length ≠ some entry.bundleSize)
    (h : Downloads O entity tag
      (attempts entry downloadAttempts (job.step .downloading) >>= renamed) Q E (begun job w)) :
    Downloads O entity tag (download job entry) Q E w := by
  have hstat : (((w.effect .layout).staging job.id).final.map List.length) ≠
      some entry.bundleSize := hnot
  refine downloads_call (fun _ _ hx => hx) (downloads_call (fun _ _ hx => hx) ?_)
  simp only [Prog.bind_ret, answer]
  rw [if_neg hstat]
  refine downloads_call (fun _ _ hx => hx) (downloads_call (fun _ _ hx => hx) ?_)
  exact h

theorem Resumable.begun (h : Resumable entity tag job w) :
    Resumable entity tag (job.step .downloading) (begun job w) :=
  ⟨h.part, h.recorded, h.wanted⟩

/-- Where there is something to ask for, the download completes. -/
theorem download_safe (hsize : entry.bundleSize = entity.length) (h : Resumable entity tag job w)
    (hfinal : ∀ f, (w.staging job.id).final = some f → f.length = entity.length → f = entity)
    (hcompletable : Completable entity job w) :
    Downloads O entity tag (download job entry)
      (fun _ t => (t.staging job.id).final = some entity) (fun _ _ => False) w := by
  by_cases hthere : (w.staging job.id).final.map List.length = some entity.length
  · have hstat : ((w.effect .layout).staging job.id).final.map List.length =
        some entry.bundleSize := hsize ▸ hthere
    refine downloads_call (fun _ _ hx => hx) (downloads_call (fun _ _ hx => hx) ?_)
    simp only [Prog.bind_ret, answer]
    rw [if_pos hstat]
    obtain ⟨f, hf, hlength⟩ := Option.map_eq_some_iff.mp hthere
    exact hf.trans (congrArg some (hfinal f hf hlength))
  · refine download_begun (by rwa [hsize]) (Safe.bind ?_)
    refine (attempts_complete hsize h.begun (hcompletable.resolve_left hthere) 4).mono ?_
      fun _ _ hfalse => hfalse.elim
    rintro job' t ⟨hid, ht⟩
    refine downloads_call (fun _ _ hx => hx) ?_
    change ((t.setPart job'.id fun s => { part := none, final := s.part }).staging job.id).final = _
    rw [hid]
    change ((t.setPart job.id _).staging job.id).final = _
    rw [setPart_part]
    exact ht

/-- Where nothing is left to ask for, it fails. -/
theorem download_fails (hsize : entry.bundleSize = entity.length) (h : Resumable entity tag job w)
    (hstuck : ¬ Completable entity job w) :
    Downloads O entity tag (download job entry) (fun _ _ => False) (fun _ _ => True) w := by
  have hle : held job w ≤ entity.length := h.part.length_le
  rw [Completable, not_or, not_or] at hstuck
  refine download_begun (by rw [hsize]; exact hstuck.1) (Safe.bind ?_)
  have hheld : held (job.step .downloading) (begun job w) = held job w := rfl
  refine (attempts_refused hsize h.begun ?_ ?_ downloadAttempts).mono
    (fun _ _ hfalse => hfalse.elim) fun _ _ ht => ht
  · omega
  · omega

/-- Against a conforming server that does not fail, the download returns with exactly the
entity in the final file, for exactly the states in which that file is there already or
bytes are still to come. -/
theorem download_completes {handler : World → (c : HostCall) → Ans c × World}
    (hserve : Follows (F := Host) handler (Conforms O entity tag))
    (hsize : entry.bundleSize = entity.length) (h : Resumable entity tag job w)
    (hfinal : ∀ f, (w.staging job.id).final = some f → f.length = entity.length → f = entity) :
    (∃ job' w', (download job entry).run handler w = (.ok job', w') ∧
      (w'.staging job.id).final = some entity) ↔ Completable entity job w := by
  have hrun := runs_run hserve (download job entry) w
  constructor
  · rintro ⟨job', w', hres, _⟩
    by_contra hstuck
    rw [hres] at hrun
    have hfails : Downloads O entity tag (download job entry) _ _ w := download_fails hsize h hstuck
    exact hfails.result hrun
  · intro hcompletable
    have hsafe : Downloads O entity tag (download job entry) _ _ w :=
      download_safe hsize h hfinal hcompletable
    cases hres : (download job entry).run handler w with
    | mk r w' =>
      rw [hres] at hrun
      cases r with
      | ok job' => exact ⟨job', w', rfl, hsafe.result hrun⟩
      | error e => exact (hsafe.exception hrun).elim

end Download

/-! ### Three bytes -/

/-- The server that answers at once, in blocks of `chunkSize`. -/
def conforming (O : Oracles) (entity : Bytes) (tag : String) (w : World) :
    (c : HostCall) → Ans c × World
  | .openDownload _ resume =>
    ((reply entity tag resume).1, { w with pouring := (reply entity tag resume).2 })
  | c => serve O w c

theorem conforming_follows (O : Oracles) (entity : Bytes) (tag : String) :
    Follows (F := Host) (conforming O entity tag) (Conforms O entity tag) := by
  intro w c
  cases c with
  | openDownload url resume => exact ⟨rfl, rfl⟩
  | readChunk =>
    refine ⟨w.pouring.take chunkSize, rfl, List.take_prefix _ _, fun hnil => ?_, ?_⟩
    · simpa [chunkSize] using hnil
    · change ({ w with pouring := w.pouring.drop chunkSize } : World) = _
      congr 1
      rw [List.length_take]
      by_cases hle : chunkSize ≤ w.pouring.length
      · rw [Nat.min_eq_left hle]
      · rw [Nat.min_eq_right (by omega), List.drop_length, List.drop_of_length_le (by omega)]
  | secondsPassed => rfl
  | _ => exact ⟨rfl, rfl⟩

def sampleEntry : Entry where
  board := "raspberrypi3"
  channel := "dev"
  sequence := 12
  trustEpoch := 1
  indexKeyId := ""
  version := "2.10.0"
  bootProtocol := 2
  minHostApi := 1
  bundleUrl := "https://example.org/os.raucb"
  bundleSize := 3
  bundleSha256 := sampleDigest
  notesUrl := ""

/-- A job whose download was cut with these bytes in the part. -/
def cutJob : Job := { sampleJob .downloading with validator := some "v1" }

def cutWorld (part : Bytes) : World :=
  (sampleWorld sampleEnv .a).setPart cutJob.id fun _ => { part := some part, final := none }

theorem resumable_cutWorld {part : Bytes} (h : part <+: [1, 2, 3]) :
    Resumable [1, 2, 3] "v1" cutJob (cutWorld part) := by
  have hpart : ((cutWorld part).staging cutJob.id).part.getD [] = part := by
    rw [cutWorld, setPart_part]
    rfl
  exact ⟨hpart ▸ h, fun _ => rfl, by simp [cutWorld, setPart, sampleWorld]⟩

theorem download_completes_resumed : ∃ job' w',
    (download cutJob sampleEntry).run (conforming sampleOracles [1, 2, 3] "v1") (cutWorld [1]) =
      (.ok job', w') ∧ (w'.staging cutJob.id).final = some [1, 2, 3] := by
  have hresumable := @resumable_cutWorld [1] ⟨[2, 3], rfl⟩
  refine (download_completes (conforming_follows _ _ _) rfl hresumable fun f hf => ?_).mpr ?_
  · cases hf
  · exact Or.inr (Or.inl (by decide))

/-- Every byte is there and only the rename is missing: all attempts ask for the range
beyond the end, and the download fails. -/
theorem download_refused : Resumable [1, 2, 3] "v1" cutJob (cutWorld [1, 2, 3]) ∧
    sampleEntry.bundleSize = [1, 2, 3].length ∧
    ((download cutJob sampleEntry).run (conforming sampleOracles [1, 2, 3] "v1")
        (cutWorld [1, 2, 3])).1 =
      .error (.osUpdate "The download kept failing; check the network and try again",
        cutJob.step .downloading) :=
  ⟨@resumable_cutWorld [1, 2, 3] ⟨[], rfl⟩, rfl, by rfl⟩

end Epilykos.OsUpdate
