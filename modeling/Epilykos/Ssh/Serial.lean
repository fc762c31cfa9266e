import Epilykos.Ssh.Requests

/-!
The key actions are serialisable where each opens the temporary file alone and on the text it
read: the order is that of the renamings, and of the readings of those that write nothing.
Where two requests overlap they are not.
-/

namespace Epilykos.Ssh

open Program

/-! ### One request -/

/-- What a request does with the text it read: refuse, nothing, or write these lines. -/
def Request.plan (content : Option Line) : Request → Except Fault (Option (List Line))
  | .add line =>
    match parseKey line with
    | .error e => .error (.ssh e)
    | .ok key =>
      if (keysOf content).any fun k => k.fp == fingerprint key.blob then .ok none
      else .ok (some ((keysOf content).map Key.line ++ [cleanLine key]))
  | .remove fp =>
    let kept := (keysOf content).filter fun k => k.fp != fp
    if kept.length = (keysOf content).length then .error (.ssh .noSuchKey)
    else .ok (some (kept.map Key.line))

/-- The rest of a request, from its reading on. -/
def Request.proceed (r : Request) (content : Option Line) : SshProg (List Key) :=
  match r.plan content with
  | .error e => .raise e
  | .ok none => readKeys
  | .ok (some lines) => writeKeys lines >>= fun _ => readKeys

theorem handle_eq (r : Request) :
    (∃ e, handle r = .raise e) ∨ handle r = .call .read r.proceed := by
  cases r with
  | add line =>
    cases hkey : parseKey line with
    | error e => exact .inl ⟨.ssh e, by simp [handle, addKey, hkey, Except.mapError]⟩
    | ok key =>
      refine .inr ?_
      have hproceed : ∀ content, (Request.add line).proceed content =
          if (keysOf content).any fun k => k.fp == fingerprint key.blob then readKeys
          else writeKeys ((keysOf content).map Key.line ++ [cleanLine key]) >>=
            fun _ => readKeys := by
        intro content
        simp only [Request.proceed, Request.plan, hkey]
        split_ifs <;> rfl
      rw [funext hproceed]
      simp only [handle, addKey, hkey, Except.mapError, Prog.ofExcept_ok, Prog.ret_bind, readKeys,
        ask, Prog.call_bind, Prog.pure_eq]
      congr 1
      funext content
      split_ifs
      · rfl
      · rw [Prog.bind_assoc]
        rfl
  | remove fp =>
    refine .inr ?_
    have hproceed : ∀ content, (Request.remove fp).proceed content =
        (Prog.raiseIf (((keysOf content).filter fun k => k.fp != fp).length =
          (keysOf content).length) (.ssh .noSuchKey) >>= fun _ =>
          writeKeys (((keysOf content).filter fun k => k.fp != fp).map Key.line)) >>=
            fun _ => readKeys := by
      intro content
      simp only [Request.proceed, Request.plan]
      split_ifs with h
      · rw [Prog.raiseIf_pos h]
        rfl
      · rw [Prog.raiseIf_neg h]
        rfl
    rw [funext hproceed]
    rfl

theorem plan_none {r : Request} {content : Option Line} (h : r.plan content = .ok none) :
    r.apply (keysOf content) = keysOf content := by
  cases r with
  | add line =>
    cases hkey : parseKey line with
    | error e => simp [Request.plan, hkey] at h
    | ok key =>
      simp only [Request.plan, hkey] at h
      split_ifs at h with hany
      · simp only [Request.apply, hkey]
        rw [if_pos hany]
      · cases h
  | remove fp =>
    simp only [Request.plan] at h
    split_ifs at h
    cases h

/-- What is written is what the request does to the keys. -/
theorem plan_some {r : Request} {content : Option Line} {lines : List Line}
    (h : r.plan content = .ok (some lines)) :
    keysOf (some (fileText lines)) = r.apply (keysOf content) := by
  have hsound : ∀ key ∈ keysOf content, key.Sound := fun _ hkey => keysOf_sound hkey
  cases r with
  | add line =>
    cases hkey : parseKey line with
    | error e => simp [Request.plan, hkey] at h
    | ok key =>
      simp only [Request.plan, hkey] at h
      by_cases hany : ((keysOf content).any fun k => k.fp == fingerprint key.blob) = true
      · rw [if_pos hany] at h
        cases h
      rw [if_neg hany] at h
      have hlines : lines = (keysOf content ++ [cleanKey key]).map Key.line := by
        simpa [cleanKey, eq_comm] using h
      rw [hlines, keysOf_fileText]
      · simp only [Request.apply, hkey]
        rw [if_neg hany]
      · intro k hk
        rcases List.mem_append.mp hk with hk | hk
        · exact hsound k hk
        · obtain rfl : k = cleanKey key := by simpa using hk
          exact cleanKey_sound (parseKey_sound hkey)
  | remove fp =>
    simp only [Request.plan] at h
    split_ifs at h
    have hlines : lines = ((keysOf content).filter fun k => k.fp != fp).map Key.line := by
      simpa [eq_comm] using h
    rw [hlines, keysOf_fileText]
    · rfl
    · intro k hk
      exact hsound k (List.mem_of_mem_filter hk)

/-! ### One thread -/

def renameKeys : SshProg (List Key) := do
  Prog.ofExcept (← ask .replace)
  readKeys

def finishWrite : SshProg (List Key) := do
  Prog.ofExcept (← ask .chmod)
  renameKeys

theorem writeKeys_eq (lines : List Line) :
    (writeKeys lines >>= fun _ => readKeys) = .call .openTmp fun inode =>
      .call (.write inode (fileText lines)) fun _ => finishWrite := by
  simp only [writeKeys, finishWrite, renameKeys, Prog.bind_assoc, ask, Prog.call_bind,
    Prog.ret_bind]

/-- A thread that has not yet done its request's work. -/
inductive Before (d : Disk) (t : Thread) : Prop
  | waiting : t.prog = .call .read t.request.proceed → Before d t
  | planned {content : Option Line} {lines : List Line} : t.seen = some content →
      t.request.plan content = .ok (some lines) →
      t.prog = (writeKeys lines >>= fun _ => readKeys) → Before d t
  | opened {lines : List Line} {inode : ℕ} : t.request.plan d.content = .ok (some lines) →
      inode ∈ d.tmp → d.inodes inode = [] →
      t.prog = (.call (.write inode (fileText lines)) fun _ => finishWrite) → Before d t
  | written {lines : List Line} {inode : ℕ} : t.request.plan d.content = .ok (some lines) →
      inode ∈ d.tmp → d.inodes inode = fileText lines → t.prog = finishWrite → Before d t
  | ready {lines : List Line} {inode : ℕ} : t.request.plan d.content = .ok (some lines) →
      inode ∈ d.tmp → d.inodes inode = fileText lines → t.prog = renameKeys → Before d t
  | failed {e : Fault} : t.prog = .raise e → Before d t

/-- A thread that has done its request's work. -/
inductive After (t : Thread) : Prop
  | status : t.prog = readKeys → After t
  | replied {keys : List Key} : t.prog = .ret keys → After t

theorem content_withText {d : Disk} {inode : ℕ} (h : inode ∉ d.keys) (text : Line) :
    (d.withText inode text).content = d.content := by
  change d.keys.map (Function.update d.inodes inode text) = d.keys.map d.inodes
  cases hkeys : d.keys with
  | none => rfl
  | some n =>
    have hne : n ≠ inode := fun heq => h (heq ▸ hkeys)
    simp [hne]

theorem content_created (d : Disk) : d.created.content = d.content := by
  change d.keys.map (Function.update d.inodes d.next []) = d.keys.map d.inodes
  cases hkeys : d.keys with
  | none => rfl
  | some n =>
    have hne : n ≠ d.next := Nat.ne_of_lt (d.keys_lt n hkeys)
    simp [hne]

section Step

variable {d d' : Disk} {t : Thread} {c : FileCall} {k : c.Ans → SshProg (List Key)} {a : c.Ans}

/-- Only an opening and what follows it touch the files. -/
theorem quiet_step (hprog : t.prog = .call c k) (hfiles : Files d c a d') (hc : c ≠ .openTmp)
    (hholds : ¬ t.Holds) : c = .read ∧ d' = d := by
  unfold Thread.Holds at hholds
  rw [hprog] at hholds
  cases hfiles with
  | read => exact ⟨rfl, rfl⟩
  | truncate => exact absurd rfl hc
  | create => exact absurd rfl hc
  | _ => exact absurd trivial hholds

/-- What one call of a thread does to its own stage. -/
theorem before_step (h : Before d t) (hprog : t.prog = .call c k) (hfiles : Files d c a d')
    (hseen : c = .openTmp → t.seen = some d.content) :
    (Before d' (t.after c a (k a)) ∧ d'.content = d.content) ∨
      (After (t.after c a (k a)) ∧
        keysOf d'.content = t.request.apply (keysOf d.content)) := by
  cases h with
  | waiting hp =>
    rw [hprog] at hp
    cases hp
    cases hfiles
    cases hplan : t.request.plan d.content with
    | error e =>
      refine .inl ⟨.failed (e := e) ?_, rfl⟩
      simp [Thread.after, Request.proceed, hplan]
    | ok plan =>
      cases plan with
      | none =>
        refine .inr ⟨.status ?_, (plan_none hplan).symm⟩
        simp [Thread.after, Request.proceed, hplan]
      | some lines =>
        refine .inl ⟨@Before.planned _ _ _ lines rfl hplan ?_, rfl⟩
        simp [Thread.after, Request.proceed, hplan]
  | planned hs hplan hp =>
    rw [hprog, writeKeys_eq] at hp
    cases hp
    obtain rfl := Option.some.inj (hs.symm.trans (hseen rfl))
    cases hfiles with
    | truncate htmp =>
      have hcontent := content_withText (d.apart _ htmp) []
      refine .inl ⟨.opened (by rw [hcontent]; exact hplan) htmp ?_ rfl, hcontent⟩
      simp [Disk.withText]
    | create htmp =>
      have hcontent := content_created d
      refine .inl ⟨.opened (by rw [hcontent]; exact hplan) rfl ?_ rfl, hcontent⟩
      simp [Disk.created]
  | @opened lines inode hplan htmp hempty hp =>
    rw [hprog] at hp
    cases hp
    cases hfiles with
    | write hleft =>
      obtain rfl := hleft hempty
      have hcontent := content_withText (d.apart _ htmp) (fileText lines)
      refine .inl ⟨.written (by rw [hcontent]; exact hplan) htmp ?_ rfl, hcontent⟩
      simp [Disk.withText]
  | written hplan htmp htext hp =>
    rw [hprog] at hp
    cases hp
    cases hfiles with
    | chmod => exact .inl ⟨.ready hplan htmp htext rfl, rfl⟩
    | chmodMissing hnone => exact absurd (hnone.symm.trans htmp) (by simp)
  | ready hplan htmp htext hp =>
    rw [hprog] at hp
    cases hp
    cases hfiles with
    | replace hmem =>
      obtain rfl := Option.some.inj (hmem.symm.trans htmp)
      refine .inr ⟨.status rfl, ?_⟩
      rw [← plan_some hplan, ← htext]
      rfl
    | replaceMissing hnone => exact absurd (hnone.symm.trans htmp) (by simp)
  | failed hp =>
    rw [hprog] at hp
    cases hp

theorem after_step (h : After t) (hprog : t.prog = .call c k) :
    c = .read ∧ After (t.after c a (k a)) := by
  cases h with
  | status hp =>
    rw [hprog] at hp
    cases hp
    exact ⟨rfl, .replied rfl⟩
  | replied hp =>
    rw [hprog] at hp
    cases hp

/-- Only an opening makes a thread hold the temporary file. -/
theorem holds_step (h : Before d t) (hprog : t.prog = .call c k) (hfiles : Files d c a d')
    (hc : c ≠ .openTmp) (hnew : (t.after c a (k a)).Holds) : t.Holds := by
  by_contra hholds
  obtain ⟨rfl, -⟩ := quiet_step hprog hfiles hc hholds
  cases h with
  | waiting hp =>
    rw [hprog] at hp
    cases hp
    cases hplan : t.request.plan a with
    | error e => simp [Thread.Holds, Thread.after, Request.proceed, hplan] at hnew
    | ok plan =>
      cases plan with
      | none => simp [Thread.Holds, Thread.after, Request.proceed, hplan, readKeys, ask] at hnew
      | some lines =>
        simp [Thread.Holds, Thread.after, Request.proceed, hplan, writeKeys_eq] at hnew
  | planned _ _ hp =>
    rw [hprog, writeKeys_eq] at hp
    cases hp
  | opened _ _ _ hp => exact hholds (by simp [Thread.Holds, hp])
  | written _ _ _ hp => exact hholds (by simp [Thread.Holds, hp, finishWrite, ask])
  | ready _ _ _ hp => exact hholds (by simp [Thread.Holds, hp, renameKeys, ask])
  | failed hp =>
    rw [hprog] at hp
    cases hp

/-- A thread that does not hold the temporary file does not depend on the files. -/
theorem before_other (h : Before d t) (hholds : ¬ t.Holds) : Before d' t := by
  cases h with
  | waiting hp => exact .waiting hp
  | planned hs hplan hp => exact .planned hs hplan hp
  | opened _ _ _ hp => exact absurd (by simp [Thread.Holds, hp]) hholds
  | written _ _ _ hp => exact absurd (by simp [Thread.Holds, hp, finishWrite, ask]) hholds
  | ready _ _ _ hp => exact absurd (by simp [Thread.Holds, hp, renameKeys, ask]) hholds
  | failed hp => exact .failed hp

end Step

/-- What a request does alone is what the order is made of. -/
theorem alone_apply {d d' : Disk} {r : Request} {keys : List Key}
    (hrun : Runs (· = ·) Files (d, handle r) (d', .ret keys)) :
    keysOf d'.content = r.apply (keysOf d.content) := by
  have hstages : ∀ {x : Disk × SshProg (List Key)}, Runs (· = ·) Files (d, handle r) x →
      ∃ seen, (Before x.1 ⟨r, x.2, seen⟩ ∧ x.1.content = d.content ∧
          ∀ content, seen = some content → content = d.content) ∨
        (After ⟨r, x.2, seen⟩ ∧ keysOf x.1.content = r.apply (keysOf d.content)) := by
    intro x hx
    induction hx with
    | refl =>
      refine ⟨none, .inl ⟨?_, rfl, by simp⟩⟩
      rcases handle_eq r with ⟨e, he⟩ | hread
      · exact .failed he
      · exact .waiting hread
    | tail _ hstep ih =>
      cases hstep with
      | @call d₁ d₂ d₃ c k a hrely hfiles =>
        obtain rfl : d₁ = d₂ := hrely
        obtain ⟨seen, ⟨hstage, hcontent, hseen⟩ | ⟨hstage, hkeys⟩⟩ := ih
        · have hopen : c = .openTmp → seen = some d₁.content := by
            rintro rfl
            cases hstage with
            | planned hs _ _ =>
              obtain rfl := hseen _ hs
              rw [hcontent]
              exact hs
            | waiting hp | opened _ _ _ hp | written _ _ _ hp | ready _ _ _ hp | failed hp =>
              simp [finishWrite, renameKeys, ask] at hp
          have hnew := before_step (t := ⟨r, .call c k, seen⟩) hstage rfl hfiles hopen
          refine ⟨(Thread.after ⟨r, .call c k, seen⟩ c a (k a)).seen, ?_⟩
          rcases hnew with ⟨hnew, heq⟩ | ⟨hnew, heq⟩
          · refine .inl ⟨hnew, heq.trans hcontent, fun content hs => ?_⟩
            cases c with
            | read =>
              cases hfiles
              exact (Option.some.inj hs).symm.trans hcontent
            | _ => exact hseen content hs
          · refine .inr ⟨hnew, ?_⟩
            rw [heq, hcontent]
        · obtain ⟨rfl, hnew⟩ := after_step (t := ⟨r, .call c k, seen⟩) (a := a) hstage rfl
          cases hfiles
          exact ⟨_, .inr ⟨hnew, hkeys⟩⟩
  obtain ⟨seen, ⟨hstage, -, -⟩ | ⟨-, hkeys⟩⟩ := hstages hrun
  · cases hstage with
    | planned _ _ hp => simp [writeKeys_eq] at hp
    | waiting hp | opened _ _ _ hp | written _ _ _ hp | ready _ _ _ hp | failed hp =>
      simp [finishWrite, renameKeys, ask] at hp
  · exact hkeys

/-! ### All threads -/

/-- The keys after these requests one after the other. -/
def inOrder {ι : Type} (requests : ι → Request) (order : List ι) (keys : List Key) : List Key :=
  order.foldl (fun keys i => (requests i).apply keys) keys

section Order

variable {ι : Type} {requests : ι → Request} {fp : Line}

theorem inOrder_append (order : List ι) (i : ι) (keys : List Key) :
    inOrder requests (order ++ [i]) keys = (requests i).apply (inOrder requests order keys) := by
  simp [inOrder]

theorem apply_keeps {r : Request} {keys : List Key} (hr : r ≠ .remove fp)
    (h : ∃ k ∈ keys, k.fp = fp) : ∃ k ∈ r.apply keys, k.fp = fp := by
  obtain ⟨k, hk, hfp⟩ := h
  refine ⟨k, ?_, hfp⟩
  cases r with
  | add line =>
    cases hkey : parseKey line with
    | error e => simpa only [Request.apply, hkey] using hk
    | ok key =>
      simp only [Request.apply, hkey]
      split_ifs
      · exact hk
      · exact List.mem_append_left _ hk
  | remove fp' =>
    have hne : fp ≠ fp' := fun heq => hr (heq ▸ rfl)
    refine List.mem_filter.mpr ⟨hk, ?_⟩
    simpa [hfp] using hne

theorem inOrder_keeps {order : List ι} {keys : List Key}
    (hr : ∀ j ∈ order, requests j ≠ .remove fp) (h : ∃ k ∈ keys, k.fp = fp) :
    ∃ k ∈ inOrder requests order keys, k.fp = fp := by
  induction order generalizing keys with
  | nil => exact h
  | cons i order ih =>
    exact ih (fun j hj => hr j (.tail _ hj)) (apply_keeps (hr i (.head _)) h)

theorem apply_adds {line : Line} {key : PublicKey} (hkey : parseKey line = .ok key)
    (keys : List Key) : ∃ k ∈ (Request.add line).apply keys, k.fp = fingerprint key.blob := by
  simp only [Request.apply, hkey]
  split_ifs with hany
  · simpa using hany
  · exact ⟨cleanKey key, List.mem_append_right _ (.head _), rfl⟩

theorem apply_avoids {r : Request} {keys : List Key}
    (hr : ∀ line key, r = .add line → parseKey line = .ok key → fingerprint key.blob ≠ fp)
    (h : ∀ k ∈ keys, k.fp ≠ fp) : ∀ k ∈ r.apply keys, k.fp ≠ fp := by
  cases r with
  | add line =>
    cases hkey : parseKey line with
    | error e => simpa only [Request.apply, hkey] using h
    | ok key =>
      simp only [Request.apply, hkey]
      split_ifs
      · exact h
      · intro k hk
        rcases List.mem_append.mp hk with hk | hk
        · exact h k hk
        · obtain rfl : k = cleanKey key := by simpa using hk
          exact hr line key rfl hkey
  | remove fp' => exact fun k hk => h k (List.mem_of_mem_filter hk)

theorem inOrder_avoids {order : List ι} {keys : List Key}
    (hr : ∀ j ∈ order, ∀ line key, requests j = .add line → parseKey line = .ok key →
      fingerprint key.blob ≠ fp)
    (h : ∀ k ∈ keys, k.fp ≠ fp) : ∀ k ∈ inOrder requests order keys, k.fp ≠ fp := by
  induction order generalizing keys with
  | nil => exact h
  | cons i order ih =>
    exact ih (fun j hj => hr j (.tail _ hj)) (apply_avoids (hr i (.head _)) h)

end Order

/-- The keys are those of some order of the requests that replied ok: an added key is there
unless it was removed later, a removed one is not unless it was added later. -/
def Serialised {ι : Type} (requests : ι → Request) (disk : Disk) (s : Host ι) : Prop :=
  ∃ order : List ι, order.Nodup ∧ (∀ i, i ∈ order ↔ ∃ keys, (s.threads i).prog = .ret keys) ∧
    keysOf s.disk.content = inOrder requests order (keysOf disk.content) ∧
    (∀ earlier i later line key, order = earlier ++ i :: later → requests i = .add line →
      parseKey line = .ok key → (∃ k ∈ keysOf s.disk.content, k.fp = fingerprint key.blob) ∨
        ∃ j ∈ later, requests j = .remove (fingerprint key.blob)) ∧
    ∀ earlier i later fp, order = earlier ++ i :: later → requests i = .remove fp →
      (∀ k ∈ keysOf s.disk.content, k.fp ≠ fp) ∨
        ∃ j ∈ later, ∃ line key, requests j = .add line ∧ parseKey line = .ok key ∧
          fingerprint key.blob = fp

section Threads

variable {ι : Type} [DecidableEq ι] {requests : ι → Request} {disk : Disk} {s s' : Host ι}
  {order : List ι}

/-- The requests of `order` have done their work, in this order; no two others hold the
temporary file. -/
structure Serial (requests : ι → Request) (disk : Disk) (s : Host ι) (order : List ι) : Prop where
  nodup : order.Nodup
  request : ∀ i, (s.threads i).request = requests i
  stage : ∀ i, (i ∉ order ∧ Before s.disk (s.threads i)) ∨ (i ∈ order ∧ After (s.threads i))
  keys : keysOf s.disk.content = inOrder requests order (keysOf disk.content)
  holder : ∀ i j, (s.threads i).Holds → (s.threads j).Holds → i = j

omit [DecidableEq ι] in
theorem start_serial (requests : ι → Request) (disk : Disk) :
    Serial requests disk (Host.start disk requests) [] := by
  refine ⟨List.nodup_nil, fun _ => rfl, fun i => .inl ⟨by simp, ?_⟩, rfl, ?_⟩
  · rcases handle_eq (requests i) with ⟨e, he⟩ | hread
    · exact .failed he
    · exact .waiting hread
  · intro i j hi
    rcases handle_eq (requests i) with ⟨e, he⟩ | hread
    · simp [Host.start, Thread.Holds, he] at hi
    · simp [Host.start, Thread.Holds, hread] at hi

theorem After.not_holds {t : Thread} (h : After t) : ¬ t.Holds := by
  cases h with
  | status hp => simp [Thread.Holds, hp, readKeys, ask]
  | replied hp => simp [Thread.Holds, hp]

/-- Still one holder at most, after one thread has moved. -/
theorem holder_update {threads : ι → Thread} {i : ι} {t : Thread}
    (h : ∀ i j, (threads i).Holds → (threads j).Holds → i = j)
    (halone : t.Holds → ∀ j, j ≠ i → ¬ (threads j).Holds) (j j' : ι)
    (hj : (Function.update threads i t j).Holds) (hj' : (Function.update threads i t j').Holds) :
    j = j' := by
  by_cases hji : j = i <;> by_cases hji' : j' = i
  · rw [hji, hji']
  · subst hji
    rw [Function.update_self] at hj
    rw [Function.update_of_ne hji'] at hj'
    exact absurd hj' (halone hj j' hji')
  · subst hji'
    rw [Function.update_self] at hj'
    rw [Function.update_of_ne hji] at hj
    exact absurd hj (halone hj' j hji)
  · rw [Function.update_of_ne hji] at hj
    rw [Function.update_of_ne hji'] at hj'
    exact h j j' hj hj'

section Move

variable {i : ι} {c : FileCall} {k : c.Ans → SshProg (List Key)} {a : c.Ans} {d : Disk}

omit [DecidableEq ι] in
/-- The stage of the others. -/
theorem Serial.others (h : Serial requests disk s order)
    (hprog : (s.threads i).prog = .call c k) (hmay : Exclusive s i) (hfiles : Files s.disk c a d)
    {j : ι} (hj : j ≠ i) (hstage : Before s.disk (s.threads j)) : Before d (s.threads j) := by
  by_cases hc : c = .openTmp
  · subst hc
    exact before_other hstage ((hmay k hprog).1 j hj)
  · by_cases hholds : (s.threads i).Holds
    · exact before_other hstage fun hj' => hj (h.holder j i hj' hholds)
    · rw [(quiet_step hprog hfiles hc hholds).2]
      exact hstage

theorem Serial.request_eq (h : Serial requests disk s order) (rest : SshProg (List Key)) (j : ι) :
    (Function.update s.threads i ((s.threads i).after c a rest) j).request = requests j := by
  by_cases hj : j = i
  · subst hj
    rw [Function.update_self]
    exact h.request j
  · rw [Function.update_of_ne hj]
    exact h.request j

theorem Serial.before_moves (h : Serial requests disk s order)
    (hprog : (s.threads i).prog = .call c k) (hmay : Exclusive s i) (hfiles : Files s.disk c a d)
    (hnot : i ∉ order) (hstage : Before s.disk (s.threads i)) :
    ∃ order', Serial requests disk
      ⟨d, Function.update s.threads i ((s.threads i).after c a (k a))⟩ order' := by
  have halone : ((s.threads i).after c a (k a)).Holds → ∀ j, j ≠ i → ¬ (s.threads j).Holds := by
    intro hnew j hj hold
    by_cases hc : c = .openTmp
    · subst hc
      exact (hmay k hprog).1 j hj hold
    · exact hj (h.holder j i hold (holds_step hstage hprog hfiles hc hnew))
  have hseen : c = .openTmp → (s.threads i).seen = some s.disk.content := by
    intro hc
    subst hc
    exact (hmay k hprog).2
  rcases before_step hstage hprog hfiles hseen with ⟨hnew, hcontent⟩ | ⟨hnew, hkeys⟩
  · refine ⟨order, h.nodup, h.request_eq _, fun j => ?_, ?_, holder_update h.holder halone⟩
    · by_cases hj : j = i
      · subst hj
        exact .inl ⟨hnot, by simpa using hnew⟩
      · dsimp only
        rw [Function.update_of_ne hj]
        exact (h.stage j).imp_left fun hb => ⟨hb.1, h.others hprog hmay hfiles hj hb.2⟩
    · rw [hcontent]
      exact h.keys
  · refine ⟨order ++ [i], ?_, h.request_eq _, fun j => ?_, ?_, holder_update h.holder halone⟩
    · refine List.nodup_append.mpr ⟨h.nodup, by simp, fun j hj j' hj' heq => hnot ?_⟩
      obtain rfl : j' = i := by simpa using hj'
      exact heq ▸ hj
    · by_cases hj : j = i
      · subst hj
        exact .inr ⟨by simp, by simpa using hnew⟩
      · dsimp only
        rw [Function.update_of_ne hj]
        rcases h.stage j with ⟨hb, hb'⟩ | ⟨hm, ha⟩
        · exact .inl ⟨by simp [hb, hj], h.others hprog hmay hfiles hj hb'⟩
        · exact .inr ⟨List.mem_append_left _ hm, ha⟩
    · rw [inOrder_append, ← h.keys, ← h.request i]
      exact hkeys

theorem Serial.after_moves (h : Serial requests disk s order)
    (hprog : (s.threads i).prog = .call c k) (hmay : Exclusive s i) (hfiles : Files s.disk c a d)
    (hmem : i ∈ order) (hstage : After (s.threads i)) :
    Serial requests disk
      ⟨d, Function.update s.threads i ((s.threads i).after c a (k a))⟩ order := by
  obtain ⟨rfl, hnew⟩ := after_step (a := a) hstage hprog
  obtain rfl : d = s.disk := by
    cases hfiles
    rfl
  refine ⟨h.nodup, h.request_eq _, fun j => ?_, h.keys,
    holder_update h.holder fun hholds => absurd hholds hnew.not_holds⟩
  by_cases hj : j = i
  · subst hj
    exact .inr ⟨hmem, by simpa using hnew⟩
  · dsimp only
    rw [Function.update_of_ne hj]
    exact (h.stage j).imp_left fun hb => ⟨hb.1, h.others hprog hmay hfiles hj hb.2⟩

end Move

/-- One call keeps the order, or puts one more request at its end. -/
theorem moves_serial (h : Serial requests disk s order) (hmoves : Moves Exclusive s s') :
    ∃ order', Serial requests disk s' order' := by
  cases hmoves with
  | @call i c k a d hprog hmay hfiles =>
    rcases h.stage i with ⟨hnot, hstage⟩ | ⟨hmem, hstage⟩
    · exact h.before_moves hprog hmay hfiles hnot hstage
    · exact ⟨order, h.after_moves hprog hmay hfiles hmem hstage⟩

theorem interleaved_serial (hrun : Interleaved Exclusive (Host.start disk requests) s) :
    ∃ order, Serial requests disk s order := by
  induction hrun with
  | refl => exact ⟨[], start_serial requests disk⟩
  | tail _ hmoves ih =>
    obtain ⟨order, h⟩ := ih
    exact moves_serial h hmoves

/-- In every interleaving in which each request opens the temporary file alone and finds the
keys as it read them, the keys are in the end those of some order of the requests that
replied ok. -/
theorem keys_serialised (hrun : Interleaved Exclusive (Host.start disk requests) s)
    (hall : ∀ i, (s.threads i).Replied) : Serialised requests disk s := by
  obtain ⟨order, h⟩ := interleaved_serial hrun
  refine ⟨order, h.nodup, fun i => ?_, h.keys, ?_, ?_⟩
  · rcases h.stage i with ⟨hnot, hstage⟩ | ⟨hmem, hstage⟩
    · refine ⟨fun hmem => absurd hmem hnot, ?_⟩
      rintro ⟨keys, hret⟩
      cases hstage with
      | planned _ _ hp => simp [writeKeys_eq, hret] at hp
      | waiting hp | opened _ _ _ hp | written _ _ _ hp | ready _ _ _ hp | failed hp =>
        simp [finishWrite, renameKeys, ask, hret] at hp
    · refine ⟨fun _ => ?_, fun _ => hmem⟩
      rcases hall i with hret | ⟨e, hraise⟩
      · exact hret
      · cases hstage with
        | status hp => simp [readKeys, ask, hraise] at hp
        | replied hp => exact ⟨_, hp⟩
  · rintro earlier i later line key rfl hadd hkey
    by_cases hremoved : ∃ j ∈ later, requests j = .remove (fingerprint key.blob)
    · exact .inr hremoved
    · left
      rw [h.keys, inOrder, List.foldl_append, List.foldl_cons, hadd]
      refine inOrder_keeps (fun j hj heq => hremoved ⟨j, hj, heq⟩) (apply_adds hkey _)
  · rintro earlier i later fp rfl hremove
    by_cases hadded : ∃ j ∈ later, ∃ line key, requests j = .add line ∧ parseKey line = .ok key ∧
        fingerprint key.blob = fp
    · exact .inr hadded
    · left
      rw [h.keys, inOrder, List.foldl_append, List.foldl_cons, hremove]
      refine inOrder_avoids (fun j hj line key heq hkey hfp =>
        hadded ⟨j, hj, line, key, heq, hkey, hfp⟩) ?_
      intro k hk
      simpa using (List.mem_filter.mp hk).2

end Threads

/-! ### Two requests at once -/

/-- One answer of the files. -/
def Disk.answer (d : Disk) : (c : FileCall) → c.Ans × Disk
  | .read => (d.content, d)
  | .openTmp =>
    match d.tmp with
    | some inode => (inode, d.withText inode [])
    | none => (d.next, d.created)
  | .write inode text => ((), d.withText inode text)
  | .chmod => (if d.tmp.isSome then .ok () else .error .notFound, d)
  | .replace =>
    if h : d.tmp.isSome then (.ok (), d.renamed (d.tmp.get h) (by simp))
    else (.error .notFound, d)

theorem answer_files (d : Disk) (c : FileCall) : Files d c (d.answer c).1 (d.answer c).2 := by
  cases c with
  | read => exact .read
  | openTmp =>
    unfold Disk.answer
    split
    · rename_i inode htmp
      exact .truncate htmp
    · rename_i htmp
      exact .create htmp
  | write inode text => exact .write fun _ => rfl
  | chmod =>
    unfold Disk.answer
    split_ifs with htmp
    · exact .chmod (Option.isSome_iff_ne_none.mp htmp)
    · exact .chmodMissing (by simpa using htmp)
  | replace =>
    unfold Disk.answer
    split_ifs with htmp
    · exact .replace (by simp)
    · exact .replaceMissing (by simpa using htmp)

/-- The thread's next call. -/
def Host.step {ι : Type} [DecidableEq ι] (s : Host ι) (i : ι) : Host ι :=
  match (s.threads i).prog with
  | .call c k =>
    let (a, d) := s.disk.answer c
    ⟨d, Function.update s.threads i ((s.threads i).after c a (k a))⟩
  | _ => s

theorem interleaved_steps {ι : Type} [DecidableEq ι] (schedule : List ι) (s : Host ι) :
    Interleaved (fun _ _ => True) s (schedule.foldl Host.step s) := by
  induction schedule generalizing s with
  | nil => exact .refl
  | cons i schedule ih =>
    refine .trans ?_ (ih (s.step i))
    unfold Host.step
    split
    · rename_i c k hprog
      exact .single (.call i hprog trivial (answer_files s.disk c))
    · exact .refl

def noFiles : Disk where
  inodes _ := []
  keys := none
  tmp := none
  next := 0
  keys_lt := by simp
  tmp_lt := by simp
  apart := by simp

/-- Two keys are added. -/
def twoAdds : Bool → Request
  | true => .add "ssh-rsa AAAAB3NzaC1yc2E= laptop".toList
  | false => .add "ssh-rsa AAAAB3NzaC1yc2EB phone".toList

/-- Both read the keys before either writes. -/
def overlapped : Host Bool :=
  [true, false, true, true, true, true, true, false, false, false, false, false].foldl
    Host.step (Host.start noFiles twoAdds)

def Thread.ok (t : Thread) : Bool :=
  match t.prog with
  | .ret _ => true
  | _ => false

theorem ok_iff {t : Thread} : t.ok = true ↔ ∃ keys, t.prog = .ret keys := by
  unfold Thread.ok
  split
  · rename_i keys hp
    simp [hp]
  · rename_i hp
    simpa using hp

theorem overlapped_ok (i : Bool) : ∃ keys, (overlapped.threads i).prog = .ret keys := by
  have hall : ∀ i, (overlapped.threads i).ok = true := by decide +kernel
  exact ok_iff.mp (hall i)

theorem overlapped_not_serialised : ¬ ∀ (disk : Disk) (requests : Bool → Request) (s : Host Bool),
    Interleaved (fun _ _ => True) (Host.start disk requests) s →
      (∀ i, (s.threads i).Replied) → Serialised requests disk s := by
  intro h
  obtain ⟨order, -, hmem, -, hadded, -⟩ :=
    h noFiles twoAdds overlapped (interleaved_steps _ _) fun i => .inl (overlapped_ok i)
  have hlaptop : true ∈ order := (hmem true).mpr (overlapped_ok true)
  obtain ⟨earlier, later, horder⟩ := List.append_of_mem hlaptop
  have hkey : parseKey "ssh-rsa AAAAB3NzaC1yc2E= laptop".toList = .ok
      ⟨"ssh-rsa".toList, [0, 0, 0, 7, 115, 115, 104, 45, 114, 115, 97], "laptop".toList⟩ := by
    decide +kernel
  rcases hadded earlier true later _ _ horder rfl hkey with ⟨k, hk, hfp⟩ | ⟨j, -, hremove⟩
  · have hlost : ∀ k ∈ keysOf overlapped.disk.content,
        k.fp ≠ fingerprint [0, 0, 0, 7, 115, 115, 104, 45, 114, 115, 97] := by decide +kernel
    exact hlost k hk hfp
  · cases j <;> cases hremove

/-- One after the other. -/
def inTurn : List Bool :=
  [true, true, true, true, true, true, false, false, false, false, false, false]

/-- Whether the thread's next call keeps to the condition, the other being the only other. -/
def Host.exclusive (s : Host Bool) (i : Bool) : Bool :=
  match (s.threads i).prog with
  | .call .openTmp _ =>
    (s.threads i).seen == some s.disk.content &&
      match (s.threads (!i)).prog with
      | .call (.write _ _) _ => false
      | .call .chmod _ => false
      | .call .replace _ => false
      | _ => true
  | _ => true

theorem exclusive_of {s : Host Bool} {i : Bool} (h : s.exclusive i = true) : Exclusive s i := by
  intro k hprog
  simp only [Host.exclusive, hprog, Bool.and_eq_true, beq_iff_eq] at h
  refine ⟨fun j hj hholds => ?_, h.1⟩
  obtain rfl : j = !i := by
    revert hj
    cases j <;> cases i <;> simp
  unfold Thread.Holds at hholds
  split at hholds <;> simp_all

def exclusiveSteps : List Bool → Host Bool → Bool
  | [], _ => true
  | i :: schedule, s => s.exclusive i && exclusiveSteps schedule (s.step i)

theorem interleaved_exclusive (schedule : List Bool) (s : Host Bool)
    (h : exclusiveSteps schedule s = true) :
    Interleaved Exclusive s (schedule.foldl Host.step s) := by
  induction schedule generalizing s with
  | nil => exact .refl
  | cons i schedule ih =>
    obtain ⟨hi, hrest⟩ := Bool.and_eq_true_iff.mp h
    refine .trans ?_ (ih (s.step i) hrest)
    unfold Host.step
    split
    · rename_i c k hprog
      exact .single (.call i hprog (exclusive_of hi) (answer_files s.disk c))
    · exact .refl

theorem inTurn_ok (i : Bool) : ∃ keys,
    ((inTurn.foldl Host.step (Host.start noFiles twoAdds)).threads i).prog = .ret keys := by
  have hall : ∀ i, ((inTurn.foldl Host.step (Host.start noFiles twoAdds)).threads i).ok = true := by
    decide +kernel
  exact ok_iff.mp (hall i)

theorem keys_serialised_in_turn :
    Serialised twoAdds noFiles (inTurn.foldl Host.step (Host.start noFiles twoAdds)) :=
  keys_serialised (interleaved_exclusive inTurn _ (by decide +kernel)) fun i => .inl (inTurn_ok i)

end Epilykos.Ssh
