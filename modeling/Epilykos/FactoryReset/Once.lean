import Epilykos.FactoryReset.Boot

/-!
At least once and at most once. The mark on DATA says which request was carried out, and it
must stay as long as that request is on the card; the later step forgets it when the request
is not on /boot, which is also so when BOOT is not mounted there.
-/

namespace Epilykos.FactoryReset

open PlatformEnv (Bytes ascii)
open Program Prog

/-! ### Sums and marks -/

theorem bigEndian_length (count n : ℕ) : (Sha256.bigEndian count n).length = count := by
  induction count generalizing n with
  | zero => rfl
  | succ count ih =>
    change (Sha256.bigEndian count n).length + 1 = count + 1
    rw [ih]

theorem hexDigit_text {n : ℕ} (h : n < 16) : hexDigit n ≠ 0 ∧ hexDigit n ≠ 10 := by
  have hall : ∀ n < 16, hexDigit n ≠ 0 ∧ hexDigit n ≠ 10 := by decide
  exact hall n h

theorem sha256sum_length (data : Bytes) : (sha256sum data).length = 64 := by
  simp [sha256sum, Sha256.sha256, List.length_flatMap, bigEndian_length]

theorem sha256sum_text (data : Bytes) : ∀ d ∈ sha256sum data, d ≠ 0 ∧ d ≠ 10 := by
  intro d hd
  obtain ⟨n, -, hd⟩ := List.mem_flatMap.mp hd
  have hn := n.toNat_lt
  simp only [List.mem_cons, List.not_mem_nil, or_false] at hd
  obtain rfl | rfl := hd
  · exact hexDigit_text (by omega)
  · exact hexDigit_text (by omega)

theorem capture_length (output : Bytes) : (capture output).length ≤ output.length := by
  have hdrop := (List.dropWhile_sublist (· == 10) (l := (output.filter (· != 0)).reverse)).length_le
  have hfilter := List.length_filter_le (· != 0) output
  simp only [capture, List.length_reverse] at hdrop ⊢
  omega

theorem capture_text {output : Bytes} (h : ∀ d ∈ output, d ≠ 0 ∧ d ≠ 10) :
    capture output = output ∧ capture (output ++ [10]) = output := by
  have hfilter : output.filter (· != 0) = output := by
    rw [List.filter_eq_self]
    intro d hd
    simpa using (h d hd).1
  have hdrop : output.reverse.dropWhile (· == 10) = output.reverse := by
    cases hrev : output.reverse with
    | nil => rfl
    | cons d rest =>
      have hmem : d ∈ output := by
        rw [← List.mem_reverse, hrev]
        exact List.mem_cons_self
      rw [List.dropWhile_cons_of_neg (by simpa using (h d hmem).2)]
  constructor
  · rw [capture, hfilter, hdrop, List.reverse_reverse]
  · rw [capture, List.filter_append, hfilter, List.reverse_append]
    simp [hdrop]

theorem capture_sum (data : Bytes) : capture (markText data) = sha256sum data :=
  (capture_text (sha256sum_text data)).2

/-- A mark written only in part is the sum it was written for, or no sum at all. -/
theorem capture_part {part data data' : Bytes} (hpart : part <+: markText data)
    (h : capture part = sha256sum data') : sha256sum data = sha256sum data' := by
  have hlen := capture_length part
  rw [h, sha256sum_length] at hlen
  obtain ⟨rest, hrest⟩ := hpart
  have htake : part.take 64 = sha256sum data := by
    have hsum : (markText data).take 64 = sha256sum data := by
      rw [markText, List.take_append_of_le_length (by rw [sha256sum_length]),
        List.take_of_length_le (by rw [sha256sum_length])]
    rw [← hsum, ← hrest, List.take_append_of_le_length hlen]
  have hmark : part = sha256sum data ∨ part = markText data := by
    have hlong : part.length + rest.length = 65 := by
      rw [← List.length_append, hrest, markText, List.length_append, sha256sum_length,
        List.length_singleton]
    obtain hempty | hone : rest.length = 0 ∨ rest.length = 1 := by omega
    · rw [List.length_eq_zero_iff] at hempty
      rw [hempty, List.append_nil] at hrest
      exact Or.inr hrest
    · rw [List.take_of_length_le (by omega)] at htake
      exact Or.inl htake
  obtain rfl | rfl := hmark
  · rw [← h, (capture_text (sha256sum_text data)).1]
  · rw [← h, capture_sum]

/-! ### What is true of the card at every command -/

/-- The mark is of a rewrite that was done, and a completed request that is still on the card
has its mark on DATA. -/
structure Kept (w : World) : Prop where
  fine : Fine w.history
  serial : ∀ r, w.request.Holds r → r.serial < w.serial
  older : ∀ r, .completed r ∈ w.history → r.serial < w.serial
  mark : ∀ text, w.mark.Holds text → ∃ r, .rewritten r ∈ w.history ∧ text <+: markText r.content
  done : ∀ r, .completed r ∈ w.history → w.request.Holds r →
    w.mark = .settled (some (markText r.content)) ∧ w.mountable = true

/-- No rewrite was done for another content with the sum of the request on the card. -/
def Distinct (w : World) : Prop :=
  ∀ r r', w.request.now = some r → .rewritten r' ∈ w.history →
    sha256sum r'.content = sha256sum r.content → r'.content = r.content

/-- DATA was rewritten for the content of the request on the card. -/
def Carried (w : World) : Prop :=
  ∀ r, w.request.now = some r → ∃ r', .rewritten r' ∈ w.history ∧ r'.content = r.content

/-- A boot that is past the reset. -/
structure Past (w : World) : Prop extends Kept w where
  settled : w.request.now = w.request.kept

theorem File.holds_now {α : Type} {file : File α} {a : α} (h : file.now = some a) : file.Holds a :=
  Or.inl h

theorem File.holds_iff {α : Type} {file : File α} {a : α} (h : file.now = file.kept) :
    file.Holds a ↔ file.now = some a := by
  rw [Holds, ← h, or_self]

theorem File.holds_settled {α : Type} {content : Option α} {a : α} :
    (settled content).Holds a ↔ content = some a := or_self_iff

theorem Kept.lost {w w' : World} (h : Kept w) (hlost : Lost w w') :
    Kept w' ∧ w'.request.now = w'.request.kept ∧ w'.mark.now = w'.mark.kept := by
  obtain ⟨request, hrequest, mark, hmark, rfl⟩ := hlost
  have hholds : ∀ r, (File.settled request).Holds r → w.request.Holds r := by
    intro r hr
    rw [File.holds_settled] at hr
    obtain rfl | rfl := hrequest
    · exact Or.inl hr
    · exact Or.inr hr
  refine ⟨⟨h.fine, fun r hr => h.serial r (hholds r hr), h.older, ?_, ?_⟩, rfl, rfl⟩
  · intro text htext
    rw [File.holds_settled] at htext
    obtain rfl | rfl | ⟨-, whole, part, hwhole, hpart, rfl⟩ := hmark
    · exact h.mark text (Or.inl htext)
    · exact h.mark text (Or.inr htext)
    · obtain ⟨r, hr, hprefix⟩ := h.mark whole (Or.inl hwhole)
      obtain rfl : part = text := Option.some.inj htext
      exact ⟨r, hr, hpart.trans hprefix⟩
  · intro r hr hrequest
    obtain ⟨hdone, hmount⟩ := h.done r hr (hholds r hrequest)
    refine ⟨?_, hmount⟩
    obtain rfl | rfl | ⟨hne, -⟩ := hmark
    · rw [hdone]
      rfl
    · rw [hdone]
      rfl
    · rw [hdone] at hne
      exact absurd rfl hne

/-! ### The reset -/

/-- What holds wherever the power may go. -/
def SafeAt (w : World) (c : Command) : Prop := Kept w ∧ ∀ w', cutWithin w c w' → Kept w'

theorem safeAt {w : World} {c : Command} (h : Kept w) (hc : c ≠ .mke2fs) : SafeAt w c := by
  refine ⟨h, fun w' hcut => ?_⟩
  cases c with
  | mke2fs => exact absurd rfl hc
  | _ => exact hcut.elim

theorem Kept.sync {w : World} (h : Kept w) :
    Kept { w with request := .settled w.request.now, mark := .settled w.mark.now } := by
  refine ⟨h.fine, ?_, h.older, ?_, ?_⟩
  · intro r hr
    exact h.serial r (Or.inl (File.holds_settled.mp hr))
  · intro text htext
    exact h.mark text (Or.inl (File.holds_settled.mp htext))
  · intro r hr hrequest
    obtain ⟨hmark, hmount⟩ := h.done r hr (Or.inl (File.holds_settled.mp hrequest))
    refine ⟨?_, hmount⟩
    rw [hmark]
    rfl

theorem Kept.rm {w : World} {r : Request} (h : Kept w) (hcarried : Carried w)
    (hr : w.request.now = some r) :
    Kept { w with request := ⟨none, w.request.kept⟩, history := .deleted r :: w.history } := by
  have hholds : ∀ r', (File.mk none w.request.kept).Holds r' → w.request.Holds r' := by
    rintro r' (hnow | hkept)
    · cases hnow
    · exact Or.inr hkept
  refine ⟨⟨hcarried r hr, h.fine⟩, fun r' hr' => h.serial r' (hholds r' hr'), ?_, ?_, ?_⟩
  · intro r' hr'
    exact h.older r' (by simpa using hr')
  · intro text htext
    obtain ⟨r', hr', hprefix⟩ := h.mark text htext
    exact ⟨r', List.mem_cons_of_mem _ hr', hprefix⟩
  · intro r' hr' hrequest
    exact h.done r' (by simpa using hr') (hholds r' hrequest)

theorem safe_exec {allowed : World → Command → Prop} {c : Command} {β : Type}
    {f : c.Ans → Prog Commands Unit β} {Q : β → World → Prop} {E : Unit → World → Prop} {w : World}
    (hallowed : allowed w c)
    (h : ∀ a w', does w c a w' → Safe (· = ·) does allowed (f a) Q E w') :
    Safe (· = ·) does allowed (exec c >>= f) Q E w := by
  rintro w₁ rfl
  exact ⟨hallowed, h⟩

theorem deleteRequest_safe {w : World} (h : Past w) (hcarried : Carried w) :
    Safe (· = ·) does SafeAt deleteRequest (fun _ => Past) (fun _ => Past) w := by
  refine safe_exec (safeAt h.toKept (by simp)) ?_
  rintro writable _ rfl
  refine Safe.bind (safe_raiseIf.mpr ⟨fun _ => h, fun _ => ?_⟩)
  refine safe_exec (safeAt h.toKept (by simp)) ?_
  intro removed w₁ hrm
  refine Safe.bind (safe_raiseIf.mpr ⟨?_, ?_⟩)
  · rintro rfl
    obtain rfl : w₁ = _ := hrm
    exact h
  · intro hremoved
    obtain rfl : removed = true := by simpa using hremoved
    obtain ⟨r, hr, rfl⟩ := hrm
    have hkept := h.toKept.rm hcarried hr
    refine safe_exec (safeAt hkept (by simp)) ?_
    rintro - _ rfl
    refine safe_exec (safeAt hkept.sync (by simp)) ?_
    rintro - _ rfl
    exact ⟨hkept.sync, rfl⟩

theorem readOld_safe {w : World} (h : Kept w) :
    Safe (· = ·) does SafeAt readOld
      (fun x t => t = w ∧ x.2 = if w.mountable = true then capture (w.mark.now.getD []) else [])
      (fun _ t => t = w) w := by
  refine safe_exec (safeAt h (by simp)) ?_
  rintro _ w ⟨rfl, rfl⟩
  by_cases hmount : w.mountable = true
  · rw [if_pos hmount, if_pos hmount]
    refine safe_exec (safeAt h (by simp)) ?_
    rintro saved _ rfl
    refine safe_exec (safeAt h (by simp)) ?_
    rintro _ _ ⟨rfl, rfl⟩
    refine safe_exec (safeAt h (by simp)) ?_
    rintro unmounted _ rfl
    exact Safe.bind (safe_raiseIf.mpr ⟨fun _ => rfl, fun _ => ⟨rfl, rfl⟩⟩)
  · rw [if_neg hmount, if_neg hmount]
    exact ⟨rfl, rfl⟩

theorem setClock_safe {w : World} (h : Kept w) (saved : ℕ) :
    Safe (· = ·) does SafeAt (setClock saved) (fun _ t => t = w) (fun _ t => t = w) w := by
  refine safe_exec (safeAt h (by simp)) ?_
  rintro seconds _ rfl
  by_cases hsaved : (seconds : ℕ) < saved
  · rw [if_pos hsaved]
    refine safe_exec (safeAt h (by simp)) ?_
    rintro done _ rfl
    rfl
  · rw [if_neg hsaved]
    rfl

/-- DATA was rewritten for the request `r`, and is not marked yet. -/
structure Rewritten (r : Request) (w : World) : Prop extends Past w where
  request : w.request.now = some r
  rewritten : .rewritten r ∈ w.history
  undone : .completed r ∉ w.history
  mountable : w.mountable = true

theorem Rewritten.holds {r r' : Request} {w : World} (h : Rewritten r w)
    (hr' : w.request.Holds r') : r' = r := by
  have hnow := (File.holds_iff h.settled).mp hr'
  rw [h.request] at hnow
  exact (Option.some.inj hnow).symm

theorem Rewritten.carried {r : Request} {w : World} (h : Rewritten r w) : Carried w := by
  intro r' hr'
  obtain rfl := h.holds (Or.inl hr')
  exact ⟨r', h.rewritten, rfl⟩

theorem Rewritten.mark_echo {r : Request} {w : World} (h : Rewritten r w) :
    Rewritten r { w with mark := ⟨some (markText r.content), w.mark.kept⟩ } := by
  refine ⟨⟨⟨h.fine, h.serial, h.older, ?_, ?_⟩, h.settled⟩, h.request, h.rewritten, h.undone,
    h.mountable⟩
  · rintro text (hnow | hkept)
    · obtain rfl : markText r.content = text := Option.some.inj hnow
      exact ⟨r, h.rewritten, List.prefix_refl _⟩
    · exact h.mark text (Or.inr hkept)
  · intro r' hr' hrequest
    obtain rfl := h.holds hrequest
    exact absurd hr' h.undone

theorem Rewritten.complete {r : Request} {w : World} (h : Rewritten r w)
    (hmark : w.mark.now = some (markText r.content)) :
    Past { w with mark := .settled w.mark.now, history := .completed r :: w.history } := by
  refine ⟨⟨h.fine, h.serial, ?_, ?_, ?_⟩, h.settled⟩
  · intro r' hr'
    obtain heq | hr' := List.mem_cons.mp hr'
    · obtain rfl : r' = r := Event.completed.inj heq
      exact h.serial r' (Or.inl h.request)
    · exact h.older r' hr'
  · intro text htext
    obtain ⟨r', hr', hprefix⟩ := h.mark text (Or.inl (File.holds_settled.mp htext))
    exact ⟨r', List.mem_cons_of_mem _ hr', hprefix⟩
  · intro r' _ hrequest
    obtain rfl := h.holds hrequest
    rw [hmark]
    exact ⟨rfl, h.mountable⟩

theorem markDone_safe {r : Request} {w : World} (h : Rewritten r w) :
    Safe (· = ·) does SafeAt (markDone (sha256sum r.content)) (fun _ t => Past t ∧ Carried t)
      (fun _ => Past) w := by
  refine safe_exec (safeAt h.toKept (by simp)) ?_
  rintro _ _ ⟨rfl, rfl⟩
  refine safe_exec (safeAt h.toKept (by simp)) ?_
  rintro - _ rfl
  have hecho := h.mark_echo
  refine safe_exec (safeAt hecho.toKept (by simp)) ?_
  rintro _ _ ⟨rfl, r', hr', rfl⟩
  obtain rfl := hecho.holds (Or.inl hr')
  refine ⟨hecho.complete rfl, ?_⟩
  intro r hr
  obtain ⟨r₁, hr₁, hcontent⟩ := hecho.carried r hr
  exact ⟨r₁, List.mem_cons_of_mem _ hr₁, hcontent⟩

theorem Kept.erasing {r : Request} {w : World} (h : Past w) (hr : w.request.now = some r)
    (hundone : .completed r ∉ w.history) {mark : File Bytes}
    (hmark : mark = w.mark ∨ mark = .settled none) (mountable : Bool) :
    Past { w with mark, mountable, history := .erasing r :: w.history } := by
  refine ⟨⟨⟨hundone, h.fine⟩, h.serial, ?_, ?_, ?_⟩, h.settled⟩
  · intro r' hr'
    exact h.older r' (by simpa using hr')
  · intro text htext
    obtain rfl | rfl := hmark
    · obtain ⟨r', hr', hprefix⟩ := h.mark text htext
      exact ⟨r', List.mem_cons_of_mem _ hr', hprefix⟩
    · cases File.holds_settled.mp htext
  · intro r' hr' hrequest
    have hnow := (File.holds_iff h.settled).mp hrequest
    rw [hr] at hnow
    obtain rfl : r = r' := Option.some.inj hnow
    exact absurd (by simpa using hr') hundone

theorem Kept.rewritten {r : Request} {w : World} (h : Past w) (hr : w.request.now = some r)
    (hundone : .completed r ∉ w.history) :
    Rewritten r { w with
      mark := .settled none
      mountable := true
      history := .rewritten r :: .erasing r :: w.history } := by
  obtain ⟨herasing, hsettled⟩ := Kept.erasing h hr hundone (Or.inr rfl) true
  refine ⟨⟨⟨herasing.fine, herasing.serial, ?_, ?_, ?_⟩, hsettled⟩, hr, by simp, by simpa, rfl⟩
  · intro r' hr'
    exact herasing.older r' (by simpa using hr')
  · intro text htext
    cases File.holds_settled.mp htext
  · intro r' hr' hrequest
    exact herasing.done r' (by simpa using hr') hrequest

/-- The mark of the request found is of a rewrite for its content. -/
theorem Kept.carried {r : Request} {w : World} (h : Kept w) (hdistinct : Distinct w)
    (hr : w.request.now = some r)
    (hsum : (if w.mountable = true then capture (w.mark.now.getD []) else []) =
      sha256sum r.content) : Carried w := by
  have hlong : sha256sum r.content ≠ [] := by
    intro hnil
    have hlen := sha256sum_length r.content
    rw [hnil] at hlen
    cases hlen
  have hmount : w.mountable = true := by
    by_contra hmount
    rw [if_neg hmount] at hsum
    exact hlong hsum.symm
  rw [if_pos hmount] at hsum
  cases hmark : w.mark.now with
  | none =>
    rw [hmark] at hsum
    exact absurd hsum.symm hlong
  | some text =>
    rw [hmark, Option.getD_some] at hsum
    obtain ⟨r', hr', hprefix⟩ := h.mark text (Or.inl hmark)
    have hcontent := hdistinct r r' hr hr' (capture_part hprefix hsum)
    intro r₁ hr₁
    obtain rfl : r = r₁ := Option.some.inj (hr.symm.trans hr₁)
    exact ⟨r', hr', hcontent⟩

theorem eraseData_safe {r : Request} {w : World} (h : Past w) (hr : w.request.now = some r)
    (hundone : .completed r ∉ w.history) (saved : ℕ) :
    Safe (· = ·) does SafeAt (eraseData (sha256sum r.content) saved) (fun _ => Past)
      (fun _ => Past) w := by
  have htorn : ∀ w', torn w w' → Past w' := by
    rintro w' ⟨r', hr', mark, hmark, mountable, rfl⟩
    obtain rfl : r' = r := Option.some.inj (hr'.symm.trans hr)
    exact Kept.erasing h hr hundone hmark mountable
  refine safe_exec ⟨h.toKept, fun w' hcut => (htorn w' hcut).toKept⟩ ?_
  intro made w₁ hmake
  refine Safe.bind (safe_raiseIf.mpr ⟨?_, ?_⟩)
  · rintro rfl
    exact htorn w₁ hmake
  · intro hmade
    obtain rfl : made = true := by simpa using hmade
    obtain ⟨r', hr', rfl⟩ := hmake
    obtain rfl : r' = r := Option.some.inj (hr'.symm.trans hr)
    refine Safe.bind ((markDone_safe (Kept.rewritten h hr hundone)).mono ?_ fun _ _ ht => ht)
    rintro - w₂ ⟨hpast, hcarried⟩
    refine Safe.bind ((setClock_safe hpast.toKept saved).mono ?_ ?_)
    · rintro - _ rfl
      exact deleteRequest_safe hpast hcarried
    · rintro - _ rfl
      exact hpast

theorem resetBoot_safe {w : World} (h : Past w) (hdistinct : Distinct w) :
    Safe (· = ·) does SafeAt resetBoot (fun _ => Past) (fun _ => Past) w := by
  refine safe_exec (safeAt h.toKept (by simp)) ?_
  rintro present _ ⟨-, rfl⟩
  by_cases hpresent : present = true
  · rw [if_pos hpresent]
    refine safe_exec (safeAt h.toKept (by simp)) ?_
    rintro content _ ⟨-, rfl⟩
    by_cases hasks : asksReset content = true
    · rw [if_pos hasks]
      refine safe_exec (safeAt h.toKept (by simp)) ?_
      rintro mounted _ rfl
      refine Safe.bind (safe_raiseIf.mpr ⟨fun _ => h, fun _ => ?_⟩)
      refine safe_exec (safeAt h.toKept (by simp)) ?_
      rintro data _ ⟨hdata, rfl⟩
      obtain ⟨r, hr, rfl⟩ := Option.map_eq_some_iff.mp hdata
      refine safe_exec (safeAt h.toKept (by simp)) ?_
      rintro made _ rfl
      refine Safe.bind (safe_raiseIf.mpr ⟨fun _ => h, fun _ => ?_⟩)
      refine Safe.bind ((readOld_safe h.toKept).mono ?_ ?_)
      · rintro ⟨saved, doneSum⟩ _ ⟨rfl, hold⟩
        simp only at hold ⊢
        by_cases hsum : doneSum = sha256sum r.content
        · rw [if_pos hsum]
          exact deleteRequest_safe h (h.carried hdistinct hr (hold.symm.trans hsum))
        · rw [if_neg hsum]
          refine eraseData_safe h hr (fun hdone => hsum ?_) saved
          obtain ⟨hmark, hmount⟩ := h.done r hdone (Or.inl hr)
          rw [hold, if_pos hmount, hmark]
          exact capture_sum r.content
      · rintro - _ rfl
        exact h
    · rw [if_neg hasks]
      exact h
  · rw [if_neg hpresent]
    exact h

end Epilykos.FactoryReset
