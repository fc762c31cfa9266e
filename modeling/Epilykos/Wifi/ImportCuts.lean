import Epilykos.Wifi.Import

/-!
An import that is cut anywhere, or that a call of its own stops, is made good by the next one:
wherever it is, the networks it has written are written again or need not be, and a file is gone
only when everything the files say is on DATA.
-/

namespace Epilykos.Wifi.BootImport

open Program

variable {py : Python} {source : Source} {sources : List Source} {data : PlatformEnv.Bytes}
  {s t : Card}

/-! ### Calls that fail -/

/-- A call may fail, before it took effect or after; the country's file may then hold anything. -/
def Serves (s : Card) : (c : Call) → Ans c → Card → Prop
  | .isFile name, there, t => there = (s.boot name).isSome ∧ t = s
  | .read name, data, t => (data = none ∨ data = s.boot name) ∧ t = s
  | .remount _, _, t => t = s
  | .unlinkBoot name, ok, t => t = s.unlinkBoot name ∨ ok = false ∧ t = s
  | .unlink name, ok, t => t = s.put (.network name) none ∨ ok = false ∧ t = s
  | .replace name text, ok, t =>
    t = s.put (.network name) (some (.text text)) ∨ ok = false ∧ t = s
  | .saveCountry text, ok, t =>
    t = s.put .country (some (.text text)) ∨ ok = false ∧ ∃ content, t = s.put .country content

/-- The country's file is the only one that is not replaced as a whole. -/
def Torn (s : Card) : Call → Card → Prop
  | .saveCountry _, t => ∃ content, t = s.put .country content
  | _, _ => False

/-! ### Imports that are cut -/

/-- Nothing has changed but what one of the networks settles. -/
def Touched (nets : List WifiNetwork) (s t : Card) : Prop :=
  t.boot = s.boot ∧ Overwrites.Off (nets.map writes) s.data t.data

theorem Touched.refl (nets : List WifiNetwork) (s : Card) : Touched nets s s :=
  ⟨rfl, .refl _ _⟩

theorem Touched.mono {nets more : List WifiNetwork} (h : Touched nets s t)
    (hsub : ∀ net ∈ nets, net ∈ more) : Touched more s t :=
  ⟨h.1, h.2.mono fun _ hw => List.map_subset writes hsub hw⟩

theorem Touched.put {net : WifiNetwork} {place : Place} (h : Touched [net] s t)
    (hplace : (writes net).owns place = true) (content : Option Content) :
    Touched [net] s (t.put place content) := by
  refine ⟨h.1, fun other hfree => ?_⟩
  have hne : other ≠ place := by
    rintro rfl
    exact Bool.false_ne_true ((hfree _ (.head _)).symm.trans hplace)
  rw [Card.put_data, Function.update_of_ne hne]
  exact h.2 other hfree

/-- The program keeps the condition, also where it is cut or raises, and ends in `Q`. -/
abbrev Keeps {α : Type} (I : Card → Prop) (p : Import α) (Q : α → Card → Prop) (s : Card) : Prop :=
  Safe (· = ·) Serves (fun t c => I t ∧ ∀ t', Torn t c t' → I t') p Q (fun _ => I) s

section Keeps

variable {α β : Type} {I J : Card → Prop} {p : Import α} {P Q : α → Card → Prop} {u : Card}

theorem Keeps.into (h : Keeps I p Q s) (hI : ∀ t, I t → J t) (hQ : ∀ a t, Q a t → P a t) :
    Keeps J p P s :=
  (h.weaken fun _ _ hc => ⟨hI _ hc.1, fun t' ht => hI t' (hc.2 t' ht)⟩).mono hQ fun _ _ => hI _

theorem keeps_bind {R : β → Card → Prop} {f : α → Import β} (hp : Keeps I p Q s)
    (hf : ∀ a t, Q a t → Keeps I (f a) R t) : Keeps I (p >>= f) R s :=
  Safe.bind (hp.mono hf fun _ _ h => h)

/-- After a call that fails or is done. -/
theorem keeps_ok {ok : Bool} (h : t = u ∨ ok = false ∧ t = s) (hs : I s) (hu : I u) :
    Keeps I (Prog.raiseIf (ok = false) .os) (fun _ t => t = u) t := by
  refine safe_raiseIf.mpr ⟨fun _ => ?_, fun hok => h.resolve_right fun h => hok h.1⟩
  rcases h with rfl | ⟨_, rfl⟩
  · exact hu
  · exact hs

theorem keeps_unlink {name : FileName} (hs : I s) (hput : I (s.put (.network name) none)) :
    Keeps I (unlink name) (fun _ t => t = s.put (.network name) none) s :=
  safe_call.mpr ⟨⟨hs, fun _ h => h.elim⟩, fun _ _ h => keeps_ok h hs hput⟩

theorem keeps_writeFile {name : FileName} {text : List Char} (hs : I s)
    (hput : I (s.put (.network name) (some (.text text)))) :
    Keeps I (writeFile name text) (fun _ t => t = s.put (.network name) (some (.text text))) s :=
  safe_call.mpr ⟨⟨hs, fun _ h => h.elim⟩, fun _ _ h => keeps_ok h hs hput⟩

theorem keeps_unlinkBoot {name : String} (hs : I s) (hremove : I (s.unlinkBoot name)) :
    Keeps I (unlinkBoot name) (fun _ t => t = s.unlinkBoot name) s :=
  safe_call.mpr ⟨⟨hs, fun _ h => h.elim⟩, fun _ _ h => keeps_ok h hs hremove⟩

theorem keeps_saveCountry {country : List Char} (hgood : isCountry country = true) (hs : I s)
    (hput : ∀ content, I (s.put .country content)) :
    Keeps I (saveCountry country)
      (fun _ t => t = s.put .country (some (.text (country.map Char.toUpper ++ ['\n'])))) s := by
  rw [saveCountry, country_upper hgood]
  simp only [hgood]
  refine safe_call.mpr ⟨⟨hs, ?_⟩, ?_⟩
  · rintro _ ⟨content, rfl⟩
    exact hput content
  · rintro _ _ (rfl | ⟨hok, content, rfl⟩)
    · exact keeps_ok (Or.inl rfl) hs (hput _)
    · exact keeps_ok (Or.inr ⟨hok, rfl⟩) (hput content) (hput _)

end Keeps

theorem keeps_addNetwork {net : WifiNetwork} (h : net.Valid) (s : Card) :
    Keeps (Touched [net] s) (addNetwork net)
      (fun _ t => t.boot = s.boot ∧ t.data = (writes net).apply s.data) s := by
  have hown : (writes net).owns (.network (ownFile net)) = true := owns_network.mpr (Or.inl rfl)
  have hother : (writes net).owns (.network (otherFile net)) = true :=
    owns_network.mpr (Or.inr rfl)
  have hfiles : Keeps (Touched [net] s) (writeIwdNetwork net)
      (fun _ t => t.boot = s.boot ∧ t.data = placed net s.data) s := by
    rw [writeIwdNetwork, show net.validate = .ok net from h]
    have hs := Touched.refl [net] s
    have hs₁ := hs.put hother none
    refine keeps_bind (keeps_unlink hs hs₁) fun _ t ht => ?_
    subst ht
    refine (keeps_writeFile hs₁ (hs₁.put hown _)).into (fun _ h => h) fun _ t ht => ?_
    subst ht
    exact ⟨rfl, rfl⟩
  refine keeps_bind hfiles fun _ t ht => ?_
  rw [apply_writes]
  by_cases hcountry : net.country = []
  · rw [Prog.when_neg (not_not.mpr hcountry), if_pos hcountry]
    exact ht
  · have ht' : Touched [net] s t := by
      refine ⟨ht.1, fun place hfree => ?_⟩
      have hfree' := hfree (writes net) (.head _)
      cases place with
      | network name => rw [ht.2, ← apply_network, Overwrites.apply_free hfree']
      | country => rw [ht.2]; rfl
    have hown' : (writes net).owns .country = true := owns_country.mpr hcountry
    rw [Prog.when_pos hcountry, if_neg hcountry]
    refine (keeps_saveCountry (valid_country h hcountry) ht' fun content =>
      ht'.put hown' content).into (fun _ h => h) fun _ u hu => ?_
    subst hu
    exact ⟨ht.1, congrArg (Function.update · _ _) ht.2⟩

/-- How far one file has come: it does not stop the import, and what it settles is settled. -/
structure Came (s : Card) (plan : Plan) (names : List String) (t : Card) : Prop where
  going : stop plan = none
  names : names = consumed plan
  boot : t.boot = s.boot
  data : t.data = written (networks plan) s.data

theorem keeps_importFile (hdata : s.boot source.name = some data) :
    Keeps (Touched (networks [(source.name, source.reading py data)]) s) (importFile py source)
      (fun used t => Came s [(source.name, source.reading py data)]
        (if used then [source.name] else []) t) s := by
  have hvalid := @reading_valid py source data
  refine safe_call.mpr ⟨⟨.refl _ s, fun _ h => h.elim⟩, fun answer t h => ?_⟩
  obtain ⟨hanswer, rfl⟩ := h
  rcases hanswer with rfl | rfl
  · exact Touched.refl _ t
  rw [hdata]
  change Keeps _ (readData py source (some data)) _ t
  rw [readData]
  rw [Source.reading] at hvalid ⊢
  split_ifs with hblank
  · exact ⟨rfl, rfl, rfl, rfl⟩
  · rw [if_neg hblank] at hvalid
    split at hvalid
    · split_ifs
      · exact ⟨rfl, rfl, rfl, rfl⟩
      · exact Touched.refl _ t
    · exact ⟨rfl, rfl, rfl, rfl⟩
    · rename_i net _
      refine keeps_bind (keeps_addNetwork (hvalid rfl) t) fun _ u hu => ?_
      exact ⟨rfl, rfl, hu.1, hu.2⟩

variable {p : String × Reading} {rest : Plan} {names more : List String} {u : Card}

theorem networks_first (p : String × Reading) (rest : Plan) :
    ∀ net ∈ networks [p], net ∈ networks (p :: rest) := by
  obtain ⟨name, reading⟩ := p
  cases reading with
  | network net =>
    intro n hn
    obtain rfl := List.mem_singleton.mp hn
    exact .head _
  | _ => exact fun n hn => absurd hn List.not_mem_nil

/-- What the files behind touch, the whole plan touches. -/
theorem Came.touched (h : Came s [p] names t) (ht : Touched (networks rest) t u) :
    Touched (networks (p :: rest)) s u := by
  have hfirst : Touched (networks [p]) s t := ⟨h.boot, h.data ▸ Overwrites.off_all _ _⟩
  have hfirst' := hfirst.mono (networks_first p rest)
  have hrest : ∀ net ∈ networks rest, net ∈ networks (p :: rest) := by
    obtain ⟨name, reading⟩ := p
    cases reading with
    | network net => exact fun n hn => .tail _ hn
    | stops e => cases h.going
    | _ => exact fun n hn => hn
  have ht' := ht.mono hrest
  exact ⟨ht'.1.trans hfirst'.1, hfirst'.2.trans ht'.2⟩

theorem Came.cons (h : Came s [p] names t) (h' : Came t rest more u) :
    Came s (p :: rest) (names ++ more) u := by
  obtain ⟨name, reading⟩ := p
  have hboot := h'.boot.trans h.boot
  have hdata := h'.data
  rw [h.data] at hdata
  rw [h.names, h'.names]
  cases reading with
  | stops e => cases h.going
  | _ => exact ⟨h'.going, rfl, hboot, hdata⟩

theorem keeps_importFiles (hthere : ∀ src ∈ sources, (s.boot src.name).isSome) :
    Keeps (Touched (networks (planOf py sources s.boot)) s) (importFiles py sources)
      (Came s (planOf py sources s.boot)) s := by
  induction sources generalizing s with
  | nil => exact ⟨rfl, rfl, rfl, rfl⟩
  | cons source sources ih =>
    obtain ⟨hsource, hrest⟩ := List.forall_mem_cons.mp hthere
    obtain ⟨data, hdata⟩ := Option.isSome_iff_exists.mp hsource
    rw [importFiles, planOf_cons hdata]
    refine keeps_bind ((keeps_importFile hdata).into (fun t ht => ht.mono (networks_first _ _))
      fun _ _ h => h) fun used t ht => ?_
    have hnext := ih (s := t) (ht.boot ▸ hrest)
    rw [ht.boot] at hnext
    refine keeps_bind (hnext.into (fun u hu => ht.touched hu) fun _ _ h => h) fun names u hu => ?_
    have hboth := ht.cons hu
    cases used with
    | true => exact hboth
    | false => exact hboth

theorem keeps_present (sources : List Source) (s : Card) :
    Keeps (· = s) (present sources) (fun found t => found = there sources s ∧ t = s) s := by
  induction sources with
  | nil => exact ⟨rfl, rfl⟩
  | cons source sources ih =>
    refine safe_call.mpr ⟨⟨rfl, fun _ h => h.elim⟩, fun answer t h => ?_⟩
    obtain ⟨rfl, rfl⟩ := h
    refine keeps_bind ih fun found u hu => ?_
    obtain ⟨rfl, rfl⟩ := hu
    exact ⟨(there_cons source sources u).symm, rfl⟩

/-! ### Files deleted one by one -/

theorem planOf_unlinkBoot (sources : List Source) (s : Card) (name : String) :
    planOf py sources (s.unlinkBoot name).boot =
      (planOf py sources s.boot).filter fun p => p.1 ≠ name := by
  induction sources with
  | nil => rfl
  | cons source sources ih =>
    rw [planOf, planOf, List.filterMap_cons, List.filterMap_cons]
    rw [planOf, planOf] at ih
    by_cases hname : source.name = name
    · have hnone : (s.unlinkBoot name).boot source.name = none := by
        rw [hname]
        exact Function.update_self ..
      rw [hnone]
      cases s.boot source.name with
      | none => exact ih
      | some data => simpa [hname] using ih
    · have hsame : (s.unlinkBoot name).boot source.name = s.boot source.name :=
        Function.update_of_ne hname _ _
      rw [hsame]
      cases s.boot source.name with
      | none => exact ih
      | some data => simpa [hname] using ih

theorem planOf_names (sources : List Source) (s : Card) :
    ((planOf py sources s.boot).map Prod.fst).Sublist (sources.map Source.name) := by
  induction sources with
  | nil => exact .slnil
  | cons source sources ih =>
    rw [planOf, List.filterMap_cons]
    cases s.boot source.name with
    | none => exact ih.cons _
    | some data => exact ih.cons_cons _

theorem plan_nodup (py : Python) (s : Card) : ((plan py s).map Prod.fst).Nodup := by
  refine (planOf_names _ s).nodup ?_
  change ["wpa_supplicant.conf", "firstrun.sh", "network-config", "rpi-preseed.toml", "wifi.txt",
    "wifi.txt.txt"].Nodup
  decide

theorem consumed_subset (plan : Plan) : consumed plan ⊆ plan.map Prod.fst := by
  induction plan with
  | nil => exact List.nil_subset _
  | cons p rest ih =>
    obtain ⟨name, reading⟩ := p
    cases reading with
    | left => exact List.Subset.trans ih (List.subset_cons_self _ _)
    | stops e => exact List.Subset.trans ih (List.subset_cons_self _ _)
    | empty => exact List.cons_subset_cons _ ih
    | network net => exact List.cons_subset_cons _ ih

theorem filter_absent {name : String} (h : name ∉ rest.map Prod.fst) :
    (rest.filter fun p => p.1 ≠ name) = rest := by
  refine List.filter_eq_self.mpr fun p hp => decide_eq_true fun heq => h ?_
  exact heq ▸ List.mem_map_of_mem hp

/-- What is left of a plan when the first file to delete is gone. -/
structure Left (whole part : Plan) (names : List String) : Prop where
  going : stop part = none
  names : consumed part = names
  networks : networks part <:+ BootImport.networks whole

theorem left_head {plan : Plan} {name : String} (hnodup : (plan.map Prod.fst).Nodup)
    (hgoing : stop plan = none) (h : consumed plan = name :: names) :
    Left plan (plan.filter fun p => p.1 ≠ name) names := by
  induction plan with
  | nil => cases h
  | cons p rest ih =>
    obtain ⟨other, reading⟩ := p
    obtain ⟨hother, hrest⟩ := List.nodup_cons.mp hnodup
    have hgone : ∀ r, other = name → (((other, r) : String × Reading) :: rest).filter
        (fun p => p.1 ≠ name) = rest := by
      rintro r rfl
      rw [List.filter_cons_of_neg (by simp), filter_absent hother]
    cases reading with
    | stops e => cases hgoing
    | empty =>
      obtain ⟨hname, hnames⟩ := List.cons.inj h
      rw [hgone _ hname]
      exact ⟨hgoing, hnames, List.suffix_rfl⟩
    | network net =>
      obtain ⟨hname, hnames⟩ := List.cons.inj h
      rw [hgone _ hname]
      exact ⟨hgoing, hnames, List.suffix_cons _ _⟩
    | left =>
      have hne : other ≠ name := by
        rintro rfl
        have hin : other ∈ consumed rest := by
          change consumed rest = other :: names at h
          exact h ▸ .head _
        exact hother (consumed_subset rest hin)
      have hleft := ih hrest hgoing h
      rw [List.filter_cons_of_pos (by simpa using hne)]
      exact ⟨hleft.going, hleft.names, hleft.networks⟩

/-- Everything that the files say is on DATA. -/
structure Settled (py : Python) (s : Card) : Prop where
  going : stop (plan py s) = none
  data : written (networks (plan py s)) s.data = s.data

theorem Settled.imported (h : Settled py s) :
    imported py s = (.ok (), s.without (consumed (plan py s))) := by
  rw [BootImport.imported, ended, h.going, h.data]

theorem Settled.remove {name : String} (h : Settled py s)
    (hnames : consumed (plan py s) = name :: names) :
    Settled py (s.unlinkBoot name) ∧ consumed (plan py (s.unlinkBoot name)) = names ∧
      BootImport.imported py (s.unlinkBoot name) = BootImport.imported py s := by
  have hleft := left_head (plan_nodup py s) h.going hnames
  have hplan : plan py (s.unlinkBoot name) = (plan py s).filter fun p => p.1 ≠ name :=
    planOf_unlinkBoot _ s name
  rw [← hplan] at hleft
  have hdata : written (networks (plan py (s.unlinkBoot name))) s.data = s.data := by
    have hagain := Overwrites.all_again (f := s.data) (hleft.networks.map writes)
    rwa [← written, ← written, h.data] at hagain
  have hsettled : Settled py (s.unlinkBoot name) := ⟨hleft.going, hdata⟩
  refine ⟨hsettled, hleft.names, ?_⟩
  rw [hsettled.imported, h.imported, hleft.names, without_cons, hnames]

theorem keeps_removeAll (h : Settled py s) (hnames : consumed (plan py s) = names) :
    Keeps (fun t => imported py t = imported py s) (removeAll names)
      (fun _ t => imported py t = imported py s) s := by
  induction names generalizing s with
  | nil => exact rfl
  | cons name names ih =>
    obtain ⟨hsettled, hrest, hsame⟩ := h.remove hnames
    refine keeps_bind (keeps_unlinkBoot rfl hsame) fun _ t ht => ?_
    subst ht
    exact (ih hsettled hrest).into (fun _ h => h.trans hsame) fun _ _ h => h.trans hsame

/-! ### An import after others -/

theorem ended_congr (h : Touched (networks rest) s t) : ended t rest = ended s rest := by
  obtain ⟨hboot, hoff⟩ := h
  have hdata : written (networks rest) t.data = written (networks rest) s.data :=
    Overwrites.all_congr hoff
  rw [ended, ended, hdata, hboot]

theorem Touched.imported (h : Touched (networks (plan py s)) s t) :
    BootImport.imported py t = BootImport.imported py s := by
  have hplan : plan py t = plan py s := congrArg (planOf py (bootSources py)) h.1
  rw [BootImport.imported, BootImport.imported, hplan, ended_congr h]

theorem Came.settled (h : Came s (plan py s) names t) :
    Settled py t ∧ consumed (plan py t) = names ∧ BootImport.imported py t = BootImport.imported py s := by
  have hplan : plan py t = plan py s := congrArg (planOf py (bootSources py)) h.boot
  refine ⟨⟨hplan ▸ h.going, ?_⟩, hplan ▸ h.names.symm, ?_⟩
  · rw [hplan, h.data]
    exact Overwrites.all_again List.suffix_rfl
  · exact Touched.imported ⟨h.boot, h.data ▸ Overwrites.off_all _ _⟩

/-- Wherever an import is, the next one ends as it would have ended itself. -/
theorem keeps_import (py : Python) (s : Card) :
    Keeps (fun t => imported py t = imported py s) (importBootFiles py)
      (fun _ t => imported py t = imported py s) s := by
  have hpresent := keeps_present (bootSources py) s
  refine keeps_bind (hpresent.into (fun t ht => by rw [ht]) fun _ _ h => h) fun found t ht => ?_
  obtain ⟨rfl, rfl⟩ := ht
  have hfiles : Keeps (Touched (networks (plan py t)) t) (importFiles py (there (bootSources py) t))
      (Came t (plan py t)) t := by
    rw [plan, ← planOf_there]
    exact keeps_importFiles (there_isSome _ t)
  refine keeps_bind (hfiles.into (fun u hu => hu.imported) fun _ _ h => h) fun names u hu => ?_
  obtain ⟨hsettled, hnames, hsame⟩ := hu.settled
  by_cases hnone : names = []
  · rw [Prog.when_neg (not_not.mpr hnone)]
    exact hsame
  rw [Prog.when_pos hnone]
  refine safe_call.mpr ⟨⟨hsame, fun _ h => h.elim⟩, fun (writable : Bool) v hv => ?_⟩
  obtain rfl : v = u := hv
  by_cases hwritable : writable = true
  · have hclose : ∀ w, imported py w = imported py t →
        Keeps (fun w => imported py w = imported py t) (bootRw false >>= fun _ => pure ())
          (fun _ w => imported py w = imported py t) w := fun w hw =>
      safe_call.mpr ⟨⟨hw, fun _ h => h.elim⟩, fun _ x hx => (show x = w from hx) ▸ hw⟩
    have hremove := (keeps_removeAll hsettled hnames).into (fun _ h => h.trans hsame)
      fun _ _ h => h.trans hsame
    change Keeps _ (Prog.when (writable = true) (deleteFiles names)) _ v
    rw [Prog.when_pos hwritable]
    exact Safe.ensure (hremove.mono (fun _ w hw => hclose w hw) fun _ w hw => hclose w hw)
  · change Keeps _ (Prog.when (writable = true) (deleteFiles names)) _ v
    rw [Prog.when_neg hwritable]
    exact hsame

/-- However many imports were cut before, and wherever: the next one ends as the first would have
ended, with the same card. -/
theorem import_resumes (py : Python) {before after : Card}
    (h : Relation.ReflTransGen (Program.Cut Serves Torn (importBootFiles py)) before after) :
    (importBootFiles py).run serve after = (importBootFiles py).run serve before := by
  rw [run_import, run_import]
  induction h with
  | refl => rfl
  | tail _ hcut ih =>
    have hsame : imported py _ = imported py _ := (keeps_import py _).cut hcut
    exact hsame.trans ih

/-! ### A card that an import stopped on -/

theorem follows_serve : Follows (F := Files) serve Serves := by
  intro s c
  cases c with
  | isFile name => exact ⟨rfl, rfl⟩
  | read name => exact ⟨Or.inr rfl, rfl⟩
  | remount writable => rfl
  | _ => exact Or.inl rfl

/-- A library that knows the letters of ASCII. -/
def samplePython : Python where
  lower text := text.map fun c => if 65 ≤ c ∧ c ≤ 90 then c + 32 else c
  upper text := text.map fun c => if 97 ≤ c ∧ c ≤ 122 then c - 32 else c
  decodeUtf16 _ := []
  loads _ := .error .decode

/-- BOOT holds a wifi.txt for a network that DATA knows as an open one. -/
def sampleCard : Card where
  boot name := if name = "wifi.txt" then some "ssid=A\npassword=secret99\n".toUTF8.toList else none
  data place := if place = .network "A.open".toList then
    some (.text "[Settings]\nAutoConnect=true\n".toList) else none

/-- The open network is forgotten and the new one is not yet known: after six files were looked
for, one was read and one was deleted. -/
def halfway : Card := ((importBootFiles samplePython).after serve 8 sampleCard).1

theorem import_resumes_sample : halfway.dir "A.open".toList = none ∧
    (importBootFiles samplePython).run serve halfway =
      (importBootFiles samplePython).run serve sampleCard :=
  ⟨by decide +kernel,
    import_resumes samplePython (.single (.between (runs_after follows_serve 8 _ sampleCard)))⟩

end Epilykos.Wifi.BootImport
