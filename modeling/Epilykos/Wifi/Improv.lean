import Epilykos.Wifi.Network
import Mathlib.Logic.Relation

/-!
Wi-Fi setup over Bluetooth. A write is taken in a callback, which refuses settings while an
attempt is under way and otherwise spawns a task; the task says that an attempt is under way
only when it starts. Each attempt saves the files it finds and puts them back when it fails,
so two attempts at once put back each other's files.
-/

namespace Epilykos.Wifi

open PlatformEnv (Bytes)

/-! ### Packets -/

inductive RpcError
  | invalidRpc
  | unknownRpc
  | unableToConnect
  deriving DecidableEq

/-- The packet in the buffer, once it is all there. -/
def complete (buf : Bytes) : Option Bytes :=
  match buf with
  | _ :: n :: _ => if n.toNat + 3 ≤ buf.length then some (buf.take (n.toNat + 3)) else none
  | _ => none

/-- RpcAssembler.feed: the buffer, and a packet that is complete. A buffer too long untouched
is dropped first. -/
def feed (buf data : Bytes) (offset : ℕ) (stale : Bool) : Bytes × Option Bytes :=
  let buf := if stale then [] else buf
  let buf :=
    if offset ≠ 0 then buf.take offset ++ data ++ buf.drop (offset + data.length)
    else if buf ≠ [] ∧ complete buf = none then buf ++ data
    else data
  match complete buf with
  | some packet => ([], some packet)
  | none => (buf, none)

def checksum (data : Bytes) : ℕ := (data.map UInt8.toNat).sum % 256

/-- Command and data of one complete packet. -/
def decodeRpc (packet : Bytes) : Except RpcError (ℕ × Bytes) :=
  match packet with
  | command :: n :: _ :: _ =>
    if packet.length ≠ n.toNat + 3 then .error .invalidRpc
    else if checksum packet.dropLast ≠ (packet.getLastD 0).toNat then .error .invalidRpc
    else .ok (command.toNat, (packet.drop 2).dropLast)
  | _ => .error .invalidRpc

def encodeRpc (command : UInt8) (data : Bytes) : Bytes :=
  let body := command :: UInt8.ofNat data.length :: data
  body ++ [UInt8.ofNat (checksum body)]

/-- What a phone encodes is what the box reads. -/
theorem decodeRpc_encodeRpc (command : UInt8) {data : Bytes} (h : data.length < 256) :
    decodeRpc (encodeRpc command data) = .ok (command.toNat, data) := by
  let body := command :: UInt8.ofNat data.length :: data
  let sum := UInt8.ofNat (checksum body)
  have hlength : (UInt8.ofNat data.length).toNat = data.length := by
    rw [UInt8.toNat_ofNat']
    omega
  have hsum : sum.toNat = checksum body := by
    rw [UInt8.toNat_ofNat', checksum]
    omega
  have hpacket : encodeRpc command data =
      command :: UInt8.ofNat data.length :: (data ++ [sum]) := rfl
  have hlast : (data ++ [sum]) ≠ [] := by simp
  obtain ⟨c, rest, hrest⟩ := List.exists_cons_of_ne_nil hlast
  rw [hpacket, hrest, decodeRpc, ← hrest]
  have hbody : (body ++ [sum]).dropLast = body := List.dropLast_concat
  have hend : (body ++ [sum]).getLastD 0 = sum := List.getLastD_concat
  change (if (body ++ [sum]).length ≠ _ then _ else if checksum (body ++ [sum]).dropLast ≠
    ((body ++ [sum]).getLastD 0).toNat then _ else
      Except.ok (command.toNat, ((body ++ [sum]).drop 2).dropLast)) = Except.ok (command.toNat, data)
  rw [if_neg (by simp [body, hlength]), hbody, hend, if_neg (by simp [hsum])]
  simp [body]

/-- `bytes.decode('utf-8')` -/
def decodeUtf8 (data : Bytes) : Option (List Char) :=
  (String.fromUTF8? ⟨data.toArray⟩).map String.toList

/-- What one attempt is to try. -/
structure Attempt where
  ssid : Bytes
  password : List Char
  deriving DecidableEq

/-- Name and password of a Send Wi-Fi settings payload. -/
def decodeWifiSettings (data : Bytes) : Except RpcError Attempt :=
  match data with
  | [] => .error .invalidRpc
  | n :: rest =>
    match rest.drop n.toNat with
    | [] => .error .invalidRpc
    | m :: password =>
      if password.length ≠ m.toNat ∨ n = 0 then .error .invalidRpc
      else match decodeUtf8 password with
        | some password => .ok { ssid := rest.take n.toNat, password }
        | none => .error .invalidRpc

/-! ### The service -/

inductive SetupState
  | authorized
  | provisioning
  | provisioned
  deriving DecidableEq

/-- The service and the files it writes. History remembers which networks gave an address. -/
structure Setup where
  buf : Bytes
  state : SetupState
  error : Option RpcError
  dir : Dir
  /-- Tasks that are spawned and have not started. -/
  waiting : List Attempt
  /-- Attempts past their validation, with the files they found. -/
  joining : List (Attempt × Saved)
  obtained : List Bytes

def Attempt.network (a : Attempt) : WifiNetwork :=
  { ssid := a.ssid, passphrase := a.password, hidden := false, country := [] }

/-- on_rpc_write, for a packet that is complete. The other commands touch neither files nor
the state. -/
def Setup.onPacket (s : Setup) (packet : Bytes) : Setup :=
  match decodeRpc packet with
  | .error e => { s with error := some e }
  | .ok (command, payload) =>
    if command = 1 then
      match decodeWifiSettings payload with
      | .error e => { s with error := some e }
      | .ok a =>
        if s.state = .provisioning then { s with error := none }
        else { s with error := none, waiting := s.waiting ++ [a] }
    else if command = 2 ∨ command = 3 ∨ command = 4 then { s with error := none }
    else { s with error := some .unknownRpc }

def Setup.onRpcWrite (s : Setup) (data : Bytes) (offset : ℕ) (stale : Bool) : Setup :=
  let fed := feed s.buf data offset stale
  let s := { s with buf := fed.1 }
  match fed.2 with
  | some packet => s.onPacket packet
  | none => s

/-- How a failed attempt ends. -/
def Setup.failed (s : Setup) (a : Attempt) (previous : Option Saved) : Setup :=
  { s with
    dir := previous.elim s.dir fun saved => restoreNetwork s.dir a.ssid saved
    error := some .unableToConnect
    state := .authorized }

/-- provision up to its first await. -/
def Setup.provision (s : Setup) (a : Attempt) : Setup :=
  match a.network.validate with
  | .error _ => { s with error := some .unableToConnect }
  | .ok net =>
    let s := { s with state := .provisioning }
    match savedNetwork s.dir a.ssid with
    | .error _ => s.failed a none
    | .ok previous =>
      match writeIwdNetwork s.dir net with
      | .error _ => s.failed a (some previous)
      | .ok dir => { s with dir, joining := s.joining ++ [(a, previous)] }

/-- provision from there to its end, with the address it obtained or without. -/
def Setup.joined (s : Setup) (j : Attempt × Saved) (address : Bool) : Setup :=
  if address then { s with obtained := j.1.ssid :: s.obtained, state := .provisioned }
  else s.failed j.1 (some j.2)

/-- What the event loop runs next. -/
inductive Event
  | write (data : Bytes) (offset : ℕ) (stale : Bool)
  | starts (a : Attempt)
  | ends (j : Attempt × Saved) (address : Bool)
  /-- The main loop finds the box offline, or the dashboard's window open. -/
  | reopens

def Setup.next (s : Setup) : Event → Option Setup
  | .write data offset stale => some (s.onRpcWrite data offset stale)
  | .starts a =>
    if a ∈ s.waiting then some ({ s with waiting := s.waiting.erase a }.provision a) else none
  | .ends j address =>
    if j ∈ s.joining then some ({ s with joining := s.joining.erase j }.joined j address) else none
  | .reopens => if s.state = .provisioned then some { s with state := .authorized } else none

/-- The service as it starts. -/
def Setup.start (dir : Dir) : Setup :=
  { buf := [], state := .authorized, error := none, dir, waiting := [], joining := [], obtained := [] }

/-- One step of the event loop. -/
def Step (s s' : Setup) : Prop := ∃ e, s.next e = some s'

/-! ### The property -/

/-- The network has the files it had. -/
def Unchanged (dir dir' : Dir) (ssid : Bytes) : Prop :=
  ∀ o, dir' (iwdFileName ssid o) = dir (iwdFileName ssid o)

/-- At most one attempt is past its validation and unfinished; when all have finished, every
network that gave no address has the files it had. -/
structure KeepsWorking (dir : Dir) (s : Setup) : Prop where
  alone : s.joining.length ≤ 1
  kept : s.waiting = [] → s.joining = [] → ∀ ssid ∉ s.obtained, Unchanged dir s.dir ssid

/-- The settings pass their validation. -/
def Attempt.valid (a : Attempt) : Bool :=
  match a.network.validate with
  | .ok _ => true
  | .error _ => false

/-- The Wi-Fi settings a write completes. -/
def Setup.settings (s : Setup) (data : Bytes) (offset : ℕ) (stale : Bool) : Option Attempt :=
  match (feed s.buf data offset stale).2 with
  | none => none
  | some packet =>
    match decodeRpc packet with
    | .error _ => none
    | .ok (command, payload) => if command = 1 then (decodeWifiSettings payload).toOption else none

/-- Valid settings are not taken while others that are valid wait to start, and an attempt
finds files that read back as they are. -/
def Apart (s : Setup) : Event → Prop
  | .write data offset stale => s.state ≠ .provisioning → ∀ a,
    s.settings data offset stale = some a → a.valid → ∀ b ∈ s.waiting, b.valid = false
  | .starts a => a.valid → ReadsBack s.dir a.ssid
  | _ => True

def StepApart (s s' : Setup) : Prop := ∃ e, Apart s e ∧ s.next e = some s'

/-! ### What each event does -/

/-- A packet moves nothing but the error and the tasks that wait. -/
structure Taken (s s' : Setup) (settings : Option Attempt) : Prop where
  dir : s'.dir = s.dir
  state : s'.state = s.state
  joining : s'.joining = s.joining
  obtained : s'.obtained = s.obtained
  waiting : s'.waiting = s.waiting ∨
    s.state ≠ .provisioning ∧ ∃ a, settings = some a ∧ s'.waiting = s.waiting ++ [a]

theorem onRpcWrite_taken (s : Setup) (data : Bytes) (offset : ℕ) (stale : Bool) :
    Taken s (s.onRpcWrite data offset stale) (s.settings data offset stale) := by
  rw [Setup.onRpcWrite, Setup.settings]
  cases (feed s.buf data offset stale).2 with
  | none => exact ⟨rfl, rfl, rfl, rfl, Or.inl rfl⟩
  | some packet =>
    simp only [Setup.onPacket]
    cases decodeRpc packet with
    | error e => exact ⟨rfl, rfl, rfl, rfl, Or.inl rfl⟩
    | ok decoded =>
      obtain ⟨command, payload⟩ := decoded
      by_cases hsettings : command = 1
      · simp only [if_pos hsettings]
        cases decodeWifiSettings payload with
        | error e => exact ⟨rfl, rfl, rfl, rfl, Or.inl rfl⟩
        | ok a =>
          by_cases hbusy : s.state = .provisioning
          · simp only [if_pos hbusy]
            exact ⟨rfl, rfl, rfl, rfl, Or.inl rfl⟩
          · simp only [if_neg hbusy]
            exact ⟨rfl, rfl, rfl, rfl, Or.inr ⟨hbusy, a, rfl, rfl⟩⟩
      · simp only [if_neg hsettings]
        split_ifs
        · exact ⟨rfl, rfl, rfl, rfl, Or.inl rfl⟩
        · exact ⟨rfl, rfl, rfl, rfl, Or.inl rfl⟩

/-- What holds between two events: an attempt under way is the only one, and putting back
what it found would put everything back. -/
structure Orderly (dir : Dir) (s : Setup) : Prop where
  alone : s.waiting.countP Attempt.valid + s.joining.length ≤ 1
  busy : ∀ j ∈ s.joining, s.state = .provisioning
  idle : s.joining = [] → ∀ ssid ∉ s.obtained, Unchanged dir s.dir ssid
  undone : ∀ j ∈ s.joining, ∀ ssid ∉ s.obtained,
    Unchanged dir (restoreNetwork s.dir j.1.ssid j.2) ssid
  own : ∀ j ∈ s.joining, ∀ file ∈ j.2, IsOf j.1.ssid file.1

section Events

variable {dir : Dir} {s s' : Setup}

/-- No attempt is under way. -/
theorem Orderly.ofIdle (hcount : s.waiting.countP Attempt.valid ≤ 1) (hnone : s.joining = [])
    (hidle : ∀ ssid ∉ s.obtained, Unchanged dir s.dir ssid) : Orderly dir s := by
  have hno : ∀ j, j ∉ s.joining := List.eq_nil_iff_forall_not_mem.mp hnone
  refine ⟨?_, fun j hj => (hno j hj).elim, fun _ => hidle, fun j hj => (hno j hj).elim,
    fun j hj => (hno j hj).elim⟩
  rw [hnone]
  exact hcount

theorem Orderly.start (dir : Dir) : Orderly dir (.start dir) :=
  .ofIdle (Nat.zero_le _) rfl fun _ _ _ => rfl

theorem Orderly.keepsWorking (h : Orderly dir s) : KeepsWorking dir s where
  alone := Nat.le_trans (Nat.le_add_left _ _) h.alone
  kept _ hjoining := h.idle hjoining

theorem Orderly.write {data : Bytes} {offset : ℕ} {stale : Bool} (h : Orderly dir s)
    (hapart : Apart s (.write data offset stale)) :
    Orderly dir (s.onRpcWrite data offset stale) := by
  have htaken := onRpcWrite_taken s data offset stale
  have hcount : (s.onRpcWrite data offset stale).waiting.countP Attempt.valid +
      s.joining.length ≤ 1 := by
    rcases htaken.waiting with hwaiting | ⟨hstate, a, ha, hwaiting⟩
    · rw [hwaiting]
      exact h.alone
    · have hjoining : s.joining = [] := by
        refine List.eq_nil_iff_forall_not_mem.mpr fun j hj => hstate (h.busy j hj)
      by_cases hvalid : a.valid = true
      · have hnone : s.waiting.countP Attempt.valid = 0 :=
          List.countP_eq_zero.mpr fun b hb => by simp [hapart hstate a ha hvalid b hb]
        simp [hwaiting, hjoining, hnone, hvalid]
      · have halone := h.alone
        simpa [hwaiting, hjoining, hvalid] using halone
  constructor
  · rw [htaken.joining]
    exact hcount
  · rw [htaken.joining, htaken.state]
    exact h.busy
  · rw [htaken.joining, htaken.dir, htaken.obtained]
    exact h.idle
  · rw [htaken.joining, htaken.dir, htaken.obtained]
    exact h.undone
  · rw [htaken.joining]
    exact h.own

theorem Attempt.valid_iff {a : Attempt} : a.valid = true ↔ a.network.validate = .ok a.network := by
  rw [valid]
  cases hvalidate : a.network.validate with
  | error e => simp
  | ok net => simp [WifiNetwork.validate_ok hvalidate]

/-- Settings that do not pass their validation change nothing. -/
theorem provision_invalid {a : Attempt} (h : a.valid = false) :
    s.provision a = { s with error := some .unableToConnect } := by
  rw [Attempt.valid] at h
  rw [Setup.provision]
  cases hvalidate : a.network.validate with
  | error e => rfl
  | ok net =>
    rw [hvalidate] at h
    cases h

/-- An attempt cannot read the files it finds, or it joins with them saved. -/
theorem provision_valid {a : Attempt} (h : a.valid = true) :
    s.provision a = ({ s with state := .provisioning } : Setup).failed a none ∨
      ∃ previous dir', savedNetwork s.dir a.ssid = .ok previous ∧
        writeIwdNetwork s.dir a.network = .ok dir' ∧
        s.provision a = { s with state := .provisioning, dir := dir',
                                 joining := s.joining ++ [(a, previous)] } := by
  have hvalid := Attempt.valid_iff.mp h
  obtain ⟨dir', hwrite⟩ := @write_valid s.dir _ hvalid
  cases hsaved : savedNetwork s.dir a.ssid with
  | error e =>
    left
    simp only [Setup.provision, hvalid, hsaved]
  | ok previous =>
    right
    refine ⟨previous, dir', rfl, hwrite, ?_⟩
    simp only [Setup.provision, hvalid, hsaved, hwrite]

theorem Orderly.starts {a : Attempt} (h : Orderly dir s) (ha : a ∈ s.waiting)
    (hapart : Apart s (.starts a)) :
    Orderly dir ({ s with waiting := s.waiting.erase a }.provision a) := by
  have halone := h.alone
  have hcount : s.waiting.countP Attempt.valid =
      (s.waiting.erase a).countP Attempt.valid + if a.valid then 1 else 0 := by
    rw [(List.perm_cons_erase ha).countP_eq, List.countP_cons]
  cases hvalid : a.valid with
  | false =>
    have hsame : (s.waiting.erase a).countP Attempt.valid + s.joining.length ≤ 1 := by
      rw [hvalid, if_neg (by decide)] at hcount
      omega
    rw [provision_invalid hvalid]
    exact ⟨hsame, h.busy, h.idle, h.undone, h.own⟩
  | true =>
    rw [hvalid, if_pos rfl] at hcount
    have hjoining : s.joining = [] := List.length_eq_zero_iff.mp (by omega)
    have hfewer : (s.waiting.erase a).countP Attempt.valid = 0 := by omega
    have hidle := h.idle hjoining
    rcases provision_valid (s := { s with waiting := s.waiting.erase a }) hvalid with
      hfailed | ⟨previous, dir', hsaved, hwrite, hjoins⟩
    · rw [hfailed]
      exact .ofIdle (hfewer.le.trans (Nat.zero_le _)) hjoining hidle
    · rw [hjoins]
      have hundone : restoreNetwork dir' a.ssid previous = s.dir :=
        restore_saved (hapart hvalid) hsaved fun name hname => write_other hwrite hname
      have honly : ∀ j, j ∈ s.joining ++ [(a, previous)] → j = (a, previous) := by
        intro j hj
        rw [hjoining] at hj
        exact List.mem_singleton.mp hj
      refine ⟨?_, fun _ _ => rfl, fun hnil => ?_, fun j hj => ?_, fun j hj => ?_⟩
      · change (s.waiting.erase a).countP Attempt.valid + (s.joining ++ [(a, previous)]).length ≤ 1
        rw [hjoining, hfewer]
        exact le_rfl
      · exact (List.append_ne_nil_of_right_ne_nil _ (List.cons_ne_nil _ _) hnil).elim
      · rw [honly j hj]
        change ∀ ssid ∉ s.obtained, Unchanged dir (restoreNetwork dir' a.ssid previous) ssid
        rw [hundone]
        exact hidle
      · rw [honly j hj]
        exact savedNetwork_names hsaved

theorem Orderly.ends {j : Attempt × Saved} {address : Bool} (h : Orderly dir s)
    (hj : j ∈ s.joining) :
    Orderly dir ({ s with joining := s.joining.erase j }.joined j address) := by
  have halone := h.alone
  have hpos : 0 < s.joining.length := List.length_pos_of_mem hj
  have hcount : s.waiting.countP Attempt.valid ≤ 1 := by omega
  have hnone : s.joining.erase j = [] :=
    List.length_eq_zero_iff.mp (by rw [List.length_erase_of_mem hj]; omega)
  have hundone := h.undone j hj
  rw [hnone]
  cases address with
  | false => exact .ofIdle hcount rfl hundone
  | true =>
    refine .ofIdle hcount rfl fun ssid hssid o => ?_
    have hother : ssid ≠ j.1.ssid := fun heq => hssid (heq ▸ .head _)
    have hkept := hundone ssid (fun hmem => hssid (.tail _ hmem)) o
    rw [restore_other (h.own j hj) fun hof => hother (IsOf.same ⟨o, rfl⟩ hof)] at hkept
    exact hkept

theorem Orderly.reopens (h : Orderly dir s) (hstate : s.state = .provisioned) :
    Orderly dir { s with state := .authorized } := by
  refine ⟨h.alone, fun j hj => ?_, h.idle, h.undone, h.own⟩
  rw [h.busy j hj] at hstate
  cases hstate

end Events

/-- Wherever the events lead, if valid settings are never taken while other valid ones wait
to start and the files found read back as they are. -/
theorem setup_keeps {dir : Dir} {s : Setup}
    (hreach : Relation.ReflTransGen StepApart (.start dir) s) : KeepsWorking dir s := by
  suffices h : Orderly dir s from h.keepsWorking
  induction hreach with
  | refl => exact Orderly.start dir
  | tail _ hstep ih =>
    obtain ⟨e, hapart, hnext⟩ := hstep
    cases e with
    | write data offset stale =>
      cases hnext
      exact ih.write hapart
    | starts a =>
      rw [Setup.next] at hnext
      split_ifs at hnext with ha
      cases hnext
      exact ih.starts ha hapart
    | ends j address =>
      rw [Setup.next] at hnext
      split_ifs at hnext with hj
      cases hnext
      exact ih.ends hj
    | reopens =>
      rw [Setup.next] at hnext
      split_ifs at hnext with hstate
      cases hnext
      exact ih.reopens hstate

/-! ### Two settings before a task starts -/

/-- The state after an event that is possible. -/
def Setup.after (s : Setup) (e : Event) : Setup := (s.next e).getD s

theorem next_after {s : Setup} {e : Event} (h : (s.next e).isSome) :
    s.next e = some (s.after e) := by
  rw [Setup.after, Option.getD_of_ne_none (Option.isSome_iff_ne_none.mp h)]

def sampleSsid : Bytes := [65]

/-- The box knows the network, with a password that works. -/
def sampleDir : Dir := fun name =>
  if name = "A.psk".toList then some (.text "[Security]\nPassphrase=it works\n".toList) else none

/-- Settings for it with a password of eight equal characters. -/
def sampleAttempt (c : Char) : Attempt := { ssid := sampleSsid, password := List.replicate 8 c }

def settingsEvent (c : UInt8) : Event :=
  .write (encodeRpc 1 ([1, 65, 8] ++ List.replicate 8 c)) 0 false

/-- Two settings for one network before the event loop runs a task, then both tasks start. -/
def overlapping : Setup :=
  ((((Setup.start sampleDir).after (settingsEvent 97)).after (settingsEvent 98)).after
    (.starts (sampleAttempt 'a'))).after (.starts (sampleAttempt 'b'))

/-- What the attempts find: the second one finds what the first has written. -/
def foundFirst : Saved := [("A.psk".toList, "[Security]\nPassphrase=it works\n".toList)]

def foundSecond : Saved := [("A.psk".toList, iwdFileContent (sampleAttempt 'a').network)]

/-- Both fail, in the order they started in. -/
def mistaken : Setup :=
  (overlapping.after (.ends (sampleAttempt 'a', foundFirst) false)).after
    (.ends (sampleAttempt 'b', foundSecond) false)

theorem after_write (s : Setup) (data : Bytes) (offset : ℕ) (stale : Bool) :
    s.after (.write data offset stale) = s.onRpcWrite data offset stale := rfl

theorem step_after {s : Setup} {e : Event} (h : (s.next e).isSome) : Step s (s.after e) :=
  ⟨e, next_after h⟩

theorem stepApart_after {s : Setup} {e : Event} (hapart : Apart s e) (h : (s.next e).isSome) :
    StepApart s (s.after e) := ⟨e, hapart, next_after h⟩

/-- Two attempts are past their validation; when both have failed, the network has the
password of the first one. -/
theorem overlapping_loses : Relation.ReflTransGen Step (.start sampleDir) overlapping ∧
    overlapping.joining.length = 2 ∧ Relation.ReflTransGen Step overlapping mistaken ∧
    mistaken.waiting = [] ∧ mistaken.joining = [] ∧ mistaken.obtained = [] ∧
    ¬ Unchanged sampleDir mistaken.dir sampleSsid := by
  refine ⟨?_, by decide +kernel, ?_, by decide +kernel, by decide +kernel, by decide +kernel, ?_⟩
  · exact (((Relation.ReflTransGen.single (step_after (by decide +kernel))).tail
      (step_after (by decide +kernel))).tail (step_after (by decide +kernel))).tail
      (step_after (by decide +kernel))
  · exact (Relation.ReflTransGen.single (step_after (by decide +kernel))).tail
      (step_after (by decide +kernel))
  · intro hunchanged
    have hfile := hunchanged false
    revert hfile
    decide +kernel

/-- One attempt after another. -/
def failedOnce : Setup :=
  (((Setup.start sampleDir).after (settingsEvent 97)).after (.starts (sampleAttempt 'a'))).after
    (.ends (sampleAttempt 'a', foundFirst) false)

theorem setup_keeps_failedOnce : KeepsWorking sampleDir failedOnce := by
  have hreads : ReadsBack sampleDir sampleSsid := by
    intro o text htext
    cases o with
    | false =>
      have hfile : sampleDir (iwdFileName sampleSsid false) =
          some (.text "[Security]\nPassphrase=it works\n".toList) := by decide +kernel
      cases hfile.symm.trans htext
      decide +kernel
    | true =>
      have hfile : sampleDir (iwdFileName sampleSsid true) = none := by decide +kernel
      cases hfile.symm.trans htext
  have hdir : ((Setup.start sampleDir).after (settingsEvent 97)).dir = sampleDir := by
    rw [settingsEvent, after_write, (onRpcWrite_taken _ _ _ _).dir, Setup.start]
  refine setup_keeps ?_
  refine ((Relation.ReflTransGen.single (stepApart_after ?_ (by decide +kernel))).tail
    (stepApart_after ?_ (by decide +kernel))).tail (stepApart_after trivial (by decide +kernel))
  · intro _ a _ _ b hb
    cases hb
  · intro _
    rw [hdir]
    exact hreads

end Epilykos.Wifi
