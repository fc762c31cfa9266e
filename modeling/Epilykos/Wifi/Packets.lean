import Epilykos.Wifi.Improv
import Mathlib.Data.List.Chain

/-!
Packets in pieces. A phone may send one packet in several writes, each at its offset or all at
offset zero; however it is cut, the assembler gives it back with the last piece. The decoders
accept exactly what the encoders produce.
-/

namespace Epilykos.Wifi

open PlatformEnv (Bytes)

variable {T : Type*}

/-- One write to the RPC characteristic, and when it came. -/
structure Write (T : Type*) where
  data : Bytes
  offset : ℕ
  now : T

structure RpcAssembler (T : Type*) where
  buf : Bytes
  stamp : T
  staleAfter : T

/-- The offsets are those of the pieces in the whole. -/
def TrueOffsets : ℕ → List (Write T) → Prop
  | _, [] => True
  | n, w :: writes => w.offset = n ∧ TrueOffsets (n + w.data.length) writes

/-- Each piece is at its offset or at zero. -/
def Consecutive : ℕ → List (Write T) → Prop
  | _, [] => True
  | n, w :: writes => (w.offset = 0 ∨ w.offset = n) ∧ Consecutive (n + w.data.length) writes

/-- A packet has the length its second byte says. -/
def Framed (packet : Bytes) : Prop :=
  ∃ command n body, packet = command :: n :: body ∧ packet.length = n.toNat + 3

/-! ### Pieces -/

theorem consecutive_zero {writes : List (Write T)} (h : ∀ w ∈ writes, w.offset = 0) (n : ℕ) :
    Consecutive n writes := by
  induction writes generalizing n with
  | nil => trivial
  | cons w writes ih =>
    rw [List.forall_mem_cons] at h
    exact ⟨Or.inl h.1, ih h.2 _⟩

theorem TrueOffsets.consecutive {writes : List (Write T)} {n : ℕ} (h : TrueOffsets n writes) :
    Consecutive n writes := by
  induction writes generalizing n with
  | nil => trivial
  | cons w writes ih => exact ⟨Or.inr h.1, ih h.2⟩

theorem encodeRpc_framed (command : UInt8) {data : Bytes} (h : data.length ≤ 255) :
    Framed (encodeRpc command data) := by
  refine ⟨command, UInt8.ofNat data.length, _, rfl, ?_⟩
  have hlength : (UInt8.ofNat data.length).toNat = data.length := by
    rw [UInt8.toNat_ofNat']
    omega
  rw [hlength, encodeRpc]
  simp

/-- Nothing is complete before the last byte. -/
theorem complete_of_append {packet before after : Bytes} (hpacket : Framed packet)
    (hjoin : before ++ after = packet) :
    complete before = if after = [] then some packet else none := by
  obtain ⟨command, n, body, rfl, hlength⟩ := hpacket
  rw [← hjoin, List.length_append] at hlength
  split_ifs with hafter
  · rw [hafter, List.append_nil] at hjoin
    rw [hafter, List.length_nil] at hlength
    rw [hjoin] at hlength ⊢
    rw [complete, if_pos (by omega), ← hlength, Nat.add_zero, List.take_length]
  · have hpos : 0 < after.length := List.length_pos_of_ne_nil hafter
    rcases before with _ | ⟨c, _ | ⟨m, rest⟩⟩
    · rfl
    · rfl
    · obtain ⟨-, rfl, -⟩ := by simpa using hjoin
      rw [complete, if_neg (by omega)]

/-- A piece is put behind the pieces before it, at its offset or without one. -/
theorem feed_piece {packet buf data after : Bytes} {offset : ℕ} {stale : Bool}
    (hpacket : Framed packet) (hjoin : buf ++ data ++ after = packet) (hdata : data ≠ [])
    (hoffset : offset = 0 ∨ offset = buf.length) (hstale : buf ≠ [] → stale = false) :
    feed buf data offset stale =
      if after = [] then ([], some packet) else (buf ++ data, none) := by
  have hcomplete : complete buf = none := by
    rw [List.append_assoc] at hjoin
    rw [complete_of_append hpacket hjoin, if_neg (by simp [hdata])]
  have hfresh : (if stale then [] else buf) = buf := by
    by_cases hbuf : buf = []
    · rw [hbuf, ite_self]
    · rw [hstale hbuf]
      rfl
  have hnext : (if offset ≠ 0 then buf.take offset ++ data ++ buf.drop (offset + data.length)
      else if buf ≠ [] ∧ complete buf = none then buf ++ data else data) = buf ++ data := by
    split_ifs with hzero hbuf
    · rw [hoffset.resolve_left hzero, List.take_length,
        List.drop_eq_nil_of_le (Nat.le_add_right ..), List.append_nil]
    · rfl
    · have hnil : buf = [] := by simpa [hcomplete] using hbuf
      rw [hnil, List.nil_append]
  unfold feed
  simp only [hfresh, hnext, complete_of_append hpacket hjoin]
  split_ifs <;> rfl

section Assembler

variable [Sub T] [LT T] [DecidableLT T]

def RpcAssembler.feed (a : RpcAssembler T) (w : Write T) : RpcAssembler T × Option Bytes :=
  let fed := Wifi.feed a.buf w.data w.offset (a.staleAfter < w.now - a.stamp)
  ({ a with buf := fed.1, stamp := w.now }, fed.2)

/-- What the writes give, one after the other. -/
def RpcAssembler.feedAll (a : RpcAssembler T) : List (Write T) → RpcAssembler T × List (Option Bytes)
  | [] => (a, [])
  | w :: writes =>
    let fed := a.feed w
    let rest := fed.1.feedAll writes
    (rest.1, fed.2 :: rest.2)

/-- A packet in consecutive writes, with no gap that is too long. -/
structure Cut (staleAfter : T) (packet : Bytes) (writes : List (Write T)) : Prop where
  joined : (writes.map Write.data).flatten = packet
  nonempty : ∀ w ∈ writes, w.data ≠ []
  offsets : (∀ w ∈ writes, w.offset = 0) ∨ TrueOffsets 0 writes
  prompt : writes.IsChain fun v w => ¬ staleAfter < w.now - v.now

/-- However a packet is cut, only the last piece gives it. -/
theorem feedAll_pieces {packet : Bytes} (hpacket : Framed packet) {writes : List (Write T)}
    {a : RpcAssembler T} (hjoin : a.buf ++ (writes.map Write.data).flatten = packet)
    (hnonempty : ∀ w ∈ writes, w.data ≠ []) (hwrites : writes ≠ [])
    (hoffsets : Consecutive a.buf.length writes)
    (hgap : a.buf ≠ [] → ∀ w ∈ writes.head?, ¬ a.staleAfter < w.now - a.stamp)
    (hprompt : writes.IsChain fun v w => ¬ a.staleAfter < w.now - v.now) :
    (a.feedAll writes).1.buf = [] ∧
      (a.feedAll writes).2 = List.replicate (writes.length - 1) none ++ [some packet] := by
  induction writes generalizing a with
  | nil => exact absurd rfl hwrites
  | cons w writes ih =>
    rw [List.forall_mem_cons] at hnonempty
    obtain ⟨hdata, hrest⟩ := hnonempty
    obtain ⟨hoffset, hoffsets⟩ := hoffsets
    rw [List.map_cons, List.flatten_cons, ← List.append_assoc] at hjoin
    have hstale : a.buf ≠ [] → decide (a.staleAfter < w.now - a.stamp) = false := fun hbuf =>
      decide_eq_false (hgap hbuf w rfl)
    have hpiece := feed_piece hpacket hjoin hdata hoffset hstale
    have hafter : (writes.map Write.data).flatten = [] ↔ writes = [] := by
      rw [List.flatten_eq_nil_iff]
      constructor
      · intro h
        refine List.eq_nil_iff_forall_not_mem.mpr fun v hv => ?_
        exact hrest v hv (h v.data (List.mem_map_of_mem hv))
      · rintro rfl
        simp
    by_cases hlast : writes = []
    · rw [if_pos (hafter.mpr hlast)] at hpiece
      subst hlast
      simp only [RpcAssembler.feedAll, RpcAssembler.feed, hpiece]
      exact ⟨trivial, rfl⟩
    · rw [if_neg (mt hafter.mp hlast)] at hpiece
      have hpos : 0 < writes.length := List.length_pos_of_ne_nil hlast
      obtain ⟨hbuf, hpackets⟩ := ih (a := (a.feed w).1)
        (by simp only [RpcAssembler.feed, hpiece]; exact hjoin) hrest hlast
        (by simp only [RpcAssembler.feed, hpiece, List.length_append]; exact hoffsets)
        (fun _ v hv => (List.isChain_cons.mp hprompt).1 v hv) (List.isChain_cons.mp hprompt).2
      refine ⟨hbuf, ?_⟩
      rw [RpcAssembler.feedAll]
      simp only [hpackets]
      simp only [RpcAssembler.feed, hpiece]
      rw [← List.cons_append, ← List.replicate_succ, Nat.sub_add_cancel hpos]
      rfl

end Assembler

/-! ### Payloads -/

/-- The packets that are read are those a phone encodes. -/
theorem decodeRpc_eq_ok_iff {packet data : Bytes} {c : ℕ} :
    decodeRpc packet = .ok (c, data) ↔ ∃ command : UInt8, command.toNat = c ∧
      data.length ≤ 255 ∧ packet = encodeRpc command data := by
  constructor
  · intro h
    rcases packet with _ | ⟨command, _ | ⟨n, _ | ⟨x, rest⟩⟩⟩
    · cases h
    · cases h
    · cases h
    · rw [decodeRpc] at h
      split_ifs at h with hlength hsum
      obtain ⟨rfl, rfl⟩ := Prod.mk.inj (Except.ok.inj h)
      have hne : x :: rest ≠ [] := by simp
      have hsplit := List.dropLast_append_getLast hne
      generalize (x :: rest).getLast hne = sum at hsplit
      generalize hdata : (x :: rest).dropLast = data at hsplit
      rw [← hsplit] at hlength hsum ⊢
      have hbody : (command :: n :: (data ++ [sum])).dropLast = command :: n :: data := by
        rw [← List.cons_append, ← List.cons_append, List.dropLast_concat]
      have hlast : (command :: n :: (data ++ [sum])).getLastD 0 = sum := by
        rw [← List.cons_append, ← List.cons_append, List.getLastD_concat]
      simp only [List.length_cons, List.length_append, List.length_nil, Nat.zero_add,
        not_not] at hlength
      rw [hbody, hlast, not_not] at hsum
      have hpayload : ((command :: n :: (data ++ [sum])).drop 2).dropLast = data :=
        List.dropLast_concat
      have hmax := n.toNat_lt
      have hn : n = UInt8.ofNat data.length :=
        UInt8.toNat_inj.mp (by rw [UInt8.toNat_ofNat']; omega)
      have hchecksum : sum = UInt8.ofNat (checksum (command :: n :: data)) := by
        rw [hsum, UInt8.ofNat_toNat]
      refine ⟨command, rfl, by rw [hpayload]; omega, ?_⟩
      rw [hpayload, encodeRpc, ← hn, ← hchecksum]
      rfl
  · rintro ⟨command, rfl, hlength, rfl⟩
    exact decodeRpc_encodeRpc command (by omega)

/-- The settings that are read are a name and a password, each behind its length. -/
theorem decodeWifiSettings_eq_ok_iff {data ssid : Bytes} {password : List Char} :
    decodeWifiSettings data = .ok ⟨ssid, password⟩ ↔ ssid ≠ [] ∧ ∃ n m : UInt8, ∃ raw,
      data = n :: ssid ++ m :: raw ∧ n.toNat = ssid.length ∧ m.toNat = raw.length ∧
        decodeUtf8 raw = some password := by
  constructor
  · intro h
    rcases data with _ | ⟨n, rest⟩
    · cases h
    · rw [decodeWifiSettings] at h
      split at h
      · cases h
      · rename_i m raw hdrop
        split_ifs at h with hsize
        split at h
        · rename_i text htext
          obtain ⟨rfl, rfl⟩ := by simpa using h
          simp only [not_or, not_not] at hsize
          have hlt : n.toNat < rest.length := by
            by_contra hge
            rw [List.drop_eq_nil_of_le (by omega)] at hdrop
            cases hdrop
          have htake : (rest.take n.toNat).length = n.toNat := by
            rw [List.length_take]
            omega
          refine ⟨?_, n, m, raw, ?_, htake.symm, hsize.1.symm, htext⟩
          · rw [Ne, ← List.length_eq_zero_iff, htake]
            exact fun hzero => hsize.2 (UInt8.toNat_inj.mp hzero)
          · rw [List.cons_append, ← hdrop, List.take_append_drop]
        · cases h
  · rintro ⟨hssid, n, m, raw, rfl, hn, hm, htext⟩
    rw [List.cons_append, decodeWifiSettings, hn, List.drop_left]
    simp only
    rw [if_neg, htext]
    · simp
    · rintro (h | rfl)
      · exact h hm.symm
      · exact hssid (List.length_eq_zero_iff.mp hn.symm)

/-- Cut and sent in whatever pieces, a packet comes out whole and once; it is read as what was
encoded, and nothing else is read. -/
theorem packets_roundTrip [Sub T] [LT T] [DecidableLT T] :
    (∀ (command : UInt8) (data : Bytes) (a : RpcAssembler T) (writes : List (Write T)),
      data.length ≤ 255 → a.buf = [] → Cut a.staleAfter (encodeRpc command data) writes →
      (a.feedAll writes).1.buf = [] ∧ (a.feedAll writes).2 =
        List.replicate (writes.length - 1) none ++ [some (encodeRpc command data)]) ∧
    (∀ (packet data : Bytes) (c : ℕ), decodeRpc packet = .ok (c, data) ↔
      ∃ command : UInt8, command.toNat = c ∧ data.length ≤ 255 ∧
        packet = encodeRpc command data) ∧
    ∀ (data ssid : Bytes) (password : List Char),
      decodeWifiSettings data = .ok ⟨ssid, password⟩ ↔ ssid ≠ [] ∧ ∃ n m : UInt8, ∃ raw,
        data = n :: ssid ++ m :: raw ∧ n.toNat = ssid.length ∧ m.toNat = raw.length ∧
          decodeUtf8 raw = some password := by
  refine ⟨?_, fun _ _ _ => decodeRpc_eq_ok_iff, fun _ _ _ => decodeWifiSettings_eq_ok_iff⟩
  intro command data a writes hdata hempty hcut
  refine feedAll_pieces (encodeRpc_framed command hdata) ?_ hcut.nonempty ?_ ?_ ?_ hcut.prompt
  · rw [hempty, List.nil_append, hcut.joined]
  · rintro rfl
    exact absurd hcut.joined (by simp [encodeRpc])
  · rw [hempty]
    rcases hcut.offsets with hzero | htrue
    · exact consecutive_zero hzero _
    · exact htrue.consecutive
  · exact fun hbuf => absurd hempty hbuf

/-- A packet cut inside its header, each piece at its offset. -/
def sampleCut : List (Write ℕ) := [⟨[1], 0, 10⟩, ⟨[3, 1, 65], 1, 12⟩, ⟨[0, 70], 4, 15⟩]

theorem packets_roundTrip_sample :
    ((⟨[], 0, 3⟩ : RpcAssembler ℕ).feedAll sampleCut).1.buf = [] ∧
      ((⟨[], 0, 3⟩ : RpcAssembler ℕ).feedAll sampleCut).2 =
        List.replicate 2 none ++ [some (encodeRpc 1 [1, 65, 0])] :=
  packets_roundTrip.1 1 [1, 65, 0] ⟨[], 0, 3⟩ sampleCut (by decide) rfl
    { joined := by decide
      nonempty := by decide
      offsets := Or.inr ⟨rfl, rfl, rfl, trivial⟩
      prompt := by decide }

end Epilykos.Wifi
