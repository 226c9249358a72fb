import P2P.Transfer.WindowSpec

/-!
# Cutting data into packets

`p2p_sender` cuts its data into packets of 1024 bytes and stops where the sender buffer is
full. `fragmentation_exact` says for every window and every length how many bytes it takes
and what it makes of them (`Window.Fragmented`).
-/

namespace P2P

open Lib

/-- The payload of the packet in a slot. -/
def Window.payloadAt (w : Window) (i : Int) : List UInt8 :=
  ((w.senderBuf.read i).map Packet.payload).getD []

/-- `w'` is `w` with `m` packets behind it, which hold `data[0..r)`. -/
structure Window.Fragmented (data : List UInt8) (w w' : Window) (r m : Nat) : Prop where
  /-- Nothing but `LPR` and the buffer changes. -/
  frame : w' = { w with LPR := w.LPR + m, senderBuf := w'.senderBuf }
  room : w'.LPR ≤ senderBufSize - 1
  others : ∀ i, i < w.LPR ∨ w'.LPR ≤ i → w'.senderBuf.read i = w.senderBuf.read i
  packet : ∀ k, k < m → ∃ p, w'.senderBuf.read (w.LPR + k) = some p ∧ p.packetType = 3 ∧
    (p.seqNum.toNat : Int) = w.LPR + k ∧ p.packLen.toNat = headerLen + p.payload.length ∧
    1 ≤ p.payload.length ∧ p.payload.length ≤ ploadLen
  full : ∀ k, k + 1 < m → (w'.payloadAt (w.LPR + k)).length = ploadLen
  joined : ((List.range m).flatMap fun k : Nat => w'.payloadAt (w.LPR + k)) = data.take r

variable {data : List UInt8} {len : Nat} {sw sw' : Window}

theorem addPacket_lpr {countlen n : Nat} (h : addPacket data countlen n sw = some sw') :
    sw'.LPR = sw.LPR + 1 := by
  unfold addPacket at h
  split at h
  · rw [Option.map_eq_some_iff] at h
    obtain ⟨buf, -, rfl⟩ := h
    rfl
  · cases h

/-- No packet is empty: the last one begins in front of the end of the data. -/
theorem p2pLoop_tight {fuel : Nat} : ∀ {k r : Nat} {sw : Window}, 1024 * k < len →
    p2pLoop data len fuel (1024 * k) sw = some (sw', r) →
      1024 * (k + (sw'.LPR - sw.LPR)) < len + 1024 := by
  have hpl : ploadLen = 1024 := rfl
  induction fuel with
  | zero =>
    intro k r sw _ h
    cases h
  | succ fuel ih =>
    intro k r sw hk h
    rw [p2pLoop] at h
    split at h
    · rename_i hmore
      split at h
      · cases h
        omega
      · rw [Option.bind_eq_some_iff] at h
        obtain ⟨sw₁, hadd, h⟩ := h
        have hlpr := addPacket_lpr hadd
        have := ih (k := k + 1) (by omega) h
        push_cast at this
        omega
    · split at h
      · cases h
        omega
      · rw [Option.map_eq_some_iff] at h
        obtain ⟨sw₁, hadd, h⟩ := h
        cases h
        have hlpr := addPacket_lpr hadd
        omega

theorem blockPack_payload (data : List UInt8) (len k : Nat) (i : Int) :
    (blockPack data len k i).payload = ((data.take len).drop (1024 * k)).take 1024 := by
  rw [List.drop_take, List.take_take]
  rfl

theorem blockPack_length {k : Nat} {i : Int} (hdata : len ≤ data.length) :
    (blockPack data len k i).payload.length = blockLen len k := by
  refine formDataPack_payload_length ?_
  have : blockLen len k ≤ len - 1024 * k := Nat.min_le_right ..
  rw [List.length_drop]
  show blockLen len k ≤ data.length - 1024 * k
  omega

theorem Window.Added.taken {w w' : Window} {r m : Nat} (h : Window.Added data len 0 w w' r m) :
    r = min len (1024 * m) := by
  have hbytes := h.bytes
  rwa [Nat.zero_add] at hbytes

/-- **Packets that hold a block each** hold the data between them. -/
theorem Window.Added.fragmented {w w' : Window} {r m : Nat} (hdata : len ≤ data.length)
    (h1 : 1 ≤ w.LPR) (h : Window.Added data len 0 w w' r m) (htight : 1024 * m < len + 1024) :
    Window.Fragmented data w w' r m := by
  have hpl : ploadLen = 1024 := rfl
  have hsz : senderBufSize = 514 := rfl
  have hlpr : w'.LPR = w.LPR + m := by rw [h.frame]
  have hroom := h.room
  have hslot : ∀ k : Nat, k < m →
      w'.senderBuf.read (w.LPR + k) = some (blockPack data len k (w.LPR + k)) := by
    intro k hk
    rw [h.slot, if_pos (by omega), Nat.zero_add,
      show (w.LPR + (k : Int) - w.LPR).toNat = k by omega]
  have hpay : ∀ k : Nat, k < m →
      w'.payloadAt (w.LPR + k) = ((data.take len).drop (1024 * k)).take 1024 := by
    intro k hk
    rw [payloadAt, hslot k hk, Option.map_some, Option.getD_some, blockPack_payload]
  have hlen : ∀ k : Nat, k < m →
      (w'.payloadAt (w.LPR + k)).length = min 1024 (len - 1024 * k) := by
    intro k hk
    rw [payloadAt, hslot k hk, Option.map_some, Option.getD_some, blockPack_length hdata]
    rfl
  refine ⟨h.frame, by omega, fun i hi => ?_, fun k hk => ?_, fun k hk => ?_, ?_⟩
  · rw [h.slot, if_neg (by omega)]
  · have hblock : (blockPack data len k (w.LPR + k)).payload.length = blockLen len k :=
      blockPack_length hdata
    have hmin : blockLen len k = min 1024 (len - 1024 * k) := rfl
    refine ⟨_, hslot k hk, rfl, formDataPack_seqNum (by omega) (by omega), ?_, ?_, ?_⟩
    · rw [hblock]
      exact formDataPack_packLen (blockLen_le len k)
    · omega
    · rw [hblock]
      exact blockLen_le len k
  · rw [hlen k (by omega)]
    omega
  · calc ((List.range m).flatMap fun k : Nat => w'.payloadAt (w.LPR + k))
        = (List.range m).flatMap fun k : Nat =>
            ((data.take len).drop (1024 * k)).take 1024 :=
          List.flatMap_congr fun k hk => hpay k (List.mem_range.mp hk)
      _ = (data.take len).take (1024 * m) := flatMap_blocks ..
      _ = data.take r := by rw [List.take_take, h.taken, Nat.min_comm]

/-- **Fragmentation is exact at every size.** `p2p_sender` takes as many bytes as fit into the slots
left, in as few packets as hold them. -/
theorem fragmentation_exact (hdata : len ≤ data.length) (hlen : 1 ≤ len) (h1 : 1 ≤ sw.LPR)
    (hle : sw.LPR ≤ senderBufSize - 1) :
    ∃ sw' r m, p2pSender data sw len = some (sw', r) ∧
      (r : Int) = min (len : Int) (1024 * (senderBufSize - 1 - sw.LPR)) ∧ m = (r + 1023) / 1024 ∧
      Window.Fragmented data sw sw' r m := by
  have hpl : ploadLen = 1024 := rfl
  have hsz : senderBufSize = 514 := rfl
  obtain ⟨sw', r, m, hrun, hadd⟩ := p2pSender_spec sw hdata h1 (by omega)
  have hlpr : sw'.LPR = sw.LPR + m := by rw [hadd.frame]
  have htight : 1024 * m < len + 1024 := by
    have := p2pLoop_tight (k := 0) (by omega) hrun
    omega
  have hbytes := hadd.taken
  have hroom := hadd.room
  have hfull := hadd.full
  exact ⟨sw', r, m, hrun, by omega, by omega, hadd.fragmented hdata h1 htight⟩

/-- 1025 bytes are one packet more than 1024. -/
theorem one_byte_over :
    ∃ sw' r m, p2pSender (List.replicate 1025 7) (createSW (Vector.replicate hashSize 0) ⟨0, 0⟩)
        1025 = some (sw', r) ∧ r = 1025 ∧ m = 2 ∧
      Window.Fragmented (List.replicate 1025 7) (createSW (Vector.replicate hashSize 0) ⟨0, 0⟩) sw'
        r m := by
  have hdata : 1025 ≤ (List.replicate 1025 (7 : UInt8)).length := by rw [List.length_replicate]
  have hlpr : (createSW (Vector.replicate hashSize 0) ⟨0, 0⟩).LPR = 1 := rfl
  obtain ⟨sw', r, m, hrun, hr, hm, hfrag⟩ :=
    fragmentation_exact hdata (by decide) (le_of_eq hlpr.symm) (by decide)
  have hr' : r = 1025 := by
    have hsz : senderBufSize = 514 := rfl
    omega
  exact ⟨sw', r, m, hrun, hr', by omega, hfrag⟩

end P2P
