import P2P.Transfer.ReceiverRuns
import P2P.Transfer.WindowSpec

/-!
# The data packets of a chunk

A chunk is sent as 512 packets of `PLOAD_LEN` bytes. `RecvState.Holds data` says that
a receiver holds blocks of the chunk `data` and nothing else, with any bytes behind them:

* `Holds.next`: every packet of the chunk keeps it, in whatever order they come;
* `Holds.bytes`, `Holds.merge`: the bytes counted, and what `reap` merges at the end;
* `exists_chunkReceived`: the packets in their order complete the chunk.
-/

namespace P2P

open Lib

/-- The `i`-th data packet of a chunk. -/
def chunkPack (data : List UInt8) (i : Int) : Packet := blockPack data chunkSize (i - 1).toNat i

/-- The bytes of the `i`-th data packet. -/
def chunkBytes (data : List UInt8) (i : Int) : List UInt8 :=
  (data.drop (ploadLen * (i - 1).toNat)).take ploadLen

variable {data : List UInt8} {i : Int}

theorem blockLen_chunk (h1 : 1 ≤ i) (h2 : i ≤ 512) : blockLen chunkSize (i - 1).toNat = 1024 := by
  have hcs : chunkSize = 524288 := rfl
  have hlast : 1024 ≤ chunkSize - 1024 * (i - 1).toNat := by omega
  show min 1024 (chunkSize - 1024 * (i - 1).toNat) = 1024
  exact Nat.min_eq_left hlast

theorem chunkPack_eq (h1 : 1 ≤ i) (h2 : i ≤ 512) :
    chunkPack data i = formDataPack (data.drop (ploadLen * (i - 1).toNat)) 1024 i := by
  unfold chunkPack blockPack
  rw [blockLen_chunk h1 h2]

theorem chunkPack_payload (h1 : 1 ≤ i) (h2 : i ≤ 512) :
    (chunkPack data i).payload = chunkBytes data i := by
  rw [chunkPack_eq h1 h2]
  rfl

theorem chunkPack_dataLen (h1 : 1 ≤ i) (h2 : i ≤ 512) : (chunkPack data i).dataLen = 1024 := by
  rw [chunkPack_eq h1 h2, formDataPack_dataLen (le_refl 1024)]
  rfl

theorem chunkPack_seq (h1 : 1 ≤ i) (h2 : i ≤ 512) :
    toI32 (chunkPack data i).seqNum.toNat = i := by
  have hseq : ((chunkPack data i).seqNum.toNat : Int) = i :=
    formDataPack_seqNum (by omega) (by omega)
  rw [hseq]
  exact toI32_eq_self (by omega) (by omega)

theorem chunkPack_onWire {p : Packet} (h1 : 1 ≤ i) (h2 : i ≤ 512) (h : p.core = chunkPack data i) :
    p.onWire = chunkPack data i := by
  rw [← p.onWire_core, h, chunkPack_eq h1 h2, formDataPack_onWire (le_refl 1024)]

theorem chunkPack_length (hdata : data.length = chunkSize) (h1 : 1 ≤ i) (h2 : i ≤ 512) :
    (chunkPack data i).payload.length = 1024 := by
  have hcs : chunkSize = 524288 := rfl
  have hlen : 1024 ≤ data.length - 1024 * (i - 1).toNat := by omega
  rw [chunkPack_payload h1 h2]
  show ((data.drop (1024 * (i - 1).toNat)).take 1024).length = 1024
  rw [List.length_take, List.length_drop]
  exact Nat.min_eq_left hlen

theorem slotBytes_chunkPack {r : RecvState} {b : UInt8} (hdata : data.length = chunkSize)
    (h1 : 1 ≤ i) (h2 : i ≤ 512) (h : r.recvBuf.read i = some ((chunkPack data i).withBehind b)) :
    r.slotBytes i = chunkBytes data i := by
  have hlen : ((chunkPack data i).withBehind b).payload.length = 1024 :=
    chunkPack_length hdata h1 h2
  simp only [RecvState.slotBytes, h, Packet.withBehind_dataLen, chunkPack_dataLen h1 h2]
  rw [Packet.take_block (by omega), List.take_of_length_le (by omega), Packet.withBehind_payload,
    chunkPack_payload h1 h2]

theorem flatMap_chunkBytes (data : List UInt8) (n : Nat) :
    ((List.range n).flatMap fun k : Nat => chunkBytes data (1 + k)) = data.take (1024 * n) := by
  rw [← flatMap_blocks]
  apply List.flatMap_congr
  intro k _
  rw [chunkBytes, show ((1 + (k : Int)) - 1).toNat = k by omega]
  rfl

theorem chunkPack_type : (chunkPack data i).packetType = 3 := rfl

namespace RecvState

/-- The receiver holds blocks of the chunk, under their own numbers. -/
structure Holds (data : List UInt8) (r : RecvState) : Prop where
  inv : r.Inv
  stored : ∀ i p, r.recvBuf.read i = some p → ∃ b, p = (chunkPack data i).withBehind b
  counted : r.recvBytesnum = r.received

namespace Holds

variable {r r' : RecvState}

theorem createRecver (data : List UInt8) (hash : Hash) : Holds data (createRecver hash) := by
  refine ⟨inv_createRecver hash, fun i p hp => ?_, counted_createRecver hash⟩
  simp [P2P.createRecver] at hp

/-- **Every packet of the chunk** leaves blocks of the chunk. -/
theorem next {b : UInt8} (h : r.Holds data) (h1 : 1 ≤ i) (h2 : i ≤ 512)
    (hnext : r.next ((chunkPack data i).withBehind b) = some r') : r'.Holds data := by
  have hinv := next_inv h.inv hnext
  rcases next_cases h.inv hnext with ⟨-, rfl⟩ | ⟨-, hrec⟩
  · exact h
  · rw [Packet.withBehind_seqNum, chunkPack_seq h1 h2] at hrec
    have hstored : ∀ j p, r'.recvBuf.read j = some p →
        ∃ b, p = (chunkPack data j).withBehind b := by
      intro j p hp
      rw [hrec.slots] at hp
      split at hp
      · rename_i hj
        rw [Option.some.injEq] at hp
        exact ⟨b, by rw [← hp, hj]⟩
      · exact h.stored j p hp
    -- a packet of the same number has the same payload
    have hrep : Repeats r ((chunkPack data i).withBehind b) r' := by
      intro q _ hq
      rw [Packet.withBehind_seqNum, chunkPack_seq h1 h2] at hq
      obtain ⟨b', rfl⟩ := h.stored i q hq
      exact ⟨rfl, rfl⟩
    exact ⟨hinv, hstored, ((next_lawful_iff h.inv h.counted hnext).mpr hrep).1⟩

theorem slot (h : r.Holds data) (h1 : 1 ≤ i) (h2 : i < r.NPE) :
    ∃ b, r.recvBuf.read i = some ((chunkPack data i).withBehind b) := by
  obtain ⟨p, hp⟩ := h.inv.held i h1 h2
  obtain ⟨b, rfl⟩ := h.stored i p hp
  exact ⟨b, hp⟩

theorem received (h : r.Holds data) : r.received = 1024 * (r.NPE - 1) := by
  have hpos := h.inv.npe_pos
  have hle := h.inv.npe_le
  have hconst : r.received = ∑ _k ∈ Finset.range (r.NPE - 1).toNat, (1024 : Int) := by
    apply Finset.sum_congr rfl
    intro k hk
    rw [Finset.mem_range] at hk
    obtain ⟨b, hb⟩ := h.slot (i := 1 + k) (by omega) (by omega)
    rw [slotLen_of_read hb, Packet.withBehind_dataLen]
    exact chunkPack_dataLen (by omega) (by omega)
  rw [hconst, Finset.sum_const, Finset.card_range, nsmul_eq_mul]
  omega

theorem bytes (h : r.Holds data) : r.recvBytesnum = 1024 * (r.NPE - 1) := by
  rw [h.counted, h.received]

/-- **A complete chunk** is merged from its blocks. -/
theorem merge (h : r.Holds data) (hlen : data.length = chunkSize) (h513 : r.NPE = 513) :
    r.merge = some data := by
  have hcs : chunkSize = 524288 := rfl
  have hread : r.Readable := by
    intro i p h1 hlt hp
    obtain ⟨b, rfl⟩ := h.stored i p hp
    have hd : ((chunkPack data i).withBehind b).dataLen = 1024 := by
      rw [Packet.withBehind_dataLen, chunkPack_dataLen h1 (by omega)]
    have hl : ((chunkPack data i).withBehind b).payload.length = 1024 :=
      chunkPack_length hlen h1 (by omega)
    have hb := ((chunkPack data i).withBehind b).length_payload_le_block
    exact ⟨by omega, by omega⟩
  have hreceived := h.received
  rw [merge_eq h.inv hread (by omega), h513]
  have hblocks : ∀ k ∈ List.range 512, r.slotBytes (1 + k) = chunkBytes data (1 + k) := by
    intro k hk
    rw [List.mem_range] at hk
    obtain ⟨b, hb⟩ := h.slot (i := 1 + k) (by omega) (by omega)
    exact slotBytes_chunkPack hlen (by omega) (by omega) hb
  rw [show (513 - 1 : Int).toNat = 512 from rfl, List.flatMap_congr hblocks, flatMap_chunkBytes,
    List.take_of_length_le (by omega)]

end Holds

/-- The packets of a chunk in their order. -/
def chunkPacks (data : List UInt8) (n : Nat) : List Packet :=
  (List.range n).map fun k : Nat => chunkPack data (1 + k)

theorem Received.npe_succ {r r' : RecvState} {pack : Packet} {seq : Int}
    (h : r.Received pack seq r') (heq : seq = r.NPE)
    (hahead : r.recvBuf.read (seq + 1) = none) : r'.NPE = seq + 1 := by
  obtain ⟨hlt, -, hfill, -⟩ := h.advance heq
  by_contra hne
  obtain ⟨p, hp⟩ := hfill (seq + 1) (by omega) (by omega)
  rw [h.slots, if_neg (by omega), hahead] at hp
  cases hp

/-- The receiver holds the first `n` blocks of the chunk, and nothing ahead of them. -/
structure HoldsFirst (data : List UInt8) (n : Nat) (r : RecvState) : Prop where
  holds : r.Holds data
  npe : r.NPE = 1 + n
  ahead : ∀ i p, r.recvBuf.read i = some p → i < r.NPE

theorem holdsFirst_createRecver (data : List UInt8) (hash : Hash) :
    HoldsFirst data 0 (createRecver hash) := by
  refine ⟨.createRecver data hash, rfl, fun i p hp => ?_⟩
  simp [createRecver] at hp

/-- **The next packet** in the order. -/
theorem HoldsFirst.exists_next {n : Nat} {r : RecvState} (h : HoldsFirst data n r) (hn : n < 512)
    (b : UInt8) : ∃ r', r.next ((chunkPack data (1 + n)).withBehind b) = some r' ∧
      HoldsFirst data (n + 1) r' ∧ r'.hash = r.hash := by
  obtain ⟨r', hnext⟩ := RecvState.exists_next h.holds.inv ((chunkPack data (1 + n)).withBehind b)
  have hnpe := h.npe
  have h1 : (1 : Int) ≤ 1 + n := by omega
  have h2 : (1 : Int) + n ≤ 512 := by omega
  refine ⟨r', hnext, ?_⟩
  rcases next_cases h.holds.inv hnext with ⟨hno, -⟩ | ⟨-, hrec⟩
  · rw [Packet.withBehind_seqNum, chunkPack_seq h1 h2] at hno
    exact absurd ⟨h1, by omega, h2⟩ hno
  · rw [Packet.withBehind_seqNum, chunkPack_seq h1 h2] at hrec
    have hnone : r.recvBuf.read (1 + n + 1) = none := by
      apply Option.eq_none_iff_forall_ne_some.mpr
      intro p hp
      have := h.ahead _ p hp
      omega
    have hnpe' := hrec.npe_succ hnpe.symm hnone
    refine ⟨⟨h.holds.next h1 h2 hnext, by rw [hnpe']; push_cast; omega, fun i p hp => ?_⟩,
      hrec.hash⟩
    rw [hrec.slots] at hp
    split at hp
    · omega
    · have := h.ahead i p hp
      omega

theorem exists_chunkPacks (data : List UInt8) (hash : Hash) :
    ∀ n : Nat, n ≤ 512 → ∃ r, exec next (createRecver hash) (chunkPacks data n) = some r ∧
      r.hash = hash ∧ HoldsFirst data n r := by
  intro n
  induction n with
  | zero => exact fun _ => ⟨_, rfl, rfl, holdsFirst_createRecver data hash⟩
  | succ n ih =>
    intro hn
    obtain ⟨r, hrun, hhash, hfirst⟩ := ih (by omega)
    obtain ⟨r', hnext, hfirst', hsame⟩ := hfirst.exists_next hn 0
    refine ⟨r', ?_, hsame.trans hhash, hfirst'⟩
    rw [chunkPacks, List.range_succ, List.map_append]
    exact exec_snoc hrun hnext

theorem exists_chunkReceived {data : List UInt8} (hlen : data.length = chunkSize) (hash : Hash) :
    ∃ r, exec next (createRecver hash) (chunkPacks data 512) = some r ∧ r.hash = hash ∧
      r.recvBytesnum = chunkSize ∧ r.merge = some data := by
  have hcs : chunkSize = 524288 := rfl
  obtain ⟨r, hrun, hhash, hfirst⟩ := exists_chunkPacks data hash 512 (le_refl _)
  have hnpe := hfirst.npe
  have hbytes := hfirst.holds.bytes
  exact ⟨r, hrun, hhash, by omega, hfirst.holds.merge hlen (by omega)⟩

end RecvState

end P2P
