import P2P.Transfer.Receiver

/-!
# Runs of one receiver

A receiver is moved by data packets only. `acked_data_immutable_iff` settles when
the data it has acknowledged stays as it was: the packets that arrive for a slot
behind the next packet expected must repeat the payload and the lengths stored
there. `RecvState.Accounted` is what `reap` relies on: `recv_bytesnum` counts the
bytes of the packets acknowledged, and a complete chunk is merged. That needs payloads
as long as the lengths announced (`RecvState.CompleteReadable`).
`acks_held_iff` settles when the ACKs sent name packets that are held: a packet accepted ahead of
the first one makes the receiver send ACK 0.
-/

namespace P2P

open Lib

namespace RecvState

/-- The merge loop gets to its end and copies `CHUNK_SIZE` bytes. -/
def MergesChunk (r : RecvState) : Prop := ∃ m, r.merge = some m ∧ m.length = chunkSize

/-- The bytes of the packets acknowledged are counted once. -/
structure Accounted (r : RecvState) : Prop where
  counted : r.recvBytesnum = r.received
  merged : r.recvBytesnum = chunkSize → r.MergesChunk

/-- No slot acknowledged before the step has another payload after it. -/
def KeepsAcked (r : RecvState) (_ : Packet) (r' : RecvState) : Prop :=
  ∀ i, 1 ≤ i → i < r.NPE →
    (r'.recvBuf.read i).map Packet.payload = (r.recvBuf.read i).map Packet.payload

/-- A packet for a slot acknowledged before repeats the payload and the length stored there. -/
def Repeats (r : RecvState) (pack : Packet) (_ : RecvState) : Prop :=
  ∀ q, toI32 pack.seqNum.toNat < r.NPE → r.recvBuf.read (toI32 pack.seqNum.toNat) = some q →
    pack.payload = q.payload ∧ pack.dataLen = q.dataLen

/-- Where `peer_run` calls `reap`, the lengths announced can be copied from the payloads. -/
def CompleteReadable (r : RecvState) : Prop := r.recvBytesnum = chunkSize → r.Readable

variable {r r' : RecvState} {pack : Packet} {seq : Int}

theorem merge_length {m : List UInt8} (h : r.merge = some m) : (m.length : Int) = r.received := by
  have := mergeLoop_length h
  rw [List.length_nil, Int.natCast_zero, zero_add] at this
  exact this

theorem accounted_iff (hr : r.Inv) :
    r.Accounted ↔ r.recvBytesnum = r.received ∧ r.CompleteReadable := by
  constructor
  · intro h
    refine ⟨h.counted, fun hfull => ?_⟩
    obtain ⟨m, hm, -⟩ := h.merged hfull
    exact readable_of_merge hm
  · rintro ⟨hcount, hread⟩
    refine ⟨hcount, fun hfull => ?_⟩
    have hm := merge_eq hr (hread hfull) (by omega)
    have hlen := merge_length hm
    exact ⟨_, hm, by omega⟩

theorem counted_createRecver (hash : Hash) :
    (createRecver hash).recvBytesnum = (createRecver hash).received := by
  simp [createRecver, received]

theorem Received.keepsAcked_of_le (h : r.Received pack seq r') (hle : r.NPE ≤ seq) :
    KeepsAcked r pack r' := by
  intro i _ hi
  rw [h.slots, if_neg (by omega)]

theorem Received.received_late (h : r.Received pack seq r') (h1 : 1 ≤ seq) (hlt : seq < r.NPE)
    {q : Packet} (hq : r.recvBuf.read seq = some q) :
    r'.received = r.received - q.dataLen + pack.dataLen := by
  have hnpe := (h.stay (by omega)).1
  have hmem : (seq - 1).toNat ∈ Finset.range (r.NPE - 1).toNat := by
    rw [Finset.mem_range]
    omega
  have hseq : 1 + ((seq - 1).toNat : Int) = seq := by omega
  have hrest : ∑ k ∈ (Finset.range (r.NPE - 1).toNat).erase (seq - 1).toNat, r'.slotLen (1 + k) =
      ∑ k ∈ (Finset.range (r.NPE - 1).toNat).erase (seq - 1).toNat, r.slotLen (1 + k) := by
    apply Finset.sum_congr rfl
    intro k hk
    have hne := Finset.ne_of_mem_erase hk
    unfold slotLen
    rw [h.slots, if_neg (by omega)]
  have hnew : r'.slotLen seq = pack.dataLen := slotLen_of_read (by rw [h.slots, if_pos rfl])
  unfold received
  rw [hnpe, ← Finset.add_sum_erase _ _ hmem, ← Finset.add_sum_erase _ _ hmem, hrest, hseq, hnew,
    slotLen_of_read hq]
  omega

/-- **One packet** keeps the law exactly when it does not replace acknowledged data. -/
theorem next_lawful_iff (hr : r.Inv) (hcount : r.recvBytesnum = r.received)
    (h : r.next pack = some r') :
    r'.recvBytesnum = r'.received ∧ KeepsAcked r pack r' ↔ Repeats r pack r' := by
  rcases next_cases hr h with ⟨hno, rfl⟩ | ⟨hyes, hrec⟩
  · refine ⟨fun _ q hlt hq => ?_, fun _ => ⟨hcount, fun i _ _ => rfl⟩⟩
    -- an empty slot is no acknowledged one, a filled one is accepted
    exact absurd (hr.accepted _ q hq) hno
  · by_cases hlt : toI32 pack.seqNum.toNat < r.NPE
    · obtain ⟨q, hq⟩ := hr.held _ hyes.1 hlt
      obtain ⟨-, hbytes⟩ := hrec.stay (by omega)
      have hsum := hrec.received_late hyes.1 hlt hq
      constructor
      · rintro ⟨hcount', hkeep⟩ q' _ hq'
        have hpay := hkeep _ hyes.1 hlt
        rw [hrec.slots, if_pos rfl, hq, Option.map_some, Option.map_some, Option.some.injEq] at hpay
        rw [hq, Option.some.injEq] at hq'
        subst hq'
        exact ⟨hpay, by omega⟩
      · intro hrep
        obtain ⟨hpay, hlen⟩ := hrep q hlt hq
        refine ⟨by omega, fun i hi1 hi2 => ?_⟩
        rw [hrec.slots]
        split
        · rename_i hi
          rw [hi, hq, Option.map_some, Option.map_some, hpay]
        · rfl
    · refine ⟨fun _ q hlt' _ => absurd hlt' hlt, fun _ => ⟨?_, hrec.keepsAcked_of_le (by omega)⟩⟩
      by_cases heq : toI32 pack.seqNum.toNat = r.NPE
      · obtain ⟨-, -, -, -, hbytes⟩ := hrec.advance heq
        rw [hbytes, hrec.received_advance hr heq, hcount]
      · obtain ⟨hnpe, hbytes⟩ := hrec.stay heq
        rw [hbytes, hcount]
        refine (received_congr hnpe fun i hi1 hi2 => ?_).symm
        unfold slotLen
        rw [hrec.slots, if_neg (by omega)]

end RecvState

open RecvState in
/-- **Acknowledged data is immutable, counted once and merged exactly in the runs** whose late
packets repeat what the receiver holds, and in which the lengths of a complete chunk are those of
payloads. -/
theorem acked_data_immutable_iff (hash : Hash) (packs : List Packet) :
    Always next Accounted (createRecver hash) packs ∧
        EachStep next KeepsAcked (createRecver hash) packs ↔
      EachStep next Repeats (createRecver hash) packs ∧
        Always next CompleteReadable (createRecver hash) packs := by
  have hcounted : Always next (fun r => r.recvBytesnum = r.received) (createRecver hash) packs ∧
        EachStep next KeepsAcked (createRecver hash) packs ↔
      EachStep next Repeats (createRecver hash) packs :=
    always_iff_each (fun _ _ _ hr _ h => next_inv hr h)
      (fun _ _ _ hr hcount h => next_lawful_iff hr hcount h)
      (inv_createRecver hash) (counted_createRecver hash)
  have hsplit : Always next Accounted (createRecver hash) packs ↔
      Always next (fun r => r.recvBytesnum = r.received) (createRecver hash) packs ∧
        Always next CompleteReadable (createRecver hash) packs := by
    rw [← always_and]
    exact always_congr (fun _ _ _ hr h => next_inv hr h) (fun _ hr => accounted_iff hr)
      (inv_createRecver hash)
  rw [hsplit, ← hcounted]
  exact and_right_comm

/-- The first packet comes again with another payload, one byte longer: the byte acknowledged is
replaced, and the two bytes now held are counted as one. -/
theorem late_packet_replaces_data :
    ∃ r r', (createRecver (Vector.replicate hashSize 0)).next (formDataPack [1] 1 1) = some r ∧
      r.next (formDataPack [2, 3] 2 1) = some r' ∧
      ¬ RecvState.KeepsAcked r (formDataPack [2, 3] 2 1) r' ∧ ¬ r'.Accounted := by
  have hrun : (((createRecver (Vector.replicate hashSize 0)).next (formDataPack [1] 1 1)).bind
      fun r => (r.next (formDataPack [2, 3] 2 1)).map fun r' =>
        (r.NPE, (r.recvBuf.read 1).map Packet.payload, (r'.recvBuf.read 1).map Packet.payload,
          r'.recvBytesnum, r'.received)) = some (2, some [1], some [2, 3], 1, 2) := by
    decide
  rw [Option.bind_eq_some_iff] at hrun
  obtain ⟨r, hr, hrun⟩ := hrun
  rw [Option.map_eq_some_iff] at hrun
  obtain ⟨r', hr', hrun⟩ := hrun
  simp only [Prod.mk.injEq] at hrun
  obtain ⟨hnpe, hold, hnew, hbytes, hsum⟩ := hrun
  refine ⟨r, r', hr, hr', fun hkeep => ?_, fun hacc => ?_⟩
  · have := hkeep 1 (le_refl 1) (by omega)
    rw [hold, hnew] at this
    exact absurd this (by decide)
  · have := hacc.counted
    omega

/-! ## The ACKs sent -/

namespace RecvState

/-- Every ACK sent for a packet names a packet acknowledged, and all packets up to it are held. -/
def AcksHeld (r : RecvState) (pack : Packet) (r' : RecvState) : Prop :=
  ∀ acks, uponReceivingDatapack pack r = some (r', acks) → ∀ ack ∈ acks,
    1 ≤ ack.ackNum.toNat ∧ (ack.ackNum.toNat : Int) < r'.NPE ∧
      ∀ i, 1 ≤ i → i ≤ (ack.ackNum.toNat : Int) → ∃ p, r'.recvBuf.read i = some p

/-- The packet is not one of the 30 that are accepted ahead of the first, if that is expected. -/
def FirstInOrder (r : RecvState) (pack : Packet) (_ : RecvState) : Prop :=
  ¬ (r.NPE = 1 ∧ 2 ≤ toI32 pack.seqNum.toNat ∧ toI32 pack.seqNum.toNat ≤ 31)

/-- The numbers acknowledged are those of packets, unless the first is expected and another came. -/
theorem ackNumbers_pos_iff {npe npe' : Int} (h1 : 1 ≤ seq) (hpos : 1 ≤ npe) (hle : npe ≤ npe') :
    (∀ n ∈ ackNumbers seq npe npe', 1 ≤ n ∧ n < npe') ↔ ¬ (npe = 1 ∧ 2 ≤ seq) := by
  unfold ackNumbers
  by_cases heq : seq = npe
  · rw [if_pos heq]
    refine ⟨fun _ => by omega, fun _ n hn => ?_⟩
    obtain ⟨k, hk, rfl⟩ := List.mem_map.mp hn
    rw [List.mem_range] at hk
    omega
  · rw [if_neg heq]
    split
    · rw [List.forall_mem_singleton]
      omega
    · rw [List.forall_mem_singleton]
      omega

/-- **One packet** is answered by ACKs of packets held exactly if it does not come ahead of the
first. -/
theorem acksHeld_step_iff (hr : r.Inv) (h : r.next pack = some r') :
    AcksHeld r pack r' ↔ FirstInOrder r pack r' := by
  have hpos := hr.npe_pos
  have hr' := next_inv hr h
  have hle' := hr'.npe_le
  unfold AcksHeld FirstInOrder
  rcases uponReceivingDatapack_spec hr pack rfl with ⟨hno, hres⟩ | ⟨hacc, r₁, hrec, hres⟩
  · rw [hres]
    refine ⟨fun _ hahead => ?_, fun _ acks hacks ack hack => ?_⟩
    · exact hno ⟨by omega, by omega, by omega⟩
    · cases hacks
      exact absurd hack List.not_mem_nil
  · rw [next, hres, Option.map_some, Option.some.injEq] at h
    obtain rfl : r₁ = r' := h
    have hiff := ackNumbers_pos_iff hacc.1 hpos hrec.npe_le
    have hnum : ∀ n ∈ ackNumbers (toI32 pack.seqNum.toNat) r.NPE r₁.NPE,
        ((formAckPack n).ackNum.toNat : Int) = n := by
      intro n hn
      have := ackNumbers_held hacc.1 hpos hrec.npe_le hn
      exact formAckPack_ackNum (by omega) (by omega)
    rw [hres]
    constructor
    · intro hall hahead
      refine hiff.mp (fun n hn => ?_) ⟨hahead.1, hahead.2.1⟩
      obtain ⟨h1, hlt, -⟩ := hall _ rfl (formAckPack n) (List.mem_map_of_mem hn)
      have := hnum n hn
      omega
    · intro hahead acks hacks ack hack
      rw [Option.some.injEq, Prod.mk.injEq] at hacks
      rw [← hacks.2] at hack
      obtain ⟨n, hn, rfl⟩ := List.mem_map.mp hack
      obtain ⟨h1, hlt⟩ := hiff.mpr
        (fun hc => hahead ⟨hc.1, hc.2, by have := hacc.2.1; omega⟩) n hn
      have := hnum n hn
      exact ⟨by omega, by omega, fun i hi1 hi2 => hr'.held i hi1 (by omega)⟩

end RecvState

/-- **ACKs name packets held exactly in the runs** in which no packet is accepted ahead of the first
one. -/
theorem acks_held_iff (hash : Hash) (packs : List Packet) :
    EachStep RecvState.next RecvState.AcksHeld (createRecver hash) packs ↔
      EachStep RecvState.next RecvState.FirstInOrder (createRecver hash) packs :=
  each_iff (fun _ _ _ hr h => RecvState.next_inv hr h)
    (fun _ _ _ hr h => RecvState.acksHeld_step_iff hr h) (RecvState.inv_createRecver hash)

/-- The second packet comes first and is answered by ACK 0. -/
theorem second_packet_first :
    ∃ r, uponReceivingDatapack (formDataPack [1] 1 2) (createRecver (Vector.replicate hashSize 0)) =
        some (r, [formAckPack 0]) ∧
      ¬ (createRecver (Vector.replicate hashSize 0)).AcksHeld (formDataPack [1] 1 2) r := by
  have hrun : (uponReceivingDatapack (formDataPack [1] 1 2)
      (createRecver (Vector.replicate hashSize 0))).map (·.2) = some [formAckPack 0] := by
    decide
  rw [Option.map_eq_some_iff] at hrun
  obtain ⟨⟨r, acks⟩, hres, rfl⟩ := hrun
  refine ⟨r, hres, fun hheld => ?_⟩
  exact absurd (hheld _ hres (formAckPack 0) List.mem_cons_self).1 (by decide)

end P2P
