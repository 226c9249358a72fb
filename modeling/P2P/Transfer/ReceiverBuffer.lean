import P2P.Transfer.Receiver

/-!
# The buffer of the receiver

`RecvState.Represents` is the representation of a receiver in the terms of the C code: where
`NPE` is among the slots and which slots may be filled. `uponReceivingDatapackChecked` is
`upon_receiving_datapack` with a bounds check at every access to `recv_buf`.

`receiver_representation`: every sequence of data packets keeps the representation, moves
`NPE` forward only, and never leaves the array.
-/

namespace P2P

open Lib

/-- The `for` loop at `seq == NPE`, `none` where it would leave the array. -/
def ackLoopChecked (buf : Slots Packet senderBufSize) :
    Nat → Int → Int → Option (Int × Int × List Packet)
  | 0, i, bytes => some (i, bytes, [])
  | n + 1, i, bytes =>
    (buf.load i).bind fun slot =>
      match slot with
      | none => some (i, bytes, [])
      | some p =>
        (sendPack (formAckPack i)).bind fun m =>
          (ackLoopChecked buf n (i + 1) (bytes + p.dataLen)).map fun (j, b, ms) => (j, b, m :: ms)

/-- `upon_receiving_datapack`, `none` where it would leave the array. -/
def uponReceivingDatapackChecked (pack : Packet) (rev : RecvState) :
    Option (RecvState × List Packet) :=
  let seq := toI32 pack.seqNum.toNat
  if seq < 1 ∨ rev.maxSeq < seq then some (rev, [])
  else
    -- the packet in the slot is deleted, if there is one
    (rev.recvBuf.load seq).bind fun _ =>
      (rev.recvBuf.write seq (some pack)).bind fun buf =>
        (buf.write (senderBufSize - 1) none).bind fun buf =>
          let rev := { rev with recvBuf := buf }
          if seq = rev.NPE then
            (ackLoopChecked buf (senderBufSize - 1 - seq).toNat seq rev.recvBytesnum).map
              fun (i, bytes, ms) => ({ rev with NPE := i, recvBytesnum := bytes }, ms)
          else if rev.NPE < seq then
            if 0 < rev.NPE then (sendPack (formAckPack (rev.NPE - 1))).map fun m => (rev, [m])
            else some (rev, [])
          else (sendPack (formAckPack seq)).map fun m => (rev, [m])

theorem ackLoopChecked_eq (buf : Slots Packet senderBufSize) :
    ∀ (n : Nat) (i bytes : Int), 0 ≤ i → i + n ≤ senderBufSize →
      ackLoopChecked buf n i bytes = ackLoop buf n i bytes := by
  intro n
  induction n with
  | zero =>
    intro i bytes _ _
    rfl
  | succ n ih =>
    intro i bytes h0 hn
    rw [ackLoopChecked, ackLoop, buf.load_eq h0 (by omega), Option.bind_some]
    cases buf.read i with
    | none => rfl
    | some p => simp only [ih (i + 1) (bytes + p.dataLen) (by omega) (by omega)]

/-- **All accesses are inside the array**, whatever the receiver holds. -/
theorem uponReceivingDatapackChecked_eq (pack : Packet) (rev : RecvState) :
    uponReceivingDatapackChecked pack rev = uponReceivingDatapack pack rev := by
  have hsz : senderBufSize = 514 := rfl
  unfold uponReceivingDatapackChecked uponReceivingDatapack
  generalize toI32 pack.seqNum.toNat = seq
  by_cases hdrop : seq < 1 ∨ rev.maxSeq < seq
  · rw [if_pos hdrop, if_pos hdrop]
  · have hmax : rev.maxSeq ≤ 512 := by
      unfold RecvState.maxSeq
      split <;> omega
    have hloop := fun buf bytes => ackLoopChecked_eq buf (senderBufSize - 1 - seq).toNat seq bytes
      (by omega) (by omega)
    have hload := rev.recvBuf.load_eq (i := seq) (by omega) (by omega)
    rw [if_neg hdrop, if_neg hdrop, hload, Option.bind_some]
    simp only [hloop]

namespace RecvState

variable {r r' : RecvState} {pack : Packet}

/-- The representation of a receiver. -/
structure Represents (r : RecvState) : Prop where
  range : 1 ≤ r.NPE ∧ r.NPE ≤ senderBufSize - 1
  /-- `NPE` is the smallest index from 1 on with an empty slot. -/
  least : r.recvBuf.read r.NPE = none ∧ ∀ i, 1 ≤ i → i < r.NPE → r.recvBuf.read i ≠ none
  occupied : ∀ i, r.recvBuf.read i ≠ none → 1 ≤ i ∧ i ≤ min (r.NPE + 30) 512
  ends : r.recvBuf.read 0 = none ∧ r.recvBuf.read (senderBufSize - 1) = none

/-- What one packet may do to the representation. -/
structure Keeps (r : RecvState) (pack : Packet) (r' : RecvState) : Prop where
  forward : r.NPE ≤ r'.NPE
  outside : ¬ (1 ≤ pack.seqNum.toNat ∧ (pack.seqNum.toNat : Int) ≤ min (r.NPE + 30) 512) →
    uponReceivingDatapack pack r = some (r, []) ∧ r' = r
  inArray : ∃ acks, uponReceivingDatapackChecked pack r = some (r', acks)

theorem Inv.represents (hr : r.Inv) : r.Represents := by
  have hempty : ∀ i, ¬ r.Accepts i → r.recvBuf.read i = none := by
    intro i hno
    refine Option.eq_none_iff_forall_ne_some.mpr fun p hp => ?_
    exact hno (hr.accepted i p hp)
  refine ⟨⟨hr.npe_pos, hr.npe_le⟩, ⟨hr.expected, fun i h1 h2 => ?_⟩, fun i hi => ?_, ?_, ?_⟩
  · obtain ⟨p, hp⟩ := hr.held i h1 h2
    rw [hp]
    exact Option.some_ne_none p
  · obtain ⟨p, hp⟩ := Option.ne_none_iff_exists'.mp hi
    obtain ⟨h1, h30, h512⟩ := hr.accepted i p hp
    exact ⟨h1, le_min h30 h512⟩
  · refine hempty 0 fun hacc => ?_
    have := hacc.1
    omega
  · refine hempty (senderBufSize - 1) fun hacc => ?_
    have hsz : senderBufSize = 514 := rfl
    have := hacc.2.2
    omega

/-- A sequence number that is accepted as an `int32_t` is the unsigned one. -/
theorem accepts_iff (hr : r.Inv) (pack : Packet) : r.Accepts (toI32 pack.seqNum.toNat) ↔
    1 ≤ pack.seqNum.toNat ∧ (pack.seqNum.toNat : Int) ≤ min (r.NPE + 30) 512 := by
  have hpos := hr.npe_pos
  have hlt := pack.seqNum.toNat_lt
  have hseq := toI32_eq pack.seqNum.toNat
  rw [le_min_iff]
  unfold Accepts
  split at hseq <;> omega

theorem keeps_of_next (hr : r.Inv) (h : r.next pack = some r') : Keeps r pack r' := by
  refine ⟨?_, fun hout => ?_, ?_⟩
  · rcases next_cases hr h with ⟨-, rfl⟩ | ⟨-, hrec⟩
    · exact le_refl _
    · exact hrec.npe_le
  · rw [← accepts_iff hr] at hout
    rcases uponReceivingDatapack_spec hr pack rfl with ⟨-, hres⟩ | ⟨hacc, -⟩
    · refine ⟨hres, ?_⟩
      rw [next, hres] at h
      cases h
      rfl
    · exact absurd hacc hout
  · rw [next, Option.map_eq_some_iff] at h
    obtain ⟨⟨r₁, acks⟩, hrun, rfl⟩ := h
    exact ⟨acks, (uponReceivingDatapackChecked_eq pack r).trans hrun⟩

end RecvState

open RecvState in
/-- **The representation of the receiver** holds after every sequence of data packets. -/
theorem receiver_representation (hash : Hash) (packs : List Packet) :
    (∃ r, exec next (createRecver hash) packs = some r) ∧
      Always next Represents (createRecver hash) packs ∧
      EachStep next Keeps (createRecver hash) packs := by
  have hinv := inv_createRecver hash
  obtain ⟨r, hrun, -⟩ := exists_exec hinv packs
  have hall := always_of_each (C := fun _ _ _ => True) (Q := Keeps)
    (fun s e t hs h _ => ⟨next_inv hs h, keeps_of_next hs h⟩) hinv
    (show EachStep next (fun _ _ _ => True) _ packs from each_of_events fun _ _ => trivial)
  exact ⟨⟨r, hrun⟩, hall.1.imp fun _ hs => hs.represents, hall.2⟩

end P2P
