import Mathlib.Algebra.BigOperators.Group.Finset.Basic
import Mathlib.Algebra.BigOperators.Intervals
import Mathlib.Algebra.Order.BigOperators.Group.Finset
import P2P.Lib.Runs
import P2P.Transfer.Window

/-!
# The receiver of one chunk

`RecvState` and its operations from `sock_io.c`: `create_Recver`,
`upon_receiving_datapack` and the merge loop of `reap`. `NPE` is the next packet
expected: slots `1 .. NPE - 1` of `recv_buf` hold the packets received so far.

`RecvState.Inv` is what every sequence of data packets keeps, and
`uponReceivingDatapack_spec` says everything one packet can do
(`RecvState.Received`). The merge loop is `none` where `memcpy` would leave the memory
of a payload or write behind `reap_buf`; `merge_eq` says what it copies otherwise.
-/

namespace P2P

open Lib

structure RecvState where
  hash : Hash
  recvBuf : Slots Packet senderBufSize
  NPE : Int
  recvBytesnum : Int
  deriving DecidableEq

def createRecver (hash : Hash) : RecvState :=
  { hash := hash, recvBuf := Slots.empty Packet senderBufSize, NPE := 1, recvBytesnum := 0 }

/-- The `for` loop at `seq == NPE` with `n` slots left: the first empty slot, the bytes counted and
the ACKs sent. -/
def ackLoop (buf : Slots Packet senderBufSize) :
    Nat → Int → Int → Option (Int × Int × List Packet)
  | 0, i, bytes => some (i, bytes, [])
  | n + 1, i, bytes =>
    match buf.read i with
    | none => some (i, bytes, [])
    | some p =>
      (sendPack (formAckPack i)).bind fun m =>
        (ackLoop buf n (i + 1) (bytes + p.dataLen)).map fun (j, b, ms) => (j, b, m :: ms)

/-- The largest number the receiver accepts. -/
def RecvState.maxSeq (rev : RecvState) : Int := if 512 < rev.NPE + 30 then 512 else rev.NPE + 30

/-- `upon_receiving_datapack`: the new state and the ACKs sent. -/
def uponReceivingDatapack (pack : Packet) (rev : RecvState) : Option (RecvState × List Packet) :=
  let seq := toI32 pack.seqNum.toNat
  if seq < 1 ∨ rev.maxSeq < seq then some (rev, [])
  else
    (rev.recvBuf.write seq (some pack)).bind fun buf =>
      -- the last slot of the buffer stays clear
      (buf.write (senderBufSize - 1) none).bind fun buf =>
        let rev := { rev with recvBuf := buf }
        if seq = rev.NPE then
          (ackLoop buf (senderBufSize - 1 - seq).toNat seq rev.recvBytesnum).map
            fun (i, bytes, ms) => ({ rev with NPE := i, recvBytesnum := bytes }, ms)
        else if rev.NPE < seq then
          if 0 < rev.NPE then (sendPack (formAckPack (rev.NPE - 1))).map fun m => (rev, [m])
          else some (rev, [])
        else (sendPack (formAckPack seq)).map fun m => (rev, [m])

/-- The merge loop of `reap` with `n` packets left from slot `i` on: what it has copied. -/
def mergeLoop (buf : Slots Packet senderBufSize) : Nat → Int → List UInt8 → Option (List UInt8)
  | 0, _, reapBuf => some reapBuf
  | n + 1, i, reapBuf =>
    (buf.read i).bind fun p =>
      -- `memcpy` takes the length as a `size_t`; the byte behind the payload is there to be copied
      if 0 ≤ p.dataLen ∧ p.dataLen ≤ p.block.length ∧ reapBuf.length + p.dataLen ≤ chunkSize + 1
      then mergeLoop buf n (i + 1) (reapBuf ++ p.block.take p.dataLen.toNat)
      else none

/-- The bytes `reap` merges, `reap_buf[0..buflen)`. -/
def RecvState.merge (recv : RecvState) : Option (List UInt8) :=
  mergeLoop recv.recvBuf (recv.NPE - 1).toNat 1 []

/-! ## The invariant -/

namespace RecvState

/-- The acceptance test of `upon_receiving_datapack`. -/
def Accepts (r : RecvState) (seq : Int) : Prop := 1 ≤ seq ∧ seq ≤ r.NPE + 30 ∧ seq ≤ 512

structure Inv (r : RecvState) : Prop where
  npe_pos : 1 ≤ r.NPE
  npe_le : r.NPE ≤ 513
  held : ∀ i, 1 ≤ i → i < r.NPE → ∃ p, r.recvBuf.read i = some p
  expected : r.recvBuf.read r.NPE = none
  accepted : ∀ i p, r.recvBuf.read i = some p → r.Accepts i

theorem inv_createRecver (hash : Hash) : (createRecver hash).Inv := by
  refine ⟨le_refl 1, by simp [createRecver], fun i h1 h2 => ?_, ?_, fun i p hp => ?_⟩
  · simp only [createRecver] at h2
    omega
  · simp [createRecver]
  · simp [createRecver] at hp

theorem lt_one_or_maxSeq_lt (r : RecvState) (seq : Int) :
    seq < 1 ∨ r.maxSeq < seq ↔ ¬ r.Accepts seq := by
  unfold maxSeq Accepts
  split <;> omega

/-- `Pack_len - Hd_len` of the packet in slot `i`. -/
def slotLen (r : RecvState) (i : Int) : Int :=
  match r.recvBuf.read i with
  | some p => p.dataLen
  | none => 0

/-- `Pack_len - Hd_len` summed over `recv_buf[1 .. NPE - 1]`. -/
def received (r : RecvState) : Int := ∑ k ∈ Finset.range (r.NPE - 1).toNat, r.slotLen (1 + k)

/-- What an accepted packet does: it is stored in its slot. The next packet expected advances over
all slots filled, if it was this one, and their lengths are counted. -/
structure Received (pack : Packet) (seq : Int) (r r' : RecvState) : Prop where
  hash : r'.hash = r.hash
  slots : ∀ i, r'.recvBuf.read i = if i = seq then some pack else r.recvBuf.read i
  advance : seq = r.NPE → seq < r'.NPE ∧ r'.NPE ≤ 513 ∧
    (∀ i, seq ≤ i → i < r'.NPE → ∃ p, r'.recvBuf.read i = some p) ∧
    r'.recvBuf.read r'.NPE = none ∧
    r'.recvBytesnum = r.recvBytesnum +
      ∑ k ∈ Finset.range (r'.NPE - seq).toNat, r'.slotLen (seq + k)
  stay : seq ≠ r.NPE → r'.NPE = r.NPE ∧ r'.recvBytesnum = r.recvBytesnum

end RecvState

/-- The numbers acknowledged after a packet `seq` moved the next packet expected from `npe` to
`npe'`. -/
def ackNumbers (seq npe npe' : Int) : List Int :=
  if seq = npe then (List.range (npe' - npe).toNat).map fun k : Nat => npe + k
  else if npe < seq then [npe - 1]
  else [seq]

theorem ackNumbers_held {seq npe npe' : Int} (h1 : 1 ≤ seq) (hpos : 1 ≤ npe) (hle : npe ≤ npe')
    {n : Int} (hn : n ∈ ackNumbers seq npe npe') : 0 ≤ n ∧ n < npe' := by
  unfold ackNumbers at hn
  split at hn
  · obtain ⟨k, hk, rfl⟩ := List.mem_map.mp hn
    rw [List.mem_range] at hk
    omega
  · split at hn
    · rw [List.mem_singleton] at hn
      omega
    · rw [List.mem_singleton] at hn
      omega

theorem ackLoop_spec (r : RecvState) (h513 : r.recvBuf.read 513 = none) :
    ∀ (n : Nat) (i bytes : Int), i + n = 513 →
      ∃ k : Nat, k ≤ n ∧
        ackLoop r.recvBuf n i bytes = some (i + k,
          bytes + ∑ j ∈ Finset.range k, r.slotLen (i + j),
          (List.range k).map fun j : Nat => formAckPack (i + j)) ∧
        (∀ j, i ≤ j → j < i + k → ∃ p, r.recvBuf.read j = some p) ∧
        r.recvBuf.read (i + k) = none := by
  intro n
  induction n with
  | zero =>
    intro i bytes hi
    refine ⟨0, le_refl 0, by simp [ackLoop], fun j h1 h2 => by omega, ?_⟩
    rw [show i + (0 : Nat) = 513 by omega]
    exact h513
  | succ n ih =>
    intro i bytes hi
    cases hp : r.recvBuf.read i with
    | none =>
      refine ⟨0, Nat.zero_le _, by simp [ackLoop, hp], fun j h1 h2 => by omega, ?_⟩
      simpa using hp
    | some p =>
      have hlen : r.slotLen i = p.dataLen := by simp only [RecvState.slotLen, hp]
      obtain ⟨k, hk, hrun, hfill, hend⟩ := ih (i + 1) (bytes + p.dataLen) (by omega)
      have hshift : ∀ j : Nat, i + 1 + (j : Int) = i + (j + 1 : Nat) := fun j => by omega
      refine ⟨k + 1, by omega, ?_, fun j h1 h2 => ?_, by rw [← hshift]; exact hend⟩
      · simp only [ackLoop, hp, sendPack_formAckPack, Option.bind_some, hrun, Option.map_some]
        rw [Finset.sum_range_succ', List.range_succ_eq_map, List.map_cons, List.map_map, hshift]
        simp only [hshift, Function.comp_def, Nat.succ_eq_add_one, Int.natCast_zero, add_zero, hlen]
        congr 3
        omega
      · by_cases hj : j = i
        · exact ⟨p, hj ▸ hp⟩
        · exact hfill j (by omega) (by omega)

/-- **`upon_receiving_datapack`** stores an accepted packet and acknowledges it; any other packet
is dropped. -/
theorem uponReceivingDatapack_spec {r : RecvState} (hr : r.Inv) (pack : Packet) {seq : Int}
    (hseq : toI32 pack.seqNum.toNat = seq) :
    (¬ r.Accepts seq ∧ uponReceivingDatapack pack r = some (r, [])) ∨
    (r.Accepts seq ∧ ∃ r', r.Received pack seq r' ∧
      uponReceivingDatapack pack r =
        some (r', (ackNumbers seq r.NPE r'.NPE).map formAckPack)) := by
  have hsz : senderBufSize = 514 := rfl
  have hpos := hr.npe_pos
  have hdrop := r.lt_one_or_maxSeq_lt seq
  unfold uponReceivingDatapack
  rw [hseq]
  by_cases hacc : r.Accepts seq
  · refine .inr ⟨hacc, ?_⟩
    simp only [if_neg (fun h => hdrop.mp h hacc)]
    obtain ⟨h1, h30, h512⟩ := hacc
    obtain ⟨buf₁, hbuf₁⟩ := r.recvBuf.exists_write (i := seq) (by omega) (by omega) (some pack)
    obtain ⟨buf, hbuf⟩ := buf₁.exists_write (i := senderBufSize - 1) (by omega) (by omega) none
    -- slot 513 was empty before
    have h513 : r.recvBuf.read 513 = none := by
      apply Option.eq_none_iff_forall_ne_some.mpr
      intro p hp
      have := (hr.accepted 513 p hp).2.2
      omega
    have hslots : ∀ i, buf.read i = if i = seq then some pack else r.recvBuf.read i := by
      intro i
      rw [Slots.read_write hbuf, Slots.read_write hbuf₁]
      split
      · rw [if_neg (by omega), show i = 513 by omega, h513]
      · rfl
    simp only [hbuf₁, hbuf, Option.bind_some]
    by_cases heq : seq = r.NPE
    · have hend : buf.read 513 = none := by rw [hslots, if_neg (by omega), h513]
      obtain ⟨k, hk, hrun, hfill, hnone⟩ := ackLoop_spec { r with recvBuf := buf } hend
        (senderBufSize - 1 - seq).toNat seq r.recvBytesnum (by omega)
      have hkpos : 0 < k := by
        by_contra h0
        rw [show k = 0 by omega, Int.natCast_zero, add_zero] at hnone
        rw [show buf.read seq = some pack by rw [hslots, if_pos rfl]] at hnone
        cases hnone
      refine ⟨{ r with
        recvBuf := buf, NPE := seq + k,
        recvBytesnum := r.recvBytesnum + ∑ j ∈ Finset.range k,
          RecvState.slotLen { r with recvBuf := buf } (seq + j) }, ?_, ?_⟩
      · refine ⟨rfl, hslots, fun _ => ⟨?_, ?_, hfill, hnone, ?_⟩, fun hne => absurd heq hne⟩
        · simp only
          omega
        · simp only
          omega
        · rw [show (seq + (k : Int) - seq).toNat = k by omega]
          rfl
      · have hnums :
            ackNumbers seq r.NPE (seq + k) = (List.range k).map fun j : Nat => seq + j := by
          rw [ackNumbers, if_pos heq, heq, show (r.NPE + (k : Int) - r.NPE).toNat = k by omega]
        rw [if_pos heq, hrun, Option.map_some, hnums, List.map_map]
        rfl
    · refine ⟨{ r with recvBuf := buf },
        ⟨rfl, hslots, fun h => absurd h heq, fun _ => ⟨rfl, rfl⟩⟩, ?_⟩
      rw [if_neg heq]
      by_cases hlt : r.NPE < seq
      · simp only [if_pos hlt, if_pos (show 0 < r.NPE by omega), sendPack_formAckPack,
          Option.map_some, ackNumbers, if_neg heq, List.map_cons, List.map_nil]
      · simp only [if_neg hlt, sendPack_formAckPack, Option.map_some, ackNumbers, if_neg heq,
          List.map_cons, List.map_nil]
  · exact .inl ⟨hacc, if_pos (hdrop.mpr hacc)⟩

/-! ## One packet -/

namespace RecvState

variable {r r' : RecvState} {pack : Packet} {seq : Int}

theorem Received.npe_le (h : r.Received pack seq r') : r.NPE ≤ r'.NPE := by
  by_cases heq : seq = r.NPE
  · have := (h.advance heq).1
    omega
  · rw [(h.stay heq).1]

/-- **An accepted packet keeps the invariant.** -/
theorem Received.inv (hr : r.Inv) (hacc : r.Accepts seq) (h : r.Received pack seq r') : r'.Inv := by
  obtain ⟨h1, h30, h512⟩ := hacc
  have hpos := hr.npe_pos
  have hle := hr.npe_le
  have hmono := h.npe_le
  have hacc' : ∀ i p, r'.recvBuf.read i = some p → r'.Accepts i := by
    intro i p hp
    rw [h.slots i] at hp
    split at hp
    · rename_i hi
      exact ⟨by omega, by omega, by omega⟩
    · obtain ⟨hi1, hi2, hi3⟩ := hr.accepted i p hp
      exact ⟨hi1, by omega, hi3⟩
  have hold : ∀ i, 1 ≤ i → i < r.NPE → ∃ p, r'.recvBuf.read i = some p := by
    intro i hi1 hi2
    rw [h.slots i]
    split
    · exact ⟨pack, rfl⟩
    · exact hr.held i hi1 hi2
  by_cases heq : seq = r.NPE
  · obtain ⟨hlt, h513, hfill, hend, -⟩ := h.advance heq
    refine ⟨by omega, h513, fun i hi1 hi2 => ?_, hend, hacc'⟩
    by_cases hi : i < seq
    · exact hold i hi1 (by omega)
    · exact hfill i (by omega) hi2
  · obtain ⟨hnpe, -⟩ := h.stay heq
    refine ⟨by omega, by omega, fun i hi1 hi2 => hold i hi1 (by omega), ?_, hacc'⟩
    rw [hnpe, h.slots, if_neg (Ne.symm heq)]
    exact hr.expected

/-- One data packet. -/
def next (r : RecvState) (pack : Packet) : Option RecvState :=
  (uponReceivingDatapack pack r).map (·.1)

theorem next_cases (hr : r.Inv) (h : r.next pack = some r') :
    (¬ r.Accepts (toI32 pack.seqNum.toNat) ∧ r' = r) ∨
    (r.Accepts (toI32 pack.seqNum.toNat) ∧ r.Received pack (toI32 pack.seqNum.toNat) r') := by
  unfold next at h
  rcases uponReceivingDatapack_spec hr pack rfl with ⟨hacc, hres⟩ | ⟨hacc, r₁, hrec, hres⟩
  · rw [hres] at h
    cases h
    exact .inl ⟨hacc, rfl⟩
  · rw [hres] at h
    cases h
    exact .inr ⟨hacc, hrec⟩

theorem exists_next (hr : r.Inv) (pack : Packet) : ∃ r', r.next pack = some r' := by
  unfold next
  rcases uponReceivingDatapack_spec hr pack rfl with ⟨-, hres⟩ | ⟨-, r₁, -, hres⟩
  · exact ⟨r, by rw [hres]; rfl⟩
  · exact ⟨r₁, by rw [hres]; rfl⟩

theorem next_inv (hr : r.Inv) (h : r.next pack = some r') : r'.Inv := by
  rcases next_cases hr h with ⟨-, rfl⟩ | ⟨hacc, hrec⟩
  · exact hr
  · exact hrec.inv hr hacc

/-- **Every sequence of data packets** leads to a state, and keeps the invariant. -/
theorem exists_exec (hr : r.Inv) (packs : List Packet) :
    ∃ r', exec next r packs = some r' ∧ r'.Inv := by
  induction packs generalizing r with
  | nil => exact ⟨r, rfl, hr⟩
  | cons pack packs ih =>
    obtain ⟨r₁, hr₁⟩ := exists_next hr pack
    obtain ⟨r', hrun, hr'⟩ := ih (next_inv hr hr₁)
    exact ⟨r', (exec_step hr₁ packs).trans hrun, hr'⟩

/-! ## The bytes received -/

theorem slotLen_of_read {i : Int} {p : Packet} (h : r.recvBuf.read i = some p) :
    r.slotLen i = p.dataLen := by
  simp only [slotLen, h]

theorem received_congr (hnpe : r'.NPE = r.NPE)
    (h : ∀ i, 1 ≤ i → i < r.NPE → r'.slotLen i = r.slotLen i) : r'.received = r.received := by
  unfold received
  rw [hnpe]
  apply Finset.sum_congr rfl
  intro k hk
  rw [Finset.mem_range] at hk
  exact h _ (by omega) (by omega)

theorem Received.received_advance (hr : r.Inv) (h : r.Received pack seq r') (heq : seq = r.NPE) :
    r'.received = r.received + ∑ k ∈ Finset.range (r'.NPE - seq).toNat, r'.slotLen (seq + k) := by
  have hpos := hr.npe_pos
  have hlt := (h.advance heq).1
  unfold received
  rw [show (r'.NPE - 1).toNat = (r.NPE - 1).toNat + (r'.NPE - seq).toNat by omega,
    Finset.sum_range_add]
  congr 1
  · apply Finset.sum_congr rfl
    intro k hk
    rw [Finset.mem_range] at hk
    unfold slotLen
    rw [h.slots, if_neg (by omega)]
  · apply Finset.sum_congr rfl
    intro k _
    congr 1
    push_cast
    omega

/-! ## Merging -/

theorem mergeLoop_length {n : Nat} {i : Int} {acc m : List UInt8}
    (h : mergeLoop r.recvBuf n i acc = some m) :
    (m.length : Int) = acc.length + ∑ k ∈ Finset.range n, r.slotLen (i + k) := by
  induction n generalizing i acc with
  | zero =>
    rw [mergeLoop] at h
    cases h
    simp
  | succ n ih =>
    rw [mergeLoop, Option.bind_eq_some_iff] at h
    obtain ⟨p, hp, h⟩ := h
    split at h
    · rename_i hfit
      obtain ⟨h0, h1, -⟩ := hfit
      have hrest := ih h
      have hshift : ∀ k : Nat, i + 1 + (k : Int) = i + (k + 1 : Nat) := fun k => by omega
      simp only [hshift] at hrest
      rw [Finset.sum_range_succ', hrest, Int.natCast_zero, add_zero, slotLen_of_read hp,
        List.length_append, List.length_take]
      push_cast
      omega
    · cases h

/-- The bytes `reap` copies from slot `i`. -/
def slotBytes (r : RecvState) (i : Int) : List UInt8 :=
  match r.recvBuf.read i with
  | some p => p.block.take p.dataLen.toNat
  | none => []

/-- `Pack_len - Hd_len` bytes can be copied from the payload. -/
def InBlock (p : Packet) : Prop := 0 ≤ p.dataLen ∧ p.dataLen ≤ p.block.length

theorem inBlock_of_mergeLoop {n : Nat} {i : Int} {acc m : List UInt8}
    (h : mergeLoop r.recvBuf n i acc = some m) {k : Nat} (hk : k < n) :
    ∃ p, r.recvBuf.read (i + k) = some p ∧ InBlock p := by
  induction n generalizing i acc k with
  | zero => omega
  | succ n ih =>
    rw [mergeLoop, Option.bind_eq_some_iff] at h
    obtain ⟨p, hp, h⟩ := h
    split at h
    case isFalse => cases h
    case isTrue hfit =>
      cases k with
      | zero =>
        rw [Int.natCast_zero, add_zero]
        exact ⟨p, hp, hfit.1, hfit.2.1⟩
      | succ k =>
        obtain ⟨q, hq, hin⟩ := ih h (k := k) (by omega)
        rw [show i + 1 + (k : Int) = i + (k + 1 : Nat) by omega] at hq
        exact ⟨q, hq, hin⟩

theorem mergeLoop_eq {n : Nat} {i : Int} (acc : List UInt8)
    (hslot : ∀ k : Nat, k < n → ∃ p, r.recvBuf.read (i + k) = some p ∧ InBlock p)
    (hfit : acc.length + ∑ k ∈ Finset.range n, r.slotLen (i + k) ≤ chunkSize + 1) :
    mergeLoop r.recvBuf n i acc =
      some (acc ++ (List.range n).flatMap fun k : Nat => r.slotBytes (i + k)) := by
  induction n generalizing i acc with
  | zero => simp [mergeLoop]
  | succ n ih =>
    have hshift : ∀ k : Nat, i + 1 + (k : Int) = i + (k + 1 : Nat) := fun k => by omega
    obtain ⟨p, hp, h0, h1⟩ := hslot 0 (by omega)
    rw [Int.natCast_zero, add_zero] at hp
    have hnonneg : 0 ≤ ∑ k ∈ Finset.range n, r.slotLen (i + (k + 1 : Nat)) := by
      apply Finset.sum_nonneg
      intro k hk
      rw [Finset.mem_range] at hk
      obtain ⟨q, hq, hq0, -⟩ := hslot (k + 1) (by omega)
      rw [slotLen_of_read hq]
      exact hq0
    rw [Finset.sum_range_succ', Int.natCast_zero, add_zero, slotLen_of_read hp] at hfit
    rw [mergeLoop, hp, Option.bind_some, if_pos ⟨h0, h1, by omega⟩, ih]
    · rw [List.range_succ_eq_map, List.flatMap_cons, List.flatMap_map]
      simp only [slotBytes, hp, Int.natCast_zero, add_zero, hshift, List.append_assoc,
        Nat.succ_eq_add_one]
    · intro k hk
      rw [hshift]
      exact hslot (k + 1) (by omega)
    · simp only [hshift, List.length_append, List.length_take]
      push_cast
      push_cast at hfit
      omega

/-- The payloads that `reap` joins. -/
def Readable (r : RecvState) : Prop :=
  ∀ i p, 1 ≤ i → i < r.NPE → r.recvBuf.read i = some p → InBlock p

/-- **The merge loop** joins the payloads in order, if they can be read and fit into `reap_buf`. -/
theorem merge_eq (hr : r.Inv) (hread : r.Readable) (hfit : r.received ≤ chunkSize + 1) :
    r.merge = some ((List.range (r.NPE - 1).toNat).flatMap fun k : Nat => r.slotBytes (1 + k)) := by
  have hslot : ∀ k : Nat, k < (r.NPE - 1).toNat →
      ∃ p, r.recvBuf.read (1 + k) = some p ∧ InBlock p := by
    intro k hk
    obtain ⟨p, hp⟩ := hr.held (1 + k) (by omega) (by omega)
    exact ⟨p, hp, hread _ p (by omega) (by omega) hp⟩
  have hsum : ([] : List UInt8).length + ∑ k ∈ Finset.range (r.NPE - 1).toNat, r.slotLen (1 + k) ≤
      chunkSize + 1 := by
    rw [List.length_nil, Int.natCast_zero, zero_add]
    exact hfit
  exact mergeLoop_eq [] hslot hsum

theorem readable_of_merge {m : List UInt8} (h : r.merge = some m) : r.Readable := by
  intro i p h1 hlt hp
  obtain ⟨q, hq, hin⟩ := inBlock_of_mergeLoop h (k := (i - 1).toNat) (by omega)
  rw [show 1 + ((i - 1).toNat : Int) = i by omega, hp] at hq
  cases hq
  exact hin

end RecvState

end P2P
