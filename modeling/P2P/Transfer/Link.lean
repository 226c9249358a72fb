import P2P.Lib.Lists
import P2P.Transfer.Chunk
import P2P.Transfer.WindowRuns

/-!
# One transfer over a lossy link

The sender window and the receiver of one chunk, joined by the messages in
flight. Any message in flight may be delivered next, lost or duplicated, so the
link also reorders. `Transfer.next` is one event; `none` where the event is not
enabled or the code has no defined behaviour (`Transfer.exists_next`: it always
has).

`Transfer.Inv` ties the two ends together: a data packet in flight is a block of
the chunk under its own number, an ACK in flight names a packet the receiver
holds. `Transfer.Inv.safe` is what follows for the chunk and the two ends.
-/

namespace P2P

open Lib

structure Transfer where
  sw : Window
  rev : RecvState
  /-- What `send_pack` put on the wire and is still on its way, as the peer will decode it. -/
  flight : List Packet

inductive LinkEvent
  /-- `window_sender` puts packets in flight. -/
  | send (time : Nat → Int)
  /-- `check_datapack_timeout`, as long as packets are to be acknowledged. -/
  | timeout (now : Int)
  /-- The `k`-th message, a data packet, reaches the receiver. -/
  | data (k : Nat)
  /-- The `k`-th message, an ACK, reaches the sender. -/
  | ack (k : Nat)
  | lose (k : Nat)
  | duplicate (k : Nat)

/-- The messages in flight that may be delivered as packets of type `ty`. -/
def Transfer.message (s : Transfer) (ty : UInt8) (k : Nat) : Option Packet :=
  s.flight[k]?.filter fun m => m.packetType = ty

def Transfer.next (fl : Rounding) (s : Transfer) : LinkEvent → Option Transfer
  | .send time =>
    (windowSender time s.sw).map fun (sw, ms, _) => { s with sw := sw, flight := s.flight ++ ms }
  | .timeout now =>
    if s.sw.LPA < s.sw.LPR - 1 then
      (checkDatapackTimeout fl now s.sw).map fun (sw, _) => { s with sw := sw }
    else none
  | .data k =>
    (s.message 3 k).bind fun m =>
      (uponReceivingDatapack m s.rev).map fun (rev, acks) =>
        { s with rev := rev, flight := s.flight.eraseIdx k ++ acks }
  | .ack k =>
    (s.message 4 k).bind fun m =>
      (uponReceiveACK fl m s.sw).map fun (sw, _) =>
        { s with sw := sw, flight := s.flight.eraseIdx k }
  | .lose k => s.flight[k]?.map fun _ => { s with flight := s.flight.eraseIdx k }
  | .duplicate k => s.flight[k]?.map fun m => { s with flight := s.flight ++ [m] }

/-- What holds of the window, the receiver and the messages in flight together. -/
structure Transfer.Inv (data : List UInt8) (s : Transfer) : Prop where
  window : s.sw.Inv
  full : s.sw.LPR = 513
  queued : ∀ i p, s.sw.senderBuf.read i = some p → p.core = chunkPack data i
  receiver : s.rev.Inv
  stored : ∀ i p, s.rev.recvBuf.read i = some p → ∃ b, p = (chunkPack data i).withBehind b
  counted : s.rev.recvBytesnum = s.rev.received
  messages : ∀ m ∈ s.flight, (∃ i, 1 ≤ i ∧ i ≤ 512 ∧ m = chunkPack data i) ∨
    (∃ n, 0 ≤ n ∧ n < s.rev.NPE ∧ m = formAckPack n)
  acked : s.sw.LPA < s.rev.NPE

/-- **What both ends may rely on.** -/
structure Transfer.Safe (data : List UInt8) (s : Transfer) : Prop where
  pointers : 0 ≤ s.sw.LPA ∧ s.sw.LPA ≤ s.sw.LPS ∧ s.sw.LPS ≤ s.sw.LPR - 1 ∧ s.sw.LPR - 1 = 512
  /-- The sender never counts as acknowledged what the receiver does not hold. -/
  acked : s.sw.LPA ≤ s.rev.NPE - 1
  stored : ∀ i, 1 ≤ i → i < s.rev.NPE →
    ∃ p, s.rev.recvBuf.read i = some p ∧ p.payload = chunkBytes data i
  bytes : s.rev.recvBytesnum = 1024 * (s.rev.NPE - 1)
  complete : s.rev.recvBytesnum = chunkSize ↔ s.rev.NPE = 513
  merged : s.rev.NPE = 513 → s.rev.merge = some data
  /-- A complete upload is a complete download. -/
  uploaded : s.sw.LPA = s.sw.LPR - 1 → s.rev.NPE = 513 ∧ s.rev.merge = some data

/-! ## One event -/

theorem Window.Loaded.queued {data : List UInt8} {w : Window} (h : Window.Loaded data chunkSize w)
    {i : Int} {p : Packet} (hp : w.senderBuf.read i = some p) : p.core = chunkPack data i := by
  obtain ⟨hash, dst, r, m, hadd⟩ := h.added
  rw [hadd.slot i] at hp
  split at hp
  · rw [Option.some.injEq, Nat.zero_add] at hp
    subst hp
    rfl
  · simp [createSW] at hp

theorem Window.Sent.chunkPacks {data : List UInt8} {time : Nat → Int} {w w' : Window}
    {ms : List Packet} (hw : w.Inv) (hfull : w.LPR = 513)
    (hqueued : ∀ i p, w.senderBuf.read i = some p → p.core = chunkPack data i)
    (hsent : Window.Sent time 0 w w' ms)
    (hcnt : (ms.length : Int) = min (w.count.toNat : Int) (w.LPR - 1 - w.LPS))
    {m : Packet} (hm : m ∈ ms) : ∃ i, 1 ≤ i ∧ i ≤ 512 ∧ m = chunkPack data i := by
  have h0 := hw.lpa_nonneg
  have hle := hw.lpa_le
  obtain ⟨j, p, hj1, hj2, hp, rfl⟩ := hsent.mem hm
  exact ⟨j, by omega, by omega, chunkPack_onWire (by omega) (by omega) (hqueued j p hp)⟩

theorem Window.SameData.queued {data : List UInt8} {w w' : Window} (h : Window.SameData w w')
    (hqueued : ∀ i p, w.senderBuf.read i = some p → p.core = chunkPack data i) {i : Int}
    {p : Packet} (hp : w'.senderBuf.read i = some p) : p.core = chunkPack data i := by
  obtain ⟨q, hq, hcore⟩ := h.read hp
  rw [hcore]
  exact hqueued i q hq

theorem Window.Move.lpa_le {fl : Rounding} {w w' : Window} {e : WindowEvent}
    (h : Window.Move fl w e w') :
    w'.LPA ≤ w.LPA ∨ ∃ pack, e = .ack pack ∧ w'.LPA ≤ pack.ackNum.toNat := by
  cases h with
  | sent hsent => left; rw [hsent.frame]
  | checked => left; exact le_refl _
  | wentBack _ hback => left; rw [hback.frame]
  | ignored => left; exact le_refl _
  | acked hn _ _ hc hack =>
    have hlpa := hc.lpa
    cases hack with
    | jump => right; exact ⟨_, rfl, by simp only [recount]; omega⟩
    | advance => right; exact ⟨_, rfl, by simp only [recount]; omega⟩
    | duplicate => left; simp only [recount]; omega
    | loss _ _ hback => left; rw [hback.frame]; simp only; omega
    | stale => left; omega

namespace Transfer

variable {fl : Rounding} {data : List UInt8} {s s' : Transfer} {e : LinkEvent}

theorem message_eq_some {ty : UInt8} {k : Nat} {m : Packet} (h : s.message ty k = some m) :
    m ∈ s.flight ∧ m.packetType = ty := by
  obtain ⟨hm, hty⟩ := mem_of_filter_getElem? h
  exact ⟨hm, of_decide_eq_true hty⟩

theorem Inv.holds (hs : s.Inv data) : s.rev.Holds data := ⟨hs.receiver, hs.stored, hs.counted⟩

theorem Inv.message_data (hs : s.Inv data) {k : Nat} {m : Packet} (h : s.message 3 k = some m) :
    ∃ i, 1 ≤ i ∧ i ≤ 512 ∧ m = chunkPack data i := by
  obtain ⟨hm, hty⟩ := message_eq_some h
  rcases hs.messages m hm with hdata | ⟨n, -, -, rfl⟩
  · exact hdata
  · cases hty

theorem Inv.message_ack (hs : s.Inv data) {k : Nat} {m : Packet} (h : s.message 4 k = some m) :
    ∃ n, 0 ≤ n ∧ n < s.rev.NPE ∧ (m.ackNum.toNat : Int) = n := by
  obtain ⟨hm, hty⟩ := message_eq_some h
  rcases hs.messages m hm with ⟨i, -, -, rfl⟩ | ⟨n, h0, hn, rfl⟩
  · rw [chunkPack_type] at hty
    exact absurd hty (by decide)
  · have hle := hs.receiver.npe_le
    exact ⟨n, h0, hn, formAckPack_ackNum h0 (by omega)⟩

theorem Inv.of_move (hs : s.Inv data) {we : WindowEvent} {w : Window} {flight : List Packet}
    (hmove : Window.Move fl s.sw we w) (hlpa : w.LPA < s.rev.NPE)
    (hflight : ∀ m ∈ flight, m ∈ s.flight ∨ ∃ i, 1 ≤ i ∧ i ≤ 512 ∧ m = chunkPack data i) :
    Inv data { s with sw := w, flight := flight } := by
  have hdata := hmove.sameData
  refine ⟨hmove.inv hs.window, hdata.lpr.trans hs.full, fun i p hp => hdata.queued hs.queued hp,
    hs.receiver, hs.stored, hs.counted, fun m hm => ?_, hlpa⟩
  rcases hflight m hm with hold | hnew
  · exact hs.messages m hold
  · exact .inl hnew

theorem Inv.send (hs : s.Inv data) {time : Nat → Int} (h : s.next fl (.send time) = some s') :
    s'.Inv data := by
  obtain ⟨w, ms, hrun, hsent, hcnt⟩ := windowSender_spec time hs.window
  rw [Transfer.next, hrun] at h
  cases h
  have hmove : Window.Move fl s.sw (.send time) { w with count := 0 } := .sent hsent hcnt
  have hlpa : w.LPA = s.sw.LPA := by rw [hsent.frame]
  refine hs.of_move hmove (hlpa ▸ hs.acked) fun m hm => ?_
  rcases List.mem_append.mp hm with hold | hnew
  · exact .inl hold
  · exact .inr (hsent.chunkPacks hs.window hs.full hs.queued hcnt hnew)

theorem Inv.timeout (hs : s.Inv data) {now : Int} (h : s.next fl (.timeout now) = some s') :
    s'.Inv data := by
  rw [Transfer.next] at h
  split at h
  · rw [Option.map_eq_some_iff] at h
    obtain ⟨⟨w, r⟩, hrun, rfl⟩ := h
    have hmove : Window.Move fl s.sw (.timeout now) w :=
      Window.next_cases hs.window (Window.next_timeout hrun)
    refine hs.of_move hmove ?_ fun m hm => .inl hm
    rcases hmove.lpa_le with hle | ⟨pack, heq, -⟩
    · exact lt_of_le_of_lt hle hs.acked
    · cases heq
  · cases h

theorem Inv.ackDelivered (hs : s.Inv data) {k : Nat} (h : s.next fl (.ack k) = some s') :
    s'.Inv data := by
  rw [Transfer.next, Option.bind_eq_some_iff] at h
  obtain ⟨m, hm, h⟩ := h
  rw [Option.map_eq_some_iff] at h
  obtain ⟨⟨w, r⟩, hrun, rfl⟩ := h
  obtain ⟨n, h0, hn, hack⟩ := hs.message_ack hm
  have hmove : Window.Move fl s.sw (.ack m) w :=
    Window.next_cases hs.window (Window.next_ack hrun)
  refine hs.of_move hmove ?_ fun m' hm' => .inl (List.mem_of_mem_eraseIdx hm')
  rcases hmove.lpa_le with hle | ⟨pack, heq, hle⟩
  · exact lt_of_le_of_lt hle hs.acked
  · cases heq
    omega

theorem Inv.dataDelivered (hs : s.Inv data) {k : Nat} (h : s.next fl (.data k) = some s') :
    s'.Inv data := by
  rw [Transfer.next, Option.bind_eq_some_iff] at h
  obtain ⟨m, hm, h⟩ := h
  rw [Option.map_eq_some_iff] at h
  obtain ⟨⟨rev, acks⟩, hrun, rfl⟩ := h
  obtain ⟨i, h1, h2, rfl⟩ := hs.message_data hm
  have hnext : s.rev.next (chunkPack data i) = some rev := by
    rw [RecvState.next, hrun]
    rfl
  rcases uponReceivingDatapack_spec hs.receiver (chunkPack data i) (chunkPack_seq h1 h2) with
    ⟨-, hres⟩ | ⟨hacc, r', hrec, hres⟩
  · rw [hrun] at hres
    cases hres
    refine ⟨hs.window, hs.full, hs.queued, hs.receiver, hs.stored, hs.counted, fun m' hm' => ?_,
      hs.acked⟩
    have hold : m' ∈ s.flight.eraseIdx k ++ [] := hm'
    rw [List.append_nil] at hold
    exact hs.messages m' (List.mem_of_mem_eraseIdx hold)
  · rw [hrun] at hres
    cases hres
    have hmono := hrec.npe_le
    have hholds := hs.holds.next (b := 0) h1 h2 hnext
    refine ⟨hs.window, hs.full, hs.queued, hholds.inv, hholds.stored, hholds.counted,
      fun m' hm' => ?_, lt_of_lt_of_le hs.acked hmono⟩
    rcases List.mem_append.mp hm' with hold | hnew
    · rcases hs.messages m' (List.mem_of_mem_eraseIdx hold) with hdata | ⟨n, h0, hn, rfl⟩
      · exact .inl hdata
      · exact .inr ⟨n, h0, lt_of_lt_of_le hn hmono, rfl⟩
    · obtain ⟨n, hn, rfl⟩ := List.mem_map.mp hnew
      obtain ⟨h0, hlt⟩ := ackNumbers_held h1 hs.receiver.npe_pos hmono hn
      exact .inr ⟨n, h0, hlt, rfl⟩

/-- **Every event keeps the joint invariant.** -/
theorem Inv.next (hs : s.Inv data) (h : s.next fl e = some s') : s'.Inv data := by
  cases e with
  | send time => exact hs.send h
  | timeout now => exact hs.timeout h
  | data k => exact hs.dataDelivered h
  | ack k => exact hs.ackDelivered h
  | lose k =>
    rw [Transfer.next, Option.map_eq_some_iff] at h
    obtain ⟨m, -, rfl⟩ := h
    exact { hs with messages := fun m' hm' => hs.messages m' (List.mem_of_mem_eraseIdx hm') }
  | duplicate k =>
    rw [Transfer.next, Option.map_eq_some_iff] at h
    obtain ⟨m, hm, rfl⟩ := h
    refine { hs with messages := fun m' hm' => ?_ }
    rcases List.mem_append.mp hm' with hold | hnew
    · exact hs.messages m' hold
    · rw [List.mem_singleton] at hnew
      exact hs.messages m' (hnew ▸ List.mem_of_getElem? hm)

/-- **The joint invariant is all the ends rely on.** -/
theorem Inv.safe (hs : s.Inv data) (hlen : data.length = chunkSize) : s.Safe data := by
  have hcs : chunkSize = 524288 := rfl
  have hle := hs.receiver.npe_le
  have hlps := hs.window.lps_lt
  have hfull := hs.full
  have hacked := hs.acked
  have hbytes := hs.holds.bytes
  have hmerged := fun h513 => hs.holds.merge hlen h513
  refine ⟨⟨hs.window.lpa_nonneg, hs.window.lpa_le, by omega, by omega⟩, by omega,
    fun i h1 h2 => ?_, hbytes, by omega, hmerged, fun hdone => ?_⟩
  · obtain ⟨b, hb⟩ := hs.holds.slot h1 h2
    exact ⟨_, hb, chunkPack_payload h1 (by omega)⟩
  have h513 : s.rev.NPE = 513 := by omega
  exact ⟨h513, hmerged h513⟩

/-- The event may happen: its message is in flight, the timer runs. -/
def Enabled (s : Transfer) : LinkEvent → Prop
  | .send _ => True
  | .timeout _ => s.sw.LPA < s.sw.LPR - 1
  | .data k => ∃ m, s.message 3 k = some m
  | .ack k => ∃ m, s.message 4 k = some m
  | .lose k => k < s.flight.length
  | .duplicate k => k < s.flight.length

/-- **The code has a defined behaviour on every event**: no `NULL` pointer is followed and no array
is left. -/
theorem Inv.exists_next (fl : Rounding) (hs : s.Inv data) (he : s.Enabled e) :
    ∃ s', s.next fl e = some s' := by
  cases e with
  | send time =>
    obtain ⟨w, ms, hrun, -⟩ := windowSender_spec time hs.window
    rw [Transfer.next, hrun]
    exact ⟨_, rfl⟩
  | timeout now =>
    have hlt : s.sw.LPA < s.sw.LPR - 1 := he
    rw [Transfer.next, if_pos hlt]
    obtain ⟨p, -, ⟨-, -, -, -, w, hrun, -⟩ | ⟨-, hrun⟩⟩ :=
      checkDatapackTimeout_spec fl now hs.window hlt
    · rw [hrun]
      exact ⟨_, rfl⟩
    · rw [hrun]
      exact ⟨_, rfl⟩
  | data k =>
    obtain ⟨m, hm⟩ := he
    rw [Transfer.next, hm, Option.bind_some]
    rcases uponReceivingDatapack_spec hs.receiver m rfl with ⟨-, hrun⟩ | ⟨-, r', -, hrun⟩
    · rw [hrun]
      exact ⟨_, rfl⟩
    · rw [hrun]
      exact ⟨_, rfl⟩
  | ack k =>
    obtain ⟨m, hm⟩ := he
    obtain ⟨n, h0, hn, hack⟩ := hs.message_ack hm
    have hfull := hs.full
    have hle := hs.receiver.npe_le
    rw [Transfer.next, hm, Option.bind_some]
    by_cases hz : m.ackNum.toNat = 0
    · rw [uponReceiveACK_zero hz]
      exact ⟨_, rfl⟩
    · obtain ⟨p, w₁, w, -, -, -, hrun⟩ :=
        uponReceiveACK_spec fl hs.window hack (by omega) (by omega)
      rw [hrun]
      exact ⟨_, rfl⟩
  | lose k =>
    have hk : k < s.flight.length := he
    rw [Transfer.next, List.getElem?_eq_getElem hk]
    exact ⟨_, rfl⟩
  | duplicate k =>
    have hk : k < s.flight.length := he
    rw [Transfer.next, List.getElem?_eq_getElem hk]
    exact ⟨_, rfl⟩

/-- A fresh window and a fresh receiver, nothing in flight. -/
def start (w : Window) (hash : Hash) : Transfer := ⟨w, createRecver hash, []⟩

theorem inv_start {w : Window} (h : Window.Loaded data chunkSize w) (hash : Hash) :
    Inv data (start w hash) := by
  have hlpa := h.fresh.1
  refine ⟨h.inv, h.lpr_chunk, fun i p hp => h.queued hp, RecvState.inv_createRecver hash,
    fun i p hp => ?_, RecvState.counted_createRecver hash, fun m hm => ?_, ?_⟩
  · simp [start, createRecver] at hp
  · simp [start] at hm
  · show w.LPA < 1
    omega

theorem exec_inv {w : Window} (h : Window.Loaded data chunkSize w) {hash : Hash}
    {es : List LinkEvent} (hrun : exec (next fl) (start w hash) es = some s) : s.Inv data :=
  exec_invariant (Inv data) (fun _ _ _ hs hstep => hs.next hstep) (inv_start h hash) hrun

end Transfer

end P2P
