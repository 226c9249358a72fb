import P2P.Transfer.Completion

/-!
# Two transfers one after the other

A peer uploads chunk X and then chunk Y to the same downloader. Packets are matched with a
connection by the address of their sender alone, and the numbers of every chunk start at 1,
so what is still on its way for X meets the receiver and the window of Y.
`Succession.next` joins both transfers: the downloader gives up or finishes X and asks for
Y, then the uploader starts on Y, and a message in flight keeps a tag that says which
transfer it belongs to. When X is over for either end is left open, since both ends also
give up on it after a timeout.

`successive_transfers_iff`: the two do not interfere in exactly the runs in which late DATA
is ahead of the receive window of 30 packets and late ACKs find nothing to acknowledge. The
receive window makes that likely, and no more: a complete transfer of X can leave duplicates
of all its packets behind.
-/

namespace P2P

open Lib

/-- A message in flight, of the new transfer or of the old one. -/
structure Tagged where
  isNew : Bool
  pack : Packet

structure Succession where
  sw : Window
  rev : RecvState
  flight : List Tagged
  /-- The uploader has started on the new chunk. -/
  swNew : Bool
  /-- The downloader has asked for it. -/
  revNew : Bool

inductive SuccessionEvent
  | send (time : Nat → Int)
  | timeout (now : Int)
  | data (k : Nat)
  | ack (k : Nat)
  /-- Lost on the way, or there is no connection that would take it. -/
  | lose (k : Nat)
  | duplicate (k : Nat)
  /-- The download of X is over; its receiver is freed and Y gets a new one. -/
  | request
  /-- The upload of X is over and the GET for Y arrives. -/
  | start

namespace Succession

/-- The message in flight at place `k`, if it is a packet of type `ty`. -/
def message (s : Succession) (ty : UInt8) (k : Nat) : Option Tagged :=
  s.flight[k]?.filter fun m => m.pack.packetType = ty

/-- One event; `swY` is the window that holds Y. -/
def next (fl : Rounding) (hashY : Hash) (swY : Window) (s : Succession) :
    SuccessionEvent → Option Succession
  | .send time =>
    (windowSender time s.sw).map fun (sw, ms, _) =>
      { s with sw := sw, flight := s.flight ++ ms.map (Tagged.mk s.swNew) }
  | .timeout now =>
    if s.sw.LPA < s.sw.LPR - 1 then
      (checkDatapackTimeout fl now s.sw).map fun (sw, _) => { s with sw := sw }
    else none
  | .data k =>
    (s.message 3 k).bind fun m =>
      (uponReceivingDatapack m.pack s.rev).map fun (rev, acks) =>
        { s with rev := rev, flight := s.flight.eraseIdx k ++ acks.map (Tagged.mk s.revNew) }
  | .ack k =>
    (s.message 4 k).bind fun m =>
      (uponReceiveACK fl m.pack s.sw).map fun (sw, _) =>
        { s with sw := sw, flight := s.flight.eraseIdx k }
  | .lose k => s.flight[k]?.map fun _ => { s with flight := s.flight.eraseIdx k }
  | .duplicate k => s.flight[k]?.map fun m => { s with flight := s.flight ++ [m] }
  | .request => if s.revNew then none else some { s with rev := createRecver hashY, revNew := true }
  | .start => if s.revNew ∧ ¬ s.swNew then some { s with sw := swY, swNew := true } else none

/-- X is about to be sent. -/
def start (swX : Window) (hashX : Hash) : Succession := ⟨swX, createRecver hashX, [], false, false⟩

/-! ## What the transfers must not do -/

/-- DATA of X that reaches the receiver of Y is dropped, and an ACK for X leaves the pointers and
the size of the window of Y as they are. -/
structure KeepsApart (s : Succession) (e : SuccessionEvent) (t : Succession) : Prop where
  data : ∀ k m, e = .data k → s.message 3 k = some m → ¬ m.isNew → s.revNew →
    uponReceivingDatapack m.pack s.rev = some (s.rev, [])
  ack : ∀ k m, e = .ack k → s.message 4 k = some m → ¬ m.isNew → s.swNew →
    t.sw.LPA = s.sw.LPA ∧ t.sw.LPS = s.sw.LPS ∧ t.sw.congwinSize = s.sw.congwinSize

/-- Once Y counts as uploaded, its receiver has stored its packets. -/
def CompleteStored (dataY : List UInt8) (s : Succession) : Prop :=
  s.swNew → s.sw.LPA = s.sw.LPR - 1 →
    ∀ i, 1 ≤ i → i ≤ 512 → s.rev.recvBuf.read i = some (chunkPack dataY i)

/-- An ACK that a window ignores: it is for no packet, or for one before the last acknowledged, or
repeats the last one for less than the fourth time, or when there is nothing to send again. -/
def Harmless (w : Window) (n : Int) : Prop :=
  n = 0 ∨ n < w.LPA ∨ (n = w.LPA ∧
    ((∀ p, w.senderBuf.read n = some p → p.ackedNum + 1 ≤ 3) ∨
      (w.LPS = w.LPA ∧ w.congwinSize = 1)))

/-- What is late comes where it is dropped. -/
structure LateIgnored (s : Succession) (e : SuccessionEvent) (_ : Succession) : Prop where
  data : ∀ k m, e = .data k → s.message 3 k = some m → ¬ m.isNew → s.revNew →
    s.rev.NPE + 30 < toI32 m.pack.seqNum.toNat
  ack : ∀ k m, e = .ack k → s.message 4 k = some m → ¬ m.isNew → s.swNew →
    Harmless s.sw m.pack.ackNum.toNat

/-! ## What every event keeps -/

section
variable {fl : Rounding} {dataX dataY : List UInt8} {hashX hashY : Hash} {swX swY : Window}
  {s t : Succession} {e : SuccessionEvent}

theorem message_eq_some {ty : UInt8} {k : Nat} {m : Tagged} (h : s.message ty k = some m) :
    m ∈ s.flight ∧ m.pack.packetType = ty := by
  obtain ⟨hm, hty⟩ := mem_of_filter_getElem? h
  exact ⟨hm, of_decide_eq_true hty⟩

/-- The chunk a message or a window belongs to. -/
def chunkOf (dataX dataY : List UInt8) (isNew : Bool) : List UInt8 :=
  if isNew then dataY else dataX

/-- Both ends are in order, and DATA in flight is from the chunk of its tag. -/
structure Ends (dataX dataY : List UInt8) (s : Succession) : Prop where
  order : s.swNew → s.revNew
  window : s.sw.Inv
  full : s.sw.LPR = 513
  queued : ∀ i p, s.sw.senderBuf.read i = some p →
    p.core = chunkPack (chunkOf dataX dataY s.swNew) i
  receiver : s.rev.Inv
  data : ∀ m ∈ s.flight, m.pack.packetType = 3 →
    ∃ i, 1 ≤ i ∧ i ≤ 512 ∧ m.pack = chunkPack (chunkOf dataX dataY m.isNew) i

/-- Everything an event can do. -/
inductive Effect (fl : Rounding) (hashY : Hash) (swY : Window) (s : Succession) :
    SuccessionEvent → Succession → Prop
  | sent {time : Nat → Int} {w : Window} {ms : List Packet} : Window.Sent time 0 s.sw w ms →
      (ms.length : Int) = min (s.sw.count.toNat : Int) (s.sw.LPR - 1 - s.sw.LPS) →
      Effect fl hashY swY s (.send time) { s with
        sw := { w with count := 0 }, flight := s.flight ++ ms.map (Tagged.mk s.swNew) }
  | timedOut {now : Int} {w : Window} : Window.Move fl s.sw (.timeout now) w →
      Effect fl hashY swY s (.timeout now) { s with sw := w }
  | dropped {k : Nat} {m : Tagged} : s.message 3 k = some m →
      ¬ s.rev.Accepts (toI32 m.pack.seqNum.toNat) →
      uponReceivingDatapack m.pack s.rev = some (s.rev, []) →
      Effect fl hashY swY s (.data k) { s with flight := s.flight.eraseIdx k }
  | stored {k : Nat} {m : Tagged} {rev : RecvState} : s.message 3 k = some m →
      s.rev.Accepts (toI32 m.pack.seqNum.toNat) →
      s.rev.Received m.pack (toI32 m.pack.seqNum.toNat) rev →
      uponReceivingDatapack m.pack s.rev = some (rev,
        (ackNumbers (toI32 m.pack.seqNum.toNat) s.rev.NPE rev.NPE).map formAckPack) →
      Effect fl hashY swY s (.data k) { s with
        rev := rev
        flight := s.flight.eraseIdx k ++
          ((ackNumbers (toI32 m.pack.seqNum.toNat) s.rev.NPE rev.NPE).map formAckPack).map
            (Tagged.mk s.revNew) }
  | acked {k : Nat} {m : Tagged} {w : Window} : s.message 4 k = some m →
      s.sw.next fl (.ack m.pack) = some w →
      Effect fl hashY swY s (.ack k) { s with sw := w, flight := s.flight.eraseIdx k }
  | lost {k : Nat} : Effect fl hashY swY s (.lose k) { s with flight := s.flight.eraseIdx k }
  | duplicated {k : Nat} {m : Tagged} : m ∈ s.flight →
      Effect fl hashY swY s (.duplicate k) { s with flight := s.flight ++ [m] }
  | requested : ¬ s.revNew →
      Effect fl hashY swY s .request { s with rev := createRecver hashY, revNew := true }
  | started : s.revNew → ¬ s.swNew →
      Effect fl hashY swY s .start { s with sw := swY, swNew := true }

theorem next_effect (hs : Ends dataX dataY s) (h : s.next fl hashY swY e = some t) :
    Effect fl hashY swY s e t := by
  cases e with
  | send time =>
    obtain ⟨w, ms, hrun, hsent, hcnt⟩ := windowSender_spec time hs.window
    rw [next, hrun] at h
    cases h
    exact .sent hsent hcnt
  | timeout now =>
    rw [next] at h
    split at h
    · rw [Option.map_eq_some_iff] at h
      obtain ⟨⟨w, r⟩, hrun, rfl⟩ := h
      exact .timedOut (Window.next_cases hs.window (Window.next_timeout hrun))
    · cases h
  | data k =>
    rw [next, Option.bind_eq_some_iff] at h
    obtain ⟨m, hm, h⟩ := h
    rw [Option.map_eq_some_iff] at h
    obtain ⟨⟨rev, acks⟩, hrun, rfl⟩ := h
    rcases uponReceivingDatapack_spec hs.receiver m.pack rfl with
      ⟨hno, hres⟩ | ⟨hacc, r, hrec, hres⟩
    · rw [hres] at hrun
      cases hrun
      have hsame : s.flight.eraseIdx k ++ ([] : List Packet).map (Tagged.mk s.revNew) =
          s.flight.eraseIdx k := by rw [List.map_nil, List.append_nil]
      show Effect fl hashY swY s (.data k) { s with
        flight := s.flight.eraseIdx k ++ ([] : List Packet).map (Tagged.mk s.revNew) }
      rw [hsame]
      exact .dropped hm hno hres
    · rw [hres] at hrun
      cases hrun
      exact .stored hm hacc hrec hres
  | ack k =>
    rw [next, Option.bind_eq_some_iff] at h
    obtain ⟨m, hm, h⟩ := h
    rw [Option.map_eq_some_iff] at h
    obtain ⟨⟨w, r⟩, hrun, rfl⟩ := h
    exact .acked hm (Window.next_ack hrun)
  | lose k =>
    rw [next, Option.map_eq_some_iff] at h
    obtain ⟨m, -, rfl⟩ := h
    exact .lost
  | duplicate k =>
    rw [next, Option.map_eq_some_iff] at h
    obtain ⟨m, hm, rfl⟩ := h
    exact .duplicated (List.mem_of_getElem? hm)
  | request =>
    rw [next] at h
    split at h
    · cases h
    · rename_i hnot
      cases h
      exact .requested hnot
  | start =>
    rw [next] at h
    split at h
    · rename_i hready
      cases h
      exact .started hready.1 hready.2
    · cases h

theorem Ends.of_move (hs : Ends dataX dataY s) {we : WindowEvent} {w : Window}
    {flight : List Tagged} (hmove : Window.Move fl s.sw we w)
    (hflight : ∀ m ∈ flight, m.pack.packetType = 3 →
      ∃ i, 1 ≤ i ∧ i ≤ 512 ∧ m.pack = chunkPack (chunkOf dataX dataY m.isNew) i) :
    Ends dataX dataY { s with sw := w, flight := flight } := by
  have hdata := hmove.sameData
  exact ⟨hs.order, hmove.inv hs.window, hdata.lpr.trans hs.full,
    fun i p hp => hdata.queued hs.queued hp, hs.receiver, hflight⟩

/-- **Every event keeps both ends in order.** -/
theorem Ends.next (hload : Window.Loaded dataY chunkSize swY) (hs : Ends dataX dataY s)
    (h : s.next fl hashY swY e = some t) : Ends dataX dataY t := by
  have erased : ∀ k, ∀ m ∈ s.flight.eraseIdx k, m.pack.packetType = 3 →
      ∃ i, 1 ≤ i ∧ i ≤ 512 ∧ m.pack = chunkPack (chunkOf dataX dataY m.isNew) i :=
    fun k m hm => hs.data m (List.mem_of_mem_eraseIdx hm)
  cases next_effect hs h with
  | @sent time w ms hsent hcnt =>
    have hmove : Window.Move fl s.sw (.send time) { w with count := 0 } := .sent hsent hcnt
    refine hs.of_move hmove fun m hm hty => ?_
    rcases List.mem_append.mp hm with hold | hnew
    · exact hs.data m hold hty
    · obtain ⟨p, hp, rfl⟩ := List.mem_map.mp hnew
      exact hsent.chunkPacks hs.window hs.full hs.queued hcnt hp
  | timedOut hmove => exact hs.of_move hmove hs.data
  | dropped => exact { hs with data := erased _ }
  | stored _ hacc hrec _ =>
    refine { hs with receiver := hrec.inv hs.receiver hacc, data := fun m hm hty => ?_ }
    rcases List.mem_append.mp hm with hold | hnew
    · exact erased _ m hold hty
    · obtain ⟨p, hp, rfl⟩ := List.mem_map.mp hnew
      obtain ⟨n, -, rfl⟩ := List.mem_map.mp hp
      cases hty
  | acked _ hrun => exact hs.of_move (Window.next_cases hs.window hrun) (erased _)
  | lost => exact { hs with data := erased _ }
  | @duplicated k m hm =>
    refine { hs with data := fun m' hm' => ?_ }
    rcases List.mem_append.mp hm' with hold | hnew
    · exact hs.data m' hold
    · rw [List.mem_singleton] at hnew
      exact hs.data m' (hnew ▸ hm)
  | requested =>
    exact { hs with order := fun _ => rfl, receiver := RecvState.inv_createRecver hashY }
  | started hrev _ =>
    exact { hs with
      order := fun _ => hrev
      window := hload.inv
      full := hload.lpr_chunk
      queued := fun i p hp => hload.queued hp }

/-! ## One late packet -/

theorem ackNumbers_ne_nil {seq npe npe' : Int} (h : seq = npe → npe < npe') :
    ackNumbers seq npe npe' ≠ [] := by
  unfold ackNumbers
  split
  · rename_i heq
    have := h heq
    intro hnil
    rw [List.map_eq_nil_iff, List.range_eq_nil] at hnil
    omega
  · split <;> exact List.cons_ne_nil _ _

/-- **Late DATA** is dropped exactly if it is ahead of the receive window. -/
theorem dropped_iff (hs : Ends dataX dataY s) {k : Nat} {m : Tagged} (hm : s.message 3 k = some m) :
    uponReceivingDatapack m.pack s.rev = some (s.rev, []) ↔
      s.rev.NPE + 30 < toI32 m.pack.seqNum.toNat := by
  obtain ⟨hmem, hty⟩ := message_eq_some hm
  obtain ⟨i, h1, h2, hpack⟩ := hs.data m hmem hty
  have hseq : toI32 m.pack.seqNum.toNat = i := by rw [hpack, chunkPack_seq h1 h2]
  rcases uponReceivingDatapack_spec hs.receiver m.pack hseq with ⟨hno, hres⟩ | ⟨hacc, r, hrec, hres⟩
  · have hahead : s.rev.NPE + 30 < i := by
      by_contra hle
      exact hno ⟨h1, by omega, h2⟩
    rw [hres, hseq]
    exact iff_of_true rfl hahead
  · rw [hres, hseq]
    refine iff_of_false (fun h => ?_) (not_lt.mpr hacc.2.1)
    -- whatever is accepted is acknowledged
    rw [Option.some.injEq, Prod.mk.injEq, List.map_eq_nil_iff] at h
    exact ackNumbers_ne_nil (fun heq => heq ▸ (hrec.advance heq).1) h.2

/-- **A late ACK** changes nothing exactly if it is harmless. -/
theorem harmless_iff {w w' : Window} {pack : Packet} (hw : w.Inv)
    (h : w.next fl (.ack pack) = some w') :
    w'.LPA = w.LPA ∧ w'.LPS = w.LPS ∧ w'.congwinSize = w.congwinSize ↔
      Harmless w pack.ackNum.toNat := by
  cases Window.next_cases hw h with
  | ignored h0 => exact iff_of_true ⟨rfl, rfl, rfl⟩ (.inl (by omega))
  | @acked _ _ _ _ n hn h1 hlt _ _ =>
    obtain ⟨p, w₁, w₂, hp, hc, hack, hrun⟩ := uponReceiveACK_spec fl hw hn h1 hlt
    rw [Window.next, hrun] at h
    cases h
    have hlpa : w₁.LPA = w.LPA := hc.lpa
    have hlps : w₁.LPS = w.LPS := by rw [hc.frame]
    have hcong : w₁.congwinSize = w.congwinSize := by rw [hc.frame]
    rw [hn]
    cases hack with
    | jump hjump =>
      have hle := hw.lpa_le
      refine iff_of_false (fun hsame => ?_) ?_
      · have : n = w.LPA := hsame.1
        omega
      · rintro (h0 | hlow | ⟨heq, -⟩) <;> omega
    | advance hadv hle =>
      refine iff_of_false (fun hsame => ?_) ?_
      · have : n = w.LPA := hsame.1
        omega
      · rintro (h0 | hlow | ⟨heq, -⟩) <;> omega
    | duplicate heq hfew =>
      refine iff_of_true ⟨hlpa, hlps, hcong⟩ (.inr (.inr ⟨by omega, .inl fun q hq => ?_⟩))
      rw [hp, Option.some.injEq] at hq
      rw [← hq]
      exact hfew
    | loss heq hmany hback =>
      rw [hback.frame]
      show w₁.LPA = w.LPA ∧ w₁.LPA = w.LPS ∧ 1 = w.congwinSize ↔ Harmless w n
      constructor
      · rintro ⟨-, hback', hone⟩
        exact .inr (.inr ⟨by omega, .inr ⟨by omega, hone.symm⟩⟩)
      · rintro (h0 | hlow | ⟨-, hfew | ⟨hlps', hone⟩⟩)
        · omega
        · omega
        · have := hfew p hp
          omega
        · exact ⟨hlpa, by omega, hone.symm⟩
    | stale hlow => exact iff_of_true ⟨hlpa, hlps, hcong⟩ (.inr (.inl (by omega)))

theorem next_ack {k : Nat} {m : Tagged} (hs : Ends dataX dataY s)
    (h : s.next fl hashY swY (.ack k) = some t) (hm : s.message 4 k = some m) :
    s.sw.next fl (.ack m.pack) = some t.sw := by
  cases next_effect hs h with
  | acked hm' hrun =>
    rw [hm, Option.some.injEq] at hm'
    rw [hm']
    exact hrun

/-- **One event** keeps the transfers apart exactly if what is late comes where it is dropped. -/
theorem keepsApart_iff (hs : Ends dataX dataY s) (h : s.next fl hashY swY e = some t) :
    KeepsApart s e t ↔ LateIgnored s e t := by
  constructor
  · intro hk
    refine ⟨fun k m he hm hold hnew => ?_, fun k m he hm hold hnew => ?_⟩
    · exact (dropped_iff hs hm).mp (hk.data k m he hm hold hnew)
    · have hsame := hk.ack k m he hm hold hnew
      subst he
      exact (harmless_iff hs.window (next_ack hs h hm)).mp hsame
  · intro hl
    refine ⟨fun k m he hm hold hnew => ?_, fun k m he hm hold hnew => ?_⟩
    · exact (dropped_iff hs hm).mpr (hl.data k m he hm hold hnew)
    · have hharm := hl.ack k m he hm hold hnew
      subst he
      exact (harmless_iff hs.window (next_ack hs h hm)).mpr hharm

/-! ## What follows for the new transfer -/

/-- The transfer of Y by itself: its receiver has packets of Y alone, and its ACKs, those in flight
and those that moved the window, are for packets held. -/
structure Apart (dataY : List UInt8) (s : Succession) : Prop where
  fresh : ∀ m ∈ s.flight, m.isNew → s.revNew
  holds : s.revNew → s.rev.Holds dataY
  clear : s.revNew → ∀ i p, s.rev.recvBuf.read i = some p → p.behind = 0
  acks : ∀ m ∈ s.flight, m.isNew → m.pack.packetType = 4 →
    ∃ n, 0 ≤ n ∧ n < s.rev.NPE ∧ m.pack = formAckPack n
  acked : s.swNew → s.sw.LPA < s.rev.NPE

theorem Apart.of_window (hp : Apart dataY s) {w : Window} {flight : List Tagged}
    (hflight : ∀ m ∈ flight, m ∈ s.flight) (hlpa : s.swNew → w.LPA < s.rev.NPE) :
    Apart dataY { s with sw := w, flight := flight } :=
  ⟨fun m hm => hp.fresh m (hflight m hm), hp.holds, hp.clear,
    fun m hm => hp.acks m (hflight m hm), hlpa⟩

theorem Apart.stored (hs : Ends dataX dataY s) (hp : Apart dataY s) {k : Nat} {m : Tagged}
    {rev : RecvState} (hc : LateIgnored s (.data k) t) (hm : s.message 3 k = some m)
    (hacc : s.rev.Accepts (toI32 m.pack.seqNum.toNat))
    (hrec : s.rev.Received m.pack (toI32 m.pack.seqNum.toNat) rev)
    (hrun : s.rev.next m.pack = some rev) :
    Apart dataY { s with
      rev := rev
      flight := s.flight.eraseIdx k ++
        ((ackNumbers (toI32 m.pack.seqNum.toNat) s.rev.NPE rev.NPE).map formAckPack).map
          (Tagged.mk s.revNew) } := by
  have hmono := hrec.npe_le
  obtain ⟨hmem, hty⟩ := message_eq_some hm
  refine ⟨fun m' hm' hnew => ?_, fun hrev => ?_, fun hrev i p hp' => ?_,
    fun m' hm' hnew hack => ?_, fun hsw => ?_⟩
  · rcases List.mem_append.mp hm' with hold | hsent
    · exact hp.fresh m' (List.mem_of_mem_eraseIdx hold) hnew
    · obtain ⟨p, -, rfl⟩ := List.mem_map.mp hsent
      exact hnew
  · -- a packet of X would have been ahead of the window
    have htag : m.isNew := by
      by_contra hold
      have := hc.data k m rfl hm hold hrev
      have := hacc.2.1
      omega
    obtain ⟨i, h1, h2, hpack⟩ := hs.data m hmem hty
    rw [htag] at hpack
    rw [hpack] at hrun
    exact (hp.holds hrev).next (b := 0) h1 h2 hrun
  · obtain ⟨j, -, -, hpack⟩ := hs.data m hmem hty
    rw [hrec.slots] at hp'
    split at hp'
    · cases hp'
      rw [hpack]
      rfl
    · exact hp.clear hrev i p hp'
  · rcases List.mem_append.mp hm' with hold | hsent
    · obtain ⟨n, h0, hn, heq⟩ := hp.acks m' (List.mem_of_mem_eraseIdx hold) hnew hack
      exact ⟨n, h0, lt_of_lt_of_le hn hmono, heq⟩
    · obtain ⟨p, hp', rfl⟩ := List.mem_map.mp hsent
      obtain ⟨n, hn, rfl⟩ := List.mem_map.mp hp'
      obtain ⟨h0, hlt⟩ := ackNumbers_held hacc.1 hs.receiver.npe_pos hmono hn
      exact ⟨n, h0, hlt, rfl⟩
  · exact lt_of_lt_of_le (hp.acked hsw) hmono

theorem Apart.sent (hs : Ends dataX dataY s) (hp : Apart dataY s) {time : Nat → Int} {w : Window}
    {ms : List Packet} (hsent : Window.Sent time 0 s.sw w ms)
    (hcnt : (ms.length : Int) = min (s.sw.count.toNat : Int) (s.sw.LPR - 1 - s.sw.LPS)) :
    Apart dataY { s with
      sw := { w with count := 0 }, flight := s.flight ++ ms.map (Tagged.mk s.swNew) } := by
  have hlpa : w.LPA = s.sw.LPA := by rw [hsent.frame]
  refine ⟨fun m hm hnew => ?_, hp.holds, hp.clear, fun m hm hnew hack => ?_, fun hsw => ?_⟩
  · rcases List.mem_append.mp hm with hold | hnewest
    · exact hp.fresh m hold hnew
    · obtain ⟨p, -, rfl⟩ := List.mem_map.mp hnewest
      exact hs.order hnew
  · rcases List.mem_append.mp hm with hold | hnewest
    · exact hp.acks m hold hnew hack
    · obtain ⟨p, hp', rfl⟩ := List.mem_map.mp hnewest
      obtain ⟨i, -, -, rfl⟩ := hsent.chunkPacks hs.window hs.full hs.queued hcnt hp'
      rw [chunkPack_type] at hack
      exact absurd hack (by decide)
  · show w.LPA < s.rev.NPE
    rw [hlpa]
    exact hp.acked hsw

theorem Apart.lpa_lt (hs : Ends dataX dataY s) (hp : Apart dataY s) {k : Nat} {m : Tagged}
    {w : Window} (hc : LateIgnored s (.ack k) t) (hm : s.message 4 k = some m)
    (hrun : s.sw.next fl (.ack m.pack) = some w) (hsw : s.swNew) : w.LPA < s.rev.NPE := by
  by_cases htag : m.isNew
  · obtain ⟨hmem, hty⟩ := message_eq_some hm
    obtain ⟨n, h0, hn, heq⟩ := hp.acks m hmem htag hty
    have hle := hs.receiver.npe_le
    have hnum : (m.pack.ackNum.toNat : Int) = n := by
      rw [heq]
      exact formAckPack_ackNum h0 (by omega)
    rcases (Window.next_cases hs.window hrun).lpa with ⟨pack, hev, hlpa⟩ | hlpa
    · cases hev
      omega
    · rw [hlpa]
      exact hp.acked hsw
  · have hsame := (harmless_iff hs.window hrun).mpr (hc.ack k m rfl hm htag hsw)
    rw [hsame.1]
    exact hp.acked hsw

/-- **What is late stays out of the new transfer**, one event. -/
theorem Apart.next (hload : Window.Loaded dataY chunkSize swY) (hs : Ends dataX dataY s)
    (hp : Apart dataY s) (h : s.next fl hashY swY e = some t) (hc : LateIgnored s e t) :
    Apart dataY t := by
  have erased : ∀ k, ∀ m ∈ s.flight.eraseIdx k, m ∈ s.flight :=
    fun k m hm => List.mem_of_mem_eraseIdx hm
  cases next_effect hs h with
  | sent hsent hcnt => exact hp.sent hs hsent hcnt
  | timedOut hmove =>
    refine hp.of_window (fun m hm => hm) fun hsw => ?_
    rcases hmove.lpa with ⟨pack, heq, -⟩ | hlpa
    · cases heq
    · rw [hlpa]
      exact hp.acked hsw
  | dropped => exact hp.of_window (erased _) hp.acked
  | stored hm hacc hrec hres =>
    refine hp.stored hs hc hm hacc hrec ?_
    rw [RecvState.next, hres]
    rfl
  | acked hm hrun => exact hp.of_window (erased _) fun hsw => hp.lpa_lt hs hc hm hrun hsw
  | lost => exact hp.of_window (erased _) hp.acked
  | @duplicated k m hm =>
    refine hp.of_window (fun m' hm' => ?_) hp.acked
    rcases List.mem_append.mp hm' with hold | hnew
    · exact hold
    · rw [List.mem_singleton] at hnew
      exact hnew ▸ hm
  | requested hnot =>
    refine ⟨fun _ _ _ => rfl, fun _ => .createRecver dataY hashY, fun _ i p hp' => ?_,
      fun m hm hnew => ?_, fun hsw => ?_⟩
    · simp [createRecver] at hp'
    · exact absurd (hp.fresh m hm hnew) hnot
    · exact absurd (hs.order hsw) hnot
  | started hrev _ =>
    refine ⟨hp.fresh, hp.holds, hp.clear, hp.acks, fun _ => ?_⟩
    have hpos := hs.receiver.npe_pos
    show swY.LPA < s.rev.NPE
    rw [hload.fresh.1]
    omega

theorem Apart.completeStored (hs : Ends dataX dataY s) (hp : Apart dataY s) :
    CompleteStored dataY s := by
  intro hsw hdone i h1 h2
  have hlpa := hp.acked hsw
  have hfull := hs.full
  obtain ⟨b, hb⟩ := (hp.holds (hs.order hsw)).slot h1 (by omega)
  have hclear : b = 0 := hp.clear (hs.order hsw) i _ hb
  rw [hb, hclear]
  rfl

theorem ends_start (hload : Window.Loaded dataX chunkSize swX) (hashX : Hash) :
    Ends dataX dataY (start swX hashX) :=
  ⟨nofun, hload.inv, hload.lpr_chunk, fun _ _ hp => hload.queued hp,
    RecvState.inv_createRecver hashX, fun _ hm => absurd hm List.not_mem_nil⟩

theorem apart_start (hashX : Hash) : Apart dataY (start swX hashX) :=
  ⟨fun _ hm => absurd hm List.not_mem_nil, nofun, nofun,
    fun _ hm => absurd hm List.not_mem_nil, nofun⟩

/-! ## A transfer by itself -/

/-- The transfer of one of the chunks, with what is late before its own messages. -/
def ofTransfer (isNew : Bool) (late : List Tagged) (t : Transfer) : Succession :=
  ⟨t.sw, t.rev, late ++ t.flight.map (Tagged.mk isNew), isNew, isNew⟩

/-- An event of a transfer that has `n` messages before its own. -/
def ofLink (n : Nat) : LinkEvent → SuccessionEvent
  | .send time => .send time
  | .timeout now => .timeout now
  | .data k => .data (n + k)
  | .ack k => .ack (n + k)
  | .lose k => .lose (n + k)
  | .duplicate k => .duplicate (n + k)

variable {isNew : Bool} {late : List Tagged} {t t' : Transfer}

theorem getElem?_ofTransfer (k : Nat) : (ofTransfer isNew late t).flight[late.length + k]? =
    t.flight[k]?.map (Tagged.mk isNew) := by
  rw [ofTransfer, List.getElem?_append_right (Nat.le_add_right _ _), Nat.add_sub_cancel_left,
    List.getElem?_map]

theorem eraseIdx_ofTransfer (k : Nat) : (ofTransfer isNew late t).flight.eraseIdx
    (late.length + k) = late ++ (t.flight.eraseIdx k).map (Tagged.mk isNew) := by
  rw [ofTransfer, List.eraseIdx_append_of_length_le (Nat.le_add_right _ _),
    Nat.add_sub_cancel_left, List.eraseIdx_map]

theorem message_ofTransfer (ty : UInt8) (k : Nat) :
    (ofTransfer isNew late t).message ty (late.length + k) =
      (t.message ty k).map (Tagged.mk isNew) := by
  rw [message, getElem?_ofTransfer, Transfer.message, Option.filter_map]
  rfl

theorem next_ofTransfer {e : LinkEvent} (h : t.next fl e = some t') :
    (ofTransfer isNew late t).next fl hashY swY (ofLink late.length e) =
      some (ofTransfer isNew late t') := by
  cases e with
  | send time =>
    rw [Transfer.next, Option.map_eq_some_iff] at h
    obtain ⟨⟨sw, ms, r⟩, hrun, rfl⟩ := h
    simp [ofLink, next, ofTransfer, hrun]
  | timeout now =>
    rw [Transfer.next] at h
    split at h
    · rename_i hopen
      rw [Option.map_eq_some_iff] at h
      obtain ⟨⟨sw, r⟩, hrun, rfl⟩ := h
      simp [ofLink, next, ofTransfer, hrun, hopen]
    · cases h
  | data k =>
    rw [Transfer.next, Option.bind_eq_some_iff] at h
    obtain ⟨m, hm, h⟩ := h
    rw [Option.map_eq_some_iff] at h
    obtain ⟨⟨rev, acks⟩, hrun, rfl⟩ := h
    have hrun' : uponReceivingDatapack (Tagged.mk isNew m).pack (ofTransfer isNew late t).rev =
        some (rev, acks) := hrun
    rw [ofLink, next, message_ofTransfer, hm, Option.map_some, Option.bind_some, hrun',
      Option.map_some, eraseIdx_ofTransfer]
    simp only [ofTransfer, List.map_append, List.append_assoc]
  | ack k =>
    rw [Transfer.next, Option.bind_eq_some_iff] at h
    obtain ⟨m, hm, h⟩ := h
    rw [Option.map_eq_some_iff] at h
    obtain ⟨⟨sw, r⟩, hrun, rfl⟩ := h
    have hrun' : uponReceiveACK fl (Tagged.mk isNew m).pack (ofTransfer isNew late t).sw =
        some (sw, r) := hrun
    rw [ofLink, next, message_ofTransfer, hm, Option.map_some, Option.bind_some, hrun',
      Option.map_some, eraseIdx_ofTransfer]
    rfl
  | lose k =>
    rw [Transfer.next, Option.map_eq_some_iff] at h
    obtain ⟨m, hm, rfl⟩ := h
    rw [ofLink, next, getElem?_ofTransfer, hm, eraseIdx_ofTransfer]
    rfl
  | duplicate k =>
    rw [Transfer.next, Option.map_eq_some_iff] at h
    obtain ⟨m, hm, rfl⟩ := h
    rw [ofLink, next, getElem?_ofTransfer, hm]
    simp [ofTransfer]

theorem lateIgnored_ofTransfer (e : LinkEvent) (s : Succession) :
    LateIgnored (ofTransfer isNew late t) (ofLink late.length e) s := by
  have htag : ∀ ty k m, (ofTransfer isNew late t).message ty (late.length + k) = some m →
      m.isNew = isNew := by
    intro ty k m hm
    rw [message_ofTransfer, Option.map_eq_some_iff] at hm
    obtain ⟨p, -, rfl⟩ := hm
    rfl
  constructor
  · intro k m he hm hold hnew
    cases e <;> cases he
    exact absurd ((htag 3 _ m hm).trans hnew) hold
  · intro k m he hm hold hnew
    cases e <;> cases he
    exact absurd ((htag 4 _ m hm).trans hnew) hold

theorem exec_ofTransfer (isNew : Bool) (late : List Tagged) {es : List LinkEvent}
    (h : exec (Transfer.next fl) t es = some t') :
    exec (next fl hashY swY) (ofTransfer isNew late t) (es.map (ofLink late.length)) =
      some (ofTransfer isNew late t') :=
  exec_map (ofTransfer isNew late) (ofLink late.length) (fun _ _ _ h => next_ofTransfer h) h

theorem each_ofTransfer (isNew : Bool) (late : List Tagged) {es : List LinkEvent}
    (h : exec (Transfer.next fl) t es = some t') :
    EachStep (next fl hashY swY) LateIgnored (ofTransfer isNew late t)
      (es.map (ofLink late.length)) :=
  each_map (ofTransfer isNew late) (ofLink late.length) (fun _ _ _ h => next_ofTransfer h)
    (fun _ e s => lateIgnored_ofTransfer e s) h

theorem exec_asked :
    exec (next fl hashY swY) (ofTransfer false [] t) [.request, .start] =
      some (ofTransfer true (t.flight.map (Tagged.mk false)) (Transfer.start swY hashY)) := by
  simp [exec, next, ofTransfer, Transfer.start]

theorem message_late {ty : UInt8} {k : Nat} {m : Tagged} (hk : late[k]? = some m)
    (hty : m.pack.packetType = ty) : (ofTransfer isNew late t).message ty k = some m := by
  have hlt : k < late.length := (List.getElem?_eq_some_iff.mp hk).1
  rw [message, ofTransfer, List.getElem?_append_left hlt, hk]
  exact Option.filter_eq_some_iff.mpr ⟨rfl, decide_eq_true hty⟩

theorem next_late (fl : Rounding) (hashY : Hash) (swY : Window) {k : Nat} {i : Int}
    (hk : late[k]? = some ⟨false, chunkPack dataX i⟩) (h31 : 31 < i) (h512 : i ≤ 512) :
    (ofTransfer true late (Transfer.start swY hashY)).next fl hashY swY (.data k) =
        some (ofTransfer true (late.eraseIdx k) (Transfer.start swY hashY)) ∧
      ∀ s, LateIgnored (ofTransfer true late (Transfer.start swY hashY)) (.data k) s := by
  have hmsg : (ofTransfer true late (Transfer.start swY hashY)).message 3 k =
      some ⟨false, chunkPack dataX i⟩ := message_late hk chunkPack_type
  have hseq : toI32 (chunkPack dataX i).seqNum.toNat = i := chunkPack_seq (by omega) h512
  constructor
  · obtain ⟨-, hres⟩ | ⟨hacc, -⟩ := uponReceivingDatapack_spec
      (RecvState.inv_createRecver hashY) (chunkPack dataX i) hseq
    · have hlt : k < late.length := (List.getElem?_eq_some_iff.mp hk).1
      rw [next, hmsg, Option.bind_some]
      show (uponReceivingDatapack (chunkPack dataX i) (createRecver hashY)).map _ = _
      rw [hres]
      simp [ofTransfer, Transfer.start]
    · have hahead : i ≤ (createRecver hashY).NPE + 30 := hacc.2.1
      simp only [createRecver] at hahead
      omega
  · intro s
    constructor
    · intro k' m he hm hold hnew
      cases he
      rw [hmsg, Option.some.injEq] at hm
      rw [← hm, hseq]
      show (1 : Int) + 30 < i
      omega
    · intro k' m he
      cases he

end

end Succession

/-- **Two transfers in a row** do not interfere exactly in the runs in which all that is late comes
where it is dropped. -/
theorem successive_transfers_iff {fl : Rounding} {dataX dataY : List UInt8} {swX swY : Window}
    (hX : Window.Loaded dataX chunkSize swX) (hY : Window.Loaded dataY chunkSize swY)
    (hashX hashY : Hash) (es : List SuccessionEvent) :
    Always (Succession.next fl hashY swY) (Succession.CompleteStored dataY)
          (Succession.start swX hashX) es ∧
        EachStep (Succession.next fl hashY swY) Succession.KeepsApart
          (Succession.start swX hashX) es ↔
      EachStep (Succession.next fl hashY swY) Succession.LateIgnored
        (Succession.start swX hashX) es := by
  have hends : Succession.Ends dataX dataY (Succession.start swX hashX) :=
    Succession.ends_start hX hashX
  have hsteps : EachStep (Succession.next fl hashY swY) Succession.KeepsApart
        (Succession.start swX hashX) es ↔
      EachStep (Succession.next fl hashY swY) Succession.LateIgnored
        (Succession.start swX hashX) es :=
    each_iff (fun _ _ _ hs h => Succession.Ends.next hY hs h)
      (fun _ _ _ hs h => Succession.keepsApart_iff hs h) hends
  constructor
  · intro h
    exact hsteps.mp h.2
  · intro hlate
    refine ⟨?_, hsteps.mpr hlate⟩
    have hrun : Always (Succession.next fl hashY swY)
          (fun s => Succession.Ends dataX dataY s ∧ Succession.Apart dataY s)
          (Succession.start swX hashX) es ∧
        EachStep (Succession.next fl hashY swY) Succession.LateIgnored
          (Succession.start swX hashX) es :=
      always_of_each
        (fun _ _ _ hs h hc => ⟨⟨hs.1.next hY h, hs.2.next hY hs.1 h hc⟩, hc⟩)
        ⟨hends, Succession.apart_start hashX⟩ hlate
    exact hrun.1.imp fun _ hs => hs.2.completeStored hs.1

/-- A chunk of zeros and a chunk of ones are transferred one after the other. Packet 40 of the first
one is late, and comes when the second has just been asked for. -/
theorem successive_transfers_apart :
    ∃ swX swY es₁ s₁ k s₂ es₂ s₃, Window.Loaded (List.replicate chunkSize 0) chunkSize swX ∧
      Window.Loaded (List.replicate chunkSize 1) chunkSize swY ∧
      exec (Succession.next .single (Vector.replicate hashSize 1) swY)
        (Succession.start swX (Vector.replicate hashSize 0)) es₁ = some s₁ ∧
      s₁.sw.LPA = 512 ∧ s₁.rev.NPE = 513 ∧
      s₁.flight[k]? = some ⟨false, chunkPack (List.replicate chunkSize 0) 40⟩ ∧
      exec (Succession.next .single (Vector.replicate hashSize 1) swY) s₁
        [.request, .start, .data k] = some s₂ ∧
      s₂.rev = createRecver (Vector.replicate hashSize 1) ∧
      exec (Succession.next .single (Vector.replicate hashSize 1) swY) s₂ es₂ = some s₃ ∧
      s₃.sw.LPA = 512 ∧ s₃.rev.NPE = 513 ∧
      Always (Succession.next .single (Vector.replicate hashSize 1) swY)
        (Succession.CompleteStored (List.replicate chunkSize 1))
        (Succession.start swX (Vector.replicate hashSize 0))
        (es₁ ++ ([.request, .start] ++ (.data k :: es₂))) ∧
      EachStep (Succession.next .single (Vector.replicate hashSize 1) swY) Succession.KeepsApart
        (Succession.start swX (Vector.replicate hashSize 0))
        (es₁ ++ ([.request, .start] ++ (.data k :: es₂))) := by
  obtain ⟨swX, hX⟩ := Window.exists_loaded (List.replicate chunkSize 0) chunkSize
    (by rw [List.length_replicate])
  obtain ⟨swY, hY⟩ := Window.exists_loaded (List.replicate chunkSize 1) chunkSize
    (by rw [List.length_replicate])
  obtain ⟨es₁, t₁, hrun₁, hlpa₁, hnpe₁, hall⟩ :=
    Transfer.exists_transferred .single hX (Vector.replicate hashSize 0)
  obtain ⟨es₂, t₂, hrun₂, hlpa₂, hnpe₂, -⟩ :=
    Transfer.exists_transferred .single hY (Vector.replicate hashSize 1)
  obtain ⟨k, hk⟩ := List.mem_iff_getElem?.mp (hall 40 (by omega) (by omega))
  -- the runs of both transfers, and what is late between them
  let late := t₁.flight.map (Tagged.mk false)
  have hlate : late[k]? = some ⟨false, chunkPack (List.replicate chunkSize 0) 40⟩ := by
    rw [List.getElem?_map, hk]
    rfl
  have hX₁ : exec (Succession.next .single (Vector.replicate hashSize 1) swY)
      (Succession.start swX (Vector.replicate hashSize 0)) (es₁.map (Succession.ofLink 0)) =
        some (Succession.ofTransfer false [] t₁) :=
    Succession.exec_ofTransfer false [] hrun₁
  have hasked : exec (Succession.next .single (Vector.replicate hashSize 1) swY)
      (Succession.ofTransfer false [] t₁) [.request, .start] =
        some (Succession.ofTransfer true late (Transfer.start swY _)) := Succession.exec_asked
  obtain ⟨hdata, hignored⟩ := Succession.next_late .single (Vector.replicate hashSize 1) swY hlate
    (by omega) (by omega)
  have hY₂ : exec (Succession.next .single (Vector.replicate hashSize 1) swY)
      (Succession.ofTransfer true (late.eraseIdx k) (Transfer.start swY _))
      (es₂.map (Succession.ofLink (late.eraseIdx k).length)) =
        some (Succession.ofTransfer true (late.eraseIdx k) t₂) :=
    Succession.exec_ofTransfer true _ hrun₂
  have hignoredall : EachStep (Succession.next .single (Vector.replicate hashSize 1) swY)
      Succession.LateIgnored (Succession.start swX (Vector.replicate hashSize 0))
      (es₁.map (Succession.ofLink 0) ++ ([.request, .start] ++
        (.data k :: es₂.map (Succession.ofLink (late.eraseIdx k).length)))) := by
    refine (each_append hX₁).mpr ⟨Succession.each_ofTransfer false [] hrun₁, ?_⟩
    refine (each_append hasked).mpr ⟨?_, ?_⟩
    · exact fun s _ => ⟨⟨nofun, nofun⟩, fun s' _ => ⟨⟨nofun, nofun⟩, trivial⟩⟩
    · exact (each_step hdata).mpr ⟨hignored _, Succession.each_ofTransfer true _ hrun₂⟩
  obtain ⟨halways, hsteps⟩ := (successive_transfers_iff hX hY _ _ _).mpr hignoredall
  exact ⟨swX, swY, _, _, k, _, _, _, hX, hY, hX₁, hlpa₁, hnpe₁, hlate, exec_snoc hasked hdata, rfl,
    hY₂, hlpa₂, hnpe₂, halways, hsteps⟩

/-- X has been transferred completely and Y has been asked for when a duplicate of the first packet
of X comes: it becomes the first packet of Y. -/
theorem late_packet_stored :
    ∃ swX swY es k s s', Window.Loaded (List.replicate chunkSize 0) chunkSize swX ∧
      Window.Loaded (List.replicate chunkSize 1) chunkSize swY ∧
      exec (Succession.next .single (Vector.replicate hashSize 1) swY)
        (Succession.start swX (Vector.replicate hashSize 0)) es = some s ∧
      s.sw.LPA = 512 ∧ s.rev.NPE = 513 ∧
      exec (Succession.next .single (Vector.replicate hashSize 1) swY) s
        [.request, .start, .data k] = some s' ∧
      s'.rev.recvBuf.read 1 = some (chunkPack (List.replicate chunkSize 0) 1) ∧
      ¬ EachStep (Succession.next .single (Vector.replicate hashSize 1) swY) Succession.KeepsApart
        (Succession.start swX (Vector.replicate hashSize 0))
        (es ++ [.request, .start, .data k]) := by
  obtain ⟨swX, hX⟩ := Window.exists_loaded (List.replicate chunkSize 0) chunkSize
    (by rw [List.length_replicate])
  obtain ⟨swY, hY⟩ := Window.exists_loaded (List.replicate chunkSize 1) chunkSize
    (by rw [List.length_replicate])
  obtain ⟨es, t, hrun, hlpa, hnpe, hall⟩ :=
    Transfer.exists_transferred .single hX (Vector.replicate hashSize 0)
  obtain ⟨k, hk⟩ := List.mem_iff_getElem?.mp (hall 1 (by omega) (by omega))
  have hlift : exec (Succession.next .single (Vector.replicate hashSize 1) swY)
      (Succession.start swX (Vector.replicate hashSize 0)) (es.map (Succession.ofLink 0)) =
        some (Succession.ofTransfer false [] t) :=
    Succession.exec_ofTransfer false [] hrun
  have hasked : exec (Succession.next .single (Vector.replicate hashSize 1) swY)
      (Succession.ofTransfer false [] t) [.request, .start] = some (Succession.ofTransfer true
        (t.flight.map (Tagged.mk false)) (Transfer.start swY _)) := Succession.exec_asked
  have hmsg : (Succession.ofTransfer true (t.flight.map (Tagged.mk false))
      (Transfer.start swY (Vector.replicate hashSize 1))).message 3 k =
        some ⟨false, chunkPack (List.replicate chunkSize 0) 1⟩ := by
    refine Succession.message_late ?_ chunkPack_type
    rw [List.getElem?_map, hk]
    rfl
  -- the packet is accepted, and therefore stored
  obtain ⟨hno, -⟩ | ⟨hacc, rev, hrec, hres⟩ := uponReceivingDatapack_spec
    (RecvState.inv_createRecver (Vector.replicate hashSize 1))
    (chunkPack (List.replicate chunkSize 0) 1) (chunkPack_seq (le_refl 1) (by omega))
  · exact absurd ⟨le_refl 1, by simp [createRecver], by omega⟩ hno
  have hstored : rev.recvBuf.read 1 = some (chunkPack (List.replicate chunkSize 0) 1) := by
    rw [hrec.slots, if_pos rfl]
  have hres' : uponReceivingDatapack
      (Tagged.mk false (chunkPack (List.replicate chunkSize 0) 1)).pack
      (Succession.ofTransfer true (t.flight.map (Tagged.mk false))
        (Transfer.start swY (Vector.replicate hashSize 1))).rev = some (rev, _) := hres
  obtain ⟨s', hdata, hrev⟩ : ∃ s', (Succession.ofTransfer true (t.flight.map (Tagged.mk false))
      (Transfer.start swY (Vector.replicate hashSize 1))).next .single
        (Vector.replicate hashSize 1) swY (.data k) = some s' ∧ s'.rev = rev := by
    rw [Succession.next, hmsg, Option.bind_some, hres']
    exact ⟨_, rfl, rfl⟩
  refine ⟨swX, swY, _, k, _, s', hX, hY, hlift, hlpa, hnpe, exec_snoc hasked hdata,
    by rw [hrev, hstored], fun hkeep => ?_⟩
  rw [show es.map (Succession.ofLink 0) ++ [.request, .start, .data k] =
    es.map (Succession.ofLink 0) ++ [.request, .start] ++ .data k :: [] by simp] at hkeep
  have hdrop := (hkeep.of_exec (exec_trans hlift hasked) hdata).data k _ rfl hmsg
    Bool.false_ne_true rfl
  have hsame : rev = createRecver (Vector.replicate hashSize 1) := by
    have h := hres.symm.trans hdrop
    rw [Option.some.injEq, Prod.mk.injEq] at h
    exact h.1
  rw [hsame] at hstored
  simp [createRecver] at hstored

end P2P
