import P2P.Transfer.Link

/-!
# A transfer can be completed

The network may lose and delay as it likes, but it may also deliver. Once the first packet
has been acknowledged, or while it has not been sent, some delivery moves the window on,
and a transfer can always be brought to its end.

* `Transfer.exists_advance`: from any state of the two ends, one packet further;
* `Transfer.exists_completed`: to the end of the chunk. Duplicates of its packets can still
  be on their way then, which is what the next transfer has to reckon with.

Whether or not it comes to its end, `transfer_safe` is what holds for every run.
-/

namespace P2P

open Lib

namespace Transfer

variable {fl : Rounding} {data : List UInt8} {s s' : Transfer}

/-- Some run goes from `s` to `s'`, and no message gets lost on it. -/
structure Leads (fl : Rounding) (data : List UInt8) (s s' : Transfer) : Prop where
  run : ∃ es, exec (next fl) s es = some s'
  inv : s'.Inv data
  live : s'.sw.Live
  flight : ∀ m ∈ s.flight, m ∈ s'.flight

theorem Leads.refl (hs : s.Inv data) (hl : s.sw.Live) : Leads fl data s s :=
  ⟨⟨[], rfl⟩, hs, hl, fun _ hm => hm⟩

theorem Leads.trans {s'' : Transfer} (h : Leads fl data s s') (h' : Leads fl data s' s'') :
    Leads fl data s s'' := by
  obtain ⟨es, hrun⟩ := h.run
  obtain ⟨es', hrun'⟩ := h'.run
  exact ⟨⟨es ++ es', exec_trans hrun hrun'⟩, h'.inv, h'.live,
    fun m hm => h'.flight m (h.flight m hm)⟩

theorem mem_ackNumbers {seq npe npe' : Int} (hle : seq ≤ npe) (h : seq = npe → npe < npe') :
    seq ∈ ackNumbers seq npe npe' := by
  unfold ackNumbers
  split
  · rename_i heq
    have hlt := h heq
    exact List.mem_map.mpr ⟨0, List.mem_range.mpr (by omega), by omega⟩
  · rw [if_neg (by omega)]
    exact List.mem_singleton_self seq

theorem exists_delivered (fl : Rounding) (hs : s.Inv data) (hl : s.sw.Live) {i : Int}
    (h1 : 1 ≤ i) (h2 : i ≤ 512) (hle : i ≤ s.rev.NPE) (hm : chunkPack data i ∈ s.flight) :
    ∃ s', Leads fl data s s' ∧ s'.sw = s.sw ∧ formAckPack i ∈ s'.flight := by
  obtain ⟨k, hk⟩ := List.mem_iff_getElem?.mp hm
  have hlen : k < s.flight.length := (List.getElem?_eq_some_iff.mp hk).1
  obtain ⟨s₁, h₁, hsw₁, hrev₁, hfl₁⟩ : ∃ s₁, s.next fl (.duplicate k) = some s₁ ∧ s₁.sw = s.sw ∧
      s₁.rev = s.rev ∧ s₁.flight = s.flight ++ [chunkPack data i] := by
    rw [Transfer.next, hk]
    exact ⟨_, rfl, rfl, rfl, rfl⟩
  have hmsg : s₁.message 3 k = some (chunkPack data i) := by
    rw [Transfer.message, hfl₁, List.getElem?_append_left hlen, hk]
    rfl
  obtain ⟨hno, -⟩ | ⟨-, rev, hrec, hres⟩ :=
    uponReceivingDatapack_spec hs.receiver (chunkPack data i) (chunkPack_seq h1 h2)
  · exact absurd ⟨h1, by omega, h2⟩ hno
  rw [← hrev₁] at hres
  obtain ⟨s₂, h₂, hsw₂, hfl₂⟩ : ∃ s₂, s₁.next fl (.data k) = some s₂ ∧ s₂.sw = s₁.sw ∧
      s₂.flight = s₁.flight.eraseIdx k ++
        (ackNumbers i s₁.rev.NPE rev.NPE).map formAckPack := by
    rw [Transfer.next, hmsg, Option.bind_some, hres]
    exact ⟨_, rfl, rfl, rfl⟩
  have hsw : s₂.sw = s.sw := hsw₂.trans hsw₁
  refine ⟨s₂, ⟨⟨[.duplicate k, .data k], ?_⟩, (hs.next h₁).next h₂, hsw ▸ hl, fun m hm => ?_⟩,
    hsw, ?_⟩
  · rw [exec_step h₁, exec_step h₂, exec_nil]
  · rw [hfl₂, hfl₁]
    exact List.mem_append_left _ (mem_eraseIdx_append hk hm)
  · rw [hfl₂, hrev₁]
    exact List.mem_append_right _
      (List.mem_map_of_mem (mem_ackNumbers hle fun heq => heq ▸ (hrec.advance heq).1))

theorem exists_acked (fl : Rounding) (hs : s.Inv data) (hl : s.sw.Live) {n : Int}
    (hlt : s.sw.LPA < n) (hle : n ≤ s.sw.LPS) (hm : formAckPack n ∈ s.flight) :
    ∃ s', Leads fl data s s' ∧ s'.sw.LPA = n := by
  obtain ⟨k, hk⟩ := List.mem_iff_getElem?.mp hm
  have hlen : k < s.flight.length := (List.getElem?_eq_some_iff.mp hk).1
  obtain ⟨s₁, h₁, hsw₁, hfl₁⟩ : ∃ s₁, s.next fl (.duplicate k) = some s₁ ∧ s₁.sw = s.sw ∧
      s₁.flight = s.flight ++ [formAckPack n] := by
    rw [Transfer.next, hk]
    exact ⟨_, rfl, rfl, rfl⟩
  have hmsg : s₁.message 4 k = some (formAckPack n) := by
    rw [Transfer.message, hfl₁, List.getElem?_append_left hlen, hk]
    rfl
  obtain ⟨w', _, hres, hlpa, -, -⟩ := Window.exists_acked fl hs.window hlt hle
  have hnext : s.sw.next fl (.ack (formAckPack n)) = some w' := Window.next_ack hres
  have hpos : (WindowEvent.ack (formAckPack n)).ClockPositive := trivial
  have hlive := (Window.next_cases hs.window hnext).live hs.window hl hpos
  rw [← hsw₁] at hres
  obtain ⟨s₂, h₂, hsw₂, hfl₂⟩ : ∃ s₂, s₁.next fl (.ack k) = some s₂ ∧ s₂.sw = w' ∧
      s₂.flight = s₁.flight.eraseIdx k := by
    rw [Transfer.next, hmsg, Option.bind_some, hres]
    exact ⟨_, rfl, rfl, rfl⟩
  refine ⟨s₂, ⟨⟨[.duplicate k, .ack k], ?_⟩, (hs.next h₁).next h₂, hsw₂ ▸ hlive, fun m hm => ?_⟩,
    hsw₂ ▸ hlpa⟩
  · rw [exec_step h₁, exec_step h₂, exec_nil]
  · rw [hfl₂, hfl₁]
    exact mem_eraseIdx_append hk hm

theorem exists_timedOut (fl : Rounding) (hs : s.Inv data) (hl : s.sw.Live) (h1 : 1 ≤ s.sw.LPA)
    (hlt : s.sw.LPA < s.sw.LPS) :
    ∃ now s', s.next fl (.timeout now) = some s' ∧ Leads fl data s s' ∧
      s'.sw.LPA = s.sw.LPA ∧ s'.sw.LPS = s.sw.LPA := by
  have hlps := hs.window.lps_lt
  obtain ⟨now, w, hres, hback⟩ := Window.exists_wentBack fl hs.window hl h1 hlt
  have hmove : Window.Move fl s.sw (.timeout now) w := .wentBack (by omega) hback
  have hnext : s.next fl (.timeout now) = some { s with sw := w } := by
    rw [Transfer.next, if_pos (by omega), hres]
    rfl
  have hpos : (WindowEvent.timeout now).ClockPositive := trivial
  refine ⟨now, _, hnext, ⟨⟨[.timeout now], exec_step hnext []⟩, hs.next hnext,
    hmove.live hs.window hl hpos, fun _ hm => hm⟩, ?_, ?_⟩
  · show w.LPA = s.sw.LPA
    rw [hback.frame]
  · show w.LPS = s.sw.LPA
    rw [hback.frame]

theorem exists_idle (fl : Rounding) (hs : s.Inv data) (hl : s.sw.Live) (hopen : s.sw.LPA < 512)
    (hfirst : 1 ≤ s.sw.LPA ∨ s.sw.LPS = 0) :
    ∃ s', Leads fl data s s' ∧ s'.sw.LPA = s.sw.LPA ∧ s'.sw.LPS = s.sw.LPA := by
  have h0 := hs.window.lpa_nonneg
  have hle := hs.window.lpa_le
  by_cases heq : s.sw.LPA = s.sw.LPS
  · exact ⟨s, .refl hs hl, rfl, heq.symm⟩
  obtain ⟨now, s', -, hlead, hlpa, hlps⟩ := exists_timedOut fl hs hl (by omega) (by omega)
  exact ⟨s', hlead, hlpa, hlps⟩

theorem exists_sent (fl : Rounding) (hs : s.Inv data) (hl : s.sw.Live) (hopen : s.sw.LPA < 512)
    (hidle : s.sw.LPS = s.sw.LPA) :
    ∃ s', Leads fl data s s' ∧ s'.sw.LPA = s.sw.LPA ∧ s.sw.LPA < s'.sw.LPS ∧
      chunkPack data (s.sw.LPA + 1) ∈ s'.flight := by
  have hfull := hs.full
  have h0 := hs.window.lpa_nonneg
  have hready := hl.ready hidle.symm (by omega)
  obtain ⟨w, ms, hrun, hsent, hcnt⟩ := windowSender_spec (fun _ => 1) hs.window
  obtain ⟨p, hp, hget⟩ := hsent.msgs 0 (by omega)
  have hfirst : ms[0]? = some (chunkPack data (s.sw.LPA + 1)) := by
    rw [hidle, Int.natCast_zero, add_zero] at hp
    rw [hget, chunkPack_onWire (by omega) (by omega) (hs.queued _ p hp)]
  have hmove : Window.Move fl s.sw (.send fun _ => 1) { w with count := 0 } := .sent hsent hcnt
  have hnext : s.next fl (.send fun _ => 1) =
      some { s with sw := { w with count := 0 }, flight := s.flight ++ ms } := by
    rw [Transfer.next, hrun]
    rfl
  have hpos : (WindowEvent.send fun _ => 1).ClockPositive := fun _ => Int.one_pos
  refine ⟨_, ⟨⟨[.send fun _ => 1], by rw [exec_step hnext, exec_nil]⟩, hs.next hnext,
    hmove.live hs.window hl hpos, fun m hm => List.mem_append_left _ hm⟩, ?_, ?_, ?_⟩
  · show w.LPA = s.sw.LPA
    rw [hsent.frame]
  · show s.sw.LPA < w.LPS
    rw [hsent.lps]
    omega
  · exact List.mem_append_right _ (List.mem_of_getElem? hfirst)

theorem exists_advance (fl : Rounding) (hs : s.Inv data) (hl : s.sw.Live)
    (hopen : s.sw.LPA < 512) (hfirst : 1 ≤ s.sw.LPA ∨ s.sw.LPS = 0) :
    ∃ s', Leads fl data s s' ∧ s'.sw.LPA = s.sw.LPA + 1 ∧
      chunkPack data (s.sw.LPA + 1) ∈ s'.flight := by
  have h0 := hs.window.lpa_nonneg
  obtain ⟨s₁, h₁, hlpa₁, hlps₁⟩ := exists_idle fl hs hl hopen hfirst
  obtain ⟨s₂, h₂, hlpa₂, hlps₂, hsent⟩ :=
    exists_sent fl h₁.inv h₁.live (by omega) (hlps₁.trans hlpa₁.symm)
  rw [hlpa₁] at hlpa₂ hlps₂ hsent
  have hacked := h₂.inv.acked
  obtain ⟨s₃, h₃, hsw₃, hack⟩ :=
    exists_delivered fl h₂.inv h₂.live (by omega) (by omega) (by omega) hsent
  obtain ⟨s₄, h₄, hlpa₄⟩ :=
    exists_acked fl h₃.inv h₃.live (by rw [hsw₃]; omega) (by rw [hsw₃]; omega) hack
  exact ⟨s₄, h₁.trans (h₂.trans (h₃.trans h₄)), hlpa₄, h₄.flight _ (h₃.flight _ hsent)⟩

/-- **Every transfer can be completed**, and duplicates of all packets it has sent on the way can
still be in flight then. -/
theorem exists_completed (fl : Rounding) (hs : s.Inv data) (hl : s.sw.Live)
    (hfirst : 1 ≤ s.sw.LPA ∨ s.sw.LPS = 0) :
    ∃ s', Leads fl data s s' ∧ s'.sw.LPA = 512 ∧
      ∀ i, s.sw.LPA < i → i ≤ 512 → chunkPack data i ∈ s'.flight := by
  have hfull := hs.full
  have hle := hs.window.lpa_le
  have hlt := hs.window.lps_lt
  obtain ⟨n, hn⟩ : ∃ n : Nat, s.sw.LPA + n = 512 := ⟨(512 - s.sw.LPA).toNat, by omega⟩
  clear hfull hle hlt
  induction n generalizing s with
  | zero => exact ⟨s, .refl hs hl, by omega, fun i h1 h2 => by omega⟩
  | succ n ih =>
    have h0 := hs.window.lpa_nonneg
    obtain ⟨s₁, h₁, hlpa₁, hnew⟩ := exists_advance fl hs hl (by omega) hfirst
    obtain ⟨s₂, h₂, hlpa₂, hall⟩ := ih h₁.inv h₁.live (.inl (by omega)) (by omega)
    refine ⟨s₂, h₁.trans h₂, hlpa₂, fun i hi1 hi2 => ?_⟩
    by_cases hi : i = s.sw.LPA + 1
    · rw [hi]
      exact h₂.flight _ hnew
    · exact hall i (by omega) hi2

theorem exists_transferred {w : Window} (fl : Rounding) (hload : Window.Loaded data chunkSize w)
    (hash : Hash) : ∃ es s, exec (next fl) (start w hash) es = some s ∧ s.sw.LPA = 512 ∧
      s.rev.NPE = 513 ∧ ∀ i, 1 ≤ i → i ≤ 512 → chunkPack data i ∈ s.flight := by
  obtain ⟨hlpa₀, hlps₀, -⟩ := hload.fresh
  have hstart : (start w hash).sw.LPA = 0 := hlpa₀
  obtain ⟨s, hlead, hlpa, hall⟩ :=
    exists_completed fl (inv_start hload hash) hload.live (.inr hlps₀)
  obtain ⟨es, hrun⟩ := hlead.run
  have hle := hlead.inv.receiver.npe_le
  have hacked := hlead.inv.acked
  exact ⟨es, s, hrun, hlpa, by omega, fun i h1 h2 => hall i (by omega) h2⟩

end Transfer

/-- **Single-transfer safety.** Whatever is sent, timed out, delivered, lost, duplicated and
reordered, the two ends of the transfer of a chunk agree. -/
theorem transfer_safe {fl : Rounding} {data : List UInt8} (hlen : data.length = chunkSize)
    {w : Window} (hload : Window.Loaded data chunkSize w) {hash : Hash} {es : List LinkEvent}
    {s : Transfer} (hrun : exec (Transfer.next fl) (Transfer.start w hash) es = some s) :
    s.Safe data :=
  (Transfer.exec_inv hload hrun).safe hlen

/-- A chunk of zeros: the first packet is acknowledged, the next one is given up by the timer, and
then the transfer goes on to its end, with copies of everything sent behind the first packet still
in flight. -/
theorem transfer_safe_completed :
    ∃ w es₁ s₁ now s₂ es₃ s₃, Window.Loaded (List.replicate chunkSize 0) chunkSize w ∧
      exec (Transfer.next .single) (Transfer.start w (Vector.replicate hashSize 0)) es₁ = some s₁ ∧
      s₁.sw.LPA = 1 ∧ 1 < s₁.sw.LPS ∧
      s₁.next .single (.timeout now) = some s₂ ∧ s₂.sw.LPS = 1 ∧
      exec (Transfer.next .single) s₂ es₃ = some s₃ ∧ s₃.sw.LPA = 512 ∧
      (∀ i, 1 < i → i ≤ 512 → chunkPack (List.replicate chunkSize 0) i ∈ s₃.flight) ∧
      s₃.Safe (List.replicate chunkSize 0) := by
  have hlen : (List.replicate chunkSize (0 : UInt8)).length = chunkSize := List.length_replicate
  obtain ⟨w, hload⟩ := Window.exists_loaded (List.replicate chunkSize 0) chunkSize (by rw [hlen])
  have hs₀ := Transfer.inv_start hload (Vector.replicate hashSize 0)
  obtain ⟨hlpa₀, hlps₀, -⟩ := hload.fresh
  have hlpa₀' : (Transfer.start w (Vector.replicate hashSize 0)).sw.LPA = 0 := hlpa₀
  obtain ⟨t₁, h₁, hlpa₁, -⟩ := Transfer.exists_advance .single hs₀ hload.live
    (by omega) (.inr hlps₀)
  obtain ⟨t₂, h₂, hlpa₂, hlps₂⟩ := Transfer.exists_idle .single h₁.inv h₁.live (by omega)
    (.inl (by omega))
  obtain ⟨t₃, h₃, hlpa₃, hlps₃, -⟩ := Transfer.exists_sent .single h₂.inv h₂.live (by omega)
    (hlps₂.trans hlpa₂.symm)
  obtain ⟨now, t₄, htimer, h₄, hlpa₄, hlps₄⟩ :=
    Transfer.exists_timedOut .single h₃.inv h₃.live (by omega) (by omega)
  obtain ⟨t₅, h₅, hlpa₅, hall⟩ :=
    Transfer.exists_completed .single h₄.inv h₄.live (.inl (by omega))
  obtain ⟨es₁, hrun₁⟩ := (h₁.trans (h₂.trans h₃)).run
  obtain ⟨es₅, hrun₅⟩ := h₅.run
  have hrun := exec_trans (exec_snoc hrun₁ htimer) hrun₅
  refine ⟨w, es₁, t₃, now, t₄, es₅, t₅, hload, hrun₁, by omega, by omega, htimer, by omega, hrun₅,
    hlpa₅, fun i h1 h2 => hall i (by omega) h2, transfer_safe hlen hload hrun⟩

end P2P
