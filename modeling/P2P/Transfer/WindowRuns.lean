import P2P.Lib.Runs
import P2P.Transfer.WindowSpec

/-!
# Runs of one sender window

The window of one upload is moved by `window_sender`, `check_datapack_timeout`
and `upon_receive_ACK`, in any order. `Window.next` is one such call; it is
`none` where the call has no defined behaviour. `Window.next_cases` says once
what a call can do (`Window.Move`), and every invariant is read off from that.

* `ack_safe_iff`: an ACK from the network leaves the window consistent exactly
  when it does not name a packet beyond `LPR - 1`;
* `progresses_iff`: a window that still has packets to be acknowledged can go on
  by itself exactly when it is not waiting for the ACK of its first packet.
-/

namespace P2P

open Lib

/-- One call on the window. -/
inductive WindowEvent
  | send (time : Nat → Int)
  | timeout (now : Int)
  | ack (pack : Packet)

/-- The clock of a `window_sender` call is past the epoch. -/
def WindowEvent.ClockPositive : WindowEvent → Prop
  | .send time => ∀ i, 0 < time i
  | _ => True

/-- `w` holds the packets of `data[0..len)`, as `create_SW` and `p2p_sender` leave it. -/
def Window.Loaded (data : List UInt8) (len : Nat) (w : Window) : Prop :=
  len ≤ data.length ∧ ∃ hash dst r, p2pSender data (createSW hash dst) len = some (w, r)

theorem Window.exists_loaded (data : List UInt8) (len : Nat) (h : len ≤ data.length) :
    ∃ w, Window.Loaded data len w := by
  obtain ⟨w, r, m, hrun, -⟩ := p2pSender_spec
    (createSW (Vector.replicate hashSize 0) ⟨0, 0⟩) h (by simp [createSW]) (by simp [createSW])
  exact ⟨w, h, _, _, r, hrun⟩

namespace Window

variable {fl : Rounding} {data : List UInt8} {len : Nat} {w w₁ w' : Window} {n ackedNum : Int}

theorem Loaded.added (h : Window.Loaded data len w) :
    ∃ hash dst r m, Window.Added data len 0 (createSW hash dst) w r m := by
  obtain ⟨hlen, hash, dst, r, hrun⟩ := h
  obtain ⟨w', r', m, hrun', hadd⟩ := p2pSender_spec (createSW hash dst) hlen
    (by simp [createSW]) (by simp [createSW])
  rw [hrun, Option.some.injEq, Prod.mk.injEq] at hrun'
  obtain ⟨rfl, rfl⟩ := hrun'
  exact ⟨hash, dst, r, m, hadd⟩

theorem Loaded.inv (h : Window.Loaded data len w) : w.Inv := by
  obtain ⟨hash, dst, r, m, hadd⟩ := h.added
  exact hadd.inv h.1

theorem Loaded.fresh (h : Window.Loaded data len w) : w.LPA = 0 ∧ w.LPS = 0 ∧ w.count = 1 := by
  obtain ⟨hash, dst, r, m, hadd⟩ := h.added
  rw [hadd.frame]
  exact ⟨rfl, rfl, rfl⟩

theorem Loaded.lpr_chunk (h : Window.Loaded data chunkSize w) : w.LPR = 513 := by
  have hcs : chunkSize = 524288 := rfl
  obtain ⟨hash, dst, r, m, hadd⟩ := h.added
  have hfr : w.LPR = 1 + m := by rw [hadd.frame]; rfl
  have hroom : 1 + (m : Int) ≤ 513 := hadd.room
  have hfull : 1 + (m : Int) = 513 ∨ r = chunkSize := hadd.full
  have hbytes : r = min chunkSize (1024 * m) := by
    rw [hadd.bytes, Nat.zero_add]
    rfl
  omega

/-! ## One call -/

variable (fl) in
def next (w : Window) : WindowEvent → Option Window
  | .send time => (windowSender time w).map (·.1)
  | .timeout now => (checkDatapackTimeout fl now w).map (·.1)
  | .ack pack => (uponReceiveACK fl pack w).map (·.1)

theorem next_send {time : Nat → Int} {ms : List Packet} {r : Nat}
    (h : windowSender time w = some (w', ms, r)) : w.next fl (.send time) = some w' := by
  rw [next, h]
  rfl

theorem next_timeout {now r : Int} (h : checkDatapackTimeout fl now w = some (w', r)) :
    w.next fl (.timeout now) = some w' := by
  rw [next, h]
  rfl

theorem next_ack {pack : Packet} {r : Int} (h : uponReceiveACK fl pack w = some (w', r)) :
    w.next fl (.ack pack) = some w' := by
  rw [next, h]
  rfl

/-- Everything a call can do to the window. -/
inductive Move (fl : Rounding) (w : Window) : WindowEvent → Window → Prop
  | sent {time : Nat → Int} {w' : Window} {ms : List Packet} : Window.Sent time 0 w w' ms →
      (ms.length : Int) = min (w.count.toNat : Int) (w.LPR - 1 - w.LPS) →
      Move fl w (.send time) { w' with count := 0 }
  | checked {now : Int} : Move fl w (.timeout now) w
  | wentBack {now : Int} {w' : Window} : 1 ≤ w.LPA → Window.WentBack fl w w' →
      Move fl w (.timeout now) w'
  | ignored {pack : Packet} : pack.ackNum.toNat = 0 → Move fl w (.ack pack) w
  | acked {pack : Packet} {p : Packet} {w₁ w' : Window} {n : Int} :
      (pack.ackNum.toNat : Int) = n → 1 ≤ n → n < w.LPR → Window.Counted n w w₁ →
      Window.Acked fl n w₁ (p.ackedNum + 1) w' → Move fl w (.ack pack) w'

/-- The timer follows slot `LPA + 1`: there are packets to be acknowledged. -/
theorem open_of_timeout (hw : w.Inv) {now : Int} (h : w.next fl (.timeout now) = some w') :
    w.LPA < w.LPR - 1 := by
  cases hp : w.senderBuf.read (w.LPA + 1) with
  | none => simp [next, checkDatapackTimeout, hp] at h
  | some p =>
    have := (hw.vacant _ p hp).2
    omega

theorem next_cases (hw : w.Inv) {e : WindowEvent} (h : w.next fl e = some w') :
    Move fl w e w' := by
  cases e with
  | send time =>
    obtain ⟨w₁, ms, hrun, hsent, hcnt⟩ := windowSender_spec time hw
    rw [next, hrun] at h
    cases h
    exact .sent hsent hcnt
  | timeout now =>
    have hlt := open_of_timeout hw h
    rw [next, Option.map_eq_some_iff] at h
    obtain ⟨⟨_, r⟩, hrun, rfl⟩ := h
    obtain ⟨p, -, ⟨-, h1, -, -, w₁, hres, hback⟩ | ⟨-, hres⟩⟩ :=
      checkDatapackTimeout_spec fl now hw hlt
    · rw [hrun] at hres
      cases hres
      exact .wentBack h1 hback
    · rw [hrun] at hres
      cases hres
      exact .checked
  | ack pack =>
    rw [next, Option.map_eq_some_iff] at h
    obtain ⟨⟨_, r⟩, hrun, rfl⟩ := h
    by_cases h0 : pack.ackNum.toNat = 0
    · rw [uponReceiveACK_zero h0] at hrun
      cases hrun
      exact .ignored h0
    · by_cases hbig : w.LPR ≤ pack.ackNum.toNat
      · rw [uponReceiveACK_beyond hw hbig] at hrun
        cases hrun
      · obtain ⟨p, w₁, w', -, hc, hack, hres⟩ :=
          uponReceiveACK_spec fl hw (n := pack.ackNum.toNat) rfl (by omega) (by omega)
        rw [hrun] at hres
        cases hres
        exact .acked rfl (by omega) (by omega) hc hack

/-- **No reaction to an ACK changes the data.** -/
theorem Acked.sameData (h : Window.Acked fl n w ackedNum w') : Window.SameData w w' := by
  cases h with
  | jump => exact ⟨rfl, rfl, rfl, fun _ => rfl⟩
  | advance => exact ⟨rfl, rfl, rfl, fun _ => rfl⟩
  | duplicate => exact ⟨rfl, rfl, rfl, fun _ => rfl⟩
  | loss _ _ hback => exact hback.sameData
  | stale => exact .refl w

theorem Acked.pointers (hw : w.Inv) (hn : n < w.LPR) (h : Window.Acked fl n w ackedNum w') :
    w.LPA ≤ w'.LPA ∧ w'.LPA ≤ w'.LPS ∧ w'.LPS < w'.LPR := by
  have hle := hw.lpa_le
  have hlt := hw.lps_lt
  cases h with
  | jump => simp only [recount]; omega
  | advance => simp only [recount]; omega
  | duplicate => simp only [recount]; omega
  | loss _ _ hback => rw [hback.frame]; simp only; omega
  | stale => omega

theorem Move.sameData {e : WindowEvent} (h : Move fl w e w') : Window.SameData w w' := by
  cases h with
  | sent hsent => exact hsent.sameData.trans ⟨rfl, rfl, rfl, fun _ => rfl⟩
  | checked => exact .refl w
  | wentBack _ hback => exact hback.sameData
  | ignored => exact .refl w
  | acked _ _ _ hc hack => exact hc.sameData.trans hack.sameData

theorem Move.pointers {e : WindowEvent} (hw : w.Inv) (h : Move fl w e w') :
    w.LPA ≤ w'.LPA ∧ w'.LPA ≤ w'.LPS ∧ w'.LPS < w'.LPR := by
  have hle := hw.lpa_le
  have hlt := hw.lps_lt
  cases h with
  | sent hsent hcnt => rw [hsent.frame]; simp only; omega
  | checked => omega
  | wentBack _ hback => rw [hback.frame]; simp only; omega
  | ignored => omega
  | acked _ _ hn hc hack =>
    have := hack.pointers (hc.inv hw) (by rw [hc.sameData.lpr]; exact hn)
    rw [hc.frame] at this
    exact this

theorem Acked.lpa (h : Window.Acked fl n w ackedNum w') : w'.LPA = n ∨ w'.LPA = w.LPA := by
  cases h with
  | jump => exact .inl rfl
  | advance => exact .inl rfl
  | duplicate => exact .inr rfl
  | loss _ _ hback => exact .inr (by rw [hback.frame])
  | stale => exact .inr rfl

theorem Move.lpa {e : WindowEvent} (h : Move fl w e w') :
    (∃ pack, e = .ack pack ∧ w'.LPA = pack.ackNum.toNat) ∨ w'.LPA = w.LPA := by
  cases h with
  | sent hsent => exact .inr (by rw [hsent.frame])
  | checked => exact .inr rfl
  | wentBack _ hback => exact .inr (by rw [hback.frame])
  | ignored => exact .inr rfl
  | acked hn _ _ hc hack =>
    rcases hack.lpa with hlpa | hlpa
    · exact .inl ⟨_, rfl, hlpa.trans hn.symm⟩
    · exact .inr (hlpa.trans hc.lpa)

/-- **Every call keeps the window invariant.** -/
theorem Move.inv {e : WindowEvent} (hw : w.Inv) (h : Move fl w e w') : w'.Inv := by
  obtain ⟨h0, h1, h2⟩ := h.pointers hw
  exact hw.of_sameData h.sameData (hw.lpa_nonneg.trans h0) h1 h2

theorem next_inv {e : WindowEvent} (hw : w.Inv) (h : w.next fl e = some w') : w'.Inv :=
  (next_cases hw h).inv hw

/-! ## Whole runs -/

/-- `w` is reached from a loaded window by calls in any order. -/
def Reachable (fl : Rounding) (w : Window) : Prop :=
  ∃ data len w₀ es, Window.Loaded data len w₀ ∧ exec (next fl) w₀ es = some w

theorem exec_inv {es : List WindowEvent} (hw : w.Inv) (h : exec (next fl) w es = some w') :
    w'.Inv :=
  exec_invariant Inv (fun _ _ _ hs hstep => next_inv hs hstep) hw h

theorem Reachable.inv (h : Reachable fl w) : w.Inv := by
  obtain ⟨data, len, w₀, es, hload, hrun⟩ := h
  exact exec_inv hload.inv hrun

end Window

/-! ## ACKs from the network -/

/-- `upon_receive_ACK` only follows pointers to packets of the window, keeps the pointers in order,
does not lower `LPA`, and ignores the numbers that are not in `1 .. LPR - 1`. -/
def Window.AckSafe (fl : Rounding) (w : Window) (ack : Packet) : Prop :=
  ∃ w' r, uponReceiveACK fl ack w = some (w', r) ∧
    0 ≤ w'.LPA ∧ w'.LPA ≤ w'.LPS ∧ w'.LPS ≤ w'.LPR - 1 ∧ w.LPA ≤ w'.LPA ∧
    (ack.ackNum.toNat = 0 ∨ w.LPR - 1 < ack.ackNum.toNat → w' = w)

/-- **ACKs of packets in the window are safe, and no others.** -/
theorem ack_safe_iff {fl : Rounding} {w : Window} (hreach : w.Reachable fl) (ack : Packet) :
    w.AckSafe fl ack ↔ (ack.ackNum.toNat : Int) ≤ w.LPR - 1 := by
  have hw := hreach.inv
  constructor
  · rintro ⟨w', r, hrun, -⟩
    by_contra hbig
    rw [uponReceiveACK_beyond hw (by omega)] at hrun
    cases hrun
  · intro hle
    by_cases h0 : ack.ackNum.toNat = 0
    · have hlt := hw.lps_lt
      exact ⟨w, _, uponReceiveACK_zero h0, hw.lpa_nonneg, hw.lpa_le, by omega, le_refl _,
        fun _ => rfl⟩
    · obtain ⟨p, w₁, w', -, hc, hack, hres⟩ :=
        uponReceiveACK_spec fl hw (n := ack.ackNum.toNat) rfl (by omega) (by omega)
      have hmove : Window.Move fl w (.ack ack) w' := .acked rfl (by omega) (by omega) hc hack
      obtain ⟨hmono, hle', hlt'⟩ := hmove.pointers hw
      exact ⟨w', _, hres, (hmove.inv hw).lpa_nonneg, hle', by omega, hmono, by omega⟩

/-- An ACK of packet 1 of a full window. -/
theorem ack_safe_of_full_window :
    ∃ w : Window, w.Reachable .single ∧ w.AckSafe .single (formAckPack 1) := by
  obtain ⟨w, hload⟩ := Window.exists_loaded (List.replicate chunkSize 0) chunkSize
    (by rw [List.length_replicate])
  have hreach : w.Reachable .single := ⟨_, _, w, [], hload, rfl⟩
  refine ⟨w, hreach, (ack_safe_iff hreach (formAckPack 1)).mpr ?_⟩
  rw [hload.lpr_chunk]
  decide

/-- In a full window slot 513 is empty: an ACK with that number is not safe. -/
theorem ack_beyond_window_unsafe :
    ∃ w, Window.Loaded (List.replicate chunkSize 0) chunkSize w ∧
      uponReceiveACK .single (formAckPack 513) w = none ∧
      ¬ w.AckSafe .single (formAckPack 513) := by
  obtain ⟨w, hload⟩ := Window.exists_loaded (List.replicate chunkSize 0) chunkSize
    (by rw [List.length_replicate])
  have hnone : uponReceiveACK .single (formAckPack 513) w = none := by
    apply uponReceiveACK_beyond hload.inv
    rw [hload.lpr_chunk]
    decide
  refine ⟨w, hload, hnone, ?_⟩
  rintro ⟨w', r, hrun, -⟩
  rw [hnone] at hrun
  cases hrun

/-! ## Progress without the network -/

/-- While packets are to be acknowledged, `window_sender` sends a packet at once, or it sends the
packet after `LPA` again as soon as `check_datapack_timeout` finds it overdue. -/
def Window.Progresses (fl : Rounding) (w : Window) : Prop :=
  w.LPA < w.LPR - 1 →
    (w.LPS < w.LPR - 1 ∧ 1 ≤ w.count) ∨
    (w.LPA < w.LPS ∧ ∃ p, w.senderBuf.read (w.LPA + 1) = some p ∧
      ∀ now, timeoutSec < now - p.timestamp →
        ∃ w', checkDatapackTimeout fl now w = some (w', 1) ∧ w'.LPS = w'.LPA ∧ 1 ≤ w'.count ∧
          ∀ time, ∃ w'' ms k, windowSender time w' = some (w'', p.onWire :: ms, k))

namespace Window

variable {fl : Rounding} {w w₁ w' : Window} {e : WindowEvent} {n ackedNum : Int}

/-- What keeps a window from getting stuck. -/
structure Live (w : Window) : Prop where
  /-- The window never closes. -/
  congwin : 1 ≤ w.congwinSize
  /-- With nothing in flight a packet may be sent. -/
  ready : w.LPA = w.LPS → w.LPA < w.LPR - 1 → 1 ≤ w.count
  /-- Until the first ACK only one packet is sent. -/
  first : w.LPA = 0 → w.LPS = 0 ∨ w.count = 0
  /-- A packet in flight has been stamped. -/
  stamped : ∀ j p, w.LPA < j → j ≤ w.LPS → w.senderBuf.read j = some p → 0 < p.timestamp

theorem one_le_grow (h : 1 ≤ w.congwinSize) (hn : 0 ≤ n) : 1 ≤ w.grow fl n := by
  have hn' : 0 ≤ fl.rnd (n : Rat) := fl.nonneg (by exact_mod_cast hn)
  unfold grow
  split
  · have hinv : 0 ≤ fl.rnd (1 / w.congwinSize) := fl.nonneg (by positivity)
    have hprod := fl.nonneg (mul_nonneg hinv hn')
    simp only
    split
    · norm_num
    · exact fl.one_le (by linarith)
  · exact fl.one_le (by linarith)

theorem one_le_room (h : 1 ≤ w.congwinSize) (heq : w.LPS = w.LPA) : 1 ≤ w.room fl := by
  rw [room_of_eq heq]
  exact one_le_truncToInt (fl.one_le h)

theorem Loaded.live {data : List UInt8} {len : Nat} (h : Window.Loaded data len w) : w.Live := by
  obtain ⟨hash, dst, r, m, hadd⟩ := h.added
  have hfr := hadd.frame
  simp only [createSW] at hfr
  refine ⟨?_, fun _ _ => ?_, fun _ => ?_, fun j p hj1 hj2 => ?_⟩
  · rw [hfr]
  · rw [hfr]
  · rw [hfr]
    exact .inl rfl
  · rw [hfr] at hj1 hj2
    simp only at hj1 hj2
    omega

theorem Counted.live (h : Window.Counted n w w₁) (hl : w.Live) : w₁.Live := by
  have hfr := h.frame
  refine ⟨?_, ?_, ?_, fun j p hj1 hj2 hp => ?_⟩
  · rw [hfr]; exact hl.congwin
  · rw [hfr]; exact hl.ready
  · rw [hfr]; exact hl.first
  · obtain ⟨q, hq, rfl⟩ := h.slot.read_some hp
    rw [hfr] at hj1 hj2
    have := hl.stamped j q hj1 hj2 hq
    split <;> exact this

theorem WentBack.live (h1 : 1 ≤ w.LPA) (h : Window.WentBack fl w w') : w'.Live := by
  have hfr := h.frame
  refine ⟨?_, fun _ _ => ?_, fun h0 => ?_, fun j p hj1 hj2 _ => ?_⟩
  · rw [hfr]
  · rw [hfr]
  · rw [hfr] at h0
    simp only at h0
    omega
  · rw [hfr] at hj1 hj2
    simp only at hj1 hj2
    omega

theorem Acked.live (hw : w.Inv) (hl : w.Live) (h1 : 1 ≤ n)
    (h : Window.Acked fl n w ackedNum w') : w'.Live := by
  have hcw := hl.congwin
  have h0 := hw.lpa_nonneg
  cases h with
  | jump hn =>
    have hcw' : 1 ≤ fl.rnd (w.congwinSize + 1) := fl.one_le (by linarith)
    refine ⟨hcw', fun _ _ => one_le_room hcw' rfl, fun hn0 => ?_, fun j p hj1 hj2 _ => ?_⟩
    · simp only [recount] at hn0
      omega
    · simp only [recount] at hj1 hj2
      omega
  | advance hn hle =>
    have hcw' : 1 ≤ w.grow fl (n - w.LPA) := one_le_grow hcw (by omega)
    refine ⟨hcw', fun heq _ => one_le_room hcw' heq.symm, fun hn0 => ?_, fun j p hj1 hj2 hp => ?_⟩
    · simp only [recount] at hn0
      omega
    · exact hl.stamped j p (hn.trans hj1) hj2 hp
  | duplicate heq =>
    refine ⟨hcw, fun heq _ => one_le_room hcw heq.symm, fun hn0 => ?_, hl.stamped⟩
    simp only [recount] at hn0
    omega
  | loss heq _ hback => exact hback.live (by omega)
  | stale hlt => exact hl

theorem Sent.live {time : Nat → Int} {ms : List Packet} (hw : w.Inv) (hl : w.Live)
    (htime : ∀ i, 0 < time i) (h : Window.Sent time 0 w w' ms)
    (hcnt : (ms.length : Int) = min (w.count.toNat : Int) (w.LPR - 1 - w.LPS)) :
    Live { w' with count := 0 } := by
  have hle := hw.lpa_le
  have hfr := h.frame
  refine ⟨?_, fun heq hlt => ?_, fun _ => .inr rfl, fun j p hj1 hj2 hp => ?_⟩
  · rw [hfr]
    exact hl.congwin
  · rw [hfr] at heq hlt
    simp only at heq hlt
    -- nothing was in flight and nothing was sent, although `count` allowed a packet
    have := hl.ready (by omega) (by omega)
    omega
  · obtain ⟨q, hq, rfl⟩ := h.slot.read_some hp
    rw [hfr] at hj1 hj2
    simp only at hj1 hj2
    split
    · exact htime _
    · exact hl.stamped j q hj1 (by omega) hq

theorem Move.live (hw : w.Inv) (hl : w.Live) (hpos : e.ClockPositive) (h : Move fl w e w') :
    w'.Live := by
  cases h with
  | sent hsent hcnt => exact hsent.live hw hl hpos hcnt
  | checked => exact hl
  | wentBack h1 hback => exact hback.live h1
  | ignored => exact hl
  | acked _ h1 _ hc hack => exact hack.live (hc.inv hw) (hc.live hl) h1

theorem exec_live {es : List WindowEvent} (hw : w.Inv) (hl : w.Live)
    (hpos : ∀ e ∈ es, e.ClockPositive) (h : exec (next fl) w es = some w') : w'.Inv ∧ w'.Live := by
  refine exec_invariant_of WindowEvent.ClockPositive (fun w => w.Inv ∧ w.Live) ?_ hpos ⟨hw, hl⟩ h
  rintro s e t he ⟨hs, hsl⟩ hstep
  have hmove := next_cases hs hstep
  exact ⟨hmove.inv hs, hmove.live hs hsl he⟩

theorem exists_sent (fl : Rounding) (hw : w.Inv) (time : Nat → Int) : ∃ w',
    w.next fl (.send time) = some w' ∧ w'.LPA = w.LPA ∧
      w'.LPS = w.LPS + min (w.count.toNat : Int) (w.LPR - 1 - w.LPS) ∧ w'.LPR = w.LPR := by
  obtain ⟨w', ms, hrun, hsent, hcnt⟩ := windowSender_spec time hw
  have hlps := hsent.lps
  refine ⟨_, next_send hrun, ?_, ?_, ?_⟩
  · rw [hsent.frame]
  · simp only
    omega
  · rw [hsent.frame]

theorem exists_acked (fl : Rounding) (hw : w.Inv) (hlt : w.LPA < n) (hle : n ≤ w.LPS) :
    ∃ w' r, uponReceiveACK fl (formAckPack n) w = some (w', r) ∧ w'.LPA = n ∧
      w'.LPS = w.LPS ∧ w'.LPR = w.LPR := by
  have h0 := hw.lpa_nonneg
  have hlps := hw.lps_lt
  have hlpr := hw.lpr_le
  have hnum : ((formAckPack n).ackNum.toNat : Int) = n := formAckPack_ackNum (by omega) (by omega)
  obtain ⟨p, w₁, w', -, hcount, hack, hres⟩ :=
    uponReceiveACK_spec fl hw hnum (by omega) (by omega)
  have hlpa₁ := hcount.lpa
  have hlps₁ : w₁.LPS = w.LPS := by rw [hcount.frame]
  have hlpr₁ : w₁.LPR = w.LPR := by rw [hcount.frame]
  refine ⟨w', _, hres, ?_⟩
  cases hack with
  | advance => exact ⟨rfl, hlps₁, hlpr₁⟩
  | jump => omega
  | duplicate => omega
  | loss => omega
  | stale => omega

theorem exists_wentBack (fl : Rounding) (hw : w.Inv) (hl : w.Live) (h1 : 1 ≤ w.LPA)
    (hlt : w.LPA < w.LPS) :
    ∃ now w', checkDatapackTimeout fl now w = some (w', 1) ∧ Window.WentBack fl w w' := by
  have hlps := hw.lps_lt
  have hto : timeoutSec = 2 := rfl
  obtain ⟨p, hp, -⟩ := hw.filled (w.LPA + 1) (by omega) (by omega)
  have hstamp := hl.stamped _ p (by omega) (by omega) hp
  obtain ⟨q, hq, ⟨-, -, -, -, w', hres, hback⟩ | ⟨hno, -⟩⟩ :=
    checkDatapackTimeout_spec fl (p.timestamp + 3) hw (by omega)
  · exact ⟨_, w', hres, hback⟩
  · rw [hp, Option.some.injEq] at hq
    subst hq
    exact absurd ⟨hstamp, by omega, by omega, by omega⟩ hno

theorem WentBack.resends (hw : w.Inv) (hlt : w.LPA < w.LPR - 1) (h : Window.WentBack fl w w')
    {p : Packet} (hp : w.senderBuf.read (w.LPA + 1) = some p) (time : Nat → Int) :
    ∃ w'' ms k, windowSender time w' = some (w'', p.onWire :: ms, k) := by
  have hfr := h.frame
  have hw' : w'.Inv := by
    have h0 := hw.lpa_nonneg
    refine hw.of_sameData h.sameData ?_ ?_ ?_ <;> rw [hfr] <;> simp only <;> omega
  obtain ⟨w'', ms, hrun, hsent, hcnt⟩ := windowSender_spec time hw'
  have hlps : w'.LPS = w.LPA := by rw [hfr]
  have hlpr : w'.LPR = w.LPR := by rw [hfr]
  have hcount : w'.count = 1 := by rw [hfr]
  have hpos : 0 < ms.length := by omega
  obtain ⟨q, hq, hget⟩ := hsent.msgs 0 hpos
  rw [hlps, Int.natCast_zero, add_zero] at hq
  obtain ⟨q', hq', hcore⟩ := h.sameData.read hq
  rw [hp, Option.some.injEq] at hq'
  subst hq'
  cases ms with
  | nil => cases hpos
  | cons m ms =>
    rw [List.getElem?_cons_zero, Option.some.injEq] at hget
    have hon : p.onWire = m := by rw [hget, ← q.onWire_core, hcore, p.onWire_core]
    rw [hon]
    exact ⟨_, ms, _, hrun⟩

end Window

/-- **A window progresses exactly when it is not waiting for the ACK of its first packet**: either
some packet is acknowledged, or none is in flight. -/
theorem progresses_iff {fl : Rounding} {data : List UInt8} {len : Nat} {w₀ w : Window}
    {es : List WindowEvent} (hload : Window.Loaded data len w₀)
    (hpos : ∀ e ∈ es, e.ClockPositive) (hrun : exec (Window.next fl) w₀ es = some w) :
    w.Progresses fl ↔ ¬ (w.LPA = 0 ∧ 0 < w.LPS) := by
  obtain ⟨hw, hl⟩ := Window.exec_live hload.inv hload.live hpos hrun
  have h0 := hw.lpa_nonneg
  have hle := hw.lpa_le
  have hlt := hw.lps_lt
  constructor
  · rintro hprog ⟨hlpa, hlps⟩
    have hopen : w.LPA < w.LPR - 1 := by omega
    obtain ⟨-, hcount⟩ | ⟨-, p, -, htimer⟩ := hprog hopen
    · have := hl.first hlpa
      omega
    · have hto : timeoutSec = 2 := rfl
      obtain ⟨w', hres, -⟩ := htimer (p.timestamp + 3) (by omega)
      obtain ⟨q, -, ⟨-, h1, -⟩ | ⟨-, hsame⟩⟩ :=
        checkDatapackTimeout_spec fl (p.timestamp + 3) hw hopen
      · omega
      · rw [hres] at hsame
        cases hsame
  · intro hfirst hopen
    by_cases heq : w.LPA = w.LPS
    · exact .inl ⟨by omega, hl.ready heq hopen⟩
    · obtain ⟨p, hp, -⟩ := hw.filled (w.LPA + 1) (by omega) (by omega)
      refine .inr ⟨by omega, p, hp, fun now hnow => ?_⟩
      have hstamp := hl.stamped _ p (by omega) (by omega) hp
      obtain ⟨q, hq, ⟨-, -, -, -, w', hres, hback⟩ | ⟨hno, -⟩⟩ :=
        checkDatapackTimeout_spec fl now hw hopen
      · refine ⟨w', hres, by rw [hback.frame], by rw [hback.frame], fun time => ?_⟩
        exact hback.resends hw hopen hp time
      · rw [hp, Option.some.injEq] at hq
        subst hq
        exact absurd ⟨hstamp, by omega, by omega, hnow⟩ hno

/-- The first packet is acknowledged, the next ones are lost and the timer goes back; the second
packet is in flight again. -/
theorem window_in_flight_progresses :
    ∃ w₀ w now, Window.Loaded (List.replicate chunkSize 0) chunkSize w₀ ∧
      exec (Window.next .single) w₀ [.send fun _ => 1, .ack (formAckPack 1), .send fun _ => 1,
        .timeout now, .send fun _ => 5] = some w ∧
      w.LPA = 1 ∧ w.LPS = 2 ∧ w.Progresses .single := by
  obtain ⟨w₀, hload⟩ := Window.exists_loaded (List.replicate chunkSize 0) chunkSize
    (by rw [List.length_replicate])
  have hlpr := hload.lpr_chunk
  obtain ⟨hlpa, hlps, hcount⟩ := hload.fresh
  have hone : (WindowEvent.send fun _ => 1).ClockPositive := fun _ => Int.one_pos
  have hfive : (WindowEvent.send fun _ => 5).ClockPositive := fun _ => show (0 : Int) < 5 by omega
  have hlive : ∀ {es w}, (∀ e ∈ es, e.ClockPositive) → exec (Window.next .single) w₀ es = some w →
      w.Inv ∧ w.Live := fun hpos hrun => Window.exec_live hload.inv hload.live hpos hrun
  -- the first packet and its ACK
  obtain ⟨w₁, h₁, hlpa₁, hlps₁, hlpr₁⟩ := Window.exists_sent .single hload.inv fun _ => 1
  have hw₁ := Window.next_inv hload.inv h₁
  obtain ⟨w₂, _, hack, hlpa₂, hlps₂, hlpr₂⟩ :=
    Window.exists_acked .single hw₁ (n := 1) (by omega) (by omega)
  have h₂ : w₁.next .single (.ack (formAckPack 1)) = some w₂ := Window.next_ack hack
  have hrun₂ : exec (Window.next .single) w₀ [.send fun _ => 1, .ack (formAckPack 1)] =
      some w₂ := by rw [exec_step h₁, exec_step h₂, exec_nil]
  have hpos₂ : ∀ e ∈ [WindowEvent.send fun _ => 1, .ack (formAckPack 1)], e.ClockPositive :=
    List.forall_mem_cons.mpr ⟨hone, List.forall_mem_singleton.mpr trivial⟩
  obtain ⟨hw₂, hl₂⟩ := hlive hpos₂ hrun₂
  have hready := hl₂.ready (by omega) (by omega)
  -- the next packets, which the timer gives up
  obtain ⟨w₃, h₃, hlpa₃, hlps₃, hlpr₃⟩ := Window.exists_sent .single hw₂ fun _ => 1
  have hpos₃ : ∀ e ∈ [WindowEvent.send fun _ => 1, .ack (formAckPack 1), .send fun _ => 1],
      e.ClockPositive :=
    List.forall_mem_append.mpr ⟨hpos₂, List.forall_mem_singleton.mpr hone⟩
  obtain ⟨hw₃, hl₃⟩ := hlive hpos₃ (exec_snoc hrun₂ h₃)
  obtain ⟨now, w₄, hres, hback⟩ :=
    Window.exists_wentBack .single hw₃ hl₃ (by omega) (by omega)
  have h₄ : w₃.next .single (.timeout now) = some w₄ := Window.next_timeout hres
  have hfr := hback.frame
  have htimer : (WindowEvent.timeout now).ClockPositive := trivial
  have hlpa₄ : w₄.LPA = w₃.LPA := by rw [hfr]
  have hlps₄ : w₄.LPS = w₃.LPA := by rw [hfr]
  have hlpr₄ : w₄.LPR = w₃.LPR := by rw [hfr]
  have hcount₄ : w₄.count = 1 := by rw [hfr]
  obtain ⟨w₅, h₅, hlpa₅, hlps₅, -⟩ :=
    Window.exists_sent .single (Window.next_inv hw₃ h₄) fun _ => 5
  have hrun : exec (Window.next .single) w₀ [.send fun _ => 1, .ack (formAckPack 1),
      .send fun _ => 1, .timeout now, .send fun _ => 5] = some w₅ :=
    exec_snoc (exec_snoc (exec_snoc hrun₂ h₃) h₄) h₅
  have hpos : ∀ e ∈ [WindowEvent.send fun _ => 1, .ack (formAckPack 1), .send fun _ => 1,
      .timeout now, .send fun _ => 5], e.ClockPositive :=
    List.forall_mem_append.mpr
      ⟨hpos₃, List.forall_mem_cons.mpr ⟨htimer, List.forall_mem_singleton.mpr hfive⟩⟩
  exact ⟨w₀, w₅, now, hload, hrun, by omega, by omega,
    (progresses_iff hload hpos hrun).mpr (by omega)⟩

/-- The first packet is sent at time 1 and lost: the timer never brings it back. -/
theorem first_packet_lost :
    ∃ w₀ w : Window, Window.Loaded (List.replicate chunkSize 0) chunkSize w₀ ∧
      w₀.next .single (.send fun _ => 1) = some w ∧
      (∀ now, checkDatapackTimeout .single now w = some (w, 0)) ∧ ¬ w.Progresses .single := by
  obtain ⟨w₀, hload⟩ := Window.exists_loaded (List.replicate chunkSize 0) chunkSize
    (by rw [List.length_replicate])
  have hlpr := hload.lpr_chunk
  obtain ⟨hlpa, hlps, hcount⟩ := hload.fresh
  obtain ⟨w, ms, hrun, hsent, hcnt⟩ := windowSender_spec (fun _ => 1) hload.inv
  have hstep : w₀.next .single (.send fun _ => 1) = some { w with count := 0 } :=
    Window.next_send hrun
  have hlps' : w.LPS = 1 := by
    have := hsent.lps
    omega
  have hlpa' : w.LPA = 0 := by rw [hsent.frame]; exact hlpa
  have hlpr' : w.LPR = 513 := by rw [hsent.frame]; exact hlpr
  have hopen : Window.LPA { w with count := 0 } < Window.LPR { w with count := 0 } - 1 := by
    simp only
    omega
  have htimer : ∀ now, checkDatapackTimeout .single now { w with count := 0 } =
      some ({ w with count := 0 }, 0) := by
    intro now
    obtain ⟨q, -, ⟨-, h1, -⟩ | ⟨-, hsame⟩⟩ :=
      checkDatapackTimeout_spec .single now (Window.next_inv hload.inv hstep) hopen
    · simp only at h1
      omega
    · exact hsame
  refine ⟨w₀, _, hload, hstep, htimer, fun hprog => ?_⟩
  obtain ⟨-, hc⟩ | ⟨-, p, -, hp⟩ := hprog hopen
  · simp only at hc
    omega
  · have hto : timeoutSec = 2 := rfl
    obtain ⟨w', hres, -⟩ := hp (p.timestamp + 3) (by omega)
    rw [htimer] at hres
    cases hres

end P2P
