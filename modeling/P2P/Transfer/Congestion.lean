import P2P.Transfer.WindowRuns

/-!
# The congestion window

`congwin_size` grows with the packets acknowledged, is set back to 1 by a loss, and
`count` is computed from it anew after each ACK. `Window.Congestion` says what these
updates must keep: `1 ≤ congwin_size ≤ TCP_MAXWIN`, a threshold of at least 2, at most
`congwin_size` packets in flight, and `count` within the room that is left.
Arithmetic is exact here.

`congestion_iff`: only one update breaks it. A jump adds 1 to `congwin_size` without
the clamp that congestion avoidance has, so a run keeps the invariant exactly when no
ACK of a packet behind `LPS` comes while the window is larger than `TCP_MAXWIN - 1`. No
call gets stuck on the way (`SentWindow.exists_next`).
-/

namespace P2P

open Lib

/-- The invariant of `congwin_size`, `ssthresh` and `count`. -/
structure Window.Congestion (w : Window) : Prop where
  one_le : 1 ≤ w.congwinSize
  le_max : w.congwinSize ≤ tcpMaxwin
  ssthresh : 2 ≤ w.ssthresh
  flight : ((w.LPS - w.LPA : Int) : Rat) ≤ w.congwinSize
  count_nonneg : 0 ≤ w.count
  count_le : (w.count : Rat) ≤ w.congwinSize - (w.LPS - w.LPA : Int)

/-- A window and the highest number it has sent. -/
structure SentWindow where
  win : Window
  sent : Int

namespace SentWindow

/-- The timer is asked while packets are to be acknowledged, and the packets acknowledged have been
sent. -/
def enabled (s : SentWindow) : WindowEvent → Bool
  | .send _ => true
  | .timeout _ => s.win.LPA < s.win.LPR - 1
  | .ack pack => 1 ≤ pack.ackNum.toNat ∧ (pack.ackNum.toNat : Int) ≤ s.sent

def next (s : SentWindow) (e : WindowEvent) : Option SentWindow :=
  if s.enabled e then (s.win.next .exact e).map fun w => ⟨w, max s.sent w.LPS⟩ else none

/-- An ACK that makes the window jump finds it smaller than its maximum. -/
def JumpFits (s : SentWindow) (e : WindowEvent) (_ : SentWindow) : Prop :=
  ∀ pack, e = .ack pack → s.win.LPS < pack.ackNum.toNat → s.win.congwinSize ≤ tcpMaxwin - 1

end SentWindow

/-! ## The updates -/

namespace Window

variable {w w₁ w' : Window} {n ackedNum : Int}

theorem room_exact (h : ((w.LPS - w.LPA : Int) : Rat) ≤ w.congwinSize) :
    0 ≤ w.room .exact ∧ (w.room .exact : Rat) ≤ w.congwinSize - (w.LPS - w.LPA : Int) := by
  have hnonneg : 0 ≤ w.congwinSize - (w.LPS - w.LPA : Int) := sub_nonneg.mpr h
  have hroom : w.room .exact = ⌊w.congwinSize - (w.LPS - w.LPA : Int)⌋ := if_pos hnonneg
  rw [hroom]
  exact ⟨Int.floor_nonneg.mpr hnonneg, Int.floor_le _⟩

/-- **After `count` is computed anew** only the size of the window matters. -/
theorem Congestion.recount (h1 : 1 ≤ w.congwinSize) (hmax : w.congwinSize ≤ tcpMaxwin)
    (hss : 2 ≤ w.ssthresh) (hfl : ((w.LPS - w.LPA : Int) : Rat) ≤ w.congwinSize) :
    (w.recount .exact).Congestion := by
  obtain ⟨h0, hle⟩ := room_exact hfl
  exact ⟨h1, hmax, hss, hfl, h0, hle⟩

theorem grow_exact_eq : w.grow .exact n =
    if (w.ssthresh : Rat) < w.congwinSize then
      if tcpMaxwin < w.congwinSize + 1 / w.congwinSize * n then tcpMaxwin
      else w.congwinSize + 1 / w.congwinSize * n
    else w.congwinSize + n := rfl

theorem grow_exact (h : w.Congestion) (h64 : w.ssthresh ≤ 64) (hn : 0 ≤ n)
    (hle : (n : Rat) ≤ w.congwinSize) :
    w.congwinSize ≤ w.grow .exact n ∧ w.grow .exact n ≤ tcpMaxwin := by
  have hn' : (0 : Rat) ≤ n := by exact_mod_cast hn
  have h64' : (w.ssthresh : Rat) ≤ 64 := by exact_mod_cast h64
  have hpos : 0 ≤ w.congwinSize := zero_le_one.trans h.one_le
  have hmax := h.le_max
  have hstep : 0 ≤ 1 / w.congwinSize * n := by positivity
  rw [grow_exact_eq]
  split
  · split
    · exact ⟨hmax, le_refl _⟩
    · exact ⟨by linarith, by linarith⟩
  · -- the threshold is at most half of the maximum
    have hm : tcpMaxwin = 128 := rfl
    exact ⟨by linarith, by linarith⟩

theorem Counted.congestion (hc : Window.Counted n w w₁) (h : w.Congestion) : w₁.Congestion := by
  have hfr := hc.frame
  refine ⟨?_, ?_, ?_, ?_, ?_, ?_⟩ <;> rw [hfr]
  · exact h.one_le
  · exact h.le_max
  · exact h.ssthresh
  · exact h.flight
  · exact h.count_nonneg
  · exact h.count_le

theorem WentBack.congestion (hb : Window.WentBack .exact w w') : w'.Congestion := by
  have hss := hb.ssthresh
  have hfr := hb.frame
  refine ⟨?_, ?_, by omega, ?_, ?_, ?_⟩ <;> rw [hfr]
  · norm_num
  · simp
  · simp
  · simp

theorem Sent.congestion {time : Nat → Int} {ms : List Packet} (h : w.Congestion)
    (hsent : Window.Sent time 0 w w' ms)
    (hcnt : (ms.length : Int) = min (w.count.toNat : Int) (w.LPR - 1 - w.LPS)) :
    Congestion { w' with count := 0 } := by
  have hle : (ms.length : Int) ≤ w.count := by
    have := h.count_nonneg
    omega
  have hle' : ((ms.length : Int) : Rat) ≤ w.count := by exact_mod_cast hle
  have hroom := h.count_le
  have hfr := hsent.frame
  have hfl : ((w.LPS + ms.length - w.LPA : Int) : Rat) ≤ w.congwinSize := by
    push_cast at hroom hle' ⊢
    linarith
  refine ⟨?_, ?_, ?_, ?_, le_refl _, ?_⟩ <;> rw [hfr]
  · exact h.one_le
  · exact h.le_max
  · exact h.ssthresh
  · exact hfl
  · simp only [Int.cast_zero]
    linarith

/-- **An ACK** keeps the invariant unless it makes a full window jump. -/
theorem Acked.keeps_iff (hw : w.Inv) (h : w.Congestion) (h64 : w.ssthresh ≤ 64)
    (hack : Window.Acked .exact n w ackedNum w') :
    w'.Congestion ↔ (w.LPS < n → w.congwinSize ≤ tcpMaxwin - 1) := by
  have hle := hw.lpa_le
  cases hack with
  | jump hn =>
    constructor
    · intro h' _
      have : w.congwinSize + 1 ≤ tcpMaxwin := h'.le_max
      linarith
    · intro hfit
      have hfit := hfit hn
      have h1 := h.one_le
      refine .recount ?_ ?_ h.ssthresh ?_
      · show 1 ≤ w.congwinSize + 1
        linarith
      · show w.congwinSize + 1 ≤ tcpMaxwin
        linarith
      · show ((n - n : Int) : Rat) ≤ w.congwinSize + 1
        rw [sub_self, Int.cast_zero]
        linarith
  | advance hn hlps =>
    refine ⟨fun _ hjump => absurd hjump (by omega), fun _ => ?_⟩
    have hfl := h.flight
    have hnew : ((n - w.LPA : Int) : Rat) ≤ w.congwinSize :=
      le_trans (by exact_mod_cast (show n - w.LPA ≤ w.LPS - w.LPA by omega)) hfl
    obtain ⟨hgrow, hmax⟩ := grow_exact h h64 (n := n - w.LPA) (by omega) hnew
    refine .recount (h.one_le.trans hgrow) hmax h.ssthresh ?_
    show ((w.LPS - n : Int) : Rat) ≤ w.grow .exact (n - w.LPA)
    have : ((w.LPS - n : Int) : Rat) ≤ ((w.LPS - w.LPA : Int) : Rat) := by
      exact_mod_cast (show w.LPS - n ≤ w.LPS - w.LPA by omega)
    linarith
  | duplicate heq =>
    exact ⟨fun _ hjump => absurd hjump (by omega),
      fun _ => .recount h.one_le h.le_max h.ssthresh h.flight⟩
  | loss heq _ hback => exact ⟨fun _ hjump => absurd hjump (by omega), fun _ => hback.congestion⟩
  | stale hlt => exact ⟨fun _ hjump => absurd hjump (by omega), fun _ => h⟩

/-- The threshold after a loss is at most half of the largest window. -/
theorem WentBack.ssthresh_le (h : w.Congestion) (hb : Window.WentBack .exact w w') :
    w'.ssthresh ≤ 64 := by
  have hpos : 0 ≤ w.congwinSize / 2 := by
    have := h.one_le
    linarith
  have hhalf : truncToInt (w.congwinSize / 2) ≤ 64 := by
    rw [truncToInt, if_pos hpos]
    have hm : tcpMaxwin = 128 := rfl
    have hmax := h.le_max
    have : (⌊w.congwinSize / 2⌋ : Rat) ≤ 64 := (Int.floor_le _).trans (by linarith)
    exact_mod_cast this
  have hss : w'.ssthresh = max 2 (truncToInt (w.congwinSize / 2)) := hb.ssthresh
  omega

theorem Move.ssthresh_le {e : WindowEvent} (h : w.Congestion) (h64 : w.ssthresh ≤ 64)
    (hm : Move .exact w e w') : w'.ssthresh ≤ 64 := by
  cases hm with
  | sent hsent _ => rw [hsent.frame]; exact h64
  | checked => exact h64
  | wentBack _ hback => exact hback.ssthresh_le h
  | ignored => exact h64
  | @acked _ p w₁ _ n _ _ _ hc hack =>
    have h64' : w₁.ssthresh ≤ 64 := by rw [hc.frame]; exact h64
    cases hack with
    | jump => exact h64'
    | advance => exact h64'
    | duplicate => exact h64'
    | loss _ _ hback => exact hback.ssthresh_le (hc.congestion h)
    | stale => exact h64'

/-- **One call** keeps the invariant unless it makes a full window jump. -/
theorem Move.keeps_iff {e : WindowEvent} (hw : w.Inv) (h : w.Congestion)
    (h64 : w.ssthresh ≤ 64) (hm : Move .exact w e w') :
    w'.Congestion ↔
      ∀ pack, e = .ack pack → w.LPS < pack.ackNum.toNat → w.congwinSize ≤ tcpMaxwin - 1 := by
  cases hm with
  | sent hsent hcnt => exact ⟨fun _ _ he => (nomatch he), fun _ => hsent.congestion h hcnt⟩
  | checked => exact ⟨fun _ _ he => (nomatch he), fun _ => h⟩
  | wentBack _ hback => exact ⟨fun _ _ he => (nomatch he), fun _ => hback.congestion⟩
  | ignored h0 =>
    refine ⟨fun _ pack he hjump => ?_, fun _ => h⟩
    cases he
    have hle := hw.lpa_le
    have hnn := hw.lpa_nonneg
    omega
  | acked hn _ _ hc hack =>
    rw [hack.keeps_iff (hc.inv hw) (hc.congestion h) (by rw [hc.frame]; exact h64)]
    rw [hc.frame, ← hn]
    exact ⟨fun hfit pack he => by cases he; exact hfit, fun hfit => hfit _ rfl⟩

end Window

/-! ## Whole runs -/

namespace SentWindow

variable {s t : SentWindow} {e : WindowEvent}

/-- What the calls keep in the runs with the invariant. -/
structure Bounded (s : SentWindow) : Prop where
  inv : s.win.Inv
  ssthresh : s.win.ssthresh ≤ 64
  sent_lt : s.sent < s.win.LPR

theorem move_of_next (hs : s.Bounded) (h : s.next e = some t) :
    Window.Move .exact s.win e t.win ∧ t.sent = max s.sent t.win.LPS := by
  unfold next at h
  split at h
  · rw [Option.map_eq_some_iff] at h
    obtain ⟨w, hw, rfl⟩ := h
    exact ⟨Window.next_cases hs.inv hw, rfl⟩
  · cases h

theorem next_of_win {w : Window} (he : s.enabled e) (h : s.win.next .exact e = some w) :
    s.next e = some ⟨w, max s.sent w.LPS⟩ := by
  rw [next, if_pos he, h]
  rfl

theorem Bounded.next (hs : s.Bounded) (hc : s.win.Congestion) (h : s.next e = some t) :
    t.Bounded := by
  obtain ⟨hmove, hsent⟩ := move_of_next hs h
  have hlt := hs.sent_lt
  have hinv := hmove.inv hs.inv
  have hlps := hinv.lps_lt
  refine ⟨hinv, hmove.ssthresh_le hc hs.ssthresh, ?_⟩
  rw [hsent, hmove.sameData.lpr] at *
  omega

/-- **Every call that is enabled returns.** -/
theorem exists_next (hs : s.Bounded) (he : s.enabled e) : ∃ t, s.next e = some t := by
  have hlt := hs.sent_lt
  obtain ⟨w, hw⟩ : ∃ w, s.win.next .exact e = some w := by
    cases e with
    | send time =>
      obtain ⟨w, ms, hrun, -⟩ := windowSender_spec time hs.inv
      exact ⟨_, Window.next_send hrun⟩
    | timeout now =>
      have hopen : s.win.LPA < s.win.LPR - 1 := by simpa [enabled] using he
      obtain ⟨p, -, ⟨-, -, -, -, w, hres, -⟩ | ⟨-, hres⟩⟩ :=
        checkDatapackTimeout_spec .exact now hs.inv hopen
      · exact ⟨w, Window.next_timeout hres⟩
      · exact ⟨s.win, Window.next_timeout hres⟩
    | ack pack =>
      have hn : 1 ≤ pack.ackNum.toNat ∧ (pack.ackNum.toNat : Int) ≤ s.sent := by
        simpa [enabled] using he
      obtain ⟨p, w₁, w, -, -, -, hres⟩ :=
        uponReceiveACK_spec .exact hs.inv (n := pack.ackNum.toNat) rfl (by omega) (by omega)
      exact ⟨w, Window.next_ack hres⟩
  exact ⟨_, next_of_win he hw⟩

theorem bounded_loaded {data : List UInt8} {len : Nat} {w : Window} (h : Window.Loaded data len w) :
    Bounded ⟨w, 0⟩ ∧ w.Congestion := by
  have hlt := h.inv.lps_lt
  have hinv := h.inv
  obtain ⟨hash, dst, r, m, hadd⟩ := h.added
  have hfr := hadd.frame
  have hlps : w.LPS = 0 := by rw [hfr]; rfl
  refine ⟨⟨hinv, by rw [hfr]; exact le_refl _, by show 0 < w.LPR; omega⟩, ?_⟩
  refine ⟨?_, ?_, ?_, ?_, ?_, ?_⟩ <;> rw [hfr]
  · exact le_refl _
  · norm_num [createSW]
  · norm_num [createSW, initialCongestionThreshold]
  · norm_num [createSW]
  · norm_num [createSW]
  · norm_num [createSW]

end SentWindow

/-! ## Rounds of slow start -/

/-- Everything up to `k` is acknowledged, and `c` packets may be sent in slow start. -/
structure Window.Round (k c : Int) (w : Window) : Prop where
  inv : w.Inv
  lpa : w.LPA = k
  lps : w.LPS = k
  lpr : w.LPR = 513
  congwin : w.congwinSize = c
  count : w.count = c
  ssthresh : w.ssthresh = 64

namespace SentWindow

variable {k c m : Int} {w : Window}

theorem round_loaded {data : List UInt8} (h : Window.Loaded data chunkSize w) :
    Window.Round 0 1 w := by
  have hlpr := h.lpr_chunk
  have hinv := h.inv
  obtain ⟨hash, dst, r, m, hadd⟩ := h.added
  have hfr := hadd.frame
  refine ⟨hinv, ?_, ?_, hlpr, ?_, ?_, ?_⟩ <;> rw [hfr] <;> rfl

/-- A run in which no full window jumps. -/
structure Fitting (s : SentWindow) (es : List WindowEvent) (t : SentWindow) : Prop where
  run : exec next s es = some t
  fits : EachStep next JumpFits s es

theorem Fitting.trans {s t u : SentWindow} {es fs : List WindowEvent} (h : Fitting s es t)
    (h' : Fitting t fs u) : Fitting s (es ++ fs) u :=
  ⟨exec_trans h.run h'.run, (each_append h.run).mpr ⟨h.fits, h'.fits⟩⟩

theorem Fitting.step {s t : SentWindow} {e : WindowEvent} (h : next s e = some t)
    (hfit : JumpFits s e t) : Fitting s [e] t :=
  ⟨exec_step h [], (each_step h).mpr ⟨hfit, trivial⟩⟩

theorem jumpFits_send {s t : SentWindow} {time : Nat → Int} : JumpFits s (.send time) t := by
  intro pack h
  cases h

theorem jumpFits_timeout {s t : SentWindow} {now : Int} : JumpFits s (.timeout now) t := by
  intro pack h
  cases h

theorem Round.send (h : Window.Round k c w) (hc : 0 ≤ c) (hkc : k + c ≤ 512) (m : Int) :
    ∃ w', next ⟨w, m⟩ (.send fun _ => 1) = some ⟨w', max m (k + c)⟩ ∧ w'.Inv ∧ w'.LPA = k ∧
      w'.LPS = k + c ∧ w'.LPR = 513 ∧ w'.congwinSize = c ∧ w'.ssthresh = 64 ∧
      ∀ i p, k < i → i ≤ k + c → w'.senderBuf.read i = some p → p.timestamp = 1 := by
  have hcount := h.count
  have hlps := h.lps
  have hlpr := h.lpr
  obtain ⟨w', ms, hrun, hsent, hcnt⟩ := windowSender_spec (fun _ => 1) h.inv
  have hlen : (ms.length : Int) = c := by omega
  have hlps' : w'.LPS = k + c := by rw [hsent.lps, hlps, hlen]
  have hstep : w.next .exact (.send fun _ => 1) = some { w' with count := 0 } :=
    Window.next_send hrun
  refine ⟨{ w' with count := 0 }, ?_, Window.next_inv h.inv hstep, ?_, hlps', ?_, ?_,
    ?_, fun i p hi hik hp => ?_⟩
  · rw [← hlps']
    exact next_of_win rfl hstep
  · rw [hsent.frame]; exact h.lpa
  · rw [hsent.frame]; exact hlpr
  · rw [hsent.frame]; exact h.congwin
  · rw [hsent.frame]; exact h.ssthresh
  · obtain ⟨q, -, rfl⟩ := hsent.slot.read_some hp
    rw [if_pos (by omega)]

/-- **A round of slow start**: the packets are sent and the last of them is acknowledged. -/
theorem Round.double (h : Window.Round k c w) (hc : 1 ≤ c) (hc64 : c ≤ 64) (hk : 0 ≤ k)
    (hkc : k + c ≤ 512) (m : Int) :
    ∃ w', Fitting ⟨w, m⟩ [.send fun _ => 1, .ack (formAckPack (k + c))] ⟨w', max m (k + c)⟩ ∧
      Window.Round (k + c) (2 * c) w' := by
  obtain ⟨w₁, hsend, hinv, hlpa, hlps, hlpr, hcw, hss, -⟩ := Round.send h (by omega) hkc m
  have hnum : ((formAckPack (k + c)).ackNum.toNat : Int) = k + c :=
    formAckPack_ackNum (by omega) (by omega)
  obtain ⟨p, w₂, w', -, hcount, hack, hres⟩ :=
    uponReceiveACK_spec .exact hinv hnum (by omega) (by omega)
  have hlpa₂ : w₂.LPA = k := by rw [hcount.frame]; exact hlpa
  have hlps₂ : w₂.LPS = k + c := by rw [hcount.frame]; exact hlps
  have hcw₂ : w₂.congwinSize = c := by rw [hcount.frame]; exact hcw
  have hss₂ : w₂.ssthresh = 64 := by rw [hcount.frame]; exact hss
  have hmove : Window.Move .exact w₁ (.ack (formAckPack (k + c))) w' :=
    .acked (p := p) hnum (by omega) (by omega) hcount hack
  have hinv' := hmove.inv hinv
  have hlpr' : w'.LPR = 513 := hmove.sameData.lpr.trans hlpr
  -- the ACK is for the last packet sent
  obtain ⟨hlpa', hlps', hgrow, hss', hcount'⟩ : w'.LPA = k + c ∧ w'.LPS = k + c ∧
      w'.congwinSize = w₂.grow .exact (k + c - k) ∧ w'.ssthresh = 64 ∧
      w'.count = w'.room .exact := by
    cases hack with
    | advance => exact ⟨rfl, hlps₂, by rw [← hlpa₂]; rfl, hss₂, rfl⟩
    | jump => omega
    | duplicate => omega
    | loss => omega
    | stale => omega
  have htwice : w'.congwinSize = (2 * c : Int) := by
    have hslow : ¬ ((w₂.ssthresh : Rat) < w₂.congwinSize) := by
      rw [hss₂, hcw₂, not_lt]
      exact_mod_cast hc64
    rw [hgrow, Window.grow_exact_eq, if_neg hslow, hcw₂]
    push_cast
    ring
  have hroom : w'.count = 2 * c := by
    have h0 : (0 : Rat) ≤ (2 * c : Int) := by exact_mod_cast (show 0 ≤ 2 * c by omega)
    rw [hcount', Window.room_of_eq (hlps'.trans hlpa'.symm), htwice]
    show truncToInt (2 * c : Int) = 2 * c
    rw [truncToInt, if_pos h0, Int.floor_intCast]
  have hack' : next ⟨w₁, max m (k + c)⟩ (.ack (formAckPack (k + c))) =
      some ⟨w', max (max m (k + c)) w'.LPS⟩ := by
    refine next_of_win ?_ (Window.next_ack hres)
    simp only [enabled, decide_eq_true_eq]
    omega
  rw [hlps', max_assoc, max_self] at hack'
  have hfit : JumpFits ⟨w₁, max m (k + c)⟩ (.ack (formAckPack (k + c))) ⟨w', max m (k + c)⟩ := by
    intro pack heq hlt
    cases heq
    simp only at hlt
    omega
  have hsendfit : Fitting ⟨w, m⟩ [.send fun _ => 1] ⟨w₁, max m (k + c)⟩ :=
    .step hsend jumpFits_send
  exact ⟨w', hsendfit.trans (.step hack' hfit), hinv', hlpa', hlps', hlpr', htwice, hroom, hss'⟩

theorem Round.grow {k m : Int} (h : Window.Round k 1 w) (hk : 0 ≤ k) (hm : k ≤ m) (j : Nat) :
    j ≤ 7 → k + 2 ^ j ≤ 513 → ∃ es w', Fitting ⟨w, m⟩ es ⟨w', max m (k + 2 ^ j - 1)⟩ ∧
      Window.Round (k + 2 ^ j - 1) (2 ^ j) w' := by
  induction j with
  | zero =>
    intro _ _
    have hend : k + 2 ^ 0 - 1 = k := by norm_num
    rw [hend, max_eq_left hm]
    exact ⟨[], w, ⟨rfl, trivial⟩, h⟩
  | succ j ih =>
    intro hj hfit
    have hpow : (2 : Int) ^ (j + 1) = 2 * 2 ^ j := by ring
    have hpos : (1 : Int) ≤ 2 ^ j := one_le_pow₀ (by norm_num)
    have h64 : (2 : Int) ^ j ≤ 2 ^ 6 := pow_le_pow_right₀ (by norm_num) (by omega)
    obtain ⟨es, w₁, hrun, hround⟩ := ih (by omega) (by omega)
    obtain ⟨w₂, hdouble, hround'⟩ := Round.double hround hpos (by omega) (by omega) (by omega)
      (max m (k + 2 ^ j - 1))
    have hnext : k + 2 ^ j - 1 + 2 ^ j = k + 2 ^ (j + 1) - 1 := by rw [hpow]; ring
    have hsent : max (max m (k + 2 ^ j - 1)) (k + 2 ^ (j + 1) - 1) =
        max m (k + 2 ^ (j + 1) - 1) := by omega
    rw [hnext] at hdouble hround'
    rw [hsent] at hdouble
    refine ⟨es ++ [.send fun _ => 1, .ack (formAckPack (k + 2 ^ (j + 1) - 1))], w₂, ?_, ?_⟩
    · exact hrun.trans hdouble
    · rw [hpow]
      rw [hpow] at hround'
      exact hround'

theorem Round.lose (h : Window.Round k 128 w) (hk : 1 ≤ k) (hk' : k + 128 ≤ 512) (m : Int) :
    ∃ w', Fitting ⟨w, m⟩ [.send fun _ => 1, .timeout 4] ⟨w', max m (k + 128)⟩ ∧
      Window.Round k 1 w' := by
  obtain ⟨w₁, hsend, hinv, hlpa, hlps, hlpr, hcw, hss, hstamp⟩ := Round.send h (by omega) hk' m
  have hto : timeoutSec = 2 := rfl
  have hopen : w₁.LPA < w₁.LPR - 1 := by omega
  obtain ⟨p, hp, ⟨-, -, -, -, w', hres, hback⟩ | ⟨hno, -⟩⟩ :=
    checkDatapackTimeout_spec .exact 4 hinv hopen
  · have hstep : next ⟨w₁, max m (k + 128)⟩ (.timeout 4) =
        some ⟨w', max (max m (k + 128)) w'.LPS⟩ :=
      next_of_win (by simpa [enabled] using hopen) (Window.next_timeout hres)
    have hmove : Window.Move .exact w₁ (.timeout 4) w' := .wentBack (by omega) hback
    have hinv' := hmove.inv hinv
    have hfr := hback.frame
    have hlps' : w'.LPS = k := by rw [hfr]; exact hlpa
    have hhalf : truncToInt (w₁.congwinSize / 2) = 64 := by
      rw [hcw, truncToInt, if_pos (by norm_num)]
      norm_num
    have hss' : w'.ssthresh = max 2 (truncToInt (w₁.congwinSize / 2)) := hback.ssthresh
    refine ⟨w', ?_, hinv', by rw [hfr]; exact hlpa, hlps', by rw [hfr]; exact hlpr,
      by rw [hfr]; rfl, by rw [hfr], by rw [hss', hhalf]; rfl⟩
    have hmax : max (max m (k + 128)) k = max m (k + 128) := by omega
    rw [hlps', hmax] at hstep
    have hsendfit : Fitting ⟨w, m⟩ [.send fun _ => 1] ⟨w₁, max m (k + 128)⟩ :=
      .step hsend jumpFits_send
    exact hsendfit.trans (.step hstep jumpFits_timeout)
  · have hp1 : p.timestamp = 1 := hstamp _ p (by omega) (by omega) hp
    exact absurd ⟨by omega, by omega, by omega, by omega⟩ hno

/-- A late ACK of a packet that is to be sent again. -/
theorem Round.jump (h : Window.Round k c w) {n : Int} (hk : 0 ≤ k) (hkn : k < n) (hn : n ≤ 512)
    (hm : n ≤ m) : ∃ t, next ⟨w, m⟩ (.ack (formAckPack n)) = some t ∧
      t.win.LPA = n ∧ t.win.congwinSize = (c + 1 : Int) := by
  have hlps := h.lps
  have hlpr := h.lpr
  have hnum : ((formAckPack n).ackNum.toNat : Int) = n := formAckPack_ackNum (by omega) (by omega)
  obtain ⟨p, w₁, w', -, hcount, hack, hres⟩ :=
    uponReceiveACK_spec .exact h.inv hnum (by omega) (by omega)
  have hlps₁ : w₁.LPS = k := by rw [hcount.frame]; exact hlps
  have hlpa₁ : w₁.LPA = k := by rw [hcount.frame]; exact h.lpa
  have hstep : next ⟨w, m⟩ (.ack (formAckPack n)) = some ⟨w', max m w'.LPS⟩ := by
    refine next_of_win ?_ (Window.next_ack hres)
    simp only [enabled, decide_eq_true_eq]
    omega
  refine ⟨_, hstep, ?_⟩
  cases hack with
  | jump =>
    refine ⟨rfl, ?_⟩
    show w₁.congwinSize + 1 = _
    rw [hcount.frame, h.congwin]
    push_cast
    rfl
  | advance => omega
  | duplicate => omega
  | loss => omega
  | stale => omega

/-- The packets up to 127 are acknowledged in slow start, and all those behind them that the largest
window allows are lost. -/
theorem exists_lost {data : List UInt8} {w : Window} (h : Window.Loaded data chunkSize w) :
    ∃ es₁ w₁ es₂ w₂, Fitting ⟨w, 0⟩ es₁ ⟨w₁, 127⟩ ∧ w₁.congwinSize = 128 ∧
      Fitting ⟨w₁, 127⟩ es₂ ⟨w₂, 255⟩ ∧ Window.Round 127 1 w₂ := by
  obtain ⟨es₁, w₁, hrun₁, h₁⟩ := Round.grow (round_loaded h) (le_refl 0) (le_refl 0) 7 (le_refl 7)
    (by norm_num)
  norm_num at hrun₁ h₁
  obtain ⟨w₂, hrun₂, h₂⟩ := Round.lose h₁ (by norm_num) (by norm_num) 127
  rw [show max 127 ((127 : Int) + 128) = 255 by norm_num] at hrun₂
  exact ⟨es₁, w₁, _, w₂, hrun₁, by rw [h₁.congwin]; norm_num, hrun₂, h₂⟩

end SentWindow

/-- **The congestion window is kept** in exactly the runs in which a full window never jumps. -/
theorem congestion_iff {data : List UInt8} {len : Nat} {w : Window}
    (hload : Window.Loaded data len w) (es : List WindowEvent) :
    Always SentWindow.next (fun s => s.win.Congestion) ⟨w, 0⟩ es ↔
      EachStep SentWindow.next SentWindow.JumpFits ⟨w, 0⟩ es := by
  obtain ⟨hb, hc⟩ := SentWindow.bounded_loaded hload
  refine always_iff (W := SentWindow.Bounded) (fun _ _ _ hs hcs h => hs.next hcs h) ?_ hb hc
  intro s e t hs hcs h
  exact (SentWindow.move_of_next hs h).1.keeps_iff hs.inv hcs hs.ssthresh

/-- The window grows to its maximum in slow start and its packets are lost; the late ACK of packet
200 makes the window of one packet jump. -/
theorem congestion_after_loss :
    ∃ w es₁ s₁ es₂ s₂, Window.Loaded (List.replicate chunkSize 0) chunkSize w ∧
      exec SentWindow.next ⟨w, 0⟩ es₁ = some s₁ ∧ s₁.win.congwinSize = 128 ∧
      exec SentWindow.next s₁ es₂ = some s₂ ∧ s₂.win.LPA = 200 ∧ s₂.win.congwinSize = 2 ∧
      Always SentWindow.next (fun s => s.win.Congestion) ⟨w, 0⟩ (es₁ ++ es₂) := by
  obtain ⟨w₀, hload⟩ := Window.exists_loaded (List.replicate chunkSize 0) chunkSize
    (by rw [List.length_replicate])
  obtain ⟨es₁, w₁, es₂, w₂, hrun₁, h128, hrun₂, h₂⟩ := SentWindow.exists_lost hload
  obtain ⟨s, hjump, hlpa, hsize⟩ :=
    SentWindow.Round.jump h₂ (by norm_num) (show (127 : Int) < 200 by norm_num) (by norm_num)
      (show (200 : Int) ≤ 255 by norm_num)
  have hfit : SentWindow.JumpFits ⟨w₂, 255⟩ (.ack (formAckPack 200)) s := by
    intro _ _ _
    rw [h₂.congwin]
    norm_num [tcpMaxwin]
  have hrun := hrun₂.trans (.step hjump hfit)
  refine ⟨w₀, es₁, _, _, s, hload, hrun₁.run, h128, hrun.run, hlpa, ?_,
    (congestion_iff hload _).mpr (hrun₁.trans hrun).fits⟩
  rw [hsize]
  norm_num

/-- The packets up to 255 are sent and those behind 127 lost; the window grows to its maximum again,
until everything up to 254 is acknowledged, and then the ACK of packet 255, from the first time it
was sent, adds one. -/
theorem full_window_jumps :
    ∃ w es s, Window.Loaded (List.replicate chunkSize 0) chunkSize w ∧
      exec SentWindow.next ⟨w, 0⟩ es = some s ∧ s.win.congwinSize = 129 ∧ ¬ s.win.Congestion := by
  obtain ⟨w₀, hload⟩ := Window.exists_loaded (List.replicate chunkSize 0) chunkSize
    (by rw [List.length_replicate])
  obtain ⟨es₁, w₁, es₂, w₂, hrun₁, -, hrun₂, h₂⟩ := SentWindow.exists_lost hload
  obtain ⟨es₃, w₃, hrun₃, h₃⟩ :=
    SentWindow.Round.grow h₂ (by norm_num) (show (127 : Int) ≤ 255 by norm_num) 7 (le_refl 7)
      (by norm_num)
  norm_num at hrun₃ h₃
  obtain ⟨s, hjump, -, hsize⟩ :=
    SentWindow.Round.jump h₃ (by norm_num) (show (254 : Int) < 255 by norm_num) (by norm_num)
      (le_refl 255)
  have hrun : exec SentWindow.next ⟨w₀, 0⟩
      (es₁ ++ (es₂ ++ (es₃ ++ [.ack (formAckPack 255)]))) = some s :=
    exec_trans hrun₁.run (exec_trans hrun₂.run (exec_snoc hrun₃.run hjump))
  have h129 : s.win.congwinSize = 129 := by
    rw [hsize]
    norm_num
  refine ⟨w₀, _, s, hload, hrun, h129, fun hc => ?_⟩
  have hmax := hc.le_max
  rw [h129] at hmax
  norm_num at hmax

end P2P
