import P2P.Lib.Lists
import P2P.Transfer.WindowRuns

/-!
# Counting duplicate ACKs

`upon_receive_ACK` counts every ACK in the packet it names and takes its loss reaction when
the count of packet `LPA` passes 3. `ackBranch` is the branch it takes, and
`uponReceiveACK_eq` says that nothing else decides what it does.

`loss_iff_third_duplicate`: over whole runs, the loss branch is taken on the third ACK of
`LPA` since `LPA` took its value or the window last went back, and on no other ACK.
-/

namespace P2P

open Lib

/-- The branches of `upon_receive_ACK`. -/
inductive AckBranch
  | illegal
  | jump
  | advance
  | duplicate
  | loss
  | old
  deriving DecidableEq

/-- The branch `upon_receive_ACK` takes, after it has counted the ACK. -/
def ackBranch (ackPack : Packet) (currWin : Window) : Option AckBranch :=
  let confirmno := ackPack.ackNum
  let newlyAckedNo := toI32 (confirmno.toNat - currWin.LPA)
  if confirmno < 1 then some .illegal
  else
    (countACK currWin confirmno.toNat).map fun (w, ackedNum) =>
      if UInt32.ofInt w.LPS < confirmno then .jump
      else if 0 < newlyAckedNo then .advance
      else if newlyAckedNo = 0 then if 3 < ackedNum then .loss else .duplicate
      else .old

/-- What a branch makes of the window in which the ACK was counted. -/
def AckBranch.run (fl : Rounding) (ackPack : Packet) (w : Window) : AckBranch → Option Window
  | .illegal => some w
  | .jump => some (Window.recount fl { w with
      LPA := toI32 ackPack.ackNum.toNat
      LPS := toI32 ackPack.ackNum.toNat
      congwinSize := fl.rnd (w.congwinSize + 1) })
  | .advance => some (Window.recount fl { w with
      LPA := toI32 ackPack.ackNum.toNat
      congwinSize := w.grow fl (toI32 (ackPack.ackNum.toNat - w.LPA)) })
  | .duplicate => some (w.recount fl)
  | .loss => (goBack fl w).map (Window.recount fl)
  | .old => some w

/-- The window the branches start from: every ACK but number 0 is counted. -/
def countedWindow (ackPack : Packet) (currWin : Window) : Option Window :=
  if ackPack.ackNum < 1 then some currWin
  else (countACK currWin ackPack.ackNum.toNat).map (·.1)

theorem countACK_lpa {w w₁ : Window} {i k : Int} (h : countACK w i = some (w₁, k)) :
    w₁.LPA = w.LPA := by
  unfold countACK at h
  rw [Option.bind_eq_some_iff] at h
  obtain ⟨p, -, h⟩ := h
  rw [Option.map_eq_some_iff] at h
  obtain ⟨buf, -, h⟩ := h
  cases h
  rfl

/-- **The branch decides what `upon_receive_ACK` does.** -/
theorem uponReceiveACK_eq (fl : Rounding) (ack : Packet) (w : Window) :
    uponReceiveACK fl ack w =
      (ackBranch ack w).bind fun b => ((countedWindow ack w).bind fun w₁ => b.run fl ack w₁).map
        fun w' => (w', truncToInt w'.congwinSize) := by
  unfold uponReceiveACK ackBranch countedWindow
  by_cases h0 : ack.ackNum < 1
  · simp only [if_pos h0, Option.bind_some, AckBranch.run, Option.map_some]
  · simp only [if_neg h0]
    cases hc : countACK w ack.ackNum.toNat with
    | none => rfl
    | some r =>
      obtain ⟨w₁, ackedNum⟩ := r
      have hlpa := countACK_lpa hc
      simp only [Option.bind_some, Option.map_some, ← hlpa]
      split
      · rfl
      split
      · rfl
      split
      · split <;> rfl
      · rfl

namespace Window

variable {fl : Rounding} {w w' : Window} {n : Int} {ack : Packet} {k : Nat}

theorem ackBranch_spec (hw : w.Inv) (hn : (ack.ackNum.toNat : Int) = n) (h1 : 1 ≤ n)
    (hlt : n < w.LPR) :
    ∃ p, w.senderBuf.read n = some p ∧ ackBranch ack w = some (
      if w.LPS < n then .jump
      else if w.LPA < n then .advance
      else if n = w.LPA then if 3 ≤ p.ackedNum then .loss else .duplicate
      else .old) := by
  have h0 := hw.lpa_nonneg
  have hle := hw.lpa_le
  have hlps := hw.lps_lt
  have h513 := hw.lpr_le
  obtain ⟨p, w₁, hp, hcount, hc⟩ := countACK_spec hw h1 hlt
  have hpos : ¬ ack.ackNum < 1 := by
    rw [UInt32.lt_iff_toNat_lt]
    simp only [UInt32.toNat_one]
    omega
  have hcmp : UInt32.ofInt w₁.LPS < ack.ackNum ↔ w.LPS < n := by
    have hlps₁ : w₁.LPS = w.LPS := by rw [hc.frame]
    have := toNat_ofInt_uint32 (z := w.LPS) (by omega) (by omega)
    rw [UInt32.lt_iff_toNat_lt, hlps₁]
    omega
  have hnew : toI32 (n - w.LPA) = n - w.LPA := toI32_eq_self (by omega) (by omega)
  have hadv : 0 < n - w.LPA ↔ w.LPA < n := by omega
  have hdup : n - w.LPA = 0 ↔ n = w.LPA := by omega
  have hloss : 3 < p.ackedNum + 1 ↔ 3 ≤ p.ackedNum := by omega
  refine ⟨p, hp, ?_⟩
  unfold ackBranch
  simp only [if_neg hpos, hn, hcount, Option.map_some, hcmp, hnew, hadv, hdup, hloss]

/-! ## The history of a window -/

/-- The call goes back to `LPA`: a timeout, or the loss branch. -/
def goesBack (fl : Rounding) (w : Window) : WindowEvent → Bool
  | .send _ => false
  | .timeout now => (checkDatapackTimeout fl now w).map (·.2) == some 1
  | .ack pack => ackBranch pack w == some .loss

/-- After this step duplicates are counted anew: `LPA` has another value or the window went back. -/
def resets (fl : Rounding) (s : Window × WindowEvent × Window) : Bool :=
  s.1.LPA != s.2.2.LPA || s.1.goesBack fl s.2.1

/-- The step is an ACK of the packet `LPA`. -/
def repeats (s : Window × WindowEvent × Window) : Bool :=
  match s.2.1 with
  | .ack pack => (pack.ackNum.toNat : Int) == s.1.LPA
  | _ => false

/-- The duplicates of `LPA` among the steps of a run, since `LPA` took its value or the window last
went back. -/
def duplicates (fl : Rounding) (w : Window) (es : List WindowEvent) : Nat :=
  countSince (resets fl) repeats (steps (next fl) w es)

/-- `k` duplicates of `LPA` are counted: the ACK that moved `LPA` there, or the last go-back, left a
one. Packets behind `LPA` have no ACK. -/
structure Counts (k : Nat) (w : Window) : Prop where
  last : ∀ p, w.senderBuf.read w.LPA = some p → p.ackedNum = 1 + k
  behind : ∀ j p, w.LPA < j → w.senderBuf.read j = some p → p.ackedNum = 0
  /-- The third one makes the window go back. -/
  few : 1 ≤ w.LPA → k ≤ 2

theorem Loaded.counts {data : List UInt8} {len : Nat} (h : Window.Loaded data len w) :
    w.Counts 0 := by
  have hlpa := h.fresh.1
  have hvacant := h.inv.vacant
  obtain ⟨hash, dst, r, m, hadd⟩ := h.added
  refine ⟨fun p hp => ?_, fun j p _ hp => ?_, fun _ => Nat.zero_le 2⟩
  · have := (hvacant _ p hp).1
    omega
  · rw [hadd.slot j] at hp
    split at hp
    · cases hp
      rfl
    · simp [createSW] at hp

theorem Counts.of_mapped {f : Int → Packet → Packet} (h : w.Counts k)
    (hm : w.senderBuf.Mapped w'.senderBuf f) (hf : ∀ j p, (f j p).ackedNum = p.ackedNum)
    (hlpa : w'.LPA = w.LPA) : w'.Counts k := by
  refine ⟨fun p hp => ?_, fun j p hj hp => ?_, by rw [hlpa]; exact h.few⟩
  · obtain ⟨q, hq, rfl⟩ := hm.read_some hp
    rw [hlpa] at hq
    rw [hf]
    exact h.last q hq
  · obtain ⟨q, hq, rfl⟩ := hm.read_some hp
    rw [hlpa] at hj
    rw [hf]
    exact h.behind j q hj hq

theorem WentBack.counts (hback : Window.WentBack fl w w')
    (h : ∀ j p, w.LPA < j → w.senderBuf.read j = some p → p.ackedNum = 0) : w'.Counts 0 := by
  have hlpa : w'.LPA = w.LPA := by rw [hback.frame]
  refine ⟨fun p hp => ?_, fun j p hj hp => ?_, fun _ => Nat.zero_le 2⟩
  · obtain ⟨q, -, rfl⟩ := hback.slot.read_some hp
    rw [if_pos hlpa]
    rfl
  · obtain ⟨q, hq, rfl⟩ := hback.slot.read_some hp
    rw [hlpa] at hj
    rw [if_neg (by omega)]
    exact h j q hj hq

theorem Counted.counts_moved {w₁ : Window} (hc : Window.Counted n w w₁) (h : w.Counts k)
    (hn : w.LPA < n) (hslots : w'.senderBuf = w₁.senderBuf) (hlpa : w'.LPA = n) :
    w'.Counts 0 := by
  refine ⟨fun p hp => ?_, fun j p hj hp => ?_, fun _ => Nat.zero_le 2⟩
  · rw [hslots, hlpa] at hp
    obtain ⟨q, hq, rfl⟩ := hc.slot.read_some hp
    rw [if_pos rfl]
    show q.ackedNum + 1 = 1
    rw [h.behind n q hn hq]
    rfl
  · rw [hslots] at hp
    obtain ⟨q, hq, rfl⟩ := hc.slot.read_some hp
    rw [hlpa] at hj
    rw [if_neg (by omega)]
    exact h.behind j q (by omega) hq

theorem Counted.counts_stayed {w₁ : Window} (hc : Window.Counted n w w₁) (h : w.Counts k)
    (hn : n ≤ w.LPA) (hfew : n = w.LPA → k ≤ 1) (hslots : w'.senderBuf = w₁.senderBuf)
    (hlpa : w'.LPA = w.LPA) : w'.Counts (k + if n = w.LPA then 1 else 0) := by
  refine ⟨fun p hp => ?_, fun j p hj hp => ?_, fun h1 => ?_⟩
  · rw [hslots, hlpa] at hp
    obtain ⟨q, hq, rfl⟩ := hc.slot.read_some hp
    have hlast := h.last q hq
    by_cases heq : w.LPA = n
    · rw [if_pos heq, if_pos heq.symm]
      simp only
      omega
    · rw [if_neg heq, if_neg (Ne.symm heq)]
      omega
  · rw [hslots] at hp
    obtain ⟨q, hq, rfl⟩ := hc.slot.read_some hp
    rw [hlpa] at hj
    rw [if_neg (by omega)]
    exact h.behind j q hj hq
  · rw [hlpa] at h1
    split
    · rename_i heq
      have := hfew heq
      omega
    · exact h.few h1

/-- The count after one step. -/
def tally (fl : Rounding) (k : Nat) (s : Window × WindowEvent × Window) : Nat :=
  if resets fl s then 0 else k + if repeats s then 1 else 0

section
variable {e : WindowEvent} {pack : Packet}

theorem tally_of_moved (h : w'.LPA ≠ w.LPA) : tally fl k (w, e, w') = 0 := by
  have hne : (w.LPA != w'.LPA) = true := bne_iff_ne.mpr (Ne.symm h)
  rw [tally, resets, hne, Bool.true_or, if_pos rfl]

theorem tally_of_back (h : w.goesBack fl e = true) : tally fl k (w, e, w') = 0 := by
  rw [tally, resets, h, Bool.or_true, if_pos rfl]

theorem tally_of_stayed (hlpa : w'.LPA = w.LPA) (h : w.goesBack fl e = false) :
    tally fl k (w, e, w') = k + if repeats (w, e, w') then 1 else 0 := by
  rw [tally, resets, hlpa, bne_self_eq_false, h, Bool.or_false, if_neg Bool.false_ne_true]

theorem tally_ack (hlpa : w'.LPA = w.LPA) (h : w.goesBack fl (.ack pack) = false) :
    tally fl k (w, .ack pack, w') = k + if (pack.ackNum.toNat : Int) = w.LPA then 1 else 0 := by
  rw [tally_of_stayed hlpa h, repeats]
  simp only [beq_iff_eq]

theorem Counts.ignored (hw : w.Inv) (h : w.Counts k) (h0 : pack.ackNum.toNat = 0) :
    w.Counts (tally fl k (w, .ack pack, w)) := by
  have hstay : w.goesBack fl (.ack pack) = false := by
    have hlt : pack.ackNum < 1 := by
      rw [UInt32.lt_iff_toNat_lt, h0]
      decide
    simp [goesBack, ackBranch, hlt]
  rw [tally_ack rfl hstay, h0]
  refine ⟨fun p hp => ?_, h.behind, fun h1 => ?_⟩
  · have := (hw.vacant _ p hp).1
    rw [if_neg (by omega)]
    exact h.last p hp
  · rw [if_neg (by omega)]
    exact h.few h1

theorem Counts.acked (hw : w.Inv) (h : w.Counts k)
    (hstep : w.next fl (.ack pack) = some w') : w'.Counts (tally fl k (w, .ack pack, w')) := by
  by_cases h0 : pack.ackNum.toNat = 0
  · rw [next_ack (uponReceiveACK_zero h0), Option.some.injEq] at hstep
    subst hstep
    exact h.ignored hw h0
  · have hlt : (pack.ackNum.toNat : Int) < w.LPR := by
      by_contra hbig
      rw [next, uponReceiveACK_beyond hw (by omega)] at hstep
      cases hstep
    obtain ⟨p, w₁, w₂, hp, hc, hack, hres⟩ :=
      uponReceiveACK_spec fl hw (n := pack.ackNum.toNat) rfl (by omega) hlt
    obtain ⟨q, hq, hbranch⟩ := ackBranch_spec hw (n := pack.ackNum.toNat) rfl (by omega) hlt
    rw [hp, Option.some.injEq] at hq
    subst hq
    rw [next_ack hres, Option.some.injEq] at hstep
    subst hstep
    have hlpa := hc.lpa
    have hlps : w₁.LPS = w.LPS := by rw [hc.frame]
    have hle := hw.lpa_le
    cases hack with
    | jump hn =>
      rw [tally_of_moved (by simp only [recount]; omega)]
      exact hc.counts_moved h (by omega) rfl rfl
    | advance hn =>
      rw [tally_of_moved (by simp only [recount]; omega)]
      exact hc.counts_moved h (by omega) rfl rfl
    | duplicate hn h3 =>
      have hstay : w.goesBack fl (.ack pack) = false := by
        rw [goesBack, hbranch, if_neg (by omega), if_neg (by omega), if_pos (by omega),
          if_neg (by omega)]
        rfl
      have hlast := h.last p (by rw [← hlpa, ← hn]; exact hp)
      have hlpa' : (w₁.recount fl).LPA = w.LPA := hlpa
      rw [tally_ack hlpa' hstay]
      exact hc.counts_stayed h (by omega) (by omega) rfl hlpa
    | loss hn h3 hback =>
      have hgo : w.goesBack fl (.ack pack) = true := by
        rw [goesBack, hbranch, if_neg (by omega), if_neg (by omega), if_pos (by omega),
          if_pos (by omega)]
        rfl
      rw [tally_of_back hgo]
      refine hback.counts fun j q hj hq => ?_
      obtain ⟨q', hq', rfl⟩ := hc.slot.read_some hq
      rw [if_neg (by omega)]
      exact h.behind j q' (by omega) hq'
    | stale hn =>
      have hstay : w.goesBack fl (.ack pack) = false := by
        rw [goesBack, hbranch, if_neg (by omega), if_neg (by omega), if_neg (by omega)]
        rfl
      rw [tally_ack hlpa hstay]
      exact hc.counts_stayed h (by omega) (by omega) rfl hlpa

/-- **One call** keeps the count. -/
theorem Counts.next (hw : w.Inv) (h : w.Counts k)
    (hstep : w.next fl e = some w') : w'.Counts (tally fl k (w, e, w')) := by
  cases e with
  | send time =>
    obtain ⟨w₁, ms, hrun, hsent, -⟩ := windowSender_spec time hw
    rw [next_send hrun, Option.some.injEq] at hstep
    subst hstep
    have hlpa : Window.LPA { w₁ with count := 0 } = w.LPA := by
      simp only
      rw [hsent.frame]
    rw [tally_of_stayed hlpa rfl]
    refine h.of_mapped hsent.slot (fun j p => ?_) hlpa
    split <;> rfl
  | timeout now =>
    have hopen := open_of_timeout hw hstep
    obtain ⟨p, -, ⟨-, -, -, -, w₁, hres, hback⟩ | ⟨-, hres⟩⟩ :=
      checkDatapackTimeout_spec fl now hw hopen
    · rw [next_timeout hres, Option.some.injEq] at hstep
      subst hstep
      have hgo : w.goesBack fl (.timeout now) = true := by
        rw [goesBack, hres]
        rfl
      rw [tally_of_back hgo]
      exact hback.counts h.behind
    · rw [next_timeout hres, Option.some.injEq] at hstep
      subst hstep
      have hgo : w.goesBack fl (.timeout now) = false := by
        rw [goesBack, hres]
        rfl
      rw [tally_of_stayed rfl hgo]
      exact h
  | ack pack => exact h.acked hw hstep

end

/-- **A run** leaves as many duplicates counted as it had since the last reset. -/
theorem exec_counts {data : List UInt8} {len : Nat} {w₀ : Window} {es : List WindowEvent}
    (hload : Window.Loaded data len w₀) (hrun : exec (next fl) w₀ es = some w) :
    w.Inv ∧ w.Counts (duplicates fl w₀ es) := by
  refine exec_history (fun hist w => w.Inv ∧ w.Counts (countSince (resets fl) repeats hist)) ?_
    ⟨hload.inv, hload.counts⟩ hrun
  rintro hist s e t ⟨hs, hcount⟩ hstep
  refine ⟨next_inv hs hstep, ?_⟩
  rw [countSince_concat]
  exact hcount.next hs hstep

end Window

open Window in
/-- **Duplicate ACKs are counted exactly.** After any run on a window, `upon_receive_ACK` takes its
loss branch on an ACK exactly if it is the third one of `LPA` since `LPA` took its value or the
window last went back; the loss branch goes back to `LPA`, and no other branch takes back what was
sent or changes the threshold. -/
theorem loss_iff_third_duplicate {fl : Rounding} {data : List UInt8} {len : Nat} {w₀ w : Window}
    {es : List WindowEvent} (hload : Window.Loaded data len w₀)
    (hrun : exec (Window.next fl) w₀ es = some w) (ack : Packet) (h1 : 1 ≤ ack.ackNum.toNat)
    (hlast : (ack.ackNum.toNat : Int) ≤ w.LPR - 1) :
    ∃ b w' r, ackBranch ack w = some b ∧ uponReceiveACK fl ack w = some (w', r) ∧
      (b = .loss ↔ (ack.ackNum.toNat : Int) = w.LPA ∧ duplicates fl w₀ es = 2) ∧
      (b = .loss → w'.congwinSize = 1 ∧ w'.LPA = w.LPA ∧ w'.LPS = w.LPA ∧
        w'.ssthresh = max 2 (truncToInt (fl.rnd (w.congwinSize / 2)))) ∧
      (b ≠ .loss → w'.ssthresh = w.ssthresh ∧ w.LPS ≤ w'.LPS) ∧
      ((ack.ackNum.toNat : Int) < w.LPA → b ≠ .loss) := by
  obtain ⟨hw, hcount⟩ := exec_counts hload hrun
  have hle := hw.lpa_le
  obtain ⟨p, w₁, w', hp, hc, hack, hres⟩ :=
    uponReceiveACK_spec fl hw (n := ack.ackNum.toNat) rfl (by omega) (by omega)
  obtain ⟨q, hq, hbranch⟩ := ackBranch_spec hw (n := ack.ackNum.toNat) rfl (by omega) (by omega)
  rw [hp, Option.some.injEq] at hq
  subst hq
  have hlpa := hc.lpa
  have hlps : w₁.LPS = w.LPS := by rw [hc.frame]
  have hssthresh : w₁.ssthresh = w.ssthresh := by rw [hc.frame]
  have hcongwin : w₁.congwinSize = w.congwinSize := by rw [hc.frame]
  refine ⟨_, w', _, hbranch, hres, ?_⟩
  -- the branches that do not go back
  have hother : ∀ b : AckBranch, b ≠ .loss →
      ¬ ((ack.ackNum.toNat : Int) = w.LPA ∧ duplicates fl w₀ es = 2) →
      w'.ssthresh = w.ssthresh ∧ w.LPS ≤ w'.LPS →
      (b = .loss ↔ (ack.ackNum.toNat : Int) = w.LPA ∧ duplicates fl w₀ es = 2) ∧
        (b = .loss → w'.congwinSize = 1 ∧ w'.LPA = w.LPA ∧ w'.LPS = w.LPA ∧
          w'.ssthresh = max 2 (truncToInt (fl.rnd (w.congwinSize / 2)))) ∧
        (b ≠ .loss → w'.ssthresh = w.ssthresh ∧ w.LPS ≤ w'.LPS) ∧
        ((ack.ackNum.toNat : Int) < w.LPA → b ≠ .loss) :=
    fun b hb hthird hkeep => ⟨⟨fun h => absurd h hb, fun h => absurd h hthird⟩,
      fun h => absurd h hb, fun _ => hkeep, fun _ => hb⟩
  cases hack with
  | jump hn =>
    rw [if_pos (by omega)]
    exact hother _ (by decide) (by omega) ⟨hssthresh, by simp only [recount]; omega⟩
  | advance hn =>
    rw [if_neg (by omega), if_pos (by omega)]
    exact hother _ (by decide) (by omega) ⟨hssthresh, le_of_eq hlps.symm⟩
  | duplicate hn h3 =>
    have hcounted := hcount.last p (by rw [← hlpa, ← hn]; exact hp)
    rw [if_neg (by omega), if_neg (by omega), if_pos (by omega), if_neg (by omega)]
    exact hother _ (by decide) (by omega) ⟨hssthresh, le_of_eq hlps.symm⟩
  | loss hn h3 hback =>
    have hcounted := hcount.last p (by rw [← hlpa, ← hn]; exact hp)
    have hfew := hcount.few (by omega)
    rw [if_neg (by omega), if_neg (by omega), if_pos (by omega), if_pos (by omega)]
    refine ⟨⟨fun _ => by omega, fun _ => rfl⟩, fun _ => ⟨by rw [hback.frame], ?_, ?_, ?_⟩,
      fun h => absurd rfl h, fun h => by omega⟩
    · rw [hback.frame, ← hlpa]
    · rw [hback.frame, ← hlpa]
    · rw [hback.ssthresh, hcongwin]
  | stale hn =>
    rw [if_neg (by omega), if_neg (by omega), if_neg (by omega)]
    exact hother _ (by decide) (by omega) ⟨hssthresh, le_of_eq hlps.symm⟩

/-- One packet is acknowledged four times: the first ACK moves `LPA`, the third duplicate makes the
window go back. -/
theorem fourth_ack_goes_back :
    ∃ w₀ w w' : Window, ∃ r, Window.Loaded [7] 1 w₀ ∧
      exec (Window.next .exact) w₀
        (.send (fun _ => 1) :: List.replicate 3 (.ack (formAckPack 1))) = some w ∧
      ackBranch (formAckPack 1) w = some .loss ∧
      uponReceiveACK .exact (formAckPack 1) w = some (w', r) ∧ w'.congwinSize = 1 := by
  have hrun : ((p2pSender [7] (createSW (Vector.replicate hashSize 0) ⟨0, 0⟩) 1).bind fun r =>
      (exec (Window.next .exact) r.1
        (.send (fun _ => 1) :: List.replicate 3 (.ack (formAckPack 1)))).map fun w =>
          (w.LPA, w.LPR, Window.duplicates .exact r.1
            (.send (fun _ => 1) :: List.replicate 3 (.ack (formAckPack 1))))) =
      some (1, 2, 2) := by
    decide +kernel
  rw [Option.bind_eq_some_iff] at hrun
  obtain ⟨⟨w₀, r₀⟩, hload, hrun⟩ := hrun
  rw [Option.map_eq_some_iff] at hrun
  obtain ⟨w, hexec, hrun⟩ := hrun
  simp only [Prod.mk.injEq] at hrun
  obtain ⟨hlpa, hlpr, hdup⟩ := hrun
  have hloaded : Window.Loaded [7] 1 w₀ := ⟨le_refl 1, _, _, r₀, hload⟩
  have hnum : (formAckPack 1).ackNum.toNat = 1 := rfl
  obtain ⟨b, w', r, hbranch, hres, hthird, hback, -⟩ :=
    loss_iff_third_duplicate hloaded hexec (formAckPack 1) (le_of_eq hnum.symm) (by omega)
  have hloss : b = .loss := hthird.mpr ⟨by omega, hdup⟩
  rw [hloss] at hbranch
  exact ⟨w₀, w, w', r, hloaded, hexec, hbranch, hres, (hback hloss).1⟩

end P2P
