import P2P.Transfer.Window

/-!
# What the window operations do

`Window.Inv` is the invariant of the pointers and slots: `0 ≤ LPA ≤ LPS ≤ LPR - 1
≤ 512`, and the slots that hold a packet are `1 .. LPR - 1`. Each operation has
one lemma that says everything it can do on such a window:

* `p2pLoop_spec`, `p2pSender_spec`: the packets put into the window;
* `windowSender_spec`: the packets sent, in order (`Window.Sent`);
* `checkDatapackTimeout_spec`: nothing, or a go-back (`Window.WentBack`);
* `uponReceiveACK_spec`: the five reactions to an ACK (`Window.Acked`).

No operation changes the data of a packet in the window (`Window.SameData`).
-/

namespace P2P

open Lib

/-! ## Packets up to the sender's private fields -/

/-- A packet without the sender's private fields. -/
def Packet.core (p : Packet) : Packet := { p with timestamp := 0, ackedNum := 0 }

theorem Packet.onWire_core (p : Packet) : p.core.onWire = p.onWire := rfl

theorem Packet.serialisable_core (p : Packet) : p.core.Serialisable ↔ p.Serialisable := Iff.rfl

theorem Packet.Serialisable.of_core {p q : Packet} (h : p.Serialisable) (hc : q.core = p.core) :
    q.Serialisable := by
  rw [← Packet.serialisable_core, hc]
  exact h

/-! ## The invariant -/

namespace Window

structure Inv (w : Window) : Prop where
  lpa_nonneg : 0 ≤ w.LPA
  lpa_le : w.LPA ≤ w.LPS
  lps_lt : w.LPS < w.LPR
  lpr_le : w.LPR ≤ 513
  filled : ∀ i, 1 ≤ i → i < w.LPR → ∃ p, w.senderBuf.read i = some p ∧ p.Serialisable
  vacant : ∀ i p, w.senderBuf.read i = some p → 1 ≤ i ∧ i < w.LPR

/-- `w'` has the packets of `w`, up to timestamps and ACK counts. -/
structure SameData (w w' : Window) : Prop where
  hash : w'.hash = w.hash
  dst : w'.dst = w.dst
  lpr : w'.LPR = w.LPR
  slots : ∀ i, (w'.senderBuf.read i).map Packet.core = (w.senderBuf.read i).map Packet.core

theorem SameData.refl (w : Window) : SameData w w := ⟨rfl, rfl, rfl, fun _ => rfl⟩

theorem SameData.trans {w w' w'' : Window} (h : SameData w w') (h' : SameData w' w'') :
    SameData w w'' :=
  ⟨h'.hash.trans h.hash, h'.dst.trans h.dst, h'.lpr.trans h.lpr,
    fun i => (h'.slots i).trans (h.slots i)⟩

theorem SameData.of_mapped {w w' : Window} {f : Int → Packet → Packet}
    (hm : w.senderBuf.Mapped w'.senderBuf f) (hf : ∀ j p, (f j p).core = p.core)
    (hhash : w'.hash = w.hash) (hdst : w'.dst = w.dst) (hlpr : w'.LPR = w.LPR) : SameData w w' := by
  refine ⟨hhash, hdst, hlpr, fun i => ?_⟩
  rw [hm i, Option.map_map]
  congr 1
  funext p
  exact hf i p

theorem SameData.read {w w' : Window} (h : SameData w w') {i : Int} {p : Packet}
    (hp : w'.senderBuf.read i = some p) :
    ∃ q, w.senderBuf.read i = some q ∧ p.core = q.core := by
  have hi := h.slots i
  rw [hp, Option.map_some] at hi
  obtain ⟨q, hq, hc⟩ := Option.map_eq_some_iff.mp hi.symm
  exact ⟨q, hq, hc.symm⟩

theorem SameData.symm {w w' : Window} (h : SameData w w') : SameData w' w :=
  ⟨h.hash.symm, h.dst.symm, h.lpr.symm, fun i => (h.slots i).symm⟩

/-- The slots keep their part of the invariant, so only the pointers are left to check. -/
theorem Inv.of_sameData {w w' : Window} (hw : w.Inv) (h : SameData w w') (h0 : 0 ≤ w'.LPA)
    (h1 : w'.LPA ≤ w'.LPS) (h2 : w'.LPS < w'.LPR) : w'.Inv := by
  refine ⟨h0, h1, h2, by rw [h.lpr]; exact hw.lpr_le, fun i hi1 hi2 => ?_, fun i p hp => ?_⟩
  · rw [h.lpr] at hi2
    obtain ⟨p, hp, hser⟩ := hw.filled i hi1 hi2
    obtain ⟨q, hq, hc⟩ := h.symm.read hp
    exact ⟨q, hq, hser.of_core hc.symm⟩
  · obtain ⟨q, hq, -⟩ := h.read hp
    rw [h.lpr]
    exact hw.vacant i q hq

end Window

/-! ## Filling the window -/

/-- Payload bytes of the `k`-th packet of `len` bytes. -/
def blockLen (len k : Nat) : Nat := min ploadLen (len - ploadLen * k)

/-- The `k`-th data packet of `data[0..len)`, with number `i`. -/
def blockPack (data : List UInt8) (len k : Nat) (i : Int) : Packet :=
  formDataPack (data.drop (ploadLen * k)) (blockLen len k) i

theorem addPacket_spec (data : List UInt8) (countlen n : Nat) (sw : Window)
    (hd : countlen + n ≤ data.length) (h0 : 0 ≤ sw.LPR) (h1 : sw.LPR < 514) :
    ∃ buf, addPacket data countlen n sw = some { sw with senderBuf := buf, LPR := sw.LPR + 1 } ∧
      ∀ i, buf.read i =
        if i = sw.LPR then some (formDataPack (data.drop countlen) n i)
        else sw.senderBuf.read i := by
  obtain ⟨buf, hbuf⟩ := sw.senderBuf.exists_write h0 h1
    (some (formDataPack (data.drop countlen) n sw.LPR))
  refine ⟨buf, by rw [addPacket, if_pos hd, hbuf]; rfl, fun i => ?_⟩
  rw [Slots.read_write hbuf]
  split
  · rename_i hi
    rw [hi]
  · rfl

/-- `w'` is `w` with `m` packets of `data[0..len)` added, the first of them the `k`-th, and `r`
bytes are in the window by then. -/
structure Window.Added (data : List UInt8) (len k : Nat) (w w' : Window) (r m : Nat) : Prop where
  frame : w' = { w with LPR := w.LPR + m, senderBuf := w'.senderBuf }
  slot : ∀ i, w'.senderBuf.read i =
    if w.LPR ≤ i ∧ i < w.LPR + m then some (blockPack data len (k + (i - w.LPR).toNat) i)
    else w.senderBuf.read i
  room : w.LPR + m ≤ 513
  bytes : r = min len (ploadLen * (k + m))
  full : w.LPR + m = 513 ∨ r = len

namespace Window.Added

variable {data : List UInt8} {len k r m : Nat} {w w₁ w' : Window}

theorem zero (h513 : w.LPR = 513) (hk : ploadLen * k ≤ len) :
    Window.Added data len k w w (ploadLen * k) 0 := by
  refine ⟨by simp, fun i => ?_, by omega, ?_, .inl (by omega)⟩
  · rw [if_neg (by omega)]
  · rw [Nat.add_zero, Nat.min_eq_right hk]

theorem succ (h : Window.Added data len (k + 1) w₁ w' r m) (h1 : w₁.LPR = w.LPR + 1)
    (hfr : w₁ = { w with LPR := w.LPR + 1, senderBuf := w₁.senderBuf })
    (hslot : ∀ i, w₁.senderBuf.read i =
      if i = w.LPR then some (blockPack data len k i) else w.senderBuf.read i) :
    Window.Added data len k w w' r (m + 1) := by
  have hm : w₁.LPR + m = w.LPR + (m + 1 : Nat) := by push_cast; omega
  refine ⟨?_, fun i => ?_, by rw [← hm]; exact h.room, ?_, by rw [← hm]; exact h.full⟩
  · rw [h.frame, hm, hfr]
  · rw [h.slot i, hslot i, hm, h1]
    by_cases hi : i = w.LPR
    · subst hi
      rw [if_neg (by omega), if_pos rfl, if_pos (by omega)]
      simp
    · by_cases hin : w.LPR + 1 ≤ i ∧ i < w.LPR + (m + 1 : Nat)
      · rw [if_pos hin, if_pos (by omega), show k + 1 + (i - (w.LPR + 1)).toNat =
          k + (i - w.LPR).toNat by omega]
      · rw [if_neg hin, if_neg hi, if_neg (by omega)]
  · rw [h.bytes, Nat.add_right_comm k 1 m, Nat.add_assoc]

theorem last (hle : w.LPR + 1 ≤ 513) (hlen : len ≤ ploadLen * (k + 1))
    (hfr : w' = { w with LPR := w.LPR + 1, senderBuf := w'.senderBuf })
    (hslot : ∀ i, w'.senderBuf.read i =
      if i = w.LPR then some (blockPack data len k i) else w.senderBuf.read i) :
    Window.Added data len k w w' len 1 := by
  refine ⟨hfr, fun i => ?_, by exact_mod_cast hle, (Nat.min_eq_left hlen).symm, .inr rfl⟩
  rw [hslot i]
  by_cases hi : i = w.LPR
  · subst hi
    simp
  · rw [if_neg hi, if_neg (by omega)]

end Window.Added

theorem p2pLoop_spec {data : List UInt8} {len : Nat} (hdata : len ≤ data.length) :
    ∀ (fuel k : Nat) (sw : Window), 1 ≤ sw.LPR → sw.LPR ≤ 513 → (k = 0 ∨ ploadLen * k < len) →
      len - ploadLen * k < fuel →
      ∃ sw' r m, p2pLoop data len fuel (ploadLen * k) sw = some (sw', r) ∧
        Window.Added data len k sw sw' r m := by
  have hpl : ploadLen = 1024 := rfl
  have hsz : senderBufSize = 514 := rfl
  intro fuel
  induction fuel with
  | zero => intro k sw _ _ _ h; omega
  | succ fuel ih =>
    intro k sw h1 hle hk hfuel
    have hk' : ploadLen * k ≤ len := by rcases hk with rfl | h <;> omega
    rw [p2pLoop]
    split
    · rename_i hmore
      split
      · exact ⟨sw, _, 0, rfl, .zero (by omega) hk'⟩
      · obtain ⟨buf, hadd, hbuf⟩ := addPacket_spec data (ploadLen * k) ploadLen sw
          (by omega) (by omega) (by omega)
        have hblock : blockLen len k = ploadLen := Nat.min_eq_left (by omega)
        obtain ⟨sw', r, m, hrun, hres⟩ := ih (k + 1) { sw with senderBuf := buf, LPR := sw.LPR + 1 }
          (by simp only; omega) (by simp only; omega) (.inr (by rw [Nat.mul_succ]; omega))
          (by rw [Nat.mul_succ]; omega)
        refine ⟨sw', r, m + 1, ?_, hres.succ rfl rfl fun i => ?_⟩
        · rw [hadd, Option.bind_some]
          exact hrun
        · rw [hbuf i, blockPack, hblock]
    · rename_i hless
      split
      · exact ⟨sw, _, 0, rfl, .zero (by omega) hk'⟩
      · obtain ⟨buf, hadd, hbuf⟩ := addPacket_spec data (ploadLen * k)
          (len - ploadLen * k) sw (by omega) (by omega) (by omega)
        have hblock : blockLen len k = len - ploadLen * k := Nat.min_eq_right (by omega)
        refine ⟨_, len, 1, by rw [hadd]; rfl, .last (by omega) (by rw [Nat.mul_succ]; omega) rfl
          fun i => ?_⟩
        rw [hbuf i, blockPack, hblock]

/-- **`p2p_sender`** puts the packets of `data[0..len)` behind those already in the window. -/
theorem p2pSender_spec {data : List UInt8} {len : Nat} (sw : Window) (hdata : len ≤ data.length)
    (h1 : 1 ≤ sw.LPR) (hle : sw.LPR ≤ 513) :
    ∃ sw' r m, p2pSender data sw len = some (sw', r) ∧ Window.Added data len 0 sw sw' r m :=
  p2pLoop_spec hdata (len + 1) 0 sw h1 hle (.inl rfl) (by omega)

theorem blockLen_le (len k : Nat) : blockLen len k ≤ 1024 := Nat.min_le_left ..

theorem blockPack_serialisable {data : List UInt8} {len k : Nat} {i : Int}
    (hdata : len ≤ data.length) : (blockPack data len k i).Serialisable := by
  refine formDataPack_serialisable ?_ (blockLen_le len k)
  have : blockLen len k ≤ len - ploadLen * k := Nat.min_le_right ..
  rw [List.length_drop]
  omega

theorem inv_createSW (hash : Hash) (dst : SockAddr) : (createSW hash dst).Inv := by
  refine ⟨le_refl 0, le_refl 0, ?_, ?_, fun i h1 h2 => ?_, fun i p hp => ?_⟩
  · simp [createSW]
  · simp [createSW]
  · simp only [createSW] at h2
    omega
  · simp [createSW] at hp

/-- **A fresh window.** `create_SW` and `p2p_sender` establish the invariant, with nothing sent. -/
theorem Window.Added.inv {data : List UInt8} {len r m : Nat} {hash : Hash} {dst : SockAddr}
    {w : Window} (h : Window.Added data len 0 (createSW hash dst) w r m)
    (hdata : len ≤ data.length) : w.Inv := by
  have hlpr : w.LPR = 1 + m := by rw [h.frame]; rfl
  have hslot : ∀ i, w.senderBuf.read i =
      if 1 ≤ i ∧ i < 1 + m then some (blockPack data len (0 + (i - 1).toNat) i) else none := by
    intro i
    rw [h.slot i]
    simp [createSW]
  have hroom := h.room
  have hlpa : w.LPA = 0 := by rw [h.frame]; rfl
  have hlps : w.LPS = 0 := by rw [h.frame]; rfl
  simp only [createSW] at hroom
  refine ⟨by omega, by omega, by omega, by omega, fun i h1 h2 => ?_, fun i p hp => ?_⟩
  · rw [hslot i, if_pos (by omega)]
    exact ⟨_, rfl, blockPack_serialisable hdata⟩
  · rw [hslot i] at hp
    split at hp
    · omega
    · cases hp

/-! ## Sending -/

/-- `w'` is `w` after the next `ms.length` packets were sent as `ms`, the `j`-th of them stamped
`time (i + j)`. -/
structure Window.Sent (time : Nat → Int) (i : Nat) (w w' : Window) (ms : List Packet) : Prop where
  frame : w' = { w with LPS := w.LPS + ms.length, senderBuf := w'.senderBuf }
  slot : w.senderBuf.Mapped w'.senderBuf fun j p =>
    if w.LPS < j ∧ j ≤ w.LPS + ms.length then
      { p with timestamp := time (i + (j - w.LPS - 1).toNat) }
    else p
  msgs : ∀ j, j < ms.length →
    ∃ p, w.senderBuf.read (w.LPS + 1 + j) = some p ∧ ms[j]? = some p.onWire

namespace Window.Sent

variable {time : Nat → Int} {i : Nat} {w w₁ w' : Window} {ms : List Packet}

theorem nil : Window.Sent time i w w [] := by
  refine ⟨by simp, fun j => ?_, by simp⟩
  have : ¬ (w.LPS < j ∧ j ≤ w.LPS) := by omega
  simp [this]

theorem cons {p : Packet} (hp : w.senderBuf.read (w.LPS + 1) = some p)
    (hfr : w₁ = { w with LPS := w.LPS + 1, senderBuf := w₁.senderBuf })
    (hmap : w.senderBuf.Mapped w₁.senderBuf fun j q =>
      if j = w.LPS + 1 then { q with timestamp := time i } else q)
    (h : Window.Sent time (i + 1) w₁ w' ms) : Window.Sent time i w w' (p.onWire :: ms) := by
  have hlps : w₁.LPS = w.LPS + 1 := by rw [hfr]
  have hlen : w₁.LPS + ms.length = w.LPS + (p.onWire :: ms).length := by
    simp only [List.length_cons]
    push_cast
    omega
  refine ⟨?_, fun j => ?_, fun j hj => ?_⟩
  · rw [h.frame, hlen, hfr]
  · rw [h.slot j, hmap j, Option.map_map, hlen]
    congr 1
    funext q
    simp only [Function.comp_apply, hlps]
    by_cases hj : j = w.LPS + 1
    · subst hj
      rw [if_pos rfl, if_neg (by omega), if_pos (by simp only [List.length_cons]; omega)]
      simp
    · rw [if_neg hj]
      by_cases hin : w.LPS + 1 < j ∧ j ≤ w.LPS + (p.onWire :: ms).length
      · rw [if_pos hin, if_pos (by omega),
          show i + 1 + (j - (w.LPS + 1) - 1).toNat = i + (j - w.LPS - 1).toNat by omega]
      · rw [if_neg hin, if_neg (by omega)]
  · cases j with
    | zero => exact ⟨p, by simpa using hp, rfl⟩
    | succ j =>
      obtain ⟨q, hq, hm⟩ := h.msgs j (by simpa using hj)
      obtain ⟨q', hq', rfl⟩ := hmap.read_some hq
      refine ⟨q', ?_, ?_⟩
      · rw [← hq', hlps]
        congr 1
        push_cast
        omega
      · rw [List.getElem?_cons_succ, hm]
        split <;> rfl

theorem mem (h : Window.Sent time i w w' ms) {m : Packet} (hm : m ∈ ms) :
    ∃ j p, w.LPS < j ∧ j ≤ w.LPS + ms.length ∧ w.senderBuf.read j = some p ∧ m = p.onWire := by
  obtain ⟨k, hk, rfl⟩ := List.mem_iff_getElem.mp hm
  obtain ⟨p, hp, hget⟩ := h.msgs k hk
  rw [List.getElem?_eq_getElem hk, Option.some.injEq] at hget
  exact ⟨_, p, by omega, by omega, hp, hget⟩

theorem sameData (h : Window.Sent time i w w' ms) : Window.SameData w w' := by
  refine .of_mapped h.slot (fun j p => ?_) (by rw [h.frame]) (by rw [h.frame]) (by rw [h.frame])
  split <;> rfl

theorem lps (h : Window.Sent time i w w' ms) : w'.LPS = w.LPS + ms.length := by rw [h.frame]

end Window.Sent

theorem sendLoop_spec (time : Nat → Int) :
    ∀ (n i : Nat) (w : Window), w.Inv →
      ∃ w' ms, sendLoop time n i w = some (w', ms, i + ms.length) ∧ Window.Sent time i w w' ms ∧
        (ms.length : Int) = min (n : Int) (w.LPR - 1 - w.LPS) := by
  have hsz : senderBufSize = 514 := rfl
  intro n
  induction n with
  | zero =>
    intro i w hw
    have hlt := hw.lps_lt
    exact ⟨w, [], rfl, .nil, by simp only [List.length_nil]; omega⟩
  | succ n ih =>
    intro i w hw
    have hlt := hw.lps_lt
    have hnn := hw.lpa_nonneg
    have hle := hw.lpa_le
    have h513 := hw.lpr_le
    rw [sendLoop]
    split
    · rename_i hend
      exact ⟨w, [], rfl, .nil, by simp only [List.length_nil]; omega⟩
    · obtain ⟨p, hp, hser⟩ := hw.filled (w.LPS + 1) (by omega) (by omega)
      obtain ⟨buf, hbuf⟩ := w.senderBuf.exists_write (i := w.LPS + 1) (by omega) (by omega)
        (some { p with timestamp := time i })
      have hmap :=
        Slots.mapped_write (f := fun q : Packet => { q with timestamp := time i }) hp hbuf
      let w₁ : Window := { w with LPS := w.LPS + 1, senderBuf := buf }
      have hdata : Window.SameData w w₁ := .of_mapped hmap (fun j q => by split <;> rfl) rfl rfl rfl
      have hw₁ : w₁.Inv :=
        hw.of_sameData hdata hnn (by simp only [w₁]; omega) (by simp only [w₁]; omega)
      obtain ⟨w', ms, hrun, hsent, hcnt⟩ := ih (i + 1) w₁ hw₁
      refine ⟨w', p.onWire :: ms, ?_, hsent.cons hp rfl hmap, ?_⟩
      · rw [hp, Option.bind_some, sendPack_eq hser, Option.bind_some, hbuf, Option.bind_some, hrun]
        simp only [Option.map_some, List.length_cons]
        congr 3
        omega
      · simp only [List.length_cons, w₁] at hcnt ⊢
        push_cast
        omega

/-- **`window_sender`** sends `count` packets, or all that are left, and clears `count`. -/
theorem windowSender_spec (time : Nat → Int) {w : Window} (hw : w.Inv) :
    ∃ w' ms, windowSender time w = some ({ w' with count := 0 }, ms, ms.length) ∧
      Window.Sent time 0 w w' ms ∧
      (ms.length : Int) = min (w.count.toNat : Int) (w.LPR - 1 - w.LPS) := by
  rw [windowSender]
  split
  · rename_i h0
    have hwin : ({ w with count := 0 } : Window) = w := by rw [← h0]
    have hlt := hw.lps_lt
    refine ⟨w, [], ?_, .nil, by simp only [List.length_nil]; omega⟩
    rw [hwin]
    rfl
  · obtain ⟨w', ms, hrun, hsent, hcnt⟩ := sendLoop_spec time w.count.toNat 0 w hw
    refine ⟨w', ms, ?_, hsent, hcnt⟩
    rw [hrun]
    simp

/-! ## Going back and advancing -/

variable {fl : Rounding}

/-- `w'` is `w` after a loss: one packet may be sent, the one behind the last acknowledged. -/
structure Window.WentBack (fl : Rounding) (w w' : Window) : Prop where
  frame : w' = { w with
    ssthresh := w'.ssthresh, congwinSize := 1, LPS := w.LPA, count := 1, senderBuf := w'.senderBuf }
  ssthresh : w'.ssthresh = max 2 (truncToInt (fl.rnd (w.congwinSize / 2)))
  slot : w.senderBuf.Mapped w'.senderBuf fun j p =>
    if j = w.LPA then { p with ackedNum := 1 } else p

theorem Window.WentBack.sameData {w w' : Window} (h : Window.WentBack fl w w') :
    Window.SameData w w' := by
  refine .of_mapped h.slot (fun j p => ?_) (by rw [h.frame]) (by rw [h.frame]) (by rw [h.frame])
  split <;> rfl

theorem Window.room_of_eq {w : Window} (h : w.LPS = w.LPA) :
    w.room fl = truncToInt (fl.rnd w.congwinSize) := by
  rw [Window.room, h, sub_self, Int.cast_zero, fl.zero, sub_zero]

theorem goBack_spec (fl : Rounding) {w : Window} (hw : w.Inv) (h1 : 1 ≤ w.LPA) :
    ∃ w', goBack fl w = some w' ∧ Window.WentBack fl w w' := by
  have hsz : senderBufSize = 514 := rfl
  have hle := hw.lpa_le
  have hlt := hw.lps_lt
  have h513 := hw.lpr_le
  obtain ⟨p, hp, -⟩ := hw.filled w.LPA h1 (by omega)
  obtain ⟨buf, hbuf⟩ := w.senderBuf.exists_write (i := w.LPA) (by omega) (by omega)
    (some { p with ackedNum := 1 })
  have hmap := Slots.mapped_write (f := fun q : Packet => { q with ackedNum := 1 }) hp hbuf
  have hrun : goBack fl w = some (Window.recount fl { w with
      ssthresh := if truncToInt (fl.rnd (w.congwinSize / 2)) < 2 then 2
        else truncToInt (fl.rnd (w.congwinSize / 2))
      congwinSize := 1, LPS := w.LPA, senderBuf := buf }) := by
    rw [goBack]
    simp only [hp, hbuf, Option.bind_some, Option.map_some]
  refine ⟨_, hrun, ?_, ?_, hmap⟩
  · rw [Window.recount, Window.room_of_eq rfl]
    simp only [fl.one, truncToInt_one]
  · simp only [Window.recount]
    omega

/-- **`check_datapack_timeout`** goes back if packet `LPA + 1` is in flight for too long, unless it
is the first packet; else it changes nothing. -/
theorem checkDatapackTimeout_spec (fl : Rounding) (now : Int) {w : Window} (hw : w.Inv)
    (hlt : w.LPA < w.LPR - 1) :
    ∃ p, w.senderBuf.read (w.LPA + 1) = some p ∧
      ((0 < p.timestamp ∧ 1 ≤ w.LPA ∧ w.LPA < w.LPS ∧ timeoutSec < now - p.timestamp ∧
          ∃ w', checkDatapackTimeout fl now w = some (w', 1) ∧ Window.WentBack fl w w') ∨
        (¬ (0 < p.timestamp ∧ 1 ≤ w.LPA ∧ w.LPA < w.LPS ∧ timeoutSec < now - p.timestamp) ∧
          checkDatapackTimeout fl now w = some (w, 0))) := by
  have h0 := hw.lpa_nonneg
  obtain ⟨p, hp, -⟩ := hw.filled (w.LPA + 1) (by omega) (by omega)
  refine ⟨p, hp, ?_⟩
  rw [checkDatapackTimeout]
  simp only [hp, Option.bind_some]
  by_cases ht : p.timestamp ≤ 0
  · exact .inr ⟨by omega, if_pos ht⟩
  · rw [if_neg ht]
    by_cases hi : w.LPS < w.LPA + 1 ∨ w.LPA + 1 = 1
    · exact .inr ⟨by omega, if_pos hi⟩
    · rw [if_neg hi]
      by_cases hel : timeoutSec < now - p.timestamp
      · obtain ⟨w', hgo, hback⟩ := goBack_spec fl hw (by omega)
        refine .inl ⟨by omega, by omega, by omega, hel, w', ?_, hback⟩
        rw [if_pos hel, hgo]
        rfl
      · exact .inr ⟨fun h => hel h.2.2.2, if_neg hel⟩

/-- `w'` is `w` with one more ACK counted for packet `n`. -/
structure Window.Counted (n : Int) (w w' : Window) : Prop where
  frame : w' = { w with senderBuf := w'.senderBuf }
  slot : w.senderBuf.Mapped w'.senderBuf fun j p =>
    if j = n then { p with ackedNum := p.ackedNum + 1 } else p

theorem Window.Counted.sameData {n : Int} {w w' : Window} (h : Window.Counted n w w') :
    Window.SameData w w' := by
  refine .of_mapped h.slot (fun j p => ?_) (by rw [h.frame]) (by rw [h.frame]) (by rw [h.frame])
  split <;> rfl

theorem Window.Counted.lpa {n : Int} {w w' : Window} (h : Window.Counted n w w') :
    w'.LPA = w.LPA := by
  rw [h.frame]

theorem Window.Counted.inv {n : Int} {w w' : Window} (hw : w.Inv) (h : Window.Counted n w w') :
    w'.Inv := by
  refine hw.of_sameData h.sameData ?_ ?_ ?_ <;> rw [h.frame]
  · exact hw.lpa_nonneg
  · exact hw.lpa_le
  · exact hw.lps_lt

theorem countACK_spec {w : Window} (hw : w.Inv) {n : Int} (h1 : 1 ≤ n) (hn : n < w.LPR) :
    ∃ p w', w.senderBuf.read n = some p ∧ countACK w n = some (w', p.ackedNum + 1) ∧
      Window.Counted n w w' := by
  have hsz : senderBufSize = 514 := rfl
  have h513 := hw.lpr_le
  obtain ⟨p, hp, -⟩ := hw.filled n h1 hn
  obtain ⟨buf, hbuf⟩ := w.senderBuf.exists_write (i := n) (by omega) (by omega)
    (some { p with ackedNum := p.ackedNum + 1 })
  refine ⟨p, { w with senderBuf := buf }, hp, ?_, rfl,
    Slots.mapped_write (f := fun q : Packet => { q with ackedNum := q.ackedNum + 1 }) hp hbuf⟩
  rw [countACK, hp, Option.bind_some, hbuf]
  rfl

/-- The reactions to an ACK of packet `n`, which now has `ackedNum` ACKs. -/
inductive Window.Acked (fl : Rounding) (n : Int) (w : Window) (ackedNum : Int) : Window → Prop
  | jump : w.LPS < n → Acked fl n w ackedNum
      (Window.recount fl { w with LPA := n, LPS := n, congwinSize := fl.rnd (w.congwinSize + 1) })
  | advance : w.LPA < n → n ≤ w.LPS → Acked fl n w ackedNum
      (Window.recount fl { w with LPA := n, congwinSize := w.grow fl (n - w.LPA) })
  | duplicate : n = w.LPA → ackedNum ≤ 3 → Acked fl n w ackedNum (w.recount fl)
  | loss {w' : Window} : n = w.LPA → 3 < ackedNum → Window.WentBack fl w w' →
      Acked fl n w ackedNum w'
  | stale : n < w.LPA → Acked fl n w ackedNum w

theorem uponReceiveACK_zero {ack : Packet} {w : Window} (h : ack.ackNum.toNat = 0) :
    uponReceiveACK fl ack w = some (w, truncToInt w.congwinSize) := by
  have h1 : ack.ackNum < 1 := by
    rw [UInt32.lt_iff_toNat_lt, h]
    decide
  rw [uponReceiveACK]
  exact if_pos h1

/-- An ACK of a packet that is not in the window makes the code follow a `NULL` pointer, or read
outside `sender_buf`. -/
theorem uponReceiveACK_beyond {ack : Packet} {w : Window} (hw : w.Inv)
    (h : w.LPR ≤ ack.ackNum.toNat) : uponReceiveACK fl ack w = none := by
  have h0 := hw.lpa_nonneg
  have hle := hw.lpa_le
  have hlt := hw.lps_lt
  have h1 : ¬ ack.ackNum < 1 := by
    rw [UInt32.lt_iff_toNat_lt]
    simp only [UInt32.toNat_one]
    omega
  have hnone : w.senderBuf.read ack.ackNum.toNat = none := by
    apply Option.eq_none_iff_forall_ne_some.mpr
    intro p hp
    have := (hw.vacant _ p hp).2
    omega
  rw [uponReceiveACK]
  simp only [if_neg h1, countACK, hnone, Option.bind_none]

/-- **`upon_receive_ACK`** on the number of a packet in the window. -/
theorem uponReceiveACK_spec (fl : Rounding) {ack : Packet} {w : Window} (hw : w.Inv) {n : Int}
    (hn : (ack.ackNum.toNat : Int) = n) (h1 : 1 ≤ n) (hlt : n < w.LPR) :
    ∃ p w₁ w', w.senderBuf.read n = some p ∧ Window.Counted n w w₁ ∧
      Window.Acked fl n w₁ (p.ackedNum + 1) w' ∧
      uponReceiveACK fl ack w = some (w', truncToInt w'.congwinSize) := by
  have h0 := hw.lpa_nonneg
  have hle := hw.lpa_le
  have hlps := hw.lps_lt
  have h513 := hw.lpr_le
  obtain ⟨p, w₁, hp, hcount, hc⟩ := countACK_spec hw h1 hlt
  have hw₁ := hc.inv hw
  have hpos : ¬ ack.ackNum < 1 := by
    rw [UInt32.lt_iff_toNat_lt]
    simp only [UInt32.toNat_one]
    omega
  have hlpa : w₁.LPA = w.LPA := by rw [hc.frame]
  have hlps₁ : w₁.LPS = w.LPS := by rw [hc.frame]
  have hcmp : UInt32.ofInt w₁.LPS < ack.ackNum ↔ w₁.LPS < n := by
    have := toNat_ofInt_uint32 (z := w₁.LPS) (by omega) (by omega)
    rw [UInt32.lt_iff_toNat_lt]
    omega
  have hto : toI32 n = n := toI32_eq_self (by omega) (by omega)
  have hnew : toI32 (n - w.LPA) = n - w₁.LPA := by
    rw [hlpa]
    exact toI32_eq_self (by omega) (by omega)
  refine ⟨p, w₁, ?_⟩
  rw [uponReceiveACK]
  simp only [if_neg hpos, hn, hcount, Option.bind_some, hcmp, hto, hnew]
  by_cases hjump : w₁.LPS < n
  · exact ⟨_, hp, hc, .jump hjump, by rw [if_pos hjump]; rfl⟩
  · rw [if_neg hjump]
    by_cases hadv : 0 < n - w₁.LPA
    · exact ⟨_, hp, hc, .advance (by omega) (by omega), by rw [if_pos hadv]; rfl⟩
    · rw [if_neg hadv]
      by_cases hdup : n - w₁.LPA = 0
      · rw [if_pos hdup]
        by_cases h3 : 3 < p.ackedNum + 1
        · obtain ⟨w', hgo, hback⟩ := goBack_spec fl hw₁ (by omega)
          have hre : w'.recount fl = w' := by
            have hone : w'.room fl = 1 := by
              rw [Window.room_of_eq (by rw [hback.frame])]
              rw [hback.frame, fl.one, truncToInt_one]
            rw [Window.recount, hone, hback.frame]
          refine ⟨w', hp, hc, .loss (by omega) h3 hback, ?_⟩
          rw [if_pos h3, hgo, Option.map_some, hre]
          rfl
        · exact ⟨_, hp, hc, .duplicate (by omega) (by omega), by rw [if_neg h3]; rfl⟩
      · exact ⟨_, hp, hc, .stale (by omega), by rw [if_neg hdup]; rfl⟩

end P2P
