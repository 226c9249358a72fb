import Mathlib.Data.List.GetD
import P2P.Lib.Frames
import P2P.Wire.Packet

/-!
# Cutting datagrams into packets

`process_inbound_udp` appends each datagram to a 1500-byte buffer and then
takes packets off its front while 16 bytes are left, as long as the 16-bit
length field of each says. `Buf` is the buffer, `getFirstpack` one extraction,
`extractLoop` the `while` loop (with fuel: `running` is a loop that has not come
to its end yet) and `FramingSafe` what a sequence of receive results must not
break: the loop ends, `buf_len` stays in range, and each stream handed to
`binary2packet` is at least a header of received bytes.

The length field is never checked and a failed receive is added to `buf_len` as
`-1`. `framing_safe_iff_wellFramed`: the code is safe on exactly the inputs that a checking
receiver would accept (`WellFramed`).
-/

namespace P2P

open Lib

/-! ## The buffer -/

/-- `buf`: the bytes and how many of them are received and not yet consumed. -/
structure Buf where
  bytes : List UInt8
  bufLen : Int
  size : bytes.length = buflen2

namespace Buf

/-- The `bzero`ed buffer `peer_run` starts with. -/
def empty : Buf := ⟨List.replicate buflen2 0, 0, by simp⟩

/-- The bytes received and not yet consumed. -/
def received (b : Buf) : List UInt8 := b.bytes.take b.bufLen.toNat

/-- `buf_len` within `0..BUFLEN2`. -/
def InRange (b : Buf) : Prop := 0 ≤ b.bufLen ∧ b.bufLen ≤ buflen2

theorem empty_inRange : empty.InRange := by simp [InRange, empty]

theorem InRange.received_length {b : Buf} (h : b.InRange) :
    (b.received.length : Int) = b.bufLen := by
  obtain ⟨h0, h1⟩ := h
  rw [received, List.length_take, b.size]
  omega

end Buf

/-! ## Receiving -/

/-- `buf_len += spiffy_recvfrom(sock, buf + buf_len, BUFLEN2 - buf_len)`: a datagram, cut to the
free space, or `none` for a result of `-1`. -/
def recvInto (b : Buf) : Option (List UInt8) → Option Buf
  | none => some { b with bufLen := b.bufLen - 1 }
  | some d =>
    if h : 0 ≤ b.bufLen ∧ b.bufLen ≤ buflen2 then
      let got := d.take (buflen2 - b.bufLen.toNat)
      some
        { bytes := b.bytes.take b.bufLen.toNat ++ got ++ b.bytes.drop (b.bufLen.toNat + got.length)
          bufLen := b.bufLen + got.length
          size := by
            have hb := b.size
            have hgot : got.length ≤ buflen2 - b.bufLen.toNat := List.length_take_le ..
            simp only [List.length_append, List.length_take, List.length_drop]
            omega }
    else none

/-! ## Extracting -/

/-- The length field of the packet a stream starts with. -/
def lenField (l : List UInt8) : Nat := (ofBe16 (l.getD 6 0) (l.getD 7 0)).toNat

/-- The buffer after `memcpy` moved everything behind `n` to the front and `memset` cleared the
tail. The two ranges of the `memcpy` may overlap; it is taken as a `memmove`. -/
def Buf.shift (b : Buf) (n : Nat) (h : n ≤ buflen2) : Buf where
  bytes := b.bytes.drop n ++ List.replicate n 0
  bufLen := b.bufLen - n
  size := by have := b.size; simp; omega

/-- The stream of the first packet and the buffer without it; a `NULL` stream when less than a
header is left. `none` where the length field reaches past the buffer. -/
def getFirststream (b : Buf) : Option (Option (List UInt8) × Buf) :=
  if b.bufLen < headerLen then some (none, b)
  else
    let streamLen := lenField b.bytes
    if h : streamLen ≤ buflen2 then
      some (some (b.bytes.take streamLen ++ [0]), b.shift streamLen h)
    else none

/-- One pass of the loop: the buffer before and after, the stream `get_firststream` handed to
`binary2packet`, and the packet given to `dealwithincomepack` (`none` if `binary2packet` read past
the stream). -/
structure Extraction where
  before : Buf
  stream : Option (List UInt8)
  pack : Option Packet
  after : Buf

/-- `get_firstpack` into a `bzero`ed packet. -/
def getFirstpack (b : Buf) : Option Extraction :=
  (getFirststream b).map fun
    | (none, b') => ⟨b, none, some Packet.zero, b'⟩
    | (some s, b') => ⟨b, some s, binary2packet s, b'⟩

inductive LoopResult where
  | running
  | fault
  | exited (xs : List Extraction) (b : Buf)

def LoopResult.cons (x : Extraction) : LoopResult → LoopResult
  | .exited xs b => .exited (x :: xs) b
  | r => r

/-- `while (buf_len >= 16)`, for at most `fuel` tests of the condition. -/
def extractLoop : Nat → Buf → LoopResult
  | 0, _ => .running
  | fuel + 1, b =>
    if b.bufLen < 16 then .exited [] b
    else
      match getFirstpack b with
      | none => .fault
      | some x => (extractLoop fuel x.after).cons x

/-! ## Safety -/

/-- An extraction that stays in the buffer: the stream is at least a header long and made of
received bytes (and the zero byte that ends it), and it decodes. -/
structure Extraction.Safe (x : Extraction) : Prop where
  before : x.before.InRange
  after : x.after.InRange
  stream : ∀ s, x.stream = some s →
    ∃ f, s = f ++ [0] ∧ headerLen ≤ f.length ∧ f <+: x.before.received
  pack : ∃ p, x.pack = some p

/-- Every call of `process_inbound_udp` ends, with `buf_len` in range throughout and only safe
extractions. -/
def FramingSafe : Buf → List (Option (List UInt8)) → Prop
  | _, [] => True
  | b, r :: rs =>
    ∃ b1, recvInto b r = some b1 ∧ b1.InRange ∧
      ∃ fuel xs b2, extractLoop fuel b1 = .exited xs b2 ∧ (∀ x ∈ xs, x.Safe) ∧ b2.InRange ∧
        FramingSafe b2 rs

/-- The inputs a receiver that checked its input would accept, over the bytes `pending` of the
previous datagrams: no receive fails while nothing is pending, and the pending bytes with the
datagram are whole packets, each at least a header long, before an incomplete header. -/
def WellFramed : List UInt8 → List (Option (List UInt8)) → Prop
  | _, [] => True
  | pending, none :: rs => pending ≠ [] ∧ WellFramed pending.dropLast rs
  | pending, some d :: rs =>
    ∃ fs rest, Framed headerLen lenField (pending ++ d.take (buflen2 - pending.length)) fs rest ∧
      WellFramed rest rs

/-! ## One receive, one extraction -/

theorem recvInto_some {b : Buf} (hb : b.InRange) (d : List UInt8) :
    ∃ b1, recvInto b (some d) = some b1 ∧ b1.InRange ∧
      b1.received = b.received ++ d.take (buflen2 - b.received.length) := by
  obtain ⟨h0, h1⟩ := hb
  have hlen : b.received.length = b.bufLen.toNat := by
    have := Buf.InRange.received_length ⟨h0, h1⟩
    omega
  have hsz := b.size
  refine ⟨_, dif_pos ⟨h0, h1⟩, ?_, ?_⟩
  · simp only [Buf.InRange, List.length_take]
    omega
  · rw [hlen]
    simp only [Buf.received]
    rw [List.take_append_of_le_length (by simp; omega), List.take_of_length_le (by simp; omega)]

/-- A failed receive drops the last pending byte. -/
theorem recvInto_none {b : Buf} (hb : b.InRange) (hpos : 0 < b.bufLen) :
    ∃ b1, recvInto b none = some b1 ∧ b1.InRange ∧ b1.received = b.received.dropLast := by
  obtain ⟨h0, h1⟩ := hb
  have hsz := b.size
  refine ⟨_, rfl, ?_, ?_⟩
  · simp only [Buf.InRange]
    omega
  · simp only [Buf.received]
    rw [List.dropLast_eq_take, List.take_take, List.length_take]
    congr 1
    omega

theorem lenField_take {l : List UInt8} {n : Nat} (h : headerLen ≤ n) :
    lenField (l.take n) = lenField l := by
  have hh : headerLen = 16 := rfl
  have h6 : 6 < n := by omega
  have h7 : 7 < n := by omega
  simp [lenField, h6, h7]

theorem decodeHeader_of_le {s : List UInt8} (h : headerLen ≤ s.length) :
    ∃ p, decodeHeader s = some p ∧ p.packLen.toNat = lenField s := by
  match s, h with
  | _ :: _ :: _ :: _ :: _ :: _ :: _ :: _ :: _ :: _ :: _ :: _ :: _ :: _ :: _ :: _ :: _, _ =>
    exact ⟨_, rfl, rfl⟩

theorem decodePayload_of_le {s : List UInt8} {p : Packet} (h : p.packLen.toNat ≤ s.length) :
    ∃ q, decodePayload s p = some q := by
  unfold decodePayload
  rw [if_pos h]
  split <;> exact ⟨_, rfl⟩

theorem binary2packet_of_lenField {f : List UInt8} (h : headerLen ≤ f.length)
    (hf : lenField f = f.length) : ∃ p, binary2packet (f ++ [0]) = some p := by
  have hh : headerLen = 16 := rfl
  have hlen : (f ++ [0]).length = f.length + 1 := by simp
  obtain ⟨p, hp, hpl⟩ := decodeHeader_of_le (s := f ++ [0]) (by omega)
  have hfit : p.packLen.toNat ≤ (f ++ [0]).length := by
    rw [hpl, ← lenField_take h, List.take_left, hf]
    omega
  unfold binary2packet
  rw [hp, Option.bind_some]
  split
  · obtain ⟨n, hn⟩ : ∃ n, (f ++ [0])[headerLen]? = some n :=
      ⟨_, List.getElem?_eq_getElem (by omega)⟩
    rw [hn, Option.bind_some]
    exact decodePayload_of_le hfit
  · exact decodePayload_of_le hfit

theorem lenField_received {b : Buf} (h16 : (headerLen : Int) ≤ b.bufLen) :
    lenField b.received = lenField b.bytes := lenField_take (by omega)

theorem take_received {b : Buf} {n : Nat} (hn : (n : Int) ≤ b.bufLen) :
    b.received.take n = b.bytes.take n := by
  rw [Buf.received, List.take_take, Nat.min_eq_left (by omega)]

theorem shift_received {b : Buf} {n : Nat} (hb : b.InRange) (h : n ≤ buflen2)
    (hn : (n : Int) ≤ b.bufLen) : (b.shift n h).received = b.received.drop n := by
  have hsz := b.size
  obtain ⟨h0, h1⟩ := hb
  simp only [Buf.received, Buf.shift]
  rw [List.take_append_of_le_length (by rw [List.length_drop]; omega), List.drop_take]
  congr 1
  omega

theorem shift_inRange {b : Buf} {n : Nat} (hb : b.InRange) (h : n ≤ buflen2)
    (hn : (n : Int) ≤ b.bufLen) : (b.shift n h).InRange := by
  simp only [Buf.InRange, Buf.shift] at hb ⊢
  omega

theorem getFirststream_eq {b : Buf} (h16 : (headerLen : Int) ≤ b.bufLen)
    (hn : lenField b.bytes ≤ buflen2) :
    getFirststream b = some (some (b.bytes.take (lenField b.bytes) ++ [0]), b.shift _ hn) := by
  unfold getFirststream
  rw [if_neg (by omega), dif_pos hn]

/-- **One extraction, accepted.** A length field between the header and the received bytes gives a
safe extraction that consumes exactly those bytes. -/
theorem getFirstpack_of_lenField {b : Buf} (hb : b.InRange) (h16 : (headerLen : Int) ≤ b.bufLen)
    (hlo : headerLen ≤ lenField b.received) (hhi : lenField b.received ≤ b.received.length) :
    ∃ x, getFirstpack b = some x ∧ x.Safe ∧
      x.stream = some (b.received.take (lenField b.received) ++ [0]) ∧
      x.after.received = b.received.drop (lenField b.received) := by
  have hrl := hb.received_length
  have heq := lenField_received h16
  have hle : (lenField b.bytes : Int) ≤ b.bufLen := by omega
  have hn : lenField b.bytes ≤ buflen2 := by have := hb.2; omega
  rw [heq] at hlo hhi ⊢
  have htake := take_received hle
  obtain ⟨p, hp⟩ := binary2packet_of_lenField (f := b.received.take (lenField b.bytes))
    (by rw [List.length_take]; omega)
    (by rw [lenField_take hlo, heq, List.length_take]; omega)
  refine ⟨⟨b, some (b.received.take (lenField b.bytes) ++ [0]), some p, b.shift _ hn⟩, ?_,
    ⟨hb, shift_inRange hb hn hle, ?_, p, rfl⟩, rfl, shift_received hb hn hle⟩
  · unfold getFirstpack
    rw [getFirststream_eq h16 hn, Option.map_some, ← htake]
    simp only [hp]
  · intro s hs
    cases hs
    exact ⟨_, rfl, by rw [List.length_take]; omega, List.take_prefix ..⟩

/-- **One extraction, rejected.** A safe extraction had a length field between the header and the
received bytes. -/
theorem lenField_of_safe {b : Buf} {x : Extraction} (h16 : (headerLen : Int) ≤ b.bufLen)
    (h : getFirstpack b = some x) (hx : x.Safe) :
    headerLen ≤ lenField b.received ∧ lenField b.received ≤ b.received.length := by
  have hn : lenField b.bytes ≤ buflen2 := by
    by_contra hn
    rw [getFirstpack, getFirststream, if_neg (by omega), dif_neg hn] at h
    cases h
  unfold getFirstpack at h
  rw [getFirststream_eq h16 hn, Option.map_some] at h
  cases h
  obtain ⟨f, hf, hlo, hpre⟩ := hx.stream _ rfl
  have hfe : b.bytes.take (lenField b.bytes) = f := List.append_cancel_right hf
  have hlen : f.length = lenField b.bytes := by
    rw [← hfe, List.length_take, b.size]
    omega
  rw [lenField_received h16, ← hlen]
  exact ⟨hlo, hpre.length_le⟩

/-! ## The loop -/

/-- **The loop on whole packets** ends, hands them on one by one and leaves the incomplete rest. -/
theorem extractLoop_of_framed {l r : List UInt8} {fs : List (List UInt8)}
    (h : Framed headerLen lenField l fs r) :
    ∀ {b : Buf}, b.InRange → b.received = l → ∃ fuel xs b2, extractLoop fuel b = .exited xs b2 ∧
      (∀ x ∈ xs, x.Safe) ∧ xs.map (·.stream) = fs.map (fun f => some (f ++ [0])) ∧
      b2.InRange ∧ b2.received = r := by
  have hh : headerLen = 16 := rfl
  induction h with
  | rest hl =>
    rintro b hb rfl
    have hrl := hb.received_length
    exact ⟨1, [], b, if_pos (by omega), by simp, rfl, hb, rfl⟩
  | frame hlo hhi _ ih =>
    rintro b hb rfl
    have hrl := hb.received_length
    have h16 : (headerLen : Int) ≤ b.bufLen := by omega
    obtain ⟨x, hx, hsafe, hstream, hafter⟩ := getFirstpack_of_lenField hb h16 hlo hhi
    obtain ⟨fuel, xs, b2, hrun, hxs, hmap, hb2, hr⟩ := ih hsafe.after hafter
    refine ⟨fuel + 1, x :: xs, b2, ?_, ?_, by simp [hstream, hmap], hb2, hr⟩
    · rw [extractLoop, if_neg (by omega)]
      simp [hx, hrun, LoopResult.cons]
    · simpa using ⟨hsafe, hxs⟩

theorem framed_of_extractLoop {fuel : Nat} :
    ∀ {b b2 : Buf} {xs : List Extraction}, b.InRange → extractLoop fuel b = .exited xs b2 →
      (∀ x ∈ xs, x.Safe) → ∃ fs, Framed headerLen lenField b.received fs b2.received := by
  have hh : headerLen = 16 := rfl
  induction fuel with
  | zero => intro b b2 xs _ h; cases h
  | succ fuel ih =>
    intro b b2 xs hb h hsafe
    have hrl := hb.received_length
    rw [extractLoop] at h
    split at h
    · cases h
      exact ⟨[], .rest (by omega)⟩
    · rename_i h16
      cases hx : getFirstpack b with
      | none => simp [hx] at h
      | some x =>
        simp only [hx] at h
        cases hrun : extractLoop fuel x.after with
        | running => simp [hrun, LoopResult.cons] at h
        | fault => simp [hrun, LoopResult.cons] at h
        | exited ys b' =>
          simp only [hrun, LoopResult.cons, LoopResult.exited.injEq] at h
          obtain ⟨rfl, rfl⟩ := h
          have hxs : x.Safe := hsafe x (by simp)
          obtain ⟨hlo, hhi⟩ := lenField_of_safe (by omega) hx hxs
          obtain ⟨y, hy, -, -, hafter⟩ := getFirstpack_of_lenField hb (by omega) hlo hhi
          obtain rfl : x = y := Option.some.inj (hx.symm.trans hy)
          obtain ⟨fs, hfs⟩ := ih hxs.after hrun (fun z hz => hsafe z (by simp [hz]))
          rw [hafter] at hfs
          exact ⟨_, .frame hlo hhi hfs⟩

theorem extractLoop_short {b b2 : Buf} {fuel : Nat} {xs : List Extraction} (hb : b.bufLen < 16)
    (h : extractLoop fuel b = .exited xs b2) : b2 = b := by
  cases fuel with
  | zero => cases h
  | succ fuel =>
    rw [extractLoop, if_pos hb] at h
    cases h
    rfl

/-! ## Which inputs are safe -/

theorem framingSafe_iff {rs : List (Option (List UInt8))} :
    ∀ {b : Buf}, b.InRange → b.bufLen < 16 → (FramingSafe b rs ↔ WellFramed b.received rs) := by
  have hh : headerLen = 16 := rfl
  induction rs with
  | nil => intro b _ _; exact Iff.rfl
  | cons r rs ih =>
    intro b hb hshort
    have hrl := hb.received_length
    cases r with
    | none =>
      constructor
      · rintro ⟨b1, h1, hb1, fuel, xs, b2, hrun, -, -, hrest⟩
        have hpos : 0 < b.bufLen := by
          cases h1
          have := hb1.1
          simp only at this
          omega
        obtain ⟨b1', h1', -, hrec⟩ := recvInto_none hb hpos
        obtain rfl : b1 = b1' := Option.some.inj (h1.symm.trans h1')
        have hshort1 : b1.bufLen < 16 := by cases h1; simp only; omega
        obtain rfl := extractLoop_short hshort1 hrun
        refine ⟨fun hnil => ?_, hrec ▸ (ih hb1 hshort1).mp hrest⟩
        rw [hnil] at hrl
        simp at hrl
        omega
      · rintro ⟨hne, hrest⟩
        have hpos : 0 < b.bufLen := by
          have := List.length_pos_iff.mpr hne
          omega
        obtain ⟨b1, h1, hb1, hrec⟩ := recvInto_none hb hpos
        have hshort1 : b1.bufLen < 16 := by cases h1; simp only; omega
        exact ⟨b1, h1, hb1, 1, [], b1, if_pos hshort1, by simp, hb1,
          (ih hb1 hshort1).mpr (hrec ▸ hrest)⟩
    | some d =>
      obtain ⟨b1, h1, hb1, hrec⟩ := recvInto_some hb d
      have short : ∀ {b2 : Buf}, b2.InRange → b2.received.length < headerLen → b2.bufLen < 16 := by
        intro b2 hb2 hlt
        have := hb2.received_length
        omega
      constructor
      · rintro ⟨b1', h1', -, fuel, xs, b2, hrun, hsafe, hb2, hrest⟩
        obtain rfl : b1 = b1' := Option.some.inj (h1.symm.trans h1')
        obtain ⟨fs, hfs⟩ := framed_of_extractLoop hb1 hrun hsafe
        have hs2 := short hb2 hfs.rest_lt
        rw [hrec] at hfs
        exact ⟨fs, _, hfs, (ih hb2 hs2).mp hrest⟩
      · rintro ⟨fs, rest, hfs, hrest⟩
        rw [← hrec] at hfs
        obtain ⟨fuel, xs, b2, hrun, hsafe, -, hb2, rfl⟩ := extractLoop_of_framed hfs hb1 rfl
        exact ⟨b1, h1, hb1, fuel, xs, b2, hrun, hsafe, hb2,
          (ih hb2 (short hb2 hfs.rest_lt)).mpr hrest⟩

/-- **Framing is safe on exactly the well-framed inputs.** -/
theorem framing_safe_iff_wellFramed (rs : List (Option (List UInt8))) :
    FramingSafe Buf.empty rs ↔ WellFramed [] rs :=
  framingSafe_iff Buf.empty_inRange (by decide)

/-- A buffer of zero bytes, 16 of them received. -/
def zeroBuf : Buf := ⟨List.replicate buflen2 0, 16, by simp⟩

/-- A length field of 0 takes nothing off the buffer. -/
theorem getFirstpack_zeroBuf : getFirstpack zeroBuf = some ⟨zeroBuf, some [0], none, zeroBuf⟩ := by
  have hlen : lenField zeroBuf.bytes = 0 := by
    have h : ∀ i < buflen2, zeroBuf.bytes.getD i 0 = 0 := fun i hi => List.getD_replicate _ hi
    rw [lenField, h 6 (by decide), h 7 (by decide)]
    rfl
  have hshift : ∀ {n : Nat} (h : n ≤ buflen2), n = 0 → zeroBuf.shift n h = zeroBuf := by
    rintro n h rfl
    simp [Buf.shift, zeroBuf]
  unfold getFirstpack
  rw [getFirststream_eq (by decide) (by omega), hshift _ hlen, hlen]
  rfl

/-- **The loop never ends** on a datagram of 16 zero bytes: the extraction hands on an empty stream
and the buffer is as before. -/
theorem framing_unsafe_zero_length :
    recvInto Buf.empty (some (List.replicate 16 0)) = some zeroBuf ∧
      (∀ fuel, extractLoop fuel zeroBuf = .running) ∧
      ¬ FramingSafe Buf.empty [some (List.replicate 16 0)] := by
  have hrecv : recvInto Buf.empty (some (List.replicate 16 0)) = some zeroBuf := by
    have hbytes : (List.replicate 16 0).take buflen2 ++ (List.replicate buflen2 0).drop 16 =
        List.replicate buflen2 (0 : UInt8) := by
      rw [List.take_replicate, List.drop_replicate, List.replicate_append_replicate]
      rfl
    simp only [recvInto]
    rw [dif_pos (show 0 ≤ Buf.empty.bufLen ∧ Buf.empty.bufLen ≤ buflen2 from Buf.empty_inRange)]
    simp only [Option.some.injEq, zeroBuf, Buf.mk.injEq]
    exact ⟨hbytes, rfl⟩
  have hrun : ∀ fuel, extractLoop fuel zeroBuf = .running := by
    intro fuel
    induction fuel with
    | zero => rfl
    | succ fuel ih =>
      rw [extractLoop, if_neg (by decide)]
      simp only [getFirstpack_zeroBuf, ih, LoopResult.cons]
  refine ⟨hrecv, hrun, ?_⟩
  rintro ⟨b1, h1, -, fuel, xs, b2, hexit, -⟩
  obtain rfl : zeroBuf = b1 := Option.some.inj (hrecv.symm.trans h1)
  rw [hrun] at hexit
  cases hexit

end P2P
