import P2P.Lib.Lists
import P2P.Wire.Framing

/-!
# Datagrams

`datagram` is what `send_pack` and `broadcast` put on the wire for a packet, and
`processInboundUdp` what the receiver does with a datagram: it is appended to the bytes
pending, and `dealwithincomepack` is called for every packet that is complete by then.

* `extractLoop_enough`: a loop that ends makes at most `BUFLEN2` passes;
* `processInboundUdp_of_framed`: the calls for bytes that are whole packets before an
  incomplete header.
-/

namespace P2P

open Lib

/-- The `Pack_len` bytes of its stream that are sent for a packet. -/
def datagram (pack : Packet) : Option (List UInt8) :=
  (serialPack pack).map (·.take pack.packLen.toNat)

/-- `process_inbound_udp` on a datagram: the calls of `dealwithincomepack`, and the buffer they
leave. `none` if the loop does not end or a packet is read from bytes that are not there. -/
def processInboundUdp (b : Buf) (addr : SockAddr) (d : List UInt8) :
    Option (List (Packet × SockAddr) × Buf) :=
  (recvInto b (some d)).bind fun b =>
    match extractLoop (buflen2 + 1) b with
    | .exited xs b => (xs.mapM Extraction.pack).map fun packs => (packs.map (·, addr), b)
    | _ => none

/-! ## Sending -/

theorem lenField_header (p : Packet) (rest : List UInt8) :
    lenField (p.header ++ rest) = p.packLen.toNat := by
  simp [lenField, Packet.header, be16]

/-- **What is sent** is as long as its length field says, whatever follows it. -/
theorem exists_datagram {p : Packet} (h : p.Serialisable) :
    ∃ d, datagram p = some d ∧ serialPack p = some (d ++ [0]) ∧ d.length = p.packLen.toNat ∧
      p.header <+: d ∧ ∀ rest, lenField (d ++ rest) = d.length := by
  obtain ⟨hfit, hpay⟩ := h
  let pre := p.header ++ (if p.packetType ≤ 1 then [p.chunkhashNum, 0, 0, 0] else [])
  have hpre : pre.length = p.nonPayloadLen := by
    simp only [pre, Packet.nonPayloadLen]
    split <;> simp
  let d := pre ++ p.payload.take (p.packLen.toNat - p.nonPayloadLen)
  have hlen : d.length = p.packLen.toNat := by
    simp only [d, List.length_append, hpre, List.length_take]
    omega
  have hser : serialPack p = some (d ++ [0]) := if_pos ⟨hfit, hpay⟩
  have hhead : p.header <+: d := (List.prefix_append _ _).trans (List.prefix_append _ _)
  refine ⟨d, ?_, hser, hlen, hhead, fun rest => ?_⟩
  · rw [datagram, hser, Option.map_some, ← hlen, List.take_left]
  · obtain ⟨tail, htail⟩ := hhead
    rw [hlen, ← htail, List.append_assoc, lenField_header]

/-! ## The loop -/

theorem LoopResult.cons_eq_exited {r : LoopResult} {x : Extraction} {xs : List Extraction} {b : Buf}
    (h : r.cons x = .exited xs b) : ∃ ys, r = .exited ys b ∧ xs = x :: ys := by
  cases r with
  | running => cases h
  | fault => cases h
  | exited ys c =>
    cases h
    exact ⟨ys, rfl, rfl⟩

theorem extractLoop_succ {fuel : Nat} {b b2 : Buf} {xs : List Extraction}
    (h : extractLoop (fuel + 1) b = .exited xs b2) :
    (b.bufLen < 16 ∧ xs = [] ∧ b2 = b) ∨
    (16 ≤ b.bufLen ∧ ∃ x ys, getFirstpack b = some x ∧ extractLoop fuel x.after = .exited ys b2 ∧
      xs = x :: ys) := by
  rw [extractLoop] at h
  split at h
  · rename_i hlt
    cases h
    exact .inl ⟨hlt, rfl, rfl⟩
  · rename_i hge
    cases hx : getFirstpack b with
    | none => simp [hx] at h
    | some x =>
      simp only [hx] at h
      obtain ⟨ys, hrun, rfl⟩ := LoopResult.cons_eq_exited h
      exact .inr ⟨by omega, x, ys, rfl, hrun, rfl⟩

theorem extractLoop_of_succ {fuel : Nat} {b b2 : Buf} {x : Extraction} {ys : List Extraction}
    (hge : 16 ≤ b.bufLen) (hx : getFirstpack b = some x)
    (h : extractLoop fuel x.after = .exited ys b2) :
    extractLoop (fuel + 1) b = .exited (x :: ys) b2 := by
  rw [extractLoop, if_neg (by omega)]
  simp only [hx, h, LoopResult.cons]

/-- More tests of the condition do not change where a loop ends. -/
theorem extractLoop_mono {fuel : Nat} : ∀ {b b2 : Buf} {xs : List Extraction} {n : Nat},
    fuel ≤ n → extractLoop fuel b = .exited xs b2 → extractLoop n b = .exited xs b2 := by
  induction fuel with
  | zero => intro b b2 xs n _ h; cases h
  | succ fuel ih =>
    intro b b2 xs n hn h
    obtain ⟨n, rfl⟩ : ∃ m, n = m + 1 := ⟨n - 1, by omega⟩
    rcases extractLoop_succ h with ⟨hlt, rfl, rfl⟩ | ⟨hge, x, ys, hx, hrun, rfl⟩
    · rw [extractLoop, if_pos hlt]
    · exact extractLoop_of_succ hge hx (ih (by omega) hrun)

theorem getFirstpack_spec {b : Buf} {x : Extraction} (hge : 16 ≤ b.bufLen)
    (h : getFirstpack b = some x) : lenField b.bytes ≤ buflen2 ∧
      x.stream = some (b.bytes.take (lenField b.bytes) ++ [0]) ∧
      x.pack = binary2packet (b.bytes.take (lenField b.bytes) ++ [0]) ∧
      x.after.bufLen = b.bufLen - lenField b.bytes ∧ (lenField b.bytes = 0 → x.after = b) := by
  have hh : headerLen = 16 := rfl
  have hn : lenField b.bytes ≤ buflen2 := by
    by_contra hn
    rw [getFirstpack, getFirststream, if_neg (by omega), dif_neg hn] at h
    cases h
  rw [getFirstpack, getFirststream_eq (by omega) hn] at h
  cases h
  refine ⟨hn, rfl, rfl, rfl, fun h0 => ?_⟩
  simp only [Buf.shift, h0]
  cases b
  simp

/-- A packet of length 0 is never taken off. -/
theorem extractLoop_stuck {fuel : Nat} {b b2 : Buf} {x : Extraction} {xs : List Extraction}
    (hge : 16 ≤ b.bufLen) (hx : getFirstpack b = some x) (hsame : x.after = b) :
    extractLoop fuel b ≠ .exited xs b2 := by
  induction fuel generalizing xs with
  | zero => intro h; cases h
  | succ fuel ih =>
    intro h
    rcases extractLoop_succ h with ⟨hlt, -, -⟩ | ⟨-, y, ys, hy, hrun, -⟩
    · omega
    · rw [hx, Option.some.injEq] at hy
      subst hy
      rw [hsame] at hrun
      exact ih hrun

/-- **Enough passes.** Each pass of a loop that ends takes a byte or more. -/
theorem extractLoop_enough {fuel : Nat} : ∀ {b b2 : Buf} {xs : List Extraction},
    extractLoop fuel b = .exited xs b2 → extractLoop (b.bufLen.toNat + 1) b = .exited xs b2 := by
  induction fuel with
  | zero => intro b b2 xs h; cases h
  | succ fuel ih =>
    intro b b2 xs h
    rcases extractLoop_succ h with ⟨hlt, rfl, rfl⟩ | ⟨hge, x, ys, hx, hrun, rfl⟩
    · rw [extractLoop, if_pos hlt]
    · obtain ⟨-, -, -, hafter, hzero⟩ := getFirstpack_spec hge hx
      have hpos : lenField b.bytes ≠ 0 := by
        intro h0
        exact extractLoop_stuck hge hx (hzero h0) h
      exact extractLoop_of_succ hge hx (extractLoop_mono (by omega) (ih hrun))

theorem extractLoop_packs {fuel : Nat} : ∀ {b b2 : Buf} {xs : List Extraction},
    extractLoop fuel b = .exited xs b2 →
      xs.map (·.pack) = xs.map fun x => x.stream.bind binary2packet := by
  induction fuel with
  | zero => intro b b2 xs h; cases h
  | succ fuel ih =>
    intro b b2 xs h
    rcases extractLoop_succ h with ⟨-, rfl, -⟩ | ⟨hge, x, ys, hx, hrun, rfl⟩
    · rfl
    · obtain ⟨-, hstream, hpack, -⟩ := getFirstpack_spec hge hx
      rw [List.map_cons, List.map_cons, ih hrun, hstream, hpack]
      rfl

theorem extractLoop_rest_lt {fuel : Nat} : ∀ {b b2 : Buf} {xs : List Extraction},
    extractLoop fuel b = .exited xs b2 → b2.bufLen < 16 := by
  induction fuel with
  | zero => intro b b2 xs h; cases h
  | succ fuel ih =>
    intro b b2 xs h
    rcases extractLoop_succ h with ⟨hlt, -, rfl⟩ | ⟨-, x, ys, -, hrun, -⟩
    · exact hlt
    · exact ih hrun

/-! ## One datagram -/

/-- **Whole packets** pending with the datagram are handed on one by one, and the incomplete header
stays. -/
theorem processInboundUdp_of_framed {b : Buf} (hb : b.InRange) (addr : SockAddr) {d r : List UInt8}
    {fs : List (List UInt8)} {packs : List Packet}
    (h : Framed headerLen lenField (b.received ++ d.take (buflen2 - b.received.length)) fs r)
    (hdec : fs.map (fun f => binary2packet (f ++ [0])) = packs.map some) :
    ∃ b', processInboundUdp b addr d = some (packs.map (·, addr), b') ∧ b'.InRange ∧
      b'.received = r := by
  obtain ⟨b₁, hrecv, hb₁, hreceived⟩ := recvInto_some hb d
  obtain ⟨fuel, xs, b', hrun, -, hstreams, hb', hr⟩ := extractLoop_of_framed h hb₁ hreceived
  have hpacks : xs.map Extraction.pack = packs.map some := by
    have hmap : xs.map (fun x => x.stream.bind binary2packet) =
        (xs.map Extraction.stream).map fun s => s.bind binary2packet := by
      rw [List.map_map]
      rfl
    rw [← hdec, extractLoop_packs hrun, hmap, hstreams, List.map_map]
    rfl
  have henough : extractLoop (buflen2 + 1) b₁ = .exited xs b' := by
    have := hb₁.2
    exact extractLoop_mono (by omega) (extractLoop_enough hrun)
  refine ⟨b', ?_, hb', hr⟩
  rw [processInboundUdp, hrecv, Option.bind_some, henough]
  simp only [mapM_eq_some_iff.mpr hpacks, Option.map_some]

theorem processInboundUdp_cases {b b' : Buf} {addr : SockAddr} {d : List UInt8}
    {calls : List (Packet × SockAddr)} (h : processInboundUdp b addr d = some (calls, b')) :
    ∃ b₁ xs, ∃ packs : List Packet, recvInto b (some d) = some b₁ ∧
      extractLoop (buflen2 + 1) b₁ = .exited xs b' ∧ xs.map Extraction.pack = packs.map some ∧
      calls = packs.map (·, addr) := by
  unfold processInboundUdp at h
  rw [Option.bind_eq_some_iff] at h
  obtain ⟨b₁, hrecv, h⟩ := h
  split at h
  · rename_i xs b₂ hrun
    rw [Option.map_eq_some_iff] at h
    obtain ⟨packs, hpacks, heq⟩ := h
    rw [Prod.mk.injEq] at heq
    obtain ⟨rfl, rfl⟩ := heq
    exact ⟨b₁, xs, packs, hrecv, hrun, mapM_eq_some_iff.mp hpacks, rfl⟩
  · cases h

theorem inRange_of_recvInto {b b₁ : Buf} {d : List UInt8} (h : recvInto b (some d) = some b₁) :
    b.InRange := by
  by_contra hout
  have hnone : recvInto b (some d) = none := dif_neg hout
  rw [hnone] at h
  cases h

/-! ## What a decoded packet says of its stream -/

theorem be16_ofBe16 (hi lo : UInt8) : be16 (ofBe16 hi lo) = [hi, lo] := by
  have := hi.toNat_lt
  have := lo.toNat_lt
  simp only [be16, ofBe16, List.cons.injEq, ← UInt8.toNat_inj, and_true, UInt16.toNat_ofNat',
    UInt8.toNat_ofNat', UInt16.toNat_toUInt8]
  omega

theorem be32_ofBe32 (b3 b2 b1 b0 : UInt8) : be32 (ofBe32 b3 b2 b1 b0) = [b3, b2, b1, b0] := by
  have := b3.toNat_lt
  have := b2.toNat_lt
  have := b1.toNat_lt
  have := b0.toNat_lt
  simp only [be32, ofBe32, List.cons.injEq, ← UInt8.toNat_inj, and_true, UInt32.toNat_ofNat',
    UInt8.toNat_ofNat', UInt32.toNat_toUInt8]
  omega

theorem header_of_decodeHeader {s : List UInt8} {p : Packet} (h : decodeHeader s = some p) :
    s.take headerLen = p.header := by
  unfold decodeHeader at h
  split at h
  · cases h
    simp only [Packet.header, be16_ofBe16, be32_ofBe32]
    rfl
  · cases h

theorem decodePayload_cases {s : List UInt8} {q p : Packet} (h : decodePayload s q = some p)
    (hq : q.payload = []) : p.header = q.header ∧ (p.packetType ≤ 1 ∨ p.payload =
      if p.packetType < 4 ∧ headerLen < p.packLen.toNat then
        (s.drop headerLen).take (p.packLen.toNat - headerLen)
      else []) := by
  unfold decodePayload at h
  by_cases h1 : q.packetType ≤ 1
  · split at h
    · split at h
      · cases h
        exact ⟨rfl, .inl h1⟩
      · cases h
    · cases h
      exact ⟨rfl, .inl h1⟩
  · have hnp : q.nonPayloadLen = headerLen := if_neg h1
    rw [hnp] at h
    split at h
    · rename_i hc
      split at h
      · cases h
        exact ⟨rfl, .inr (by rw [if_pos hc])⟩
      · cases h
    · rename_i hc
      cases h
      exact ⟨rfl, .inr (by rw [if_neg hc, hq])⟩

theorem binary2packet_cases {s : List UInt8} {p : Packet} (h : binary2packet s = some p) :
    s.take headerLen = p.header ∧ (p.packetType ≤ 1 ∨ p.payload =
      if p.packetType < 4 ∧ headerLen < p.packLen.toNat then
        (s.drop headerLen).take (p.packLen.toNat - headerLen)
      else []) := by
  unfold binary2packet at h
  rw [Option.bind_eq_some_iff] at h
  obtain ⟨q, hq, h⟩ := h
  have hhead := header_of_decodeHeader hq
  have hpay : q.payload = [] := by
    unfold decodeHeader at hq
    split at hq
    · cases hq
      rfl
    · cases hq
  split at h
  · rw [Option.bind_eq_some_iff] at h
    obtain ⟨n, -, h⟩ := h
    obtain ⟨hp, hcases⟩ := decodePayload_cases h hpay
    exact ⟨hhead.trans hp.symm, hcases⟩
  · obtain ⟨hp, hcases⟩ := decodePayload_cases h hpay
    exact ⟨hhead.trans hp.symm, hcases⟩

theorem binary2packet_inj {s t : List UInt8} {p : Packet} (hs : s.length = p.packLen.toNat)
    (ht : t.length = p.packLen.toNat) (hps : binary2packet (s ++ [0]) = some p)
    (hpt : binary2packet (t ++ [0]) = some p) (h16 : headerLen ≤ p.packLen.toNat)
    (hty : ¬ p.packetType ≤ 1) (hread : p.packetType < 4 ∨ p.packLen.toNat ≤ headerLen) :
    s = t := by
  have split_at : ∀ u : List UInt8, u.length = p.packLen.toNat →
      binary2packet (u ++ [0]) = some p → u = p.header ++ p.payload := by
    intro u hu hpu
    obtain ⟨hhead, hpay⟩ := binary2packet_cases hpu
    rw [List.take_append_of_le_length (by omega)] at hhead
    have hpay := hpay.resolve_left hty
    rw [← List.take_append_drop headerLen u, hhead]
    congr 1
    split at hpay
    · rw [hpay, List.drop_append_of_le_length (by omega),
        List.take_append_of_le_length (by rw [List.length_drop]; omega),
        List.take_of_length_le (by rw [List.length_drop]; omega)]
    · rename_i hnone
      have hle : p.packLen.toNat ≤ headerLen :=
        hread.elim (fun h4 => Nat.le_of_not_lt fun hlt => hnone ⟨h4, hlt⟩) id
      rw [hpay]
      exact List.drop_eq_nil_of_le (by omega)
  rw [split_at s hs hps, split_at t ht hpt]

end P2P
