import Mathlib.Tactic.IntervalCases
import P2P.Lib.Runs
import P2P.Peer.Discovery
import P2P.Wire.Datagram
import P2P.Wire.HostOrder

/-!
# Packets that arrive

`Formed` are the packets the five `form_*` functions build. Each of them is decoded by the
receiver as it was built, also when several arrive in one piece:

* `codec_round_trip`: a stream of such packets is taken apart into them;
* `datagram_alone_iff`: a datagram that follows other datagrams is read as the packet it
  is exactly when the bytes they left pending do not change how it begins.
-/

namespace P2P

open Lib

/-- The packets a peer builds. -/
inductive Formed : Packet → Prop
  | whoHas (needlist : List HashChunk) (down : DownloadConn) : Formed (formWhoHas needlist down).1
  | iHav {whohas ihav : Packet} {haslist : List HashChunk} :
      formIHav whohas haslist = some ihav → Formed ihav
  | get (hashtoget : HashChunk) : Formed (formGET hashtoget)
  | data {data : List UInt8} {dataLen : Nat} (seqno : Int) : dataLen ≤ data.length →
      dataLen ≤ 1024 → Formed (formDataPack data dataLen seqno)
  | ack (seqno : Int) : Formed (formAckPack seqno)

/-- The packet can be sent, and arrives as it was sent. -/
structure Arrives (p : Packet) : Prop where
  serialisable : p.Serialisable
  onWire : p.onWire = p

/-! ## What the packets have in common -/

/-- A packet of at most 50 hashes. -/
def OfHashes (p : Packet) : Prop :=
  ∃ ty hashes, ty ≤ 1 ∧ hashes.length ≤ maxHashnumPerPack ∧ p = hashPack ty hashes

theorem OfHashes.arrives {p : Packet} (h : OfHashes p) : Arrives p := by
  obtain ⟨ty, hashes, hty, hlen, rfl⟩ := h
  exact ⟨hashPack_serialisable hty hlen, hashPack_onWire hty hlen⟩

theorem ofHashes_whoHas (needlist : List HashChunk) (down : DownloadConn) :
    OfHashes (formWhoHas needlist down).1 :=
  ⟨0, _, by decide, (whoHasLoop_spec _ needlist 0 (Nat.zero_le _)).2.1, rfl⟩

theorem ofHashes_iHav {whohas ihav : Packet} {haslist : List HashChunk}
    (h : formIHav whohas haslist = some ihav) : OfHashes ihav := by
  rw [formIHav, Option.map_eq_some_iff] at h
  obtain ⟨hashes, hloop, rfl⟩ := h
  have := length_ihavLoop _ (Nat.zero_le _) hloop
  exact ⟨1, hashes, by decide, by omega, rfl⟩

theorem arrives_GET (x : HashChunk) : Arrives (formGET x) := by
  have hlen : x.hash.toList.length = hashSize := Vector.length_toList
  have hser : (formGET x).Serialisable := by
    have hle : 20 ≤ x.hash.toList.length := le_of_eq hlen.symm
    exact ⟨show 16 ≤ 36 by decide, hle⟩
  refine ⟨hser, ?_⟩
  have htake : x.hash.toList.take 20 = x.hash.toList := List.take_of_length_le (le_of_eq hlen)
  show { formGET x with payload := x.hash.toList.take 20 } = formGET x
  rw [htake]
  rfl

/-- **Every packet a peer builds arrives as it was built.** -/
theorem Formed.arrives {p : Packet} (h : Formed p) : Arrives p := by
  cases h with
  | whoHas needlist down => exact (ofHashes_whoHas needlist down).arrives
  | iHav h => exact (ofHashes_iHav h).arrives
  | get x => exact arrives_GET x
  | data i hd hn => exact ⟨formDataPack_serialisable hd hn, formDataPack_onWire hn⟩
  | ack i => exact ⟨⟨Nat.le_refl headerLen, Nat.le_refl 0⟩, rfl⟩

theorem Formed.type_cases {p : Packet} (h : Formed p) :
    headerLen ≤ p.packLen.toNat ∧ p.packLen.toNat ≤ maxPacketSize ∧
      (OfHashes p ∨ ¬ p.packetType ≤ 1 ∧ (p.packetType < 4 ∨ p.packLen.toNat ≤ headerLen)) := by
  have hsize : maxPacketSize = 1040 := rfl
  have hhead : headerLen = 16 := rfl
  have of_hashes : ∀ {p : Packet}, OfHashes p → headerLen ≤ p.packLen.toNat ∧
      p.packLen.toNat ≤ maxPacketSize := by
    rintro p ⟨ty, hashes, -, hlen, rfl⟩
    have hmul : hashes.length * hashSize ≤ 1000 := Nat.mul_le_mul_right hashSize hlen
    rw [hashPack_packLen _ hlen]
    omega
  cases h with
  | whoHas needlist down =>
    have hof := ofHashes_whoHas needlist down
    exact ⟨(of_hashes hof).1, (of_hashes hof).2, .inl hof⟩
  | iHav h =>
    have hof := ofHashes_iHav h
    exact ⟨(of_hashes hof).1, (of_hashes hof).2, .inl hof⟩
  | get x =>
    have hlen : (formGET x).packLen.toNat = 36 := rfl
    have hty : (formGET x).packetType = 2 := rfl
    rw [hlen, hty]
    exact ⟨by omega, by omega, .inr ⟨by decide, .inl (by decide)⟩⟩
  | @data data n i hd hn =>
    have hty : (formDataPack data n i).packetType = 3 := rfl
    rw [formDataPack_packLen hn, hty]
    exact ⟨by omega, by omega, .inr ⟨by decide, .inl (by decide)⟩⟩
  | ack i =>
    have hlen : (formAckPack i).packLen.toNat = 16 := rfl
    have hty : (formAckPack i).packetType = 4 := rfl
    rw [hlen, hty]
    exact ⟨by omega, by omega, .inr ⟨by decide, .inr (by omega)⟩⟩

theorem formed_ihave {hashes : List Hash} (hlen : hashes.length ≤ maxHashnumPerPack) :
    Formed (hashPack 1 hashes) := by
  let haslist := hashes.map fun hash => createNode ⟨0, 0⟩ hash 0
  have hheld : hashes.filter (held haslist) = hashes := by
    refine List.filter_eq_self.mpr fun hash hh => ?_
    rw [held, Option.isSome_iff_ne_none, Ne, findNode_none, not_not, List.map_map]
    exact List.mem_map.mpr ⟨hash, hh, rfl⟩
  have hform : formIHav (hashPack 0 hashes) haslist = some (hashPack 1 hashes) := by
    rw [formIHav_hashPack hlen, hheld]
  exact .iHav hform

theorem Arrives.exists_datagram {p : Packet} (h : Arrives p) :
    ∃ d, datagram p = some d ∧ serialPack p = some (d ++ [0]) ∧ d.length = p.packLen.toNat ∧
      p.header <+: d ∧ (∀ rest, lenField (d ++ rest) = d.length) ∧
      binary2packet (d ++ [0]) = some p := by
  obtain ⟨d, hd, hser, hlen, hhead, hfield⟩ := P2P.exists_datagram h.serialisable
  have hdec := binary2packet_serialPack hser
  rw [h.onWire] at hdec
  exact ⟨d, hd, hser, hlen, hhead, hfield, hdec⟩

/-! ## A stream of packets -/

/-- The streams of the packets, received in one piece into an empty buffer, are taken off one by
one and decoded as the packets, and nothing is left. Serialising has not changed the packets. -/
def RoundTrips (ps : List Packet) (b : Buf) : Prop :=
  ∃ ds b₁ fuel xs b₂, ps.mapM datagram = some ds ∧ recvInto b (some ds.flatten) = some b₁ ∧
    extractLoop fuel b₁ = .exited xs b₂ ∧ xs.map Extraction.stream = ps.map serialPack ∧
    xs.map Extraction.pack = ps.map some ∧ b₂.bufLen = 0 ∧
    ∀ p ∈ ps, ∀ o, ∃ s, serialPack p = some s ∧ serialPackInPlace o p = some (s, p)

theorem exists_datagrams {ps : List Packet} (h : ∀ p ∈ ps, Arrives p) :
    ∃ ds : List (List UInt8), ps.map datagram = ds.map some ∧
      ps.map serialPack = ds.map (fun d => some (d ++ [0])) ∧
      ds.flatten.length = (ps.map fun p => p.packLen.toNat).sum ∧
      (∀ d ∈ ds, ∀ rest, lenField (d ++ rest) = d.length) ∧
      ds.map (fun d => binary2packet (d ++ [0])) = ps.map some := by
  induction ps with
  | nil => exact ⟨[], rfl, rfl, rfl, by simp, rfl⟩
  | cons p ps ih =>
    obtain ⟨ds, hds, hser, hlen, hfield, hdec⟩ := ih fun q hq => h q (List.mem_cons_of_mem p hq)
    obtain ⟨d, hd, hser₁, hlen₁, -, hfield₁, hdec₁⟩ := (h p List.mem_cons_self).exists_datagram
    refine ⟨d :: ds, by simp [hd, hds], by simp [hser₁, hser], ?_, ?_, by simp [hdec₁, hdec]⟩
    · simp only [List.flatten_cons, List.length_append, List.map_cons, List.sum_cons, hlen, hlen₁]
    · simpa using ⟨hfield₁, hfield⟩

/-- **Codec round trip.** -/
theorem codec_round_trip {ps : List Packet} (hps : ∀ p ∈ ps, Formed p)
    (hlen : (ps.map fun p => p.packLen.toNat).sum ≤ buflen2) {b : Buf} (hb : b.bufLen = 0) :
    RoundTrips ps b := by
  obtain ⟨ds, hds, hser, hflat, hfield, hdec⟩ := exists_datagrams fun p hp => (hps p hp).arrives
  have hrange : b.InRange := by
    rw [Buf.InRange, hb]
    exact ⟨le_refl 0, by omega⟩
  have hnone : b.received = [] := by
    rw [Buf.received, hb]
    rfl
  obtain ⟨b₁, hrecv, hb₁, hreceived⟩ := recvInto_some hrange ds.flatten
  rw [hnone, List.nil_append, List.take_of_length_le (by rw [hflat]; exact hlen)] at hreceived
  have hlong : ∀ d ∈ ds, headerLen ≤ d.length ∧ ∀ rest, lenField (d ++ rest) = d.length := by
    intro d hd
    refine ⟨?_, hfield d hd⟩
    have hmem : some d ∈ ps.map datagram := by
      rw [hds]
      exact List.mem_map_of_mem hd
    obtain ⟨p, hp, hpd⟩ := List.mem_map.mp hmem
    obtain ⟨d', hd', -, hlen', -⟩ := (hps p hp).arrives.exists_datagram
    rw [hpd, Option.some.injEq] at hd'
    subst hd'
    rw [hlen']
    exact (hps p hp).type_cases.1
  have hframed := framed_flatten (r := []) (by decide : [].length < headerLen) hlong
  rw [List.append_nil] at hframed
  obtain ⟨fuel, xs, b₂, hrun, -, hstreams, hb₂, hr⟩ := extractLoop_of_framed hframed hb₁ hreceived
  refine ⟨ds, b₁, fuel, xs, b₂, mapM_eq_some_iff.mpr hds, hrecv, hrun, ?_, ?_, ?_, fun p hp o => ?_⟩
  · rw [hstreams, hser]
  · rw [← hdec, extractLoop_packs hrun]
    have hmap : xs.map (fun x => x.stream.bind binary2packet) =
        (xs.map Extraction.stream).map fun s => s.bind binary2packet := by
      rw [List.map_map]
      rfl
    rw [hmap, hstreams, List.map_map]
    rfl
  · have := hb₂.received_length
    rw [hr, List.length_nil] at this
    omega
  · obtain ⟨d, -, hser', -⟩ := (hps p hp).arrives.exists_datagram
    exact ⟨_, hser', by rw [serialPackInPlace_eq, hser', Option.map_some]⟩

/-- An IHave with two hashes, a data packet with a payload and an ACK in one piece. -/
theorem codec_round_trip_three :
    RoundTrips [hashPack 1 [Vector.replicate hashSize 5, Vector.replicate hashSize 6],
      formDataPack [1, 2, 3] 3 9, formAckPack 7] Buf.empty := by
  refine codec_round_trip ?_ (by decide) rfl
  refine List.forall_mem_cons.mpr ⟨formed_ihave (by decide), List.forall_mem_cons.mpr ⟨?_, ?_⟩⟩
  · exact .data 9 (by decide) (by decide)
  · exact List.forall_mem_singleton.mpr (.ack 7)

/-! ## A datagram on its own -/

/-- The buffer after a datagram and its sender. -/
def inbound (b : Buf) (e : SockAddr × List UInt8) : Option Buf :=
  (processInboundUdp b e.1 e.2).map (·.2)

theorem bufLen_lt_of_exec {ds : List (SockAddr × List UInt8)} {b : Buf}
    (h : exec inbound Buf.empty ds = some b) : b.bufLen < 16 := by
  refine exec_invariant (fun b => b.bufLen < 16) (fun s e t _ hstep => ?_) (by decide) h
  unfold inbound at hstep
  rw [Option.map_eq_some_iff] at hstep
  obtain ⟨⟨calls, b'⟩, hcall, rfl⟩ := hstep
  obtain ⟨b₁, xs, packs, -, hrun, -⟩ := processInboundUdp_cases hcall
  exact extractLoop_rest_lt hrun

/-- No packet of hashes begins again inside its own header. -/
theorem header_hashPack_unique {ty : UInt8} {hashes : List Hash} (hty : ty ≤ 1)
    (hlen : hashes.length ≤ maxHashnumPerPack) {k : Nat} (hk : k < headerLen)
    (h0 : (hashPack ty hashes).header[k]? = (hashPack ty hashes).header[0]?)
    (h1 : k + 1 < headerLen → (hashPack ty hashes).header[k + 1]? =
      (hashPack ty hashes).header[1]?) : k = 0 := by
  have hpack := hashPack_packLen ty hlen
  have hmul : hashes.length * hashSize ≤ 1000 := Nat.mul_le_mul_right hashSize hlen
  have hty' : ty ≠ 60 := by
    rintro rfl
    exact absurd hty (by decide)
  have hhi : UInt8.ofNat ((hashPack ty hashes).packLen.toNat / 256) ≠ 60 := by
    rw [Ne, ← UInt8.toNat_inj, UInt8.toNat_ofNat', hpack]
    show ¬ _ = 60
    omega
  have hlist : (hashPack ty hashes).header = [60, 81, 1, ty, 0, 16,
      UInt8.ofNat ((hashPack ty hashes).packLen.toNat / 256),
      (hashPack ty hashes).packLen.toUInt8, 0, 0, 0, 0, 0, 0, 0, 0] := by
    have hmagic : be16 15441 = [60, 81] := by decide
    have hhd : be16 headerLen.toUInt16 = [0, 16] := by decide
    have hzero : be32 0 = [0, 0, 0, 0] := by decide
    show be16 15441 ++ [1, ty] ++ be16 headerLen.toUInt16 ++
      be16 (hashPack ty hashes).packLen ++ be32 0 ++ be32 0 = _
    rw [hmagic, hhd, hzero, be16]
    rfl
  rw [hlist] at h0 h1
  -- a byte 60 at place 3 or 6 is excluded above, one at place 7 has a zero behind it
  have hplace : k = 0 ∨ k = 3 ∨ k = 6 ∨ k = 7 := by
    have hk16 : k < 16 := hk
    interval_cases k <;> simp at h0 ⊢
  rcases hplace with rfl | rfl | rfl | rfl
  · rfl
  · exact absurd (by simpa using h0) hty'
  · exact absurd (by simpa using h0) hhi
  · exact absurd (h1 (by decide)) (by simp)

/-- A packet of hashes keeps its header only behind nothing. -/
theorem pending_eq_nil {p : Packet} (hp : OfHashes p) {pending d : List UInt8}
    (hlt : pending.length < headerLen) (hhead : p.header <+: d)
    (htake : (pending ++ d).take headerLen = p.header) : pending = [] := by
  obtain ⟨ty, hashes, hty, hlen, rfl⟩ := hp
  obtain ⟨tail, rfl⟩ := hhead
  -- position `pending.length + j` of the head read is position `j` of the packet's own head
  have hself : ∀ j, j < headerLen → pending.length + j < headerLen →
      (hashPack ty hashes).header[pending.length + j]? = (hashPack ty hashes).header[j]? := by
    intro j hj hk
    have hget : ((pending ++ ((hashPack ty hashes).header ++ tail)).take headerLen)[
        pending.length + j]? = (hashPack ty hashes).header[j]? := by
      rw [List.getElem?_take_of_lt hk, List.getElem?_append_right (Nat.le_add_right ..),
        Nat.add_sub_cancel_left, List.getElem?_append_left (by rw [Packet.header_length]; exact hj)]
    rwa [htake] at hget
  apply List.length_eq_zero_iff.mp
  exact header_hashPack_unique hty hlen hlt (hself 0 (by decide) hlt)
    fun h1 => hself 1 (by decide) h1

theorem lenField_of_decoded {bytes : List UInt8} {p : Packet}
    (hread : (bytes.take (lenField bytes) ++ [0]).take headerLen = p.header) :
    lenField bytes = p.packLen.toNat := by
  have hh : headerLen = 16 := rfl
  have hlong := congrArg List.length hread
  rw [Packet.header_length, List.length_take, List.length_append, List.length_take,
    List.length_singleton] at hlong
  have hsame : lenField (bytes.take (lenField bytes) ++ [0]) = lenField bytes := by
    have h6 : 6 < lenField bytes := by omega
    have h7 : 7 < lenField bytes := by omega
    simp only [lenField, List.getD_eq_getElem?_getD] at h6 h7 ⊢
    rw [List.getElem?_append_left (by rw [List.length_take]; omega),
      List.getElem?_append_left (by rw [List.length_take]; omega),
      List.getElem?_take_of_lt h6, List.getElem?_take_of_lt h7]
  rw [← hsame, ← lenField_take (le_refl headerLen), hread, ← lenField_header p [], List.append_nil]

/-- **Read alone, the datagram was not moved**: the bytes it is read from begin with it. -/
theorem prefix_of_alone {p : Packet} {d : List UInt8} (hp : Formed p) (hd : datagram p = some d)
    {b b' : Buf} {addr : SockAddr} (hlt : b.bufLen < 16)
    (h : processInboundUdp b addr d = some ([(p, addr)], b')) :
    0 ≤ b.bufLen ∧ d <+: b.received ++ d := by
  have hmax : maxPacketSize = 1040 := rfl
  have hbuf : buflen2 = 1500 := rfl
  have hh : headerLen = 16 := rfl
  obtain ⟨hlo, hhi, htype⟩ := hp.type_cases
  obtain ⟨d', hd', -, hlen, hhead, -, hdec⟩ := hp.arrives.exists_datagram
  obtain rfl : d = d' := Option.some.inj (hd.symm.trans hd')
  obtain ⟨b₁, xs, packs, hrecv, hrun, hpacks, hcalls⟩ := processInboundUdp_cases h
  have hb := inRange_of_recvInto hrecv
  have hpend := hb.received_length
  refine ⟨hb.1, ?_⟩
  obtain ⟨b₂, hrecv', hb₁, hreceived⟩ := recvInto_some hb d
  obtain rfl : b₁ = b₂ := Option.some.inj (hrecv.symm.trans hrecv')
  rw [List.take_of_length_le (by omega)] at hreceived
  have hall := hb₁.received_length
  rw [hreceived, List.length_append] at hall
  -- there was one extraction, of the packet
  obtain rfl : packs = [p] := by
    have hmap := congrArg (List.map Prod.fst) hcalls
    rw [List.map_map] at hmap
    simpa using hmap.symm
  rcases extractLoop_succ hrun with ⟨-, rfl, -⟩ | ⟨hge, x, ys, hx, -, rfl⟩
  · cases hpacks
  rw [List.map_cons, List.map_cons, List.cons.injEq] at hpacks
  obtain ⟨hn, -, hpack, -, -⟩ := getFirstpack_spec hge hx
  rw [hpacks.1] at hpack
  obtain ⟨hread, -⟩ := binary2packet_cases hpack.symm
  have hfield : lenField b₁.bytes = d.length := (lenField_of_decoded hread).trans hlen.symm
  rw [hfield, ← take_received (by omega), hreceived] at hpack
  have hcut : ((b.received ++ d).take d.length).length = d.length := by
    rw [List.length_take, List.length_append]
    omega
  rcases htype with hof | ⟨hty, hend⟩
  · obtain ⟨hread', -⟩ := binary2packet_cases hpack.symm
    rw [List.take_append_of_le_length (by omega), List.take_take,
      Nat.min_eq_left (by omega)] at hread'
    rw [pending_eq_nil hof (by omega) hhead hread', List.nil_append]
  · have heq := binary2packet_inj (by omega) hlen hpack.symm hdec hlo hty hend
    have hpre := List.take_prefix d.length (b.received ++ d)
    rwa [heq] at hpre

/-- **Not moved, the datagram is read alone**: the bytes behind it are less than a header, and stay
pending. -/
theorem alone_of_prefix {p : Packet} {d : List UInt8} (hp : Formed p) (hd : datagram p = some d)
    {b : Buf} (addr : SockAddr) (hlt : b.bufLen < 16) (h0 : 0 ≤ b.bufLen)
    (hpre : d <+: b.received ++ d) :
    ∃ b', processInboundUdp b addr d = some ([(p, addr)], b') ∧ b'.bufLen = b.bufLen := by
  have hmax : maxPacketSize = 1040 := rfl
  have hbuf : buflen2 = 1500 := rfl
  have hh : headerLen = 16 := rfl
  obtain ⟨hlo, hhi, -⟩ := hp.type_cases
  obtain ⟨d', hd', -, hlen, -, hfield, hdec⟩ := hp.arrives.exists_datagram
  obtain rfl : d = d' := Option.some.inj (hd.symm.trans hd')
  have hb : b.InRange := ⟨h0, by omega⟩
  have hpend := hb.received_length
  obtain ⟨rest, hrest⟩ := hpre
  have hshort := congrArg List.length hrest
  rw [List.length_append, List.length_append] at hshort
  have hframed : Framed headerLen lenField
      (b.received ++ d.take (buflen2 - b.received.length)) [d] rest := by
    have hstream : Framed headerLen lenField ([d].flatten ++ rest) [d] rest :=
      framed_flatten (show rest.length < headerLen by omega) fun f hf => by
        rw [List.mem_singleton.mp hf]
        exact ⟨show headerLen ≤ d.length by omega, hfield⟩
    rw [List.take_of_length_le (by omega), ← hrest]
    rwa [List.flatten_singleton] at hstream
  obtain ⟨b', hrun, hb', hleft⟩ := processInboundUdp_of_framed hb addr hframed
    (show [d].map (fun f => binary2packet (f ++ [0])) = [p].map some by simp [hdec])
  have hpend' := hb'.received_length
  rw [hleft] at hpend'
  exact ⟨b', hrun, by omega⟩

theorem alone_of_empty {p : Packet} (hp : Formed p) {b : Buf} (hb : b.bufLen = 0)
    (addr : SockAddr) : ∃ d b', datagram p = some d ∧
      processInboundUdp b addr d = some ([(p, addr)], b') ∧ b'.bufLen = 0 := by
  obtain ⟨d, hd, -⟩ := hp.arrives.exists_datagram
  have hnone : b.received = [] := by
    rw [Buf.received, hb]
    rfl
  have hpre : d <+: b.received ++ d := by
    rw [hnone, List.nil_append]
  obtain ⟨b', hrun, hb'⟩ := alone_of_prefix hp hd addr (by omega) (by omega) hpre
  exact ⟨d, b', hd, hrun, hb'.trans hb⟩

/-- The calls for the datagrams `ds` return, and receiving `d` from `addr` after them makes one call
of `dealwithincomepack`, with the packet `p` and that address. -/
def ReadAlone (ds : List (SockAddr × List UInt8)) (addr : SockAddr) (p : Packet)
    (d : List UInt8) : Prop :=
  ∃ b b', exec inbound Buf.empty ds = some b ∧ processInboundUdp b addr d = some ([(p, addr)], b')

/-- **A datagram is read on its own** exactly when the calls before it have returned, and the bytes
they have left pending, with the datagram behind them, begin with the datagram itself: nothing is
pending, or what is pending happens to be the datagram's own first bytes. -/
theorem datagram_alone_iff {p : Packet} {d : List UInt8} (hp : Formed p) (hd : datagram p = some d)
    (ds : List (SockAddr × List UInt8)) (addr : SockAddr) :
    ReadAlone ds addr p d ↔
      ∃ b, exec inbound Buf.empty ds = some b ∧ 0 ≤ b.bufLen ∧ d <+: b.received ++ d := by
  constructor
  · rintro ⟨b, b', hrun, hcall⟩
    exact ⟨b, hrun, prefix_of_alone hp hd (bufLen_lt_of_exec hrun) hcall⟩
  · rintro ⟨b, hrun, h0, hpre⟩
    obtain ⟨b', hcall, -⟩ := alone_of_prefix hp hd addr (bufLen_lt_of_exec hrun) h0 hpre
    exact ⟨b, b', hrun, hcall⟩

/-- An ACK behind a datagram of DATA and one of hashes from two other peers. -/
theorem third_datagram_alone :
    ∃ d₁ d₂ d, datagram (formDataPack [1, 2, 3] 3 9) = some d₁ ∧
      datagram (hashPack 1 [Vector.replicate hashSize 5]) = some d₂ ∧
      datagram (formAckPack 7) = some d ∧
      ReadAlone [(⟨1, 1⟩, d₁), (⟨1, 3⟩, d₂)] ⟨1, 2⟩ (formAckPack 7) d := by
  obtain ⟨d₁, b₁, hd₁, hcall₁, hb₁⟩ :=
    alone_of_empty (@Formed.data [1, 2, 3] 3 9 (by decide) (by decide)) (b := Buf.empty) rfl ⟨1, 1⟩
  obtain ⟨d₂, b₂, hd₂, hcall₂, hb₂⟩ :=
    alone_of_empty (@formed_ihave [Vector.replicate hashSize 5] (by decide)) hb₁ ⟨1, 3⟩
  obtain ⟨d, -, hd, -⟩ := alone_of_empty (.ack 7) hb₂ ⟨1, 2⟩
  have hrun : exec inbound Buf.empty [(⟨1, 1⟩, d₁), (⟨1, 3⟩, d₂)] = some b₂ := by
    have h₁ : inbound Buf.empty (⟨1, 1⟩, d₁) = some b₁ := congrArg (Option.map Prod.snd) hcall₁
    have h₂ : inbound b₁ (⟨1, 3⟩, d₂) = some b₂ := congrArg (Option.map Prod.snd) hcall₂
    rw [exec_step h₁, exec_step h₂, exec_nil]
  have hnone : b₂.received = [] := by
    rw [Buf.received, hb₂]
    rfl
  refine ⟨d₁, d₂, d, hd₁, hd₂, hd, (datagram_alone_iff (.ack 7) hd _ ⟨1, 2⟩).mpr
    ⟨b₂, hrun, by omega, ?_⟩⟩
  rw [hnone, List.nil_append]

/-- A datagram of one byte, from another peer, is glued to the ACK that follows it. -/
theorem runt_glued_to_next :
    ∃ d, datagram (formAckPack 7) = some d ∧
      ¬ ReadAlone [(⟨1, 1⟩, [0])] ⟨1, 2⟩ (formAckPack 7) d := by
  obtain ⟨d, hd, -, -, ⟨tail, htail⟩, -⟩ := (Formed.ack 7).arrives.exists_datagram
  refine ⟨d, hd, ?_⟩
  rintro ⟨b, b', hrun, hcall⟩
  have hpre := (prefix_of_alone (.ack 7) hd (bufLen_lt_of_exec hrun) hcall).2
  have hframed : Framed headerLen lenField (Buf.empty.received ++
      [0].take (buflen2 - Buf.empty.received.length)) [] [0] := .rest (by decide)
  obtain ⟨b₁, hone, -, hpend⟩ := processInboundUdp_of_framed Buf.empty_inRange
    ⟨1, 1⟩ hframed (show [].map _ = [].map some from rfl)
  obtain rfl : b₁ = b := by
    rw [exec_cons, inbound, hone] at hrun
    exact Option.some.inj hrun
  rw [hpend, ← htail] at hpre
  exact absurd (List.cons_prefix_cons.mp hpre).1 (by decide)

end P2P
