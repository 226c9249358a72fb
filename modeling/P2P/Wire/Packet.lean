import P2P.Lib.Bytes
import P2P.Lib.CInt

/-!
# Packets and their wire form

`Packet` is the record of `packet.h`; a `NULL` payload is the empty list (no
byte of either can be read). `serialPack` and `binary2packet` are the two
directions of the codec in `packet.c`. Both return `none` where the C code
reads or writes outside a buffer.

`binary2packet_serialPack`: a packet that can be serialised is decoded by the
peer as `Packet.onWire`, the packet without the sender's private fields. The
protocol modules carry that decoded packet instead of its bytes.
-/

namespace P2P

open Lib

abbrev buflen2 : Nat := 1500
abbrev headerLen : Nat := 16
abbrev hashSize : Nat := 20

/-- A chunk hash: `HASH_SIZE` bytes. -/
abbrev Hash := Vector UInt8 hashSize

/-- The hash stored in the first `HASH_SIZE` bytes of a buffer, `none` if the buffer is shorter. -/
def Hash.ofBytes (l : List UInt8) : Option Hash :=
  if h : hashSize ≤ l.length then some ⟨(l.take hashSize).toArray, by simp [h]⟩ else none

theorem Hash.ofBytes_toList (h : Hash) : Hash.ofBytes h.toList = some h := by
  have hlen : h.toList.length = hashSize := Vector.length_toList
  rw [Hash.ofBytes, dif_pos (le_of_eq hlen.symm), Option.some.injEq]
  apply Vector.toArray_inj.mp
  show (h.toList.take hashSize).toArray = h.toArray
  rw [List.take_of_length_le (le_of_eq hlen)]
  rfl

/-- `struct sockaddr_in`: address and port of a peer. -/
structure SockAddr where
  sinAddr : UInt32
  sinPort : UInt16
  deriving DecidableEq, Repr

structure Packet where
  magicNum : UInt16
  versionNum : UInt8
  packetType : UInt8
  hdLen : UInt16
  packLen : UInt16
  seqNum : UInt32
  ackNum : UInt32
  chunkhashNum : UInt8
  payload : List UInt8
  /-- The byte `malloc` adds behind the payload; `binary2packet` leaves it as it was found. -/
  behind : UInt8
  /-- Only used by the sender of a data packet. -/
  timestamp : Int
  ackedNum : Int
  deriving DecidableEq, Repr

namespace Packet

/-- A `bzero`ed packet. -/
def zero : Packet :=
  { magicNum := 0, versionNum := 0, packetType := 0, hdLen := 0, packLen := 0, seqNum := 0,
    ackNum := 0, chunkhashNum := 0, payload := [], behind := 0, timestamp := 0, ackedNum := 0 }

/-- `Pack_len - Hd_len`, computed in `int`. -/
def dataLen (p : Packet) : Int := p.packLen.toNat - p.hdLen.toNat

/-- The memory `payload` points to: no packet without payload has any. -/
def block (p : Packet) : List UInt8 := if p.payload = [] then [] else p.payload ++ [p.behind]

/-- The packet with this byte behind its payload. -/
def withBehind (p : Packet) (b : UInt8) : Packet := { p with behind := b }

@[simp] theorem withBehind_payload (p : Packet) (b : UInt8) :
    (p.withBehind b).payload = p.payload := rfl

@[simp] theorem withBehind_dataLen (p : Packet) (b : UInt8) :
    (p.withBehind b).dataLen = p.dataLen := rfl

@[simp] theorem withBehind_seqNum (p : Packet) (b : UInt8) :
    (p.withBehind b).seqNum = p.seqNum := rfl

theorem take_block {p : Packet} {n : Nat} (h : n ≤ p.payload.length) :
    p.block.take n = p.payload.take n := by
  unfold block
  split
  case isTrue hnil => rw [hnil]
  case isFalse => rw [List.take_append_of_le_length h]

theorem length_payload_le_block (p : Packet) : p.payload.length ≤ p.block.length := by
  unfold block
  split
  case isTrue hnil => rw [hnil]
  case isFalse => rw [List.length_append]; exact Nat.le_add_right _ _

/-- Bytes in front of the payload: WhoHas and IHave carry the hash count and three pad bytes. -/
def nonPayloadLen (p : Packet) : Nat := if p.packetType ≤ 1 then 20 else headerLen

/-- What a peer decodes: the payload bytes `Pack_len` covers, nothing private to the sender. -/
def onWire (p : Packet) : Packet :=
  { p with
    chunkhashNum := if p.packetType ≤ 1 then p.chunkhashNum else 0
    payload := if p.packetType < 4 then p.payload.take (p.packLen.toNat - p.nonPayloadLen) else []
    behind := 0
    timestamp := 0
    ackedNum := 0 }

end Packet

/-! ## The packets a peer forms -/

def formDataPack (data : List UInt8) (dataLen : Nat) (seqno : Int) : Packet :=
  { Packet.zero with
    packetType := 3
    hdLen := headerLen.toUInt16
    magicNum := 15441
    versionNum := 1
    seqNum := UInt32.ofInt seqno
    packLen := UInt16.ofNat (headerLen + dataLen)
    payload := data.take dataLen }

def formAckPack (seqno : Int) : Packet :=
  { Packet.zero with
    packetType := 4
    hdLen := headerLen.toUInt16
    magicNum := 15441
    versionNum := 1
    packLen := headerLen.toUInt16
    ackNum := UInt32.ofInt seqno }

/-! ## The codec -/

/-- The first `HEADER_LEN` bytes of the record in network byte order. -/
def Packet.header (p : Packet) : List UInt8 :=
  be16 p.magicNum ++ [p.versionNum, p.packetType] ++ be16 p.hdLen ++ be16 p.packLen ++
    be32 p.seqNum ++ be32 p.ackNum

@[simp] theorem Packet.header_length (p : Packet) : p.header.length = headerLen := rfl

/-- The payload holds the bytes `Pack_len` announces. -/
def Packet.Serialisable (p : Packet) : Prop :=
  p.nonPayloadLen ≤ p.packLen.toNat ∧ p.packLen.toNat - p.nonPayloadLen ≤ p.payload.length

instance (p : Packet) : Decidable p.Serialisable := inferInstanceAs (Decidable (_ ∧ _))

/-- The `Pack_len + 1` bytes of `serial_pack`, the last one the zero `bzero` left. -/
def serialPack (p : Packet) : Option (List UInt8) :=
  if p.Serialisable then
    some (p.header ++ (if p.packetType ≤ 1 then [p.chunkhashNum, 0, 0, 0] else []) ++
      p.payload.take (p.packLen.toNat - p.nonPayloadLen) ++ [0])
  else none

/-- The record `memcpy` and `ntohs`/`ntohl` make of the first `HEADER_LEN` bytes. -/
def decodeHeader : List UInt8 → Option Packet
  | m1 :: m0 :: vn :: ty :: h1 :: h0 :: l1 :: l0 :: s3 :: s2 :: s1 :: s0 :: a3 :: a2 :: a1 :: a0 ::
      _ =>
    some { Packet.zero with
      magicNum := ofBe16 m1 m0
      versionNum := vn
      packetType := ty
      hdLen := ofBe16 h1 h0
      packLen := ofBe16 l1 l0
      seqNum := ofBe32 s3 s2 s1 s0
      ackNum := ofBe32 a3 a2 a1 a0 }
  | _ => none

/-- The `Pack_len - non_payload_len` bytes after `non_payload_len`. -/
def decodePayload (stream : List UInt8) (pack : Packet) : Option Packet :=
  if pack.packetType < 4 ∧ pack.nonPayloadLen < pack.packLen.toNat then
    if pack.packLen.toNat ≤ stream.length then
      some { pack with
        payload := (stream.drop pack.nonPayloadLen).take
          (pack.packLen.toNat - pack.nonPayloadLen) }
    else none
  else some pack

/-- The packet decoded from a stream into a `bzero`ed record. What `malloc` left behind the payload
is not in the stream; `Mem.Arrival` says what it is. -/
def binary2packet (stream : List UInt8) : Option Packet :=
  (decodeHeader stream).bind fun pack =>
    if pack.packetType ≤ 1 then
      -- the hash count is the byte after the header
      stream[headerLen]?.bind fun n => decodePayload stream { pack with chunkhashNum := n }
    else decodePayload stream pack

/-- `send_pack`: the packet the peer decodes from the stream. -/
def sendPack (p : Packet) : Option Packet := (serialPack p).bind binary2packet


theorem decodeHeader_header (p : Packet) (rest : List UInt8) :
    decodeHeader (p.header ++ rest) =
      some { p with
        chunkhashNum := 0, payload := [], behind := 0, timestamp := 0, ackedNum := 0 } := by
  simp [decodeHeader, Packet.header, be16, be32, Packet.zero]

theorem decodePayload_serial {p : Packet} {pre : List UInt8} (n : UInt8)
    (hpre : pre.length = p.nonPayloadLen) (hfit : p.nonPayloadLen ≤ p.packLen.toNat)
    (hpay : p.packLen.toNat - p.nonPayloadLen ≤ p.payload.length) :
    decodePayload (pre ++ p.payload.take (p.packLen.toNat - p.nonPayloadLen) ++ [0])
        { p with chunkhashNum := n, payload := [], behind := 0, timestamp := 0, ackedNum := 0 } =
      some { p with
        chunkhashNum := n, payload := p.onWire.payload, behind := 0, timestamp := 0,
        ackedNum := 0 } := by
  have hnp : Packet.nonPayloadLen
      { p with chunkhashNum := n, payload := [], behind := 0, timestamp := 0, ackedNum := 0 } =
        p.nonPayloadLen := rfl
  unfold decodePayload
  simp only [hnp, Packet.onWire]
  by_cases h4 : p.packetType < 4
  · by_cases hpos : p.nonPayloadLen < p.packLen.toNat
    · rw [if_pos ⟨h4, hpos⟩, if_pos (by simp; omega), if_pos h4, List.append_assoc, ← hpre,
        List.drop_left, List.take_append_of_le_length (by simp; omega), List.take_take,
        Nat.min_self]
    · rw [if_neg (fun h => hpos h.2), if_pos h4,
        show p.packLen.toNat - p.nonPayloadLen = 0 by omega,
        List.take_zero]
  · rw [if_neg (fun h => h4 h.1), if_neg h4]

/-- **The peer decodes what was sent.** -/
theorem binary2packet_serialPack {p : Packet} {s : List UInt8} (h : serialPack p = some s) :
    binary2packet s = some p.onWire := by
  unfold serialPack at h
  split at h
  · rename_i hok
    obtain ⟨hlen, hpay⟩ := hok
    cases h
    by_cases h1 : p.packetType ≤ 1
    · have hnp : p.nonPayloadLen = 20 := if_pos h1
      have hget : ((p.header ++ [p.chunkhashNum, 0, 0, 0]) ++
          p.payload.take (p.packLen.toNat - p.nonPayloadLen) ++ [0])[headerLen]? =
            some p.chunkhashNum := by
        rw [List.append_assoc, List.append_assoc, List.getElem?_append_right (by simp)]
        simp
      have hhead := decodeHeader_header p ([p.chunkhashNum, 0, 0, 0] ++
        p.payload.take (p.packLen.toNat - p.nonPayloadLen) ++ [0])
      simp only [← List.append_assoc] at hhead
      unfold binary2packet
      simp only [if_pos h1, hhead, Option.bind_some, hget]
      rw [decodePayload_serial _ (by rw [hnp]; rfl) hlen hpay]
      simp [Packet.onWire, h1]
    · have hnp : p.nonPayloadLen = 16 := if_neg h1
      have hhead := decodeHeader_header p
        (p.payload.take (p.packLen.toNat - p.nonPayloadLen) ++ [0])
      rw [← List.append_assoc] at hhead
      unfold binary2packet
      simp only [if_neg h1, List.append_nil, hhead, Option.bind_some]
      rw [decodePayload_serial _ (by rw [hnp]; rfl) hlen hpay]
      simp [Packet.onWire, h1]
  · cases h

theorem sendPack_eq {p : Packet} (h : p.Serialisable) : sendPack p = some p.onWire := by
  have hs : ∃ s, serialPack p = some s := by
    unfold serialPack
    rw [if_pos h]
    exact ⟨_, rfl⟩
  obtain ⟨s, hs⟩ := hs
  rw [sendPack, hs, Option.bind_some, binary2packet_serialPack hs]

/-! ## Data and ACK packets on the wire -/

theorem toNat_ofInt_uint32 {z : Int} (h0 : 0 ≤ z) (h1 : z < 2 ^ 32) :
    ((UInt32.ofInt z).toNat : Int) = z := by
  rw [UInt32.ofInt, UInt32.toNat_ofNat']
  omega

section
variable {data : List UInt8} {n : Nat} {i : Int}

theorem formDataPack_packLen (hn : n ≤ 1024) :
    (formDataPack data n i).packLen.toNat = headerLen + n := by
  have hh : headerLen = 16 := rfl
  simp only [formDataPack, UInt16.toNat_ofNat']
  omega

theorem formDataPack_dataLen (hn : n ≤ 1024) : (formDataPack data n i).dataLen = n := by
  have hh : headerLen = 16 := rfl
  have hd : (formDataPack data n i).hdLen.toNat = headerLen := rfl
  rw [Packet.dataLen, formDataPack_packLen hn, hd]
  omega

theorem formDataPack_seqNum (h0 : 0 ≤ i) (h1 : i < 2 ^ 32) :
    ((formDataPack data n i).seqNum.toNat : Int) = i := toNat_ofInt_uint32 h0 h1

theorem formDataPack_payload_length (hd : n ≤ data.length) :
    (formDataPack data n i).payload.length = n := by
  simp [formDataPack, hd]

theorem formDataPack_serialisable (hd : n ≤ data.length) (hn : n ≤ 1024) :
    (formDataPack data n i).Serialisable := by
  have hnp : (formDataPack data n i).nonPayloadLen = headerLen := rfl
  rw [Packet.Serialisable, formDataPack_packLen hn, formDataPack_payload_length hd, hnp]
  omega

theorem formDataPack_onWire (hn : n ≤ 1024) :
    (formDataPack data n i).onWire = formDataPack data n i := by
  have hnp : (formDataPack data n i).nonPayloadLen = headerLen := rfl
  have hty : (formDataPack data n i).packetType = 3 := rfl
  have hpay : (formDataPack data n i).payload = data.take n := rfl
  unfold Packet.onWire
  rw [formDataPack_packLen hn, hnp, hty, hpay, if_neg (by decide), if_pos (by decide),
    Nat.add_sub_cancel_left, List.take_take, Nat.min_self]
  rfl

theorem sendPack_formAckPack (i : Int) : sendPack (formAckPack i) = some (formAckPack i) :=
  sendPack_eq (p := formAckPack i) ⟨Nat.le_refl headerLen, Nat.le_refl 0⟩

theorem formAckPack_ackNum (h0 : 0 ≤ i) (h1 : i < 2 ^ 32) :
    ((formAckPack i).ackNum.toNat : Int) = i := toNat_ofInt_uint32 h0 h1

end

end P2P
