import P2P.Wire.Packet

/-!
# Serialising in place

`serial_pack` converts the header fields of the packet itself to network byte order,
copies the head of the record as it lies in memory, and converts the fields back.
`serialPackInPlace` follows these steps on a host of either byte order.

`serialPackInPlace_eq`: the stream is the one of `serialPack`, whatever the host, and the
packet is unchanged afterwards.
-/

namespace P2P

open Lib

variable (o : ByteOrder)

/-- The fields `serial_pack` converts, before the copy to network order and after it back. -/
def Packet.swapFields (p : Packet) : Packet :=
  { p with
    magicNum := o.htons p.magicNum
    hdLen := o.htons p.hdLen
    packLen := o.htons p.packLen
    seqNum := o.htonl p.seqNum
    ackNum := o.htonl p.ackNum }

/-- The first `HEADER_LEN` bytes of the record in memory. -/
def Packet.image (p : Packet) : List UInt8 :=
  o.bytes16 p.magicNum ++ [p.versionNum, p.packetType] ++ o.bytes16 p.hdLen ++
    o.bytes16 p.packLen ++ o.bytes32 p.seqNum ++ o.bytes32 p.ackNum

/-- `serial_pack`: the stream, and the packet as the call leaves it. -/
def serialPackInPlace (pack : Packet) : Option (List UInt8 × Packet) :=
  let inNetworkOrder := pack.swapFields o
  let header := inNetworkOrder.image o
  let pack := inNetworkOrder.swapFields o
  if pack.Serialisable then
    some (header ++ (if pack.packetType ≤ 1 then [pack.chunkhashNum, 0, 0, 0] else []) ++
      pack.payload.take (pack.packLen.toNat - pack.nonPayloadLen) ++ [0], pack)
  else none

theorem Packet.swapFields_swapFields (p : Packet) : (p.swapFields o).swapFields o = p := by
  simp [swapFields]

theorem Packet.image_swapFields (p : Packet) : (p.swapFields o).image o = p.header := by
  simp [image, swapFields, header]

/-- **Serialising leaves the packet unchanged.** -/
theorem serialPackInPlace_eq (p : Packet) :
    serialPackInPlace o p = (serialPack p).map fun s => (s, p) := by
  unfold serialPackInPlace serialPack
  simp only [Packet.swapFields_swapFields, Packet.image_swapFields]
  split <;> rfl

end P2P
