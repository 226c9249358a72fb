import P2P.Lib.Rounding
import P2P.Lib.Slots
import P2P.Wire.Packet

/-!
# The sender window

`Window` and its operations from `sock_io.c`: `createSW`, `p2pSender`,
`windowSender`, `checkDatapackTimeout` and `uponReceiveACK`. Packets are numbered
from 1; `LPA`, `LPS` and `LPR - 1` are the last packet acknowledged, sent and
buffered. `congwin_size` is a `float`: every operation on it is followed by the
rounding `fl`, so what is proved holds of single precision and of exact arithmetic.

An operation returns `none` where the code follows a `NULL` pointer or leaves an
array. The clock is an argument: `time i` is what the `i`-th call of `time` in a
function reads.
-/

namespace P2P

open Lib

abbrev senderBufSize : Nat := 514
abbrev maxPacketSize : Nat := 1040
abbrev tcpMaxwin : Rat := 128
abbrev initialCongestionThreshold : Int := 64
abbrev chunkSize : Nat := 524288
abbrev timeoutSec : Int := 2

/-- Payload bytes of a full data packet. -/
abbrev ploadLen : Nat := maxPacketSize - headerLen

structure Window where
  hash : Hash
  dst : SockAddr
  ssthresh : Int
  LPA : Int
  LPS : Int
  LPR : Int
  /-- How many packets may be sent without exceeding the congestion window. -/
  count : Int
  congwinSize : Rat
  senderBuf : Slots Packet senderBufSize
  deriving DecidableEq

def createSW (hash : Hash) (dst : SockAddr) : Window :=
  { hash := hash
    dst := dst
    ssthresh := initialCongestionThreshold
    LPA := 0
    LPS := 0
    LPR := 1
    count := 1
    congwinSize := 1
    senderBuf := Slots.empty Packet senderBufSize }

/-! ## Filling the window -/

/-- Form a data packet of the `n` bytes at `countlen` and put it into the next free slot. -/
def addPacket (data : List UInt8) (countlen n : Nat) (sw : Window) : Option Window :=
  if countlen + n ≤ data.length then
    (sw.senderBuf.write sw.LPR (some (formDataPack (data.drop countlen) n sw.LPR))).map fun buf =>
      { sw with senderBuf := buf, LPR := sw.LPR + 1 }
  else none

/-- The `while` loop of `p2p_sender` and the last packet after it. -/
def p2pLoop (data : List UInt8) (len : Nat) : Nat → Nat → Window → Option (Window × Nat)
  | 0, _, _ => none
  | fuel + 1, countlen, sw =>
    if ploadLen < len - countlen then
      -- when the sender buffer is full, stop sending
      if sw.LPR = senderBufSize - 1 then some (sw, countlen)
      else (addPacket data countlen ploadLen sw).bind (p2pLoop data len fuel (countlen + ploadLen))
    else if sw.LPR = senderBufSize - 1 then some (sw, countlen)
    else (addPacket data countlen (len - countlen) sw).map fun sw => (sw, len)

/-- `p2p_sender`: the window with the packets of `data[0..len)` and the bytes taken. Every pass of
the loop takes a byte or more, so `len + 1` passes are enough. -/
def p2pSender (data : List UInt8) (sw : Window) (len : Nat) : Option (Window × Nat) :=
  p2pLoop data len (len + 1) 0 sw

/-! ## Sending -/

/-- The `for` loop of `window_sender` with `n` passes left: the packets put on the wire and the
number of passes made. -/
def sendLoop (time : Nat → Int) : Nat → Nat → Window → Option (Window × List Packet × Nat)
  | 0, i, sw => some (sw, [], i)
  | n + 1, i, sw =>
    if sw.LPS = sw.LPR - 1 then some (sw, [], i)
    else
      (sw.senderBuf.read (sw.LPS + 1)).bind fun p =>
        (sendPack p).bind fun m =>
          (sw.senderBuf.write (sw.LPS + 1) (some { p with timestamp := time i })).bind fun buf =>
            (sendLoop time n (i + 1) { sw with LPS := sw.LPS + 1, senderBuf := buf }).map
              fun (sw, ms, k) => (sw, m :: ms, k)

def windowSender (time : Nat → Int) (sw : Window) : Option (Window × List Packet × Nat) :=
  if sw.count = 0 then some (sw, [], 0)
  else (sendLoop time sw.count.toNat 0 sw).map fun (sw, ms, i) => ({ sw with count := 0 }, ms, i)

/-! ## Going back and advancing -/

variable (fl : Rounding)

/-- How many packets the congestion window leaves room for. -/
def Window.room (w : Window) : Int :=
  truncToInt (fl.rnd (w.congwinSize - fl.rnd (w.LPS - w.LPA : Int)))

/-- `count = congwin_size - (LPS - LPA)`. -/
def Window.recount (w : Window) : Window := { w with count := w.room fl }

/-- The reaction to a loss: halve the threshold, shrink the window to one packet and discard all
packets sent and not acknowledged. -/
def goBack (w : Window) : Option Window :=
  let tmp := truncToInt (fl.rnd (w.congwinSize / 2))
  let w := { w with ssthresh := if tmp < 2 then 2 else tmp, congwinSize := 1, LPS := w.LPA }
  (w.senderBuf.read w.LPA).bind fun p =>
    (w.senderBuf.write w.LPA (some { p with ackedNum := 1 })).map fun buf =>
      Window.recount fl { w with senderBuf := buf }

def checkDatapackTimeout (now : Int) (sw : Window) : Option (Window × Int) :=
  let index := sw.LPA + 1
  (sw.senderBuf.read index).bind fun p =>
    if p.timestamp ≤ 0 then some (sw, 0)
    else if sw.LPS < index ∨ index = 1 then some (sw, 0)
    else if timeoutSec < now - p.timestamp then (goBack fl sw).map fun sw => (sw, 1)
    else some (sw, 0)

/-- The window size after `n` packets were newly acknowledged. -/
def Window.grow (w : Window) (n : Int) : Rat :=
  if fl.rnd w.ssthresh < w.congwinSize then
    let c := fl.rnd (w.congwinSize + fl.rnd (fl.rnd (1 / w.congwinSize) * fl.rnd n))
    if tcpMaxwin < c then tcpMaxwin else c
  else fl.rnd (w.congwinSize + fl.rnd n)

/-- `sender_buf[i]->ACKed_num++`, with the new count. -/
def countACK (w : Window) (i : Int) : Option (Window × Int) :=
  (w.senderBuf.read i).bind fun p =>
    (w.senderBuf.write i (some { p with ackedNum := p.ackedNum + 1 })).map fun buf =>
      ({ w with senderBuf := buf }, p.ackedNum + 1)

def uponReceiveACK (ackPack : Packet) (currWin : Window) : Option (Window × Int) :=
  let confirmno := ackPack.ackNum
  let newlyAckedNo := toI32 (confirmno.toNat - currWin.LPA)
  if confirmno < 1 then some (currWin, truncToInt currWin.congwinSize)
  else
    (countACK currWin confirmno.toNat).bind fun (w, ackedNum) =>
      (if UInt32.ofInt w.LPS < confirmno then
        -- the receiver is ahead of `LPS`: jump the window there
        some (Window.recount fl { w with
          LPA := toI32 confirmno.toNat
          LPS := toI32 confirmno.toNat
          congwinSize := fl.rnd (w.congwinSize + 1) })
      else if 0 < newlyAckedNo then
        some (Window.recount fl { w with
          LPA := toI32 confirmno.toNat, congwinSize := w.grow fl newlyAckedNo })
      else if newlyAckedNo = 0 then
        -- a duplicate of the last ACK
        (if 3 < ackedNum then goBack fl w else some w).map (Window.recount fl)
      else some w).map fun w => (w, truncToInt w.congwinSize)

end P2P
