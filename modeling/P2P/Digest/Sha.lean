import Mathlib.Logic.Function.Iterate
import P2P.Lib.Bytes
import P2P.Lib.CString
import P2P.Wire.Packet

/-!
# SHA-1

`sha.c`: a context takes data in pieces of any size, `SHA1Guts` is applied to every 64 bytes,
and `SHA1Final` fills the last block up with `padding` and the number of bits.

The words of a block are loaded in the byte order of the host, which `BYTESWAP` makes that of the
standard. A `memcpy` behind the 64 bytes of the buffer has no value here.
-/

namespace P2P

open Lib

/-! ## Macros -/

def rotl (x n : UInt32) : UInt32 := (x <<< n) ||| (x >>> (32 - n))

def rotr (x n : UInt32) : UInt32 := (x >>> n) ||| (x <<< (32 - n))

def f0_19 (x y z : UInt32) : UInt32 := z ^^^ (x &&& (y ^^^ z))

def f20_39 (x y z : UInt32) : UInt32 := x ^^^ y ^^^ z

def f40_59 (x y z : UInt32) : UInt32 := (x &&& (y ||| z)) ||| (y &&& z)

def f60_79 (x y z : UInt32) : UInt32 := x ^^^ y ^^^ z

def k0_19 : UInt32 := 0x5a827999
def k20_39 : UInt32 := 0x6ed9eba1
def k40_59 : UInt32 := 0x8f1bbcdc
def k60_79 : UInt32 := 0xca62c1d6

/-- `BYTESWAP`, with and without `WORDS_BIGENDIAN`. -/
def byteswap : ByteOrder → UInt32 → UInt32
  | .little, x => (rotr x 8 &&& 0xff00ff00) ||| (rotl x 8 &&& 0x00ff00ff)
  | .big, x => x

/-- `BYTESWAP64`. -/
def byteswap64 : ByteOrder → UInt64 → UInt64
  | .little, x =>
    let a := (x >>> 32).toUInt32
    let b := x.toUInt32
    ((byteswap .little b).toUInt64 <<< 32) ||| (byteswap .little a).toUInt64
  | .big, x => x

/-- The variables `a` to `e` of `SHA1Guts`. -/
structure Regs where
  a : UInt32
  b : UInt32
  c : UInt32
  d : UInt32
  e : UInt32
  deriving DecidableEq

/-- `DO_ROUND`, with the word `W` points to. -/
def doRound (F : UInt32 → UInt32 → UInt32 → UInt32) (K : UInt32) (r : Regs) (W : UInt32) : Regs :=
  let temp := rotl r.a 5 + F r.b r.c r.d + r.e + W + K
  { a := temp, b := r.a, c := rotl r.b 30, d := r.c, e := r.d }

/-! ## The context -/

def padding : List UInt8 := 0x80 :: List.replicate 63 0

structure SHA1Context where
  /-- In bits. -/
  totalLength : UInt64
  hash : Vector UInt32 5
  bufferLength : Nat
  buffer : List UInt8
  buffer_length : buffer.length = 64
  bufferLength_le : bufferLength ≤ 64

/-- `SHA1Init`; the buffer stays as it is. -/
def sha1Init (buffer : Vector UInt8 64) : SHA1Context where
  totalLength := 0
  hash := #v[0x67452301, 0xefcdab89, 0x98badcfe, 0x10325476, 0xc3d2e1f0]
  bufferLength := 0
  buffer := buffer.toList
  buffer_length := buffer.length_toList
  bufferLength_le := Nat.zero_le 64

/-! ## `SHA1Guts` -/

/-- The words of `buf` written so far, and where the pointers to earlier ones are. -/
structure Schedule where
  buf : List UInt32
  W3 : Nat
  W8 : Nat
  W14 : Nat
  W16 : Nat

/-- One pass of the second loop. -/
def Schedule.next (s : Schedule) : Schedule where
  buf := s.buf ++ [rotl (s.buf.getD s.W3 0 ^^^ s.buf.getD s.W8 0 ^^^ s.buf.getD s.W14 0 ^^^
    s.buf.getD s.W16 0) 1]
  W3 := s.W3 + 1
  W8 := s.W8 + 1
  W14 := s.W14 + 1
  W16 := s.W16 + 1

variable (o : ByteOrder)

/-- The first loop: the words of a block. -/
def blockWords (cbuf : List UInt8) : List UInt32 :=
  (List.range 16).map fun i =>
    byteswap o (o.ofBytes32 (cbuf.getD (4 * i) 0) (cbuf.getD (4 * i + 1) 0)
      (cbuf.getD (4 * i + 2) 0) (cbuf.getD (4 * i + 3) 0))

/-- The two loops that fill `buf`. -/
def schedule (cbuf : List UInt8) : List UInt32 :=
  (Schedule.next^[64] { buf := blockWords o cbuf, W3 := 13, W8 := 8, W14 := 2, W16 := 0 }).buf

/-- The words of a hash, and back. -/
def Regs.ofWords (hash : Vector UInt32 5) : Regs where
  a := hash[0]
  b := hash[1]
  c := hash[2]
  d := hash[3]
  e := hash[4]

def Regs.words (r : Regs) : Vector UInt32 5 := #v[r.a, r.b, r.c, r.d, r.e]

/-- The last lines of `SHA1Guts`. -/
def Regs.addTo (r : Regs) (hash : Vector UInt32 5) : Vector UInt32 5 :=
  #v[hash[0] + r.a, hash[1] + r.b, hash[2] + r.c, hash[3] + r.d, hash[4] + r.e]

/-- `SHA1Guts`: what becomes of `sc->hash`. -/
def sha1Guts (hash : Vector UInt32 5) (cbuf : List UInt8) : Vector UInt32 5 :=
  let W := schedule o cbuf
  let r := Regs.ofWords hash
  let r := (W.take 20).foldl (doRound f0_19 k0_19) r
  let r := ((W.drop 20).take 20).foldl (doRound f20_39 k20_39) r
  let r := ((W.drop 40).take 20).foldl (doRound f40_59 k40_59) r
  let r := ((W.drop 60).take 20).foldl (doRound f60_79 k60_79) r
  r.addTo hash

/-! ## `SHA1Update` -/

namespace SHA1Context

/-- `memcpy` to the end of the buffer, with the lengths counted up. -/
def fill (sc : SHA1Context) (data : List UInt8) : Option SHA1Context :=
  if h : sc.bufferLength + data.length ≤ 64 then
    some {
      totalLength := sc.totalLength + UInt64.ofNat (data.length * 8)
      hash := sc.hash
      bufferLength := sc.bufferLength + data.length
      buffer := store sc.buffer sc.bufferLength data
      buffer_length := by rw [length_store (sc.buffer_length ▸ h), sc.buffer_length]
      bufferLength_le := h }
  else none

/-- A full buffer is a block. -/
def flush (sc : SHA1Context) : SHA1Context :=
  if sc.bufferLength = 64 then
    { sc with
      hash := sha1Guts o sc.hash sc.buffer
      bufferLength := 0
      bufferLength_le := Nat.zero_le 64 }
  else sc

/-- `bytesToCopy`. -/
def bytesToCopy (sc : SHA1Context) (len : Nat) : Nat :=
  let bufferBytesLeft := 64 - sc.bufferLength
  if bufferBytesLeft > len then len else bufferBytesLeft

/-- The loop of `SHA1Update`, with a bound on the passes; `none` when it is too small. -/
def updateLoop : Nat → SHA1Context → List UInt8 → Option SHA1Context
  | _, sc, [] => some sc
  | 0, _, _ :: _ => none
  | k + 1, sc, b :: data =>
    let n := sc.bytesToCopy (b :: data).length
    (sc.fill ((b :: data).take n)).bind fun sc => updateLoop k (sc.flush o) ((b :: data).drop n)

/-- The loop over whole blocks, with `SHA1_FAST_COPY`. -/
def gutsLoop : Nat → SHA1Context → List UInt8 → SHA1Context × List UInt8
  | 0, sc, data => (sc, data)
  | k + 1, sc, data =>
    if data.length > 63 then
      gutsLoop k
        { sc with totalLength := sc.totalLength + 512, hash := sha1Guts o sc.hash (data.take 64) }
        (data.drop 64)
    else (sc, data)

end SHA1Context

open SHA1Context

/-- `SHA1Update`. -/
def sha1Update (sc : SHA1Context) (data : List UInt8) : Option SHA1Context :=
  updateLoop o (data.length + 1) sc data

/-- `SHA1Update` with `SHA1_FAST_COPY`: whole blocks are not copied. -/
def sha1UpdateFast (sc : SHA1Context) (data : List UInt8) : Option SHA1Context :=
  let n := if sc.bufferLength = 0 then 0 else sc.bytesToCopy data.length
  let first := if sc.bufferLength = 0 then some sc else (sc.fill (data.take n)).map (flush o)
  first.bind fun sc =>
    let rest := gutsLoop o data.length sc (data.drop n)
    if rest.2 = [] then some rest.1 else rest.1.fill rest.2

/-! ## `SHA1Final` -/

/-- The padding and the length of `SHA1Final`, for either `SHA1Update`. -/
def finish (update : SHA1Context → List UInt8 → Option SHA1Context) (sc : SHA1Context) :
    Option SHA1Context :=
  let bytesToPad := if 120 - sc.bufferLength > 64 then 120 - sc.bufferLength - 64
    else 120 - sc.bufferLength
  let lengthPad := byteswap64 o sc.totalLength
  (update sc (padding.take bytesToPad)).bind fun sc => update sc (o.bytes64 lengthPad)

/-- The four bytes of `hash` a word becomes. -/
def hashBytes (x : UInt32) : Vector UInt8 4 :=
  #v[(x >>> 24).toUInt8, (x >>> 16).toUInt8, (x >>> 8).toUInt8, x.toUInt8]

/-- The four bytes of `hash` a word becomes with `SHA1_FAST_COPY`. -/
def hashBytesFast (x : UInt32) : Vector UInt8 4 :=
  ⟨(o.bytes32 (byteswap o x)).toArray, by cases o <;> rfl⟩

/-- `SHA1Final`. -/
def sha1Final (sc : SHA1Context) : Option Hash :=
  (finish o (sha1Update o) sc).map fun sc => (sc.hash.map hashBytes).flatten

/-- `SHA1Final` with `SHA1_FAST_COPY`. -/
def sha1FinalFast (sc : SHA1Context) : Option Hash :=
  (finish o (sha1UpdateFast o) sc).map fun sc => (sc.hash.map (hashBytesFast o)).flatten

/-- `shahash` from `chunk.c`, with a context on the stack. -/
def shahash (sha : Vector UInt8 64) (str : List UInt8) : Option Hash :=
  (sha1Update o (sha1Init sha) str).bind (sha1Final o)

end P2P
