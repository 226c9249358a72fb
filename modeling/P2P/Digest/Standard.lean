import Mathlib.Tactic.IntervalCases
import P2P.Digest.Sha
import P2P.Lib.Blocks

/-!
# The standard

`Standard` is SHA-1 as it is published: the functions and constants of the 80 rounds by their
number, the words of the message schedule by a recursion, and a message padded to whole blocks.

`sha1Guts_eq`: `SHA1Guts` is the compression function, on hosts of either byte order.
-/

namespace P2P

open Lib

namespace Standard

/-! ## The functions -/

/-- A rotation to the left. -/
def rotL (n : Nat) (x : UInt32) : UInt32 := ⟨x.toBitVec.rotateLeft n⟩

def ch (x y z : UInt32) : UInt32 := (x &&& y) ||| (~~~x &&& z)

def parity (x y z : UInt32) : UInt32 := x ^^^ y ^^^ z

def maj (x y z : UInt32) : UInt32 := (x &&& y) ||| (x &&& z) ||| (y &&& z)

/-- The function of round `t`. -/
def f (t : Nat) : UInt32 → UInt32 → UInt32 → UInt32 :=
  if t < 20 then ch else if t < 40 then parity else if t < 60 then maj else parity

/-- The constant of round `t`. -/
def k (t : Nat) : UInt32 :=
  if t < 20 then 0x5a827999 else if t < 40 then 0x6ed9eba1 else if t < 60 then 0x8f1bbcdc
  else 0xca62c1d6

/-- The word of round `t`, for the words `m` of a block. -/
def w (m : Nat → UInt32) (t : Nat) : UInt32 :=
  if t < 16 then m t
  else rotL 1 (w m (t - 3) ^^^ w m (t - 8) ^^^ w m (t - 14) ^^^ w m (t - 16))

/-- Word `i` of a block, most significant byte first. -/
def blockWord (block : List UInt8) (i : Nat) : UInt32 :=
  ofBe32 (block.getD (4 * i) 0) (block.getD (4 * i + 1) 0) (block.getD (4 * i + 2) 0)
    (block.getD (4 * i + 3) 0)

/-- Round `t`. -/
def round (m : Nat → UInt32) (r : Regs) (t : Nat) : Regs where
  a := rotL 5 r.a + f t r.b r.c r.d + r.e + k t + w m t
  b := r.a
  c := rotL 30 r.b
  d := r.c
  e := r.d

/-- The compression function. -/
def compress (h : Vector UInt32 5) (block : List UInt8) : Vector UInt32 5 :=
  ((List.range 80).foldl (round (blockWord block)) (.ofWords h)).addTo h

/-- The initial value. -/
def iv : Vector UInt32 5 :=
  Regs.words ⟨0x67452301, 0xefcdab89, 0x98badcfe, 0x10325476, 0xc3d2e1f0⟩

/-- A message padded: a bit that is set, as many zeros as fill up the last block, and the number of
bits of the message. -/
def pad (msg : List UInt8) : List UInt8 :=
  msg ++ 0x80 :: List.replicate ((119 - msg.length % 64) % 64) 0 ++
    be64 (UInt64.ofNat (8 * msg.length))

/-- The blocks hashed for a message. -/
def messageBlocks (msg : List UInt8) : List (List UInt8) := blocks 64 (pad msg)

/-- The five words of the hash. -/
def words (msg : List UInt8) : Vector UInt32 5 := (messageBlocks msg).foldl compress iv

/-- The bytes of the words, most significant ones first. -/
def sha1 (msg : List UInt8) : Hash :=
  ((words msg).map fun x => ⟨(be32 x).toArray, rfl⟩ : Vector (Vector UInt8 4) 5).flatten

end Standard

/-! ## Words in memory -/

section Words

variable {x : UInt32} {b3 b2 b1 b0 : UInt8} {i : Nat}

theorem ofBe32_toBitVec : (ofBe32 b3 b2 b1 b0).toBitVec =
    b3.toBitVec ++ b2.toBitVec ++ b1.toBitVec ++ b0.toBitVec := by
  have h3 := b3.toNat_lt
  have h2 := b2.toNat_lt
  have h1 := b1.toNat_lt
  have h0 := b0.toNat_lt
  apply BitVec.eq_of_toNat_eq
  simp only [BitVec.toNat_append, UInt8.toNat_toBitVec, UInt32.toNat_toBitVec, ofBe32,
    UInt32.toNat_ofNat']
  rw [← Nat.shiftLeft_add_eq_or_of_lt h2, ← Nat.shiftLeft_add_eq_or_of_lt h1,
    ← Nat.shiftLeft_add_eq_or_of_lt h0]
  simp only [Nat.shiftLeft_eq]
  omega

theorem getLsbD_ofBe32 : (ofBe32 b3 b2 b1 b0).toBitVec.getLsbD i =
    if i < 8 then b0.toBitVec.getLsbD i
    else if i < 16 then b1.toBitVec.getLsbD (i - 8)
    else if i < 24 then b2.toBitVec.getLsbD (i - 16)
    else b3.toBitVec.getLsbD (i - 24) := by
  rw [ofBe32_toBitVec]
  refine (BitVec.getLsbD_append ..).trans ?_
  rw [BitVec.getLsbD_append, BitVec.getLsbD_append]
  grind

theorem getLsbD_byteswap (x : UInt32) (hi : i < 32) :
    (byteswap .little x).toBitVec.getLsbD i = x.toBitVec.getLsbD ((3 - i / 8) * 8 + i % 8) := by
  simp only [byteswap, rotl, rotr, UInt32.toBitVec_or, UInt32.toBitVec_and,
    UInt32.toBitVec_shiftLeft, UInt32.toBitVec_shiftRight]
  interval_cases i <;> simp

theorem byteswap_ofBe32 : byteswap .little (ofBe32 b3 b2 b1 b0) = ofBe32 b0 b1 b2 b3 := by
  apply UInt32.toBitVec_inj.mp
  apply BitVec.eq_of_getLsbD_eq
  intro i hi
  rw [getLsbD_byteswap _ hi, getLsbD_ofBe32, getLsbD_ofBe32]
  grind

theorem byteswap_ofBytes32 (o : ByteOrder) :
    byteswap o (o.ofBytes32 b3 b2 b1 b0) = ofBe32 b3 b2 b1 b0 := by
  cases o with
  | little => exact byteswap_ofBe32
  | big => rfl

theorem bytes32_byteswap (o : ByteOrder) (x : UInt32) : o.bytes32 (byteswap o x) = be32 x := by
  cases o with
  | little =>
    rw [← ofBe32_be32 x, byteswap_ofBe32, ByteOrder.bytes32, be32_ofBe32, be32_ofBe32]
    rfl
  | big => rfl

theorem toNat_halves (hi lo : UInt32) :
    (hi.toUInt64 <<< 32 ||| lo.toUInt64).toNat = hi.toNat * 4294967296 + lo.toNat := by
  have hhi := hi.toNat_lt
  have hlo := lo.toNat_lt
  have hshift : (hi.toUInt64 <<< 32).toNat = hi.toNat <<< 32 := by
    rw [UInt64.toNat_shiftLeft, UInt32.toNat_toUInt64, Nat.shiftLeft_eq, Nat.shiftLeft_eq]
    apply Nat.mod_eq_of_lt
    show hi.toNat * 2 ^ 32 < 2 ^ 64
    omega
  rw [UInt64.toNat_or, hshift, UInt32.toNat_toUInt64, ← Nat.shiftLeft_add_eq_or_of_lt hlo,
    Nat.shiftLeft_eq]

theorem be64_halves (hi lo : UInt32) :
    be64 (hi.toUInt64 <<< 32 ||| lo.toUInt64) = be32 hi ++ be32 lo := by
  have hhi := hi.toNat_lt
  have hlo := lo.toNat_lt
  have hval := toNat_halves hi lo
  have h1 : UInt32.ofNat ((hi.toUInt64 <<< 32 ||| lo.toUInt64).toNat / 4294967296) = hi := by
    apply UInt32.toNat_inj.mp
    rw [hval, UInt32.toNat_ofNat']
    omega
  have h2 : (hi.toUInt64 <<< 32 ||| lo.toUInt64).toUInt32 = lo := by
    apply UInt32.toNat_inj.mp
    rw [UInt64.toNat_toUInt32, hval]
    omega
  rw [be64, h1, h2]

theorem bytes64_byteswap64 (o : ByteOrder) (x : UInt64) : o.bytes64 (byteswap64 o x) = be64 x := by
  cases o with
  | little =>
    have hrev : ∀ y, (be32 (byteswap .little y)).reverse = be32 y := bytes32_byteswap .little
    have hhi : (x >>> 32).toUInt32 = UInt32.ofNat (x.toNat / 4294967296) := by
      apply UInt32.toNat_inj.mp
      rw [UInt64.toNat_toUInt32, UInt64.toNat_shiftRight, UInt32.toNat_ofNat',
        Nat.shiftRight_eq_div_pow]
      rfl
    rw [ByteOrder.bytes64, byteswap64, be64_halves, List.reverse_append, hrev, hrev, hhi, be64]
  | big => rfl

theorem hashBytes_eq (x : UInt32) : hashBytes x = ⟨(be32 x).toArray, rfl⟩ := by
  have hbyte : ∀ n : UInt32, n.toNat < 32 →
      (x >>> n).toUInt8 = UInt8.ofNat (x.toNat / 2 ^ n.toNat) := by
    intro n hn
    apply UInt8.toNat_inj.mp
    rw [UInt32.toNat_toUInt8, UInt32.toNat_shiftRight, UInt8.toNat_ofNat',
      Nat.shiftRight_eq_div_pow, Nat.mod_eq_of_lt hn]
  have hlist : [(x >>> 24).toUInt8, (x >>> 16).toUInt8, (x >>> 8).toUInt8, x.toUInt8] = be32 x := by
    rw [hbyte 24 (by decide), hbyte 16 (by decide), hbyte 8 (by decide)]
    rfl
  apply Vector.toArray_inj.mp
  exact congrArg List.toArray hlist

theorem hashBytesFast_eq (o : ByteOrder) (x : UInt32) :
    hashBytesFast o x = ⟨(be32 x).toArray, rfl⟩ := by
  apply Vector.toArray_inj.mp
  exact congrArg List.toArray (bytes32_byteswap o x)

end Words

/-! ## The compression function -/

theorem f0_19_eq (x y z : UInt32) : f0_19 x y z = Standard.ch x y z := by
  apply UInt32.toBitVec_inj.mp
  ext i hi
  simp only [f0_19, Standard.ch, UInt32.toBitVec_xor, UInt32.toBitVec_and, UInt32.toBitVec_or,
    UInt32.toBitVec_not, BitVec.getElem_xor, BitVec.getElem_and, BitVec.getElem_or,
    BitVec.getElem_not]
  cases x.toBitVec[i] <;> cases y.toBitVec[i] <;> cases z.toBitVec[i] <;> rfl

theorem f40_59_eq (x y z : UInt32) : f40_59 x y z = Standard.maj x y z := by
  apply UInt32.toBitVec_inj.mp
  ext i hi
  simp only [f40_59, Standard.maj, UInt32.toBitVec_and, UInt32.toBitVec_or, BitVec.getElem_and,
    BitVec.getElem_or, Bool.and_or_distrib_left]

section Guts

variable (o : ByteOrder) (block : List UInt8)

theorem getD_map_range {g : Nat → UInt32} {n i : Nat} (h : i < n) :
    ((List.range n).map g).getD i 0 = g i := by
  rw [List.getD_eq_getElem?_getD, List.getElem?_map, List.getElem?_range h]
  rfl

theorem schedule_iterate (n : Nat) :
    Schedule.next^[n] { buf := blockWords o block, W3 := 13, W8 := 8, W14 := 2, W16 := 0 } =
      { buf := (List.range (16 + n)).map (Standard.w (Standard.blockWord block))
        W3 := 13 + n, W8 := 8 + n, W14 := 2 + n, W16 := n } := by
  induction n with
  | zero =>
    have hfirst : blockWords o block =
        (List.range 16).map (Standard.w (Standard.blockWord block)) := by
      apply List.map_congr_left
      intro t ht
      rw [Standard.w, if_pos (List.mem_range.mp ht), byteswap_ofBytes32, Standard.blockWord]
    rw [Function.iterate_zero_apply, hfirst]
  | succ n ih =>
    have hlast : Standard.w (Standard.blockWord block) (16 + n) =
        rotl (Standard.w (Standard.blockWord block) (13 + n) ^^^
          Standard.w (Standard.blockWord block) (8 + n) ^^^
          Standard.w (Standard.blockWord block) (2 + n) ^^^
          Standard.w (Standard.blockWord block) n) 1 := by
      have h3 : 16 + n - 3 = 13 + n := by omega
      have h8 : 16 + n - 8 = 8 + n := by omega
      have h14 : 16 + n - 14 = 2 + n := by omega
      have h16 : 16 + n - 16 = n := by omega
      rw [Standard.w, if_neg (by omega), h3, h8, h14, h16]
      rfl
    rw [Function.iterate_succ_apply', ih]
    simp only [Schedule.next]
    rw [getD_map_range (by omega), getD_map_range (by omega), getD_map_range (by omega),
      getD_map_range (by omega), ← hlast, ← Nat.add_assoc, List.range_succ, List.map_append]
    rfl

theorem schedule_twenty (start : Nat) (h : start + 20 ≤ 80) :
    ((schedule o block).drop start).take 20 =
      (List.range' start 20).map (Standard.w (Standard.blockWord block)) := by
  rw [schedule, schedule_iterate, ← List.map_drop, ← List.map_take, List.range_eq_range',
    List.drop_range', List.take_range'_of_length_ge (by omega), Nat.mul_one, Nat.zero_add]

/-- The rounds from `start` on are of one kind. -/
def Kind (start : Nat) (F : UInt32 → UInt32 → UInt32 → UInt32) (K : UInt32) : Prop :=
  ∀ t, start ≤ t → t < start + 20 → Standard.f t = F ∧ Standard.k t = K

theorem kind_0 : Kind 0 f0_19 k0_19 := by
  intro t _ h
  have hch : Standard.ch = f0_19 := by
    funext x y z
    exact (f0_19_eq x y z).symm
  have h20 : t < 20 := h
  simp only [Standard.f, Standard.k, h20, if_true]
  exact ⟨hch, rfl⟩

theorem kind_20 : Kind 20 f20_39 k20_39 := by
  intro t h1 h2
  have h20 : ¬ t < 20 := by omega
  have h40 : t < 40 := h2
  simp only [Standard.f, Standard.k, h20, h40, if_true, if_false]
  exact ⟨rfl, rfl⟩

theorem kind_40 : Kind 40 f40_59 k40_59 := by
  intro t h1 h2
  have hmaj : Standard.maj = f40_59 := by
    funext x y z
    exact (f40_59_eq x y z).symm
  have h20 : ¬ t < 20 := by omega
  have h40 : ¬ t < 40 := by omega
  have h60 : t < 60 := h2
  simp only [Standard.f, Standard.k, h20, h40, h60, if_true, if_false]
  exact ⟨hmaj, rfl⟩

theorem kind_60 : Kind 60 f60_79 k60_79 := by
  intro t h1 _
  have h20 : ¬ t < 20 := by omega
  have h40 : ¬ t < 40 := by omega
  have h60 : ¬ t < 60 := by omega
  simp only [Standard.f, Standard.k, h20, h40, h60, if_false]
  exact ⟨rfl, rfl⟩

theorem foldl_round {F : UInt32 → UInt32 → UInt32 → UInt32} {K : UInt32} {start : Nat}
    (h : Kind start F K) (hstart : start + 20 ≤ 80) (r : Regs) :
    (List.range' start 20).foldl (Standard.round (Standard.blockWord block)) r =
      (((schedule o block).drop start).take 20).foldl (doRound F K) r := by
  rw [schedule_twenty o block start hstart, List.foldl_map]
  apply List.foldl_ext
  intro r t ht
  obtain ⟨h1, h2⟩ := List.mem_range'_1.mp ht
  obtain ⟨hf, hk⟩ := h t h1 h2
  rw [Standard.round, hf, hk, doRound, UInt32.add_assoc _ K, UInt32.add_comm K,
    ← UInt32.add_assoc]
  rfl

theorem foldl_rounds (r : Regs) :
    (List.range 80).foldl (Standard.round (Standard.blockWord block)) r =
      (((schedule o block).drop 60).take 20).foldl (doRound f60_79 k60_79)
        ((((schedule o block).drop 40).take 20).foldl (doRound f40_59 k40_59)
          ((((schedule o block).drop 20).take 20).foldl (doRound f20_39 k20_39)
            (((schedule o block).take 20).foldl (doRound f0_19 k0_19) r))) := by
  have hrange : List.range 80 =
      List.range' 0 20 ++ (List.range' 20 20 ++ (List.range' 40 20 ++ List.range' 60 20)) := by
    decide
  have h0 := foldl_round o block kind_0 (by decide) r
  rw [List.drop_zero] at h0
  rw [hrange, List.foldl_append, List.foldl_append, List.foldl_append, h0,
    foldl_round o block kind_20 (by decide), foldl_round o block kind_40 (by decide),
    foldl_round o block kind_60 (by decide)]

/-- **`SHA1Guts` is the compression function** of the standard. -/
theorem sha1Guts_eq (hash : Vector UInt32 5) :
    sha1Guts o hash block = Standard.compress hash block := by
  rw [Standard.compress, foldl_rounds o block]
  rfl

end Guts

end P2P
