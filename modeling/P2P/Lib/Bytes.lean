import Mathlib.Tactic.Common

/-!
# Byte strings

`be16`/`be32` are the bytes of a 16- and 32-bit word as `htons`/`htonl` put them
in memory, `ofBe16`/`ofBe32` read them back (`ntohs`/`ntohl`). `ByteOrder` has
these conversions as functions on words, with the bytes of a word in the memory
of the host. `flatMap_blocks` joins the blocks of equal length a string was cut
into.
-/

namespace P2P.Lib

/-- The two bytes of a 16-bit word, most significant first. -/
def be16 (x : UInt16) : List UInt8 := [UInt8.ofNat (x.toNat / 256), x.toUInt8]

/-- The word with these two bytes. -/
def ofBe16 (hi lo : UInt8) : UInt16 := UInt16.ofNat (hi.toNat * 256 + lo.toNat)

/-- The four bytes of a 32-bit word, most significant first. -/
def be32 (x : UInt32) : List UInt8 :=
  [UInt8.ofNat (x.toNat / 16777216), UInt8.ofNat (x.toNat / 65536), UInt8.ofNat (x.toNat / 256),
    x.toUInt8]

/-- The word with these four bytes. -/
def ofBe32 (b3 b2 b1 b0 : UInt8) : UInt32 :=
  UInt32.ofNat (b3.toNat * 16777216 + b2.toNat * 65536 + b1.toNat * 256 + b0.toNat)

/-- The eight bytes of a 64-bit word, most significant first. -/
def be64 (x : UInt64) : List UInt8 :=
  be32 (UInt32.ofNat (x.toNat / 4294967296)) ++ be32 x.toUInt32

@[simp] theorem ofBe16_be16 (x : UInt16) : ofBe16 (UInt8.ofNat (x.toNat / 256)) x.toUInt8 = x := by
  apply UInt16.toNat_inj.mp
  have := x.toNat_lt
  simp only [ofBe16, UInt16.toNat_ofNat', UInt8.toNat_ofNat', UInt16.toNat_toUInt8]
  omega

@[simp] theorem ofBe32_be32 (x : UInt32) :
    ofBe32 (UInt8.ofNat (x.toNat / 16777216)) (UInt8.ofNat (x.toNat / 65536))
      (UInt8.ofNat (x.toNat / 256)) x.toUInt8 = x := by
  apply UInt32.toNat_inj.mp
  have := x.toNat_lt
  simp only [ofBe32, UInt32.toNat_ofNat', UInt8.toNat_ofNat', UInt32.toNat_toUInt8]
  omega

theorem be32_ofBe32 (b3 b2 b1 b0 : UInt8) : be32 (ofBe32 b3 b2 b1 b0) = [b3, b2, b1, b0] := by
  have h3 := b3.toNat_lt
  have h2 := b2.toNat_lt
  have h1 := b1.toNat_lt
  have h0 := b0.toNat_lt
  simp only [be32, ofBe32, List.cons.injEq, and_true, ← UInt8.toNat_inj, UInt32.toNat_toUInt8,
    UInt8.toNat_ofNat', UInt32.toNat_ofNat']
  omega

theorem length_be64 (x : UInt64) : (be64 x).length = 8 := rfl

theorem be32_injective : Function.Injective be32 := by
  intro x y h
  have hx := ofBe32_be32 x
  simp only [be32, List.cons.injEq, and_true] at h
  rw [h.1, h.2.1, h.2.2.1, h.2.2.2, ofBe32_be32] at hx
  exact hx.symm

theorem be64_injective : Function.Injective be64 := by
  intro x y h
  have hx := x.toNat_lt
  have hy := y.toNat_lt
  obtain ⟨hhi, hlo⟩ := List.append_inj h rfl
  have hhi := congrArg UInt32.toNat (be32_injective hhi)
  have hlo := congrArg UInt32.toNat (be32_injective hlo)
  simp only [UInt32.toNat_ofNat', UInt64.toNat_toUInt32] at hhi hlo
  apply UInt64.toNat_inj.mp
  omega

/-! ## The byte order of the host -/

inductive ByteOrder where
  | little
  | big
  deriving DecidableEq, Repr

namespace ByteOrder

/-- `htons`, and `ntohs`: the bytes exchanged, or nothing done. -/
def htons : ByteOrder → UInt16 → UInt16
  | .little, x => UInt16.ofNat (x.toNat % 256 * 256 + x.toNat / 256)
  | .big, x => x

/-- `htonl`, and `ntohl`. -/
def htonl : ByteOrder → UInt32 → UInt32
  | .little, x => UInt32.ofNat (x.toNat % 256 * 16777216 + x.toNat / 256 % 256 * 65536 +
      x.toNat / 65536 % 256 * 256 + x.toNat / 16777216)
  | .big, x => x

/-- The bytes of a 16-bit word in memory. -/
def bytes16 : ByteOrder → UInt16 → List UInt8
  | .little, x => (be16 x).reverse
  | .big, x => be16 x

/-- The bytes of a 32-bit word in memory. -/
def bytes32 : ByteOrder → UInt32 → List UInt8
  | .little, x => (be32 x).reverse
  | .big, x => be32 x

/-- The 32-bit word these four bytes in memory are. -/
def ofBytes32 : ByteOrder → UInt8 → UInt8 → UInt8 → UInt8 → UInt32
  | .little, b0, b1, b2, b3 => ofBe32 b3 b2 b1 b0
  | .big, b0, b1, b2, b3 => ofBe32 b0 b1 b2 b3

/-- The bytes of a 64-bit word in memory. -/
def bytes64 : ByteOrder → UInt64 → List UInt8
  | .little, x => (be64 x).reverse
  | .big, x => be64 x

theorem htons_little_bytes (x : UInt16) :
    (little.htons x).toNat % 256 = x.toNat / 256 ∧
      (little.htons x).toNat / 256 = x.toNat % 256 := by
  have hx := x.toNat_lt
  have hval : (little.htons x).toNat = x.toNat % 256 * 256 + x.toNat / 256 := by
    rw [htons, UInt16.toNat_ofNat']
    exact Nat.mod_eq_of_lt (by omega)
  omega

theorem div_256 (n : Nat) : n / 256 / 256 = n / 65536 ∧ n / 65536 / 256 = n / 16777216 :=
  ⟨Nat.div_div_eq_div_mul n 256 256, Nat.div_div_eq_div_mul n 65536 256⟩

theorem htonl_little_bytes (x : UInt32) :
    (little.htonl x).toNat % 256 = x.toNat / 16777216 ∧
      (little.htonl x).toNat / 256 % 256 = x.toNat / 65536 % 256 ∧
      (little.htonl x).toNat / 65536 % 256 = x.toNat / 256 % 256 ∧
      (little.htonl x).toNat / 16777216 = x.toNat % 256 := by
  have hx := x.toNat_lt
  have hval : (little.htonl x).toNat = x.toNat % 256 * 16777216 + x.toNat / 256 % 256 * 65536 +
      x.toNat / 65536 % 256 * 256 + x.toNat / 16777216 := by
    rw [htonl, UInt32.toNat_ofNat']
    exact Nat.mod_eq_of_lt (by omega)
  have h3 : x.toNat / 16777216 < 256 := by omega
  have h2 : x.toNat / 65536 % 256 < 256 := by omega
  have h1 : x.toNat / 256 % 256 < 256 := by omega
  rw [hval]
  generalize x.toNat / 16777216 = b3, x.toNat / 65536 % 256 = b2, x.toNat / 256 % 256 = b1 at *
  refine ⟨?_, ?_, ?_, ?_⟩ <;> omega

variable (o : ByteOrder)

@[simp] theorem htons_htons (x : UInt16) : o.htons (o.htons x) = x := by
  cases o with
  | big => rfl
  | little =>
    obtain ⟨h0, h1⟩ := htons_little_bytes x
    obtain ⟨k0, k1⟩ := htons_little_bytes (little.htons x)
    apply UInt16.toNat_inj.mp
    omega

@[simp] theorem htonl_htonl (x : UInt32) : o.htonl (o.htonl x) = x := by
  cases o with
  | big => rfl
  | little =>
    obtain ⟨h0, h1, h2, h3⟩ := htonl_little_bytes x
    obtain ⟨k0, k1, k2, k3⟩ := htonl_little_bytes (little.htonl x)
    have hdx := div_256 x.toNat
    have hdz := div_256 (little.htonl (little.htonl x)).toNat
    apply UInt32.toNat_inj.mp
    omega

@[simp] theorem bytes16_htons (x : UInt16) : o.bytes16 (o.htons x) = be16 x := by
  cases o with
  | big => rfl
  | little =>
    obtain ⟨h0, h1⟩ := htons_little_bytes x
    simp only [bytes16, be16, List.reverse_cons, List.reverse_nil, List.nil_append,
      List.cons_append, List.cons.injEq, and_true, ← UInt8.toNat_inj, UInt16.toNat_toUInt8,
      UInt8.toNat_ofNat']
    omega

@[simp] theorem bytes32_htonl (x : UInt32) : o.bytes32 (o.htonl x) = be32 x := by
  cases o with
  | big => rfl
  | little =>
    obtain ⟨h0, h1, h2, h3⟩ := htonl_little_bytes x
    simp only [bytes32, be32, List.reverse_cons, List.reverse_nil, List.nil_append,
      List.cons_append, List.cons.injEq, and_true, ← UInt8.toNat_inj, UInt32.toNat_toUInt8,
      UInt8.toNat_ofNat']
    omega

end ByteOrder

theorem flatMap_blocks {α : Type*} (l : List α) (c n : Nat) :
    ((List.range n).flatMap fun k => (l.drop (c * k)).take c) = l.take (c * n) := by
  induction n with
  | zero => simp
  | succ n ih =>
    rw [List.range_succ, List.flatMap_append, ih, List.flatMap_singleton, Nat.mul_succ,
      List.take_add]

end P2P.Lib
