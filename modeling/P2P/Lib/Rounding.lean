import Mathlib.Data.Int.Log
import Mathlib.Data.Rat.Floor
import Mathlib.Tactic.Linarith
import Mathlib.Tactic.Ring

/-!
# Rounding of `float` operations

A `float` value is a rational and every operation on it is followed by a
rounding. `Rounding` is what a development may use of that rounding: it crosses
neither 0 nor 1 downwards and integers of 24 bits are exact. Two are given:

* `Rounding.exact`: no rounding at all, exact rational arithmetic;
* `Rounding.single`: `binary32`, the nearest single-precision value with ties to
  the even significand. Overflow and subnormal numbers are left out, so it is the
  rounding of values between `2 ^ -126` and `2 ^ 128` in size.
-/

namespace P2P.Lib

/-- The nearest integer, the even one of two that are equally near. -/
def roundTiesEven (q : Rat) : Int :=
  if q - ⌊q⌋ < 1 / 2 then ⌊q⌋
  else if 1 / 2 < q - ⌊q⌋ then ⌊q⌋ + 1
  else if ⌊q⌋ % 2 = 0 then ⌊q⌋
  else ⌊q⌋ + 1

theorem floor_le_roundTiesEven (q : Rat) : ⌊q⌋ ≤ roundTiesEven q := by
  unfold roundTiesEven
  split_ifs <;> omega

@[simp] theorem roundTiesEven_intCast (n : Int) : roundTiesEven n = n := by
  have h : (n : Rat) - ⌊(n : Rat)⌋ < 1 / 2 := by
    rw [Int.floor_intCast]
    norm_num
  rw [roundTiesEven, if_pos h, Int.floor_intCast]

/-- The distance of neighbouring values at `q`: 24 significant bits. -/
def ulp32 (q : Rat) : Rat := 2 ^ (Int.log 2 |q| - 23)

theorem ulp32_pos (q : Rat) : 0 < ulp32 q := zpow_pos (by norm_num) _

/-- The nearest single-precision value. -/
def binary32 (q : Rat) : Rat := if q = 0 then 0 else roundTiesEven (q / ulp32 q) * ulp32 q

theorem one_le_binary32 {q : Rat} (h : 1 ≤ q) : 1 ≤ binary32 q := by
  have hpos : 0 < q := by linarith
  have habs : |q| = q := abs_of_pos hpos
  have hlog : (2 : Rat) ^ Int.log 2 q ≤ q := by
    exact_mod_cast Int.zpow_log_le_self (b := 2) (by omega) hpos
  have hulp : ulp32 q * 2 ^ 23 = 2 ^ Int.log 2 q := by
    rw [ulp32, habs, ← zpow_natCast, ← zpow_add₀ (by norm_num)]
    congr 1
    push_cast
    omega
  -- the significand is at least `2 ^ 23`, so its floor is
  have hsig : (2 ^ 23 : Int) ≤ ⌊q / ulp32 q⌋ := by
    apply Int.le_floor.mpr
    rw [le_div_iff₀ (ulp32_pos q)]
    push_cast
    linarith
  have hround : ((2 ^ 23 : Int) : Rat) ≤ roundTiesEven (q / ulp32 q) := by
    exact_mod_cast hsig.trans (floor_le_roundTiesEven _)
  have hexp : (1 : Rat) ≤ 2 ^ Int.log 2 q := by
    refine one_le_zpow₀ (by norm_num) ?_
    rw [Int.log_of_one_le_right 2 h]
    exact Int.natCast_nonneg _
  rw [binary32, if_neg hpos.ne']
  calc (1 : Rat) ≤ 2 ^ Int.log 2 q := hexp
    _ = ((2 ^ 23 : Int) : Rat) * ulp32 q := by rw [← hulp]; push_cast; ring
    _ ≤ roundTiesEven (q / ulp32 q) * ulp32 q :=
      mul_le_mul_of_nonneg_right hround (ulp32_pos q).le

theorem binary32_nonneg {q : Rat} (h : 0 ≤ q) : 0 ≤ binary32 q := by
  unfold binary32
  split
  · exact le_refl 0
  · have hfloor : 0 ≤ ⌊q / ulp32 q⌋ := Int.floor_nonneg.mpr (div_nonneg h (ulp32_pos q).le)
    have hround : (0 : Rat) ≤ roundTiesEven (q / ulp32 q) := by
      exact_mod_cast hfloor.trans (floor_le_roundTiesEven _)
    exact mul_nonneg hround (ulp32_pos q).le

theorem binary32_intCast {n : Int} (h : |n| < 2 ^ 24) : binary32 n = n := by
  by_cases h0 : n = 0
  · simp [binary32, h0]
  · have h1 : 1 ≤ |n| := Int.one_le_abs h0
    have hlog : Int.log 2 |(n : Rat)| ≤ 23 := by
      have hq : (1 : Rat) ≤ |(n : Rat)| := by exact_mod_cast h1
      have hlt := (Int.lt_zpow_iff_log_lt (b := 2) (r := |(n : Rat)|) (by omega)
        (by linarith) (x := 24)).mp (by exact_mod_cast h)
      omega
    -- dividing by the unit multiplies by a power of two
    have hdiv : (n : Rat) / ulp32 n =
        ((n * 2 ^ (23 - Int.log 2 |(n : Rat)|).toNat : Int) : Rat) := by
      rw [ulp32, div_eq_mul_inv, ← zpow_neg, neg_sub]
      push_cast
      rw [← zpow_natCast, Int.toNat_of_nonneg (by omega)]
    have hne : (n : Rat) ≠ 0 := by exact_mod_cast h0
    rw [binary32, if_neg hne, hdiv, roundTiesEven_intCast, ← hdiv]
    exact div_mul_cancel₀ _ (ulp32_pos n).ne'

/-! ## Roundings -/

/-- The rounding of the exact result of an operation. -/
structure Rounding where
  rnd : Rat → Rat
  nonneg : ∀ {q : Rat}, 0 ≤ q → 0 ≤ rnd q
  one_le : ∀ {q : Rat}, 1 ≤ q → 1 ≤ rnd q
  intCast : ∀ {n : Int}, |n| < 2 ^ 24 → rnd n = n

namespace Rounding

/-- Exact arithmetic. -/
def exact : Rounding := ⟨id, id, id, fun _ => rfl⟩

/-- IEEE single precision, to nearest, ties to even. -/
def single : Rounding := ⟨binary32, binary32_nonneg, one_le_binary32, binary32_intCast⟩

variable (fl : Rounding)

theorem zero : fl.rnd 0 = 0 := by
  exact_mod_cast fl.intCast (n := 0) (by decide)

theorem one : fl.rnd 1 = 1 := by
  exact_mod_cast fl.intCast (n := 1) (by decide)

end Rounding

end P2P.Lib
