import Mathlib.Data.Rat.Floor
import Mathlib.Tactic.Linarith

/-!
# C number conversions

The model keeps machine integers as `Int` and converts where the code does:
`toI32` is the conversion of an integer to a 32-bit signed type (two's
complement), and `truncToInt` is the conversion of a floating
value, taken as an exact rational, to `int`. Each is the identity where the
value fits.
-/

namespace P2P.Lib

/-- Conversion to `int32_t`. -/
def toI32 (z : Int) : Int := Int.bmod z (2 ^ 32)

/-- Conversion of a floating value to `int`: truncation toward zero. -/
def truncToInt (q : Rat) : Int := if 0 ≤ q then ⌊q⌋ else ⌈q⌉

theorem toI32_eq_self {z : Int} (h0 : -2 ^ 31 ≤ z) (h1 : z < 2 ^ 31) : toI32 z = z := by
  unfold toI32
  apply Int.bmod_eq_of_le <;> omega

theorem toI32_eq (z : Int) :
    toI32 z = if z % 2 ^ 32 < 2 ^ 31 then z % 2 ^ 32 else z % 2 ^ 32 - 2 ^ 32 := by
  rw [toI32, Int.bmod_def]
  rfl

theorem one_le_truncToInt {q : Rat} (h : 1 ≤ q) : 1 ≤ truncToInt q := by
  have h0 : (0 : Rat) ≤ q := by linarith
  rw [truncToInt, if_pos h0]
  exact Int.le_floor.mpr (by exact_mod_cast h)

theorem truncToInt_one : truncToInt 1 = 1 := by
  simp [truncToInt]

end P2P.Lib
