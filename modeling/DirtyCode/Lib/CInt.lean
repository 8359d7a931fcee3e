import Mathlib

/-! The value of a C `int` computation that wraps at 32 bits. -/

namespace DirtyCode.Lib

def toInt32 (value : Int) : Int := Int.bmod value 4294967296

theorem toInt32_of_range {value : Int} (lower : -2147483648 ≤ value) (upper : value < 2147483648) :
    toInt32 value = value := by
  simp only [toInt32, Int.bmod_def]
  split <;> omega

theorem toInt32_natAdd {first second : Nat} (small : first + second < 2147483648) :
    toInt32 ((first : Int) + second) = ((first + second : Nat) : Int) := by
  rw [toInt32_of_range (by omega) (by omega), Nat.cast_add]

theorem toInt32_range (value : Int) :
    -2147483648 ≤ toInt32 value ∧ toInt32 value < 2147483648 := by
  simp only [toInt32, Int.bmod_def]
  split <;> omega

end DirtyCode.Lib
