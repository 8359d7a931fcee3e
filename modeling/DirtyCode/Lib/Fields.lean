import Mathlib

/-!
Bit fields of a number.
-/

namespace DirtyCode.Lib

theorem and_field (value width shift : Nat) :
    value &&& (2 ^ width - 1) * 2 ^ shift = value / 2 ^ shift % 2 ^ width * 2 ^ shift := by
  apply Nat.eq_of_testBit_eq
  intro i
  rw [Nat.testBit_and, Nat.testBit_mul_two_pow, Nat.testBit_mul_two_pow,
    Nat.testBit_two_pow_sub_one, Nat.testBit_mod_two_pow, Nat.testBit_div_two_pow]
  by_cases high : shift ≤ i
  · have place : i - shift + shift = i := Nat.sub_add_cancel high
    rw [place, decide_eq_true high, Bool.true_and, Bool.true_and, Bool.and_comm]
  · rw [decide_eq_false high, Bool.false_and, Bool.false_and, Bool.and_false]

end DirtyCode.Lib
