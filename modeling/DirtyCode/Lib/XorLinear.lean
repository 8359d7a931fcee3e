import DirtyCode.Lib.Window

/-!
Maps of words that keep exclusive or, and the selections of words that cancel where the
last word is a combination of the others.
-/

namespace DirtyCode.Lib

variable {v w : Nat}

def KeepsXor (map : BitVec v → BitVec w) : Prop :=
  ∀ left right, map (left ^^^ right) = map left ^^^ map right

theorem KeepsXor.zero {map : BitVec v → BitVec w} (keeps : KeepsXor map) : map 0#v = 0#w := by
  have twice := keeps 0#v 0#v
  rwa [BitVec.xor_self, BitVec.xor_self] at twice

theorem KeepsXor.selected {map : BitVec v → BitVec w} (keeps : KeepsXor map)
    (word : Nat → BitVec v) (data : Nat → Bool) (count : Nat) :
    map (xorSelected word data count) = xorSelected (fun n => map (word n)) data count := by
  induction count with
  | zero => exact keeps.zero
  | succ count ih =>
      rw [xorSelected_succ, xorSelected_succ]
      split
      · rw [keeps, ih]
      · exact ih

theorem xorSelected_none (word : Nat → BitVec w) (count : Nat) :
    xorSelected word (fun _ => false) count = 0#w := by
  induction count with
  | zero => rfl
  | succ count ih => rw [xorSelected_succ, if_neg Bool.false_ne_true, ih]

theorem xorSelected_data (word : Nat → BitVec w) (data other : Nat → Bool) (count : Nat) :
    xorSelected word (fun n => data n ^^ other n) count =
      xorSelected word data count ^^^ xorSelected word other count := by
  induction count with
  | zero => simp [xorSelected, xorAll]
  | succ count ih =>
      rw [xorSelected_succ, xorSelected_succ, xorSelected_succ, ih]
      cases data count <;> cases other count
      · rfl
      · simp only [Bool.false_xor, if_true, Bool.false_eq_true, if_false, BitVec.xor_assoc]
      · simp only [Bool.xor_false, if_true, Bool.false_eq_true, if_false]
        ac_rfl
      · simp only [Bool.xor_self, if_true, Bool.false_eq_true, if_false]
        rw [BitVec.xor_comm (xorSelected word other count), BitVec.xor_assoc,
          ← BitVec.xor_assoc (word count), BitVec.xor_self, BitVec.zero_xor]

/-- The product of a matrix, given by its columns, and a word. -/
def image (column : Nat → BitVec w) (word : BitVec v) : BitVec w :=
  xorSelected column word.getLsbD v

theorem image_keepsXor (column : Nat → BitVec w) :
    KeepsXor (image column : BitVec v → BitVec w) := by
  intro left right
  rw [image, image, image, ← xorSelected_data]
  exact xorSelected_congr (fun _ _ => rfl) fun n _ => BitVec.getLsbD_xor

theorem getLsbD_xorSelected_twoPow (data : Nat → Bool) (count i : Nat) :
    (xorSelected (BitVec.twoPow w) data count).getLsbD i =
      (decide (i < w ∧ i < count) && data i) := by
  induction count with
  | zero => simp [xorSelected, xorAll]
  | succ count ih =>
      rw [xorSelected_succ, apply_ite (fun word => BitVec.getLsbD word i), BitVec.getLsbD_xor, ih,
        BitVec.getLsbD_twoPow]
      by_cases last : count = i
      · rw [last]
        cases data i <;> simp
      · have reach : i < count + 1 ↔ i < count := by omega
        simp [last, reach]

theorem xorSelected_eq_zero_iff_of_units {word : Nat → BitVec v} {map : BitVec v → BitVec w}
    (keeps : KeepsXor map) {count : Nat} (few : count ≤ w)
    (units : ∀ n < count, map (word n) = BitVec.twoPow w n) (data : Nat → Bool) :
    xorSelected word data count = 0#v ↔ ∀ n < count, data n = false := by
  constructor
  · intro cancelled n inside
    have bits : xorSelected (BitVec.twoPow w) data count = 0#w := by
      rw [← keeps.zero, ← cancelled, keeps.selected]
      exact xorSelected_congr (fun m below => (units m below).symm) fun _ _ => rfl
    have bit : (xorSelected (BitVec.twoPow w) data count).getLsbD n =
        (decide (n < w ∧ n < count) && data n) := getLsbD_xorSelected_twoPow data count n
    rw [bits] at bit
    simpa [inside, show n < w by omega] using bit.symm
  · intro clear
    rw [xorSelected_congr (fun _ _ => rfl) clear]
    exact xorSelected_none word count

/-- With one word more, a combination of the others, they cancel in one other way. -/
theorem xorSelected_eq_zero_iff_of_dependent {word : Nat → BitVec v} {map : BitVec v → BitVec w}
    (keeps : KeepsXor map) {count : Nat} (few : count ≤ w)
    (units : ∀ n < count, map (word n) = BitVec.twoPow w n) {mix : Nat → Bool}
    (dependent : word count = xorSelected word mix count) (data : Nat → Bool) :
    xorSelected word data (count + 1) = 0#v ↔ ∀ n < count, data n = (data count && mix n) := by
  have folded : xorSelected word data (count + 1) =
      xorSelected word (fun n => data n ^^ (data count && mix n)) count := by
    rw [xorSelected_data, xorSelected_succ, dependent]
    cases data count with
    | false => simp [xorSelected_none]
    | true => simp
  rw [folded, xorSelected_eq_zero_iff_of_units keeps few units]
  refine forall_congr' fun n => imp_congr_right fun _ => ?_
  cases data n <;> cases (data count && mix n) <;> simp

end DirtyCode.Lib
