import DirtyCode.Toeplitz.Hash

/-!
`softrss` of `toeplitz_hash.c`: the windows of the key by word shifts.
-/

namespace DirtyCode.Toeplitz

open Lib

def rssSymKeySmall : List UInt8 := [0xFF, 0xFF, 0xFF, 0xFF, 0xFF, 0xFF, 0xFF, 0xFF]

-- a `uint32_t` at `key + 4 * i`, lowest byte first
def keyWord (key : List UInt8) (i : Nat) : BitVec 32 :=
  (key.getD (4 * i + 3) 0).toBitVec ++ (key.getD (4 * i + 2) 0).toBitVec ++
    (key.getD (4 * i + 1) 0).toBitVec ++ (key.getD (4 * i) 0).toBitVec

section softrss

-- what the machine makes of a shift by the width of the word, which C leaves undefined
variable (wide : BitVec 32 → BitVec 32)

def shiftRight (word : BitVec 32) (count : Nat) : BitVec 32 :=
  if count < 32 then word >>> count else wide word

def softWord (i : Nat) : BitVec 32 :=
  keyWord rssSymKeySmall 0 <<< i ||| shiftRight wide (keyWord rssSymKeySmall 1) (i + 1)

def softrss (sp dp : BitVec 16) : BitVec 32 :=
  (List.range 32).foldl
    (fun ret i => if (sp ++ dp).getLsbD (31 - i) then ret ^^^ softWord wide i else ret) 0

end softrss

def portBytes (sp dp : BitVec 16) : List UInt8 :=
  [⟨sp.extractLsb' 8 8⟩, ⟨sp.setWidth 8⟩, ⟨dp.extractLsb' 8 8⟩, ⟨dp.setWidth 8⟩]

theorem bitAt_portBytes (sp dp : BitVec 16) :
    ∀ n < 32, bitAt (portBytes sp dp) n = (sp ++ dp).getLsbD (31 - n) := by
  intro n inside
  have place : n = 8 * (n / 8) + n % 8 := by omega
  have low : n % 8 < 8 := Nat.mod_lt _ (by decide)
  have byte : n / 8 = 0 ∨ n / 8 = 1 ∨ n / 8 = 2 ∨ n / 8 = 3 := by omega
  rw [place, bitAt_byte _ _ low, bitOf, BitVec.getLsbD_append]
  rcases byte with first | second | third | fourth
  · rw [first, if_neg (by omega)]
    show (sp.extractLsb' 8 8).getLsbD (7 - n % 8) = _
    rw [BitVec.getLsbD_extractLsb', show 31 - (8 * 0 + n % 8) - 16 = 8 + (7 - n % 8) by omega]
    simp [show 7 - n % 8 < 8 by omega]
  · rw [second, if_neg (by omega)]
    show (sp.setWidth 8).getLsbD (7 - n % 8) = _
    rw [BitVec.getLsbD_setWidth, show 31 - (8 * 1 + n % 8) - 16 = 7 - n % 8 by omega]
    simp [show 7 - n % 8 < 8 by omega]
  · rw [third, if_pos (by omega)]
    show (dp.extractLsb' 8 8).getLsbD (7 - n % 8) = _
    rw [BitVec.getLsbD_extractLsb', show 31 - (8 * 2 + n % 8) = 8 + (7 - n % 8) by omega]
    simp [show 7 - n % 8 < 8 by omega]
  · rw [fourth, if_pos (by omega)]
    show (dp.setWidth 8).getLsbD (7 - n % 8) = _
    rw [BitVec.getLsbD_setWidth, show 31 - (8 * 3 + n % 8) = 7 - n % 8 by omega]
    simp [show 7 - n % 8 < 8 by omega]

theorem bitAt_rssSymKeySmall : ∀ q < 64, bitAt rssSymKeySmall q = true := by decide

theorem window_rssSymKeySmall {n : Nat} (inside : n ≤ 32) :
    window 32 (bitAt rssSymKeySmall) n = BitVec.allOnes 32 := by
  apply BitVec.eq_of_getLsbD_eq
  intro i small
  rw [getLsbD_window, bitAt_rssSymKeySmall _ (by omega), BitVec.getLsbD_allOnes, Bool.and_true]

theorem keyWord_rssSymKeySmall :
    keyWord rssSymKeySmall 0 = BitVec.allOnes 32 ∧
      keyWord rssSymKeySmall 1 = BitVec.allOnes 32 := by
  decide

section gaps

variable (wide : BitVec 32 → BitVec 32)

theorem getLsbD_softWord {i k : Nat} (inside : i < 31) (small : k < 32) :
    (softWord wide i).getLsbD k = decide (i ≤ k ∨ k < 31 - i) := by
  rw [softWord, keyWord_rssSymKeySmall.1, keyWord_rssSymKeySmall.2, shiftRight,
    if_pos (by omega), BitVec.getLsbD_or, BitVec.getLsbD_shiftLeft, BitVec.getLsbD_ushiftRight,
    BitVec.getLsbD_allOnes, BitVec.getLsbD_allOnes]
  by_cases left : i ≤ k
  · simp [left, show k - i < 32 by omega, small]
  · simp only [left, small, decide_true, Bool.not_true, Bool.true_and, false_or,
      show k < i by omega, Bool.false_and, Bool.false_or]
    exact decide_eq_decide.mpr (by omega)

def gap (i : Nat) : BitVec 32 := softWord wide i ^^^ BitVec.allOnes 32

theorem getLsbD_gap {i k : Nat} (inside : i < 31) (small : k < 32) :
    (gap wide i).getLsbD k = decide (k < i ∧ 31 - i ≤ k) := by
  rw [gap, BitVec.getLsbD_xor, getLsbD_softWord wide inside small, BitVec.getLsbD_allOnes]
  simp only [small, decide_true, Bool.xor_true, ← decide_not]
  exact decide_eq_decide.mpr (by omega)

theorem gap_eq_zero_iff {i : Nat} (inside : i < 31) : gap wide i = 0#32 ↔ i < 16 := by
  constructor
  · intro none
    by_contra open_
    have shown := congrArg (fun word => word.getLsbD (31 - i)) none
    simp only [getLsbD_gap wide inside (show 31 - i < 32 by omega), BitVec.getLsbD_zero,
      decide_eq_false_iff_not] at shown
    omega
  · intro closed
    apply BitVec.eq_of_getLsbD_eq
    intro k small
    rw [getLsbD_gap wide inside small, BitVec.getLsbD_zero, decide_eq_false_iff_not]
    omega

theorem softrss_selected (sp dp : BitVec 16) :
    softrss wide sp dp = xorSelected (softWord wide) (bitAt (portBytes sp dp)) 32 := by
  have folded := foldl_xor_selected (softWord wide) (fun i => (sp ++ dp).getLsbD (31 - i)) 32
  rw [softrss]
  refine folded.trans ?_
  exact xorSelected_congr (fun _ _ => rfl) fun n inside => (bitAt_portBytes sp dp n inside).symm

end gaps

theorem toeplitzHash_ports (sp dp : BitVec 16) :
    toeplitzHash rssSymKeySmall (portBytes sp dp) =
      xorSelected (fun _ => BitVec.allOnes 32) (bitAt (portBytes sp dp)) 32 := by
  have size : (portBytes sp dp).length = 4 := rfl
  rw [toeplitzHash_eq (by omega), toeplitz, size]
  exact xorSelected_congr (fun n inside => window_rssSymKeySmall (by omega)) fun _ _ => rfl

theorem softrss_xor_toeplitzHash (wide : BitVec 32 → BitVec 32) (sp dp : BitVec 16) :
    softrss wide sp dp ^^^ toeplitzHash rssSymKeySmall (portBytes sp dp) =
      xorSelected (gap wide) (bitAt (portBytes sp dp)) 32 := by
  rw [softrss_selected, toeplitzHash_ports, xorSelected_xor]
  rfl

theorem gap_marked (wide : BitVec 32 → BitVec 32) {i : Nat} (inside : i < 31)
    (open_ : gap wide i ≠ 0#32) :
    (gap wide i).getLsbD (i - 1) = true ∧ ∀ m < i, (gap wide m).getLsbD (i - 1) = false := by
  rw [Ne, gap_eq_zero_iff wide inside] at open_
  constructor
  · rw [getLsbD_gap wide inside (by omega), decide_eq_true_eq]
    omega
  · intro m below
    rw [getLsbD_gap wide (by omega) (by omega), decide_eq_false_iff_not]
    omega

theorem eq_zero_iff_bitAt (sp dp : BitVec 16) :
    dp = 0#16 ↔ ∀ i < 32, bitAt (portBytes sp dp) i = true → i < 16 := by
  constructor
  · rintro rfl i inside chosen
    by_contra behind
    rw [bitAt_portBytes sp _ i inside, BitVec.getLsbD_append, if_pos (by omega),
      BitVec.getLsbD_zero] at chosen
    contradiction
  · intro clear
    apply BitVec.eq_of_getLsbD_eq
    intro k small
    rw [BitVec.getLsbD_zero, ← Bool.not_eq_true]
    intro set
    have chosen := bitAt_portBytes sp dp (31 - k) (by omega)
    rw [BitVec.getLsbD_append, if_pos (by omega), show 31 - (31 - k) = k by omega, set] at chosen
    have front := clear (31 - k) (by omega) chosen
    omega

/-- For an even destination port the undefined shift does not matter. -/
theorem softrss_eq_iff_of_even (wide : BitVec 32 → BitVec 32) (sp : BitVec 16) {dp : BitVec 16}
    (even : dp.getLsbD 0 = false) :
    softrss wide sp dp = toeplitzHash rssSymKeySmall (portBytes sp dp) ↔ dp = 0#16 := by
  have last : bitAt (portBytes sp dp) 31 = false := by
    rw [bitAt_portBytes sp dp 31 (by decide), BitVec.getLsbD_append, if_pos (by decide)]
    exact even
  rw [← BitVec.xor_eq_zero_iff, softrss_xor_toeplitzHash, xorSelected_succ, last,
    if_neg Bool.false_ne_true, xorSelected_eq_zero_iff _ fun i inside => gap_marked wide inside,
    eq_zero_iff_bitAt sp dp]
  constructor
  · intro closed i inside chosen
    have below : i ≠ 31 := by
      rintro rfl
      rw [last] at chosen
      contradiction
    exact (gap_eq_zero_iff wide (by omega)).mp (closed i (by omega) chosen)
  · intro front i inside chosen
    exact (gap_eq_zero_iff wide inside).mpr (front i (by omega) chosen)

/-- With a zero for the undefined shift the last gap reaches behind all others. -/
theorem softrss_ne_of_odd (sp : BitVec 16) {dp : BitVec 16} (odd : dp.getLsbD 0 = true) :
    softrss (fun _ => 0#32) sp dp ≠ toeplitzHash rssSymKeySmall (portBytes sp dp) := by
  have last : bitAt (portBytes sp dp) 31 = true := by
    rw [bitAt_portBytes sp dp 31 (by decide), BitVec.getLsbD_append, if_pos (by decide)]
    exact odd
  have top : (gap (fun _ => 0#32) 31).getLsbD 30 = true := by decide
  have marked : ∀ i < 32, gap (fun _ => 0#32) i ≠ 0#32 →
      (gap (fun _ => 0#32) i).getLsbD (i - 1) = true ∧
        ∀ m < i, (gap (fun _ => 0#32) m).getLsbD (i - 1) = false := by
    intro i inside open_
    by_cases below : i < 31
    · exact gap_marked _ below open_
    · obtain rfl : i = 31 := by omega
      refine ⟨top, fun m below => ?_⟩
      rw [getLsbD_gap _ below (by decide), decide_eq_false_iff_not]
      omega
  intro same
  rw [← BitVec.xor_eq_zero_iff, softrss_xor_toeplitzHash, xorSelected_eq_zero_iff _ marked] at same
  rw [same 31 (by decide) last] at top
  contradiction

/-- Whatever the undefined shift gives, the hashes agree exactly for the destination port 0. -/
theorem softrss_eq_iff (sp dp : BitVec 16) :
    (∀ wide, softrss wide sp dp = toeplitzHash rssSymKeySmall (portBytes sp dp)) ↔
      dp = 0#16 := by
  constructor
  · intro always
    cases parity : dp.getLsbD 0 with
    | false => exact (softrss_eq_iff_of_even id sp parity).mp (always id)
    | true => exact absurd (always _) (softrss_ne_of_odd sp parity)
  · rintro rfl wide
    exact (softrss_eq_iff_of_even wide sp BitVec.getLsbD_zero).mpr rfl

/-- The first call of `main`. -/
theorem softrss_main :
    softrss id 0xBEDE 0x1A90 ≠ toeplitzHash rssSymKeySmall (portBytes 0xBEDE 0x1A90) ∧
      softrss (fun _ => 0) 0xBEDE 0x1A90 ≠
        toeplitzHash rssSymKeySmall (portBytes 0xBEDE 0x1A90) := by
  decide

end DirtyCode.Toeplitz
