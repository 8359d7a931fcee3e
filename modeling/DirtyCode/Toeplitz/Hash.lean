import DirtyCode.Lib.Window

/-!
`toeplitz_hash` of `toeplitz_hash.c` and `IPParserWithBitMap`, whose counter `i` is a
`uint32_t`.
-/

namespace DirtyCode.Toeplitz

open Lib

-- `byte & (1 << (7 - b))`
def bitOf (byte : UInt8) (b : Nat) : Bool := byte.toBitVec.getLsbD (7 - b)

structure Register where
  hash : BitVec 32
  v : BitVec 32

-- `i + 4` wraps
def bitStep (key data : List UInt8) (i : Nat) (register : Register) (b : Nat) : Register where
  hash := if bitOf (data.getD i 0) b then register.hash ^^^ register.v else register.hash
  v := slide register.v
    (decide ((i + 4) % 4294967296 < key.length) && bitOf (key.getD ((i + 4) % 4294967296) 0) b)

def firstKey (key : List UInt8) : BitVec 32 :=
  ((key.getD 0 0).toBitVec.setWidth 32 <<< 24) + ((key.getD 1 0).toBitVec.setWidth 32 <<< 16) +
    ((key.getD 2 0).toBitVec.setWidth 32 <<< 8) + (key.getD 3 0).toBitVec.setWidth 32

def byteStep (key data : List UInt8) (register : Register) (i : Nat) : Register :=
  (List.range 8).foldl (bitStep key data i) register

def toeplitzHash (key data : List UInt8) : BitVec 32 :=
  ((List.range data.length).foldl (byteStep key data) ⟨0, firstKey key⟩).hash

/-- Bit `n` from the top of the first byte on, 0 behind the end. -/
def bitAt (bytes : List UInt8) (n : Nat) : Bool := bitOf (bytes.getD (n / 8) 0) (n % 8)

/-- The exclusive or of the 32-bit windows of the key at the set bits of the data. -/
def toeplitz (key data : List UInt8) : BitVec 32 :=
  xorWindows 32 (bitAt key) (bitAt data) (8 * data.length)

def keyBit (key : List UInt8) (q : Nat) : Bool := bitAt key (q % 34359738368)

theorem bitOf_zero (b : Nat) : bitOf 0 b = false := by
  simp [bitOf]

theorem bitAt_byte (bytes : List UInt8) (i : Nat) {b : Nat} (inside : b < 8) :
    bitAt bytes (8 * i + b) = bitOf (bytes.getD i 0) b := by
  rw [bitAt, show (8 * i + b) / 8 = i by omega, show (8 * i + b) % 8 = b by omega]

theorem bitAt_behind {bytes : List UInt8} {n : Nat} (behind : 8 * bytes.length ≤ n) :
    bitAt bytes n = false := by
  rw [bitAt, List.getD_eq_default _ _ (by omega), bitOf_zero]

theorem keyBit_byte (key : List UInt8) (i : Nat) {b : Nat} (inside : b < 8) :
    keyBit key (8 * i + b + 32) = (decide ((i + 4) % 4294967296 < key.length) &&
      bitOf (key.getD ((i + 4) % 4294967296) 0) b) := by
  have place : (8 * i + b + 32) % 34359738368 = 8 * ((i + 4) % 4294967296) + b := by omega
  rw [keyBit, place, bitAt_byte _ _ inside]
  by_cases within : (i + 4) % 4294967296 < key.length
  · simp [within]
  · rw [List.getD_eq_default _ _ (Nat.le_of_not_lt within), bitOf_zero, Bool.and_false]

theorem firstKey_append {key : List UInt8} :
    firstKey key = (((key.getD 0 0).toBitVec ++ (key.getD 1 0).toBitVec) ++
      (key.getD 2 0).toBitVec) ++ (key.getD 3 0).toBitVec := by
  apply BitVec.eq_of_toNat_eq
  have first := (key.getD 0 0).toBitVec.isLt
  have second := (key.getD 1 0).toBitVec.isLt
  have third := (key.getD 2 0).toBitVec.isLt
  have fourth := (key.getD 3 0).toBitVec.isLt
  simp only [firstKey, BitVec.toNat_append, BitVec.toNat_add, BitVec.toNat_shiftLeft,
    BitVec.toNat_setWidth]
  rw [← Nat.shiftLeft_add_eq_or_of_lt second, ← Nat.shiftLeft_add_eq_or_of_lt third,
    ← Nat.shiftLeft_add_eq_or_of_lt fourth]
  simp only [Nat.shiftLeft_eq]
  omega

theorem firstKey_window (key : List UInt8) : firstKey key = window 32 (keyBit key) 0 := by
  apply BitVec.eq_of_getLsbD_eq
  intro i inside
  have place : (0 + (32 - 1 - i)) % 34359738368 = 8 * ((31 - i) / 8) + (31 - i) % 8 := by omega
  rw [getLsbD_window, keyBit, place, bitAt_byte _ _ (Nat.mod_lt _ (by omega)), bitOf,
    firstKey_append, BitVec.getLsbD_append, BitVec.getLsbD_append, BitVec.getLsbD_append]
  simp only [inside, decide_true, Bool.true_and]
  split
  · rw [show (31 - i) / 8 = 3 by omega, show 7 - (31 - i) % 8 = i by omega]
  · split
    · rw [show (31 - i) / 8 = 2 by omega, show 7 - (31 - i) % 8 = i - 8 by omega]
    · split
      · rw [show (31 - i) / 8 = 1 by omega, show 7 - (31 - i) % 8 = i - 8 - 8 by omega]
      · rw [show (31 - i) / 8 = 0 by omega, show 7 - (31 - i) % 8 = i - 8 - 8 - 8 by omega]

structure After (key data : List UInt8) (n : Nat) (register : Register) : Prop where
  hash : register.hash = xorWindows 32 (keyBit key) (bitAt data) n
  v : register.v = window 32 (keyBit key) n

theorem After.bitStep {key data : List UInt8} {i b : Nat} {register : Register}
    (after : After key data (8 * i + b) register) (inside : b < 8) :
    After key data (8 * i + (b + 1)) (bitStep key data i register b) := by
  constructor
  · rw [← Nat.add_assoc, xorWindows_succ, bitAt_byte data i inside, ← after.hash, ← after.v]
    rfl
  · rw [← Nat.add_assoc, ← slide_window, keyBit_byte key i inside, ← after.v]
    rfl

theorem After.byteStep {key data : List UInt8} {i : Nat} {register : Register}
    (after : After key data (8 * i) register) :
    After key data (8 * (i + 1)) (byteStep key data register i) := by
  have bits : ∀ count ≤ 8, After key data (8 * i + count)
      ((List.range count).foldl (Toeplitz.bitStep key data i) register) := by
    intro count inside
    induction count with
    | zero => exact after
    | succ count ih =>
        rw [List.range_succ, List.foldl_append]
        exact (ih (by omega)).bitStep inside
  exact bits 8 le_rfl

theorem toeplitzHash_windows (key data : List UInt8) :
    toeplitzHash key data = xorWindows 32 (keyBit key) (bitAt data) (8 * data.length) := by
  have bytes : ∀ count, After key data (8 * count)
      ((List.range count).foldl (byteStep key data) ⟨0, firstKey key⟩) := by
    intro count
    induction count with
    | zero => exact ⟨rfl, firstKey_window key⟩
    | succ count ih =>
        rw [List.range_succ, List.foldl_append]
        exact ih.byteStep
  exact (bytes data.length).hash

/-- The bits taken in behind the key where the index has wrapped. -/
def wrapped (key : List UInt8) (q : Nat) : Bool :=
  decide (34359738368 ≤ q) && bitAt key (q - 34359738368)

theorem keyBit_eq {key : List UInt8} (keySize : key.length < 4294967296) {q : Nat}
    (near : q < 68719476736) : keyBit key q = (bitAt key q ^^ wrapped key q) := by
  by_cases far : 34359738368 ≤ q
  · rw [keyBit, wrapped, show q % 34359738368 = q - 34359738368 by omega,
      bitAt_behind (show 8 * key.length ≤ q by omega)]
    simp [far]
  · rw [keyBit, wrapped, Nat.mod_eq_of_lt (Nat.lt_of_not_le far)]
    simp [far]

/-- The hash differs from its definition by the windows of the wrapped bits. -/
theorem toeplitzHash_xor {key data : List UInt8} (keySize : key.length < 4294967296)
    (dataSize : data.length < 4294967296) :
    toeplitzHash key data =
      toeplitz key data ^^^ xorWindows 32 (wrapped key) (bitAt data) (8 * data.length) := by
  rw [toeplitzHash_windows, toeplitz, ← xorWindows_xor]
  apply xorWindows_congr
  intro n inside
  have same : window 32 (keyBit key) n =
      window 32 (fun q => bitAt key q ^^ wrapped key q) n := by
    apply BitVec.eq_of_getLsbD_eq
    intro i _
    rw [getLsbD_window, getLsbD_window, keyBit_eq keySize (by omega)]
  rw [same]

theorem toeplitzHash_eq_iff_wrapped {key data : List UInt8} (keySize : key.length < 4294967296)
    (dataSize : data.length < 4294967296) :
    toeplitzHash key data = toeplitz key data ↔
      xorWindows 32 (wrapped key) (bitAt data) (8 * data.length) = 0#32 := by
  rw [toeplitzHash_xor keySize dataSize]
  constructor
  · intro same
    have cancelled := congrArg (toeplitz key data ^^^ ·) same
    simpa only [← BitVec.xor_assoc, BitVec.xor_self, BitVec.zero_xor] using cancelled
  · intro zero
    rw [zero, BitVec.xor_zero]

/-- Up to four bytes less than four gigabytes the index does not wrap. -/
theorem toeplitzHash_eq {key data : List UInt8} (short : data.length ≤ 4294967292) :
    toeplitzHash key data = toeplitz key data := by
  rw [toeplitzHash_windows]
  apply xorWindows_congr
  intro n inside
  have same : window 32 (keyBit key) n = window 32 (bitAt key) n := by
    apply BitVec.eq_of_getLsbD_eq
    intro i _
    rw [getLsbD_window, getLsbD_window, keyBit, Nat.mod_eq_of_lt (by omega)]
  rw [same]

/-- The hash is what it is defined to be exactly when no set bit of the data lies so far
behind that a set bit of the key has come back into the register. -/
theorem toeplitzHash_eq_iff {key data : List UInt8} (keySize : key.length < 4294967296)
    (dataSize : data.length < 4294967296) :
    toeplitzHash key data = toeplitz key data ↔
      ∀ n < 8 * data.length, bitAt data n = true →
        ∀ q, 34359738368 + q < n + 32 → bitAt key q = false := by
  rw [toeplitzHash_eq_iff_wrapped keySize dataSize]
  by_cases set : ∃ q, bitAt key q = true
  · have clear : ∀ q < 34359738368 + Nat.find set, wrapped key q = false := by
      intro q below
      by_cases far : 34359738368 ≤ q
      · have unset := Nat.find_min set (show q - 34359738368 < Nat.find set by omega)
        simp [wrapped, unset]
      · simp [wrapped, far]
    have found : wrapped key (34359738368 + Nat.find set) = true := by
      simp [wrapped, Nat.find_spec set]
    rw [xorWindows_eq_zero_iff clear found fun n inside => by omega]
    refine forall_congr' fun n => imp_congr_right fun _ => imp_congr_right fun _ => ?_
    constructor
    · intro before q reach
      exact Bool.eq_false_of_not_eq_true (Nat.find_min set (by omega))
    · intro unset
      by_contra reach
      have spec := Nat.find_spec set
      rw [unset _ (by omega)] at spec
      contradiction
  · have none : ∀ q, bitAt key q = false := by simpa using set
    refine iff_of_true ?_ fun _ _ _ q _ => none q
    apply xorWindows_clear
    intro n _ _
    exact window_eq_zero fun q _ _ => by simp [wrapped, none]

theorem toeplitzHash_eq_iff_pair :
    toeplitzHash [109, 90, 86, 218, 37] [192, 168] = toeplitz [109, 90, 86, 218, 37] [192, 168] :=
  (toeplitzHash_eq_iff (by decide) (by decide)).mpr fun n inside _ q reach => by
    simp only [List.length_cons, List.length_nil] at inside
    omega

theorem bitAt_behind_zeros {zeros n : Nat} {byte : UInt8} :
    bitAt (List.replicate zeros 0 ++ [byte]) n =
    (decide (n / 8 = zeros) && bitOf byte (n % 8)) := by
  rw [bitAt]
  rcases Nat.lt_trichotomy (n / 8) zeros with before | here | behind
  · have zero : (List.replicate zeros (0 : UInt8) ++ [byte]).getD (n / 8) 0 = 0 := by
      rw [List.getD_append _ _ _ _ (by simpa using before), List.getD_replicate]
      exact before
    rw [zero, bitOf_zero]
    simp [before.ne]
  · have last : (List.replicate zeros (0 : UInt8) ++ [byte]).getD (n / 8) 0 = byte := by
      rw [List.getD_append_right _ _ _ _ (by simp [here])]
      simp [here]
    rw [last]
    simp [here]
  · rw [List.getD_eq_default _ _ (by simpa using behind), bitOf_zero]
    simp [behind.ne']

/-- Behind four gigabytes of zeros the first bit of the key has come back. -/
theorem key_comes_back {zeros : Nat} (count : zeros = 4294967292) :
    toeplitzHash [128, 0, 0, 0] (List.replicate zeros 0 ++ [64]) ≠
      toeplitz [128, 0, 0, 0] (List.replicate zeros 0 ++ [64]) := by
  have size : (List.replicate zeros (0 : UInt8) ++ [64]).length = zeros + 1 := by simp
  have clear : ∀ q < 34359738368, wrapped [128, 0, 0, 0] q = false := by
    intro q below
    simp [wrapped, Nat.not_le_of_lt below]
  rw [Ne, toeplitzHash_eq_iff_wrapped (by decide) (by omega),
    xorWindows_eq_zero_iff clear rfl fun n inside => by omega]
  intro before
  have shown := before (8 * zeros + 1) (by omega) (by
    rw [bitAt_behind_zeros]
    simp [show (8 * zeros + 1) / 8 = zeros by omega, show (8 * zeros + 1) % 8 = 1 by omega]
    rfl)
  omega

theorem toeplitzHash_wraps :
    ¬toeplitzHash [128, 0, 0, 0] (List.replicate 4294967292 0 ++ [64]) =
      toeplitz [128, 0, 0, 0] (List.replicate 4294967292 0 ++ [64]) :=
  key_comes_back rfl

end DirtyCode.Toeplitz
