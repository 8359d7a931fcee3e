import DirtyCode.Toeplitz.Hash

/-!
The keys of `toeplitz_hash.c`: the symmetric one, whose windows repeat every 16 bits, and
those with a single set bit.
-/

namespace DirtyCode.Toeplitz

open Lib

def rssSymKey : List UInt8 :=
  [0x6D, 0x5A, 0x6D, 0x5A, 0x6D, 0x5A, 0x6D, 0x5A,
    0x6D, 0x5A, 0x6D, 0x5A, 0x6D, 0x5A, 0x6D, 0x5A,
    0x6D, 0x5A, 0x6D, 0x5A, 0x6D, 0x5A, 0x6D, 0x5A,
    0x6D, 0x5A, 0x6D, 0x5A, 0x6D, 0x5A, 0x6D, 0x5A,
    0x6D, 0x5A, 0x6D, 0x5A, 0x6D, 0x5A, 0x6D, 0x5A]

def rssHackDport : List UInt8 :=
  [0x00, 0x00, 0x00, 0x00, 0x00, 0x00, 0x00, 0x00,
    0x00, 0x00, 0x00, 0x00, 0x00, 0x00, 0x01, 0x00,
    0x00, 0x00, 0x00, 0x00, 0x00, 0x00, 0x00, 0x00,
    0x00, 0x00, 0x00, 0x00, 0x00, 0x00, 0x00, 0x00,
    0x00, 0x00, 0x00, 0x00, 0x00, 0x00, 0x00, 0x00]

def rssHackSip256 : List UInt8 :=
  [0x00, 0x00, 0x00, 0x01, 0x00, 0x00, 0x00, 0x00,
    0x00, 0x00, 0x00, 0x00, 0x00, 0x00, 0x00, 0x00,
    0x00, 0x00, 0x00, 0x00, 0x00, 0x00, 0x00, 0x00,
    0x00, 0x00, 0x00, 0x00, 0x00, 0x00, 0x00, 0x00,
    0x00, 0x00, 0x00, 0x00, 0x00, 0x00, 0x00, 0x00]

def rssHackSip16 : List UInt8 :=
  [0x00, 0x00, 0x00, 0x00, 0x10, 0x00, 0x00, 0x00,
    0x00, 0x00, 0x00, 0x00, 0x00, 0x00, 0x00, 0x00,
    0x00, 0x00, 0x00, 0x00, 0x00, 0x00, 0x00, 0x00,
    0x00, 0x00, 0x00, 0x00, 0x00, 0x00, 0x00, 0x00,
    0x00, 0x00, 0x00, 0x00, 0x00, 0x00, 0x00, 0x00]

/-- A 16-bit word, its first byte first. -/
abbrev Word := UInt8 × UInt8

def dataOf (words : List Word) : List UInt8 := words.flatMap fun word => [word.1, word.2]

/-- The twelve bytes of `data`, in network order. -/
structure Tuple where
  sip : Word × Word
  dip : Word × Word
  sport : Word
  dport : Word

namespace Tuple

def data (tuple : Tuple) : List UInt8 :=
  dataOf [tuple.sip.1, tuple.sip.2, tuple.dip.1, tuple.dip.2, tuple.sport, tuple.dport]

def swap (tuple : Tuple) : Tuple where
  sip := tuple.dip
  dip := tuple.sip
  sport := tuple.dport
  dport := tuple.sport

end Tuple

/-- What a word adds to the hash with the symmetric key, wherever it stands. -/
def wordHash (word : Word) : BitVec 32 :=
  xorWindows 32 (bitAt rssSymKey) (bitAt [word.1, word.2]) 16

theorem length_dataOf (words : List Word) :
    (dataOf words).length = 2 * words.length := by
  simp [dataOf, Nat.mul_comm]

theorem bitAt_append_left {bytes others : List UInt8} {n : Nat} (inside : n < 8 * bytes.length) :
    bitAt (bytes ++ others) n = bitAt bytes n := by
  rw [bitAt, bitAt, List.getD_append _ _ _ _ (by omega)]

theorem bitAt_append_right (bytes others : List UInt8) (n : Nat) :
    bitAt (bytes ++ others) (8 * bytes.length + n) = bitAt others n := by
  rw [bitAt, bitAt, List.getD_append_right _ _ _ _ (by omega),
    show (8 * bytes.length + n) / 8 - bytes.length = n / 8 by omega,
    show (8 * bytes.length + n) % 8 = n % 8 by omega]

theorem rssSymKey_period :
    ∀ q < 320, bitAt rssSymKey q = bitAt [0x6D, 0x5A] (q % 16) := by
  decide +kernel

theorem rssSymKey_window {n m : Nat} (inside : 16 * n + m < 289) :
    window 32 (bitAt rssSymKey) (16 * n + m) = window 32 (bitAt rssSymKey) m := by
  apply BitVec.eq_of_getLsbD_eq
  intro i _
  rw [getLsbD_window, getLsbD_window, rssSymKey_period _ (by omega), rssSymKey_period _ (by omega),
    show (16 * n + m + (32 - 1 - i)) % 16 = (m + (32 - 1 - i)) % 16 by omega]

theorem toeplitz_dataOf {words : List Word} (short : words.length ≤ 18) :
    toeplitz rssSymKey (dataOf words) = xorAll (words.map wordHash) := by
  induction words using List.reverseRecOn with
  | nil => rfl
  | append_singleton words word ih =>
      rw [List.length_append, List.length_singleton] at short
      have before : dataOf (words ++ [word]) = dataOf words ++ [word.1, word.2] := by
        simp [dataOf]
      have length := length_dataOf words
      have first : xorWindows 32 (bitAt rssSymKey) (bitAt (dataOf words ++ [word.1, word.2]))
          (8 * (dataOf words).length) = toeplitz rssSymKey (dataOf words) := by
        apply xorWindows_congr
        intro n inside
        rw [bitAt_append_left inside]
      have last : xorWindows 32 (fun q => bitAt rssSymKey (8 * (dataOf words).length + q))
          (fun n => bitAt (dataOf words ++ [word.1, word.2]) (8 * (dataOf words).length + n)) 16 =
          wordHash word := by
        apply xorWindows_congr
        intro n inside
        rw [bitAt_append_right, window_shift, length, show 8 * (2 * words.length) + n =
          16 * words.length + n by omega, rssSymKey_window (by omega)]
      rw [toeplitz, before, List.length_append, Nat.mul_add, xorWindows_add, List.length_cons,
        List.length_singleton, first, last, ih (by omega), List.map_append, xorAll_append,
          List.map_singleton,
        xorAll_singleton]

theorem symmetric_hash {words others : List Word} (short : words.length ≤ 18)
    (perm : words.Perm others) :
    toeplitzHash rssSymKey (dataOf words) = toeplitzHash rssSymKey (dataOf others) := by
  have length := perm.length_eq
  rw [toeplitzHash_eq (by rw [length_dataOf]; omega),
    toeplitzHash_eq (by rw [length_dataOf]; omega),
    toeplitz_dataOf short, toeplitz_dataOf (by omega)]
  exact xorAll_perm (perm.map wordHash)

theorem swap_perm (tuple : Tuple) :
    [tuple.sip.1, tuple.sip.2, tuple.dip.1, tuple.dip.2, tuple.sport, tuple.dport].Perm
      [tuple.dip.1, tuple.dip.2, tuple.sip.1, tuple.sip.2, tuple.dport, tuple.sport] := by
  have addresses : [tuple.sip.1, tuple.sip.2, tuple.dip.1, tuple.dip.2].Perm
      [tuple.dip.1, tuple.dip.2, tuple.sip.1, tuple.sip.2] := by
    change ([tuple.sip.1, tuple.sip.2] ++ [tuple.dip.1, tuple.dip.2]).Perm
      ([tuple.dip.1, tuple.dip.2] ++ [tuple.sip.1, tuple.sip.2])
    exact List.perm_append_comm
  exact addresses.append (.swap tuple.dport tuple.sport [])

/-- With the symmetric key the order of the 16-bit words does not matter, and so source and
destination may change places. -/
theorem symmetric_key_hash :
    (∀ words others : List Word, words.length ≤ 18 → words.Perm others →
      toeplitzHash rssSymKey (dataOf words) = toeplitzHash rssSymKey (dataOf others)) ∧
    ∀ tuple : Tuple, toeplitzHash rssSymKey tuple.swap.data = toeplitzHash rssSymKey tuple.data :=
  ⟨fun _ _ short perm => symmetric_hash short perm,
    fun tuple => (symmetric_hash (by simp) (swap_perm tuple)).symm⟩

theorem symmetric_key_hash_pair :
    toeplitzHash rssSymKey (dataOf [(1, 2), (3, 4)]) =
      toeplitzHash rssSymKey (dataOf [(3, 4), (1, 2)]) :=
  symmetric_key_hash.1 [(1, 2), (3, 4)] [(3, 4), (1, 2)] (by decide) (.swap (3, 4) (1, 2) [])

theorem Tuple.length_data (tuple : Tuple) : tuple.data.length = 12 := rfl

theorem bitAt_single {key : List UInt8} {position : Nat} (size : key.length = 40)
    (near : position < 320) (single : ∀ q < 320, bitAt key q = decide (q = position)) :
    bitAt key = fun q => decide (q = position) := by
  funext q
  by_cases inside : q < 320
  · exact single q inside
  · rw [bitAt_behind (by omega), eq_comm, decide_eq_false_iff_not]
    omega

theorem getLsbD_single {key : List UInt8} {position : Nat} (size : key.length = 40)
    (near : position < 320) (deep : 31 ≤ position)
    (single : ∀ q < 320, bitAt key q = decide (q = position)) (tuple : Tuple) (i : Nat) :
    (toeplitzHash key tuple.data).getLsbD i =
      (decide (i < 32 ∧ position - 31 + i < 96) && bitAt tuple.data (position - 31 + i)) := by
  have length := tuple.length_data
  rw [toeplitzHash_eq (by omega), toeplitz, bitAt_single size near single, length,
    getLsbD_xorWindows_single _ _ _ (by omega),
    show position + 1 - 32 + i = position - 31 + i by omega]

theorem hack_dport {first second : Tuple} (same : first.dport = second.dport) :
    toeplitzHash rssHackDport first.data = toeplitzHash rssHackDport second.data := by
  have single : ∀ q < 320, bitAt rssHackDport q = decide (q = 119) := by decide +kernel
  apply BitVec.eq_of_getLsbD_eq
  intro i _
  rw [getLsbD_single rfl (by omega) (by omega) single,
    getLsbD_single rfl (by omega) (by omega) single]
  by_cases inside : i < 8
  · have place : 119 - 31 + i = 8 * 11 + i := by omega
    rw [place, bitAt_byte _ _ inside, bitAt_byte _ _ inside]
    show (_ && bitOf first.dport.2 i) = (_ && bitOf second.dport.2 i)
    rw [same]
  · simp [show ¬119 - 31 + i < 96 by omega]

theorem hack_sip_256 (tuple : Tuple) :
    (toeplitzHash rssHackSip256 tuple.data).setWidth 8 = tuple.sip.1.1.toBitVec.reverse := by
  have single : ∀ q < 320, bitAt rssHackSip256 q = decide (q = 31) := by decide +kernel
  apply BitVec.eq_of_getLsbD_eq
  intro i inside
  have place : 31 - 31 + i = 8 * 0 + i := by omega
  have small : i < 32 ∧ 8 * 0 + i < 96 := by omega
  rw [BitVec.getLsbD_setWidth, getLsbD_single rfl (by omega) (by omega) single, place,
    bitAt_byte _ _ inside, BitVec.getLsbD_reverse, BitVec.getMsbD_eq_getLsbD]
  simp only [inside, small, and_self, decide_true, Bool.true_and]
  rfl

theorem hack_sip_16 (tuple : Tuple) :
    (toeplitzHash rssHackSip16 tuple.data).setWidth 4 =
      (tuple.sip.1.1.toBitVec.setWidth 4).reverse := by
  have single : ∀ q < 320, bitAt rssHackSip16 q = decide (q = 35) := by decide +kernel
  apply BitVec.eq_of_getLsbD_eq
  intro i inside
  have place : 35 - 31 + i = 8 * 0 + (4 + i) := by omega
  have small : i < 32 ∧ 8 * 0 + (4 + i) < 96 := by omega
  rw [BitVec.getLsbD_setWidth, getLsbD_single rfl (by omega) (by omega) single, place,
    bitAt_byte _ _ (by omega), BitVec.getLsbD_reverse, BitVec.getMsbD_eq_getLsbD,
    BitVec.getLsbD_setWidth]
  simp only [inside, small, and_self, decide_true, Bool.true_and, show 4 - 1 - i < 4 by omega]
  show bitOf tuple.sip.1.1 (4 + i) = _
  rw [bitOf, show 7 - (4 + i) = 4 - 1 - i by omega]

theorem reverse_bijective {w : Nat} : Function.Bijective (BitVec.reverse : BitVec w → BitVec w) :=
  Function.Involutive.bijective fun _ => BitVec.reverse_reverse_eq

/-- What the steering keys make of a tuple: the destination port alone, or the low bits of the
first byte of the source address alone, each value of them once. -/
theorem steering_keys :
    (∀ first second : Tuple, first.dport = second.dport →
      toeplitzHash rssHackDport first.data = toeplitzHash rssHackDport second.data) ∧
    (∃ f : BitVec 4 → BitVec 4, f.Bijective ∧ ∀ tuple : Tuple,
      (toeplitzHash rssHackSip16 tuple.data).toNat % 16 =
        (f (tuple.sip.1.1.toBitVec.setWidth 4)).toNat) ∧
    ∃ f : BitVec 8 → BitVec 8, f.Bijective ∧ ∀ tuple : Tuple,
      (toeplitzHash rssHackSip256 tuple.data).toNat % 256 = (f tuple.sip.1.1.toBitVec).toNat := by
  refine ⟨fun first second same => hack_dport same, ⟨_, reverse_bijective, fun tuple => ?_⟩,
    ⟨_, reverse_bijective, fun tuple => ?_⟩⟩
  · rw [← hack_sip_16, BitVec.toNat_setWidth]
  · rw [← hack_sip_256, BitVec.toNat_setWidth]

theorem steering_keys_port :
    toeplitzHash rssHackDport
        (Tuple.data ⟨((192, 168), (1, 3)), ((114, 245), (38, 158)), (31, 35), (26, 144)⟩) =
      toeplitzHash rssHackDport
        (Tuple.data ⟨((10, 0), (0, 1)), ((10, 0), (0, 2)), (0, 80), (26, 144)⟩) :=
  steering_keys.1 _ _ rfl

end DirtyCode.Toeplitz
