import DirtyCode.Lib.XorLinear
import DirtyCode.Toeplitz.Hash

/-!
The bitmap that `parseIP` of `IPParserWithBitMap` fills and `searchIP` reads: an address
stands at the bit whose number is its Toeplitz hash. With the default key two addresses
share a bit exactly when they differ by one fixed word.
-/

namespace DirtyCode.IPParser

open Lib Toeplitz

def defaultRsskey40bytes : List UInt8 :=
  [0x6d, 0x5a, 0x56, 0xda, 0x25, 0x5b, 0x0e, 0xc2, 0x41, 0x67, 0x25, 0x3d, 0x43, 0xa3, 0x8f, 0xb0,
   0xd0, 0xca, 0x2b, 0xcb, 0xae, 0x7b, 0x30, 0xb4, 0x77, 0xcb, 0x2d, 0xa3, 0x80, 0x30, 0xf2, 0x0c,
   0x6a, 0x42, 0xb7, 0x3b, 0xbe, 0xac, 0x01, 0xfa]

structure Tables where
  counter : Nat → BitVec 16
  bitmap : Nat → BitVec 64

-- `(const uint8_t *) &host`, the lowest byte first
def hostBytes (host : BitVec 32) : List UInt8 :=
  (List.range 4).map fun i => UInt8.ofBitVec (host.extractLsb' (8 * i) 8)

def hostHash (host : BitVec 32) : BitVec 32 := toeplitzHash defaultRsskey40bytes (hostBytes host)

-- `int ret`
def hashRet (host : BitVec 32) : Int := (hostHash host).toInt

def counterIndex (ret : Int) : Nat := (BitVec.ofInt 32 ret &&& 0xFFFF#32).toNat

def wordOffset (ret : Int) : Nat := (BitVec.ofInt 32 ret >>> 3 >>> 3).toNat

def bitVal (ret : Int) : BitVec 64 := 0x01#64 <<< (BitVec.ofInt 32 ret &&& 0x03F#32).toNat

def countHash (tables : Tables) (ret : Int) : Tables :=
  { tables with
    counter := Function.update tables.counter (counterIndex ret)
      (tables.counter (counterIndex ret) + 1) }

def parseHost (tables : Tables) (host : BitVec 32) : Tables :=
  let ret := hashRet host
  let tables := countHash tables ret
  { tables with
    bitmap := Function.update tables.bitmap (wordOffset ret)
      (tables.bitmap (wordOffset ret) ||| bitVal ret) }

-- the same of `searchIP`: the last value that it prints, and the counters
def searchHost (tables : Tables) (host : BitVec 32) : BitVec 64 × Tables :=
  let ret := hashRet host
  let tables := countHash tables ret
  (tables.bitmap (wordOffset ret) &&& bitVal ret, tables)

def clearTables : Tables := ⟨fun _ => 0, fun _ => 0⟩

def parseHosts (hosts : List (BitVec 32)) : Tables := hosts.foldl parseHost clearTables

theorem ofInt_hashRet (host : BitVec 32) : BitVec.ofInt 32 (hashRet host) = hostHash host :=
  BitVec.ofInt_toInt

theorem wordOffset_hashRet (host : BitVec 32) :
    wordOffset (hashRet host) = (hostHash host).toNat / 64 := by
  rw [wordOffset, ofInt_hashRet, BitVec.toNat_ushiftRight, BitVec.toNat_ushiftRight,
    Nat.shiftRight_eq_div_pow, Nat.shiftRight_eq_div_pow, Nat.div_div_eq_div_mul]

theorem wordOffset_lt (host : BitVec 32) : wordOffset (hashRet host) < 2 ^ 26 := by
  rw [wordOffset_hashRet]
  have small := (hostHash host).isLt
  omega

theorem bitVal_hashRet (host : BitVec 32) :
    bitVal (hashRet host) = BitVec.twoPow 64 ((hostHash host).toNat % 64) := by
  have low : (hostHash host &&& 0x03F#32).toNat = (hostHash host).toNat % 64 := by
    rw [BitVec.toNat_and]
    exact Nat.and_two_pow_sub_one_eq_mod _ 6
  rw [bitVal, ofInt_hashRet, low, BitVec.twoPow_eq]

def hashMarked (bitmap : Nat → BitVec 64) (hash : BitVec 32) : Bool :=
  (bitmap (hash.toNat / 64)).getLsbD (hash.toNat % 64)

theorem and_twoPow_ne_zero {w : Nat} (word : BitVec w) {i : Nat} (inside : i < w) :
    word &&& BitVec.twoPow w i ≠ 0#w ↔ word.getLsbD i = true := by
  rw [BitVec.and_twoPow]
  cases word.getLsbD i with
  | false => simp
  | true =>
      refine iff_of_true (fun zero => ?_) rfl
      have bit := congrArg (fun value => value.getLsbD i) zero
      simp [inside] at bit

theorem searchHost_iff (tables : Tables) (host : BitVec 32) :
    (searchHost tables host).1 ≠ 0#64 ↔ hashMarked tables.bitmap (hostHash host) = true := by
  simp only [searchHost, countHash, wordOffset_hashRet, bitVal_hashRet]
  exact and_twoPow_ne_zero _ (Nat.mod_lt _ (by decide))

theorem hashMarked_parseHost (tables : Tables) (host hash : BitVec 32) :
    hashMarked (parseHost tables host).bitmap hash =
      (hashMarked tables.bitmap hash || decide (hash = hostHash host)) := by
  simp only [hashMarked, parseHost, countHash, wordOffset_hashRet, bitVal_hashRet]
  have same : hash = hostHash host ↔ hash.toNat / 64 = (hostHash host).toNat / 64 ∧
      (hostHash host).toNat % 64 = hash.toNat % 64 := by
    rw [← BitVec.toNat_inj]
    omega
  have inside : (hostHash host).toNat % 64 < 64 := Nat.mod_lt _ (by decide)
  by_cases word : hash.toNat / 64 = (hostHash host).toNat / 64
  · rw [word, Function.update_self, BitVec.getLsbD_or, BitVec.getLsbD_twoPow]
    simp only [inside, decide_true, Bool.true_and, same, word, true_and]
  · rw [Function.update_of_ne word]
    simp [same, word]

theorem hashMarked_parseHosts (hosts : List (BitVec 32)) (hash : BitVec 32) :
    hashMarked (parseHosts hosts).bitmap hash = true ↔ ∃ host ∈ hosts, hash = hostHash host := by
  have filled : ∀ tables, hashMarked (hosts.foldl parseHost tables).bitmap hash = true ↔
      hashMarked tables.bitmap hash = true ∨ ∃ host ∈ hosts, hash = hostHash host := by
    induction hosts with
    | nil => simp
    | cons host rest ih =>
        intro tables
        rw [List.foldl_cons, ih, hashMarked_parseHost]
        simp [or_assoc]
  rw [parseHosts, filled]
  simp [hashMarked, clearTables]

-- where bit `n` of the hashed bytes stands in the address
def hostPlace (n : Nat) : Nat := 8 * (n / 8) + (7 - n % 8)

theorem bitAt_hostBytes (host : BitVec 32) {n : Nat} (inside : n < 32) :
    bitAt (hostBytes host) n = host.getLsbD (hostPlace n) := by
  have byte : (hostBytes host).getD (n / 8) 0 =
      UInt8.ofBitVec (host.extractLsb' (8 * (n / 8)) 8) := by
    have place : n / 8 < 4 := by omega
    simp [hostBytes, List.getD_eq_getElem?_getD, place]
  rw [bitAt, byte, bitOf, hostPlace]
  simp [show 7 - n % 8 < 8 by omega]

def hashRow (n : Nat) : BitVec 32 := window 32 (bitAt defaultRsskey40bytes) n

theorem hostHash_selected (host : BitVec 32) :
    hostHash host = xorSelected hashRow (fun n => host.getLsbD (hostPlace n)) 32 := by
  have short : (hostBytes host).length = 4 := by simp [hostBytes]
  rw [hostHash, toeplitzHash_eq (by omega), toeplitz, short]
  exact xorSelected_congr (fun _ _ => rfl) fun n inside => bitAt_hostBytes host inside

/-- A left inverse of the first 31 rows, by the columns for the bits of a hash. -/
def unhashColumn (n : Nat) : BitVec 32 :=
  BitVec.ofNat 32 <| [0x57897bb4, 0x1426efdf, 0x7fc4a40a, 0x13342b17, 0x71e12d9a, 0x58f64383,
    0x5d51e405, 0x561eab09, 0x17094ea5, 0x2e129d4a, 0x0bac4120, 0x40d1f9f4, 0x3a97eb5f, 0x22a6ad0a,
    0x454d5a14, 0x31aeac9f, 0x635d593e, 0x7d8eaacb, 0x40294d21, 0x6ceff941, 0x35629181, 0x6ac52302,
    0x6ebe5eb3, 0x6648a5d1, 0x202c28a1, 0x40585142, 0x6c0dc187, 0x34a6e00d, 0x694dc01a, 0x3e26e337,
    0x2bc4bdda, 0].getD n 0

theorem unhash_hashRow : ∀ n < 31,
    (image unhashColumn (hashRow n) : BitVec 32) = BitVec.twoPow 32 n := by
  decide +kernel

def lastRowMix (n : Nat) : Bool := (0x3b3418b7 : Nat).testBit n

theorem hashRow_last : hashRow 31 = xorSelected hashRow lastRowMix 31 := by
  decide +kernel

/-- The address that hashes to zero. -/
def hashKernel : BitVec 32 := 0xdd2c18ed#32

theorem hashKernel_bits : ∀ n < 31, hashKernel.getLsbD (hostPlace n) = lastRowMix n := by
  decide

theorem hostPlace_hostPlace (n : Nat) : hostPlace (hostPlace n) = n := by
  simp only [hostPlace]
  omega

theorem eq_of_hostPlace {host other : BitVec 32}
    (bits : ∀ n < 32, host.getLsbD (hostPlace n) = other.getLsbD (hostPlace n)) :
    host = other := by
  apply BitVec.eq_of_getLsbD_eq
  intro i inside
  have bit := bits (hostPlace i) (by simp only [hostPlace]; omega)
  rwa [hostPlace_hostPlace] at bit

theorem hostHash_xor (host other : BitVec 32) :
    hostHash (host ^^^ other) = hostHash host ^^^ hostHash other := by
  rw [hostHash_selected, hostHash_selected, hostHash_selected, ← xorSelected_data]
  exact xorSelected_congr (fun _ _ => rfl) fun n _ => BitVec.getLsbD_xor

theorem hostHash_eq_zero_iff (host : BitVec 32) :
    hostHash host = 0#32 ↔ host = 0#32 ∨ host = hashKernel := by
  have rows := xorSelected_eq_zero_iff_of_dependent (image_keepsXor unhashColumn)
    (by decide : 31 ≤ 32) unhash_hashRow hashRow_last fun n => host.getLsbD (hostPlace n)
  rw [hostHash_selected, rows]
  constructor
  · intro bits
    cases last : host.getLsbD (hostPlace 31) with
    | false =>
        refine .inl (eq_of_hostPlace fun n inside => ?_)
        rcases Nat.lt_succ_iff_lt_or_eq.mp inside with earlier | rfl
        · rw [bits n earlier, last, Bool.false_and, BitVec.getLsbD_zero]
        · rw [last, BitVec.getLsbD_zero]
    | true =>
        refine .inr (eq_of_hostPlace fun n inside => ?_)
        rcases Nat.lt_succ_iff_lt_or_eq.mp inside with earlier | rfl
        · rw [bits n earlier, last, Bool.true_and, hashKernel_bits n earlier]
        · rw [last]
          rfl
  · rintro (rfl | rfl) n inside
    · simp only [BitVec.getLsbD_zero, Bool.false_and]
    · exact hashKernel_bits n inside

theorem hostHash_eq_iff (host other : BitVec 32) :
    hostHash host = hostHash other ↔ other = host ∨ other = host ^^^ hashKernel := by
  have cancelled : host ^^^ (host ^^^ other) = other := by
    rw [← BitVec.xor_assoc, BitVec.xor_self, BitVec.zero_xor]
  rw [← BitVec.xor_eq_zero_iff, ← hostHash_xor, hostHash_eq_zero_iff]
  refine or_congr ?_ ?_
  · rw [BitVec.xor_eq_zero_iff, eq_comm]
  · rw [← BitVec.xor_right_inj host, cancelled]

/-- The bits of `parseIP` are those of the bitmap, and `searchIP` finds an address exactly
when it, or the one address with the same hash, is in the list. -/
theorem hashed_bitmap_hits (hosts : List (BitVec 32)) (queried : BitVec 32) :
    (∀ host, wordOffset (hashRet host) < 2 ^ 26) ∧
      ((searchHost (parseHosts hosts) queried).1 ≠ 0#64 ↔
        queried ∈ hosts ∨ queried ^^^ hashKernel ∈ hosts) := by
  refine ⟨wordOffset_lt, ?_⟩
  rw [searchHost_iff, hashMarked_parseHosts]
  simp only [hostHash_eq_iff]
  constructor
  · rintro ⟨host, member, rfl | rfl⟩
    · exact .inl member
    · exact .inr member
  · rintro (member | member)
    · exact ⟨queried, member, .inl rfl⟩
    · exact ⟨queried ^^^ hashKernel, member, .inr rfl⟩

/-- The address 221.44.24.237 sets the bit of 0.0.0.0. -/
theorem absent_address_found :
    ¬((searchHost (parseHosts [0xdd2c18ed#32]) 0#32).1 ≠ 0#64 ↔ 0#32 ∈ [0xdd2c18ed#32]) := by
  decide

end DirtyCode.IPParser
