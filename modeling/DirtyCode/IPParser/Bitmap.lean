import DirtyCode.Lib.Memory
import DirtyCode.Lib.Scan

/-!
The bitmap of `IPParserWithBitMap`: one bit for every IPv4 address, set singly or
for a whole network.
-/

namespace DirtyCode.IPParser

open Lib

abbrev Bytes := List UInt8

def bitmapSize : Nat := 2 ^ 29

-- `0x1UL << count`, stored in a `uint8_t`
def bitMask (count : Nat) : UInt8 := UInt8.ofNat (1 <<< count)

def bitmapOps (ptr : Memory) (pos : Nat) (op : Int) : UInt8 × Memory :=
  let offset := pos >>> 3
  if 0 < op then
    let bitVal := bitMask (pos &&& 0x07)
    (bitVal, ptr.set offset (ptr offset ||| bitVal))
  else if op = 0 then
    let bitVal := ~~~bitMask (pos &&& 0x07)
    (bitVal, ptr.set offset (ptr offset &&& bitVal))
  else (bitMask (pos &&& 0x07) &&& ptr offset, ptr)

/-- `0x1 << bits` for an `int`, which C leaves undefined from 31 on. -/
def shiftInt (bits : Nat) : Option Nat := if bits < 31 then some (1 <<< bits) else none

/-- A `memset` that leaves the map is undefined. -/
def memset (ptr : Memory) (offset : Nat) (value : UInt8) (count : Nat) : Option Memory :=
  if offset + count ≤ bitmapSize then some (ptr.memcpy offset (fun _ => value) count) else none

-- `pos & 0x07 + 1` is `pos & (0x07 + 1)` in C
def bitmapOpsBatch (ptr : Memory) (pos : Nat) (bits op : UInt8) : Option Memory :=
  let nr := shiftInt bits.toNat
  if 32 < bits then some ptr
  else
    let offset := pos >>> 3
    nr.bind fun nr =>
      if nr = 1 then
        if op ≠ 0 then some (ptr.set offset (ptr offset ||| bitMask (pos &&& 0x07)))
        else some (ptr.set offset (ptr offset &&& ~~~bitMask (pos &&& 0x07)))
      else if nr = 2 then
        if op ≠ 0 then
          let bitVal := bitMask (pos &&& 0x07) ||| bitMask (pos &&& (0x07 + 1))
          some (ptr.set offset (ptr offset ||| bitVal))
        else
          let bitVal := ~~~bitMask (pos &&& 0x07) &&& ~~~bitMask (pos &&& (0x07 + 1))
          some (ptr.set offset (ptr offset &&& bitVal))
      else if nr = 4 then
        if op ≠ 0 then
          let bitVal := bitMask (pos &&& 0x07) ||| bitMask (pos &&& (0x07 + 1)) |||
            bitMask (pos &&& (0x07 + 2)) ||| bitMask (pos &&& (0x07 + 3))
          some (ptr.set offset (ptr offset ||| bitVal))
        else
          let bitVal := ~~~bitMask (pos &&& 0x07) &&& ~~~bitMask (pos &&& (0x07 + 1)) &&&
            ~~~bitMask (pos &&& (0x07 + 2)) &&& ~~~bitMask (pos &&& (0x07 + 3))
          some (ptr.set offset (ptr offset &&& bitVal))
      else if op ≠ 0 then memset ptr offset 0xFF (nr / 8)
      else memset ptr offset 0x0 (nr / 8)

def octet (field : Bytes) : Option Nat :=
  if field ≠ [] ∧ field.all isDigit ∧ (field.head? = some 48 → field = [48]) ∧ decimal field < 256
  then some (decimal field) else none

/-- `inet_pton` for `AF_INET`: the `s_addr` of a dotted address, in network order. -/
def inetPton (text : Bytes) : Option Nat :=
  match text.splitOn 46 with
  | [first, second, third, fourth] => do
      let a ← octet first
      let b ← octet second
      let c ← octet third
      let d ← octet fourth
      some (a + 256 * b + 65536 * c + 16777216 * d)
  | _ => none

def htonl (sAddr : Nat) : Nat :=
  16777216 * (sAddr % 256) + 65536 * (sAddr / 256 % 256) + 256 * (sAddr / 65536 % 256) +
    sAddr / 16777216 % 256

def notSlash (byte : UInt8) : Bool := byte ≠ 47

def hitIPSet (IPs : Bytes) (bitmap : Memory) : Int :=
  match inetPton (IPs.takeWhile notSlash) with
  | none => -1
  | some sAddr => if (bitmapOps bitmap (htonl sAddr) (-1)).1 ≠ 0 then 1 else 0

/-- The return value and the map afterwards, none where C leaves the call undefined. -/
def addIPstoBitmap (IPs : Bytes) (map : Memory) : Option (Int × Memory) :=
  match IPs.dropWhile notSlash with
  | [] =>
      match inetPton IPs with
      | none => some (-1, map)
      | some sAddr => some (0, (bitmapOps map (htonl sAddr) 1).2)
  | _ :: mask =>
      match inetPton (IPs.takeWhile notSlash) with
      | none => some (-1, map)
      | some sAddr =>
          let maskBits := UInt8.ofInt (atoi mask)
          (bitmapOpsBatch map (htonl sAddr) (32 - maskBits) 1).map fun after => (0, after)

def marked (map : Memory) (host : Nat) : Bool := (map (host / 8)).toNat.testBit (host % 8)

theorem and_seven (pos : Nat) : pos &&& 0x07 = pos % 8 :=
  Nat.and_two_pow_sub_one_eq_mod pos 3

theorem testBit_bitMask (count : Nat) {offset : Nat} (small : offset < 8) :
    (bitMask count).toNat.testBit offset = decide (count = offset) := by
  have value : (bitMask count).toNat = 2 ^ count % 2 ^ 8 := by
    simp [bitMask, Nat.one_shiftLeft]
  rw [value, Nat.testBit_mod_two_pow, Nat.testBit_two_pow]
  simp [small]

theorem marked_or (map : Memory) (pos : Nat) (mask : UInt8) (host : Nat) :
    marked (map.set (pos >>> 3) (map (pos >>> 3) ||| mask)) host =
      (marked map host || (decide (host / 8 = pos / 8) && mask.toNat.testBit (host % 8))) := by
  rw [marked, marked, Nat.shiftRight_eq_div_pow]
  by_cases same : host / 8 = pos / 8
  · rw [same, Memory.set_self, UInt8.toNat_or, Nat.testBit_or]
    simp
  · rw [Memory.set_other _ _ same]
    simp [same]

theorem bitMask_and_ne_zero (byte : UInt8) {count : Nat} (small : count < 8) :
    bitMask count &&& byte ≠ 0 ↔ byte.toNat.testBit count = true := by
  have value : (bitMask count).toNat = 2 ^ count := by
    have bound : 2 ^ count < 2 ^ 8 := Nat.pow_lt_pow_right (by decide) small
    simp only [bitMask, Nat.one_shiftLeft, UInt8.toNat_ofNat']
    exact Nat.mod_eq_of_lt bound
  have zero : bitMask count &&& byte = 0 ↔ 2 ^ count &&& byte.toNat = 0 := by
    rw [← UInt8.toNat_inj, UInt8.toNat_and, value]
    rfl
  rw [ne_eq, zero, Nat.two_pow_and]
  cases byte.toNat.testBit count <;> simp

theorem bitmapOps_query (map : Memory) (pos : Nat) :
    (bitmapOps map pos (-1)).1 ≠ 0 ↔ marked map pos = true := by
  simp only [bitmapOps, and_seven, Nat.shiftRight_eq_div_pow]
  exact bitMask_and_ne_zero _ (Nat.mod_lt _ (by decide))

theorem marked_bitmapOps (map : Memory) (pos host : Nat) :
    marked (bitmapOps map pos 1).2 host = (marked map host || decide (host = pos)) := by
  have small : host % 8 < 8 := Nat.mod_lt _ (by decide)
  have place : (host / 8 = pos / 8 ∧ pos % 8 = host % 8) ↔ host = pos := by omega
  have set_ : (bitmapOps map pos 1).2 =
      map.set (pos >>> 3) (map (pos >>> 3) ||| bitMask (pos &&& 0x07)) := rfl
  rw [set_, marked_or, and_seven, testBit_bitMask _ small, ← Bool.decide_and,
    decide_eq_decide.mpr place]

end DirtyCode.IPParser
