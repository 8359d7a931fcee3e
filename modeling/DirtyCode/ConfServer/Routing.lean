import DirtyCode.Lib.Address
import DirtyCode.Lib.CInt

/-!
Where `confServer.c` keeps the session of an address: the worker thread and the
entry of `ip_to_slot_idx`, as `accept_client` picks them and as
`parse_input_conf` finds them again from the four numbers of a line.
-/

namespace DirtyCode.ConfServer

open Lib

def nrMaxThreads : Nat := 16
def maxConnPerThread : Nat := 409600
def totalIpv4s : Nat := 4 * 1024 * 1024

-- `hash = ntohl(in.sin_addr.s_addr) & 0xFF`
def acceptHash (ip : BitVec 32) : Int := (ip &&& 0xFF#32).toInt

-- `hash % cfg.nWorkers`
def acceptThread (nWorkers : Nat) (ip : BitVec 32) : Int := Int.tmod (acceptHash ip) nWorkers

-- `ipv4 & 0x00FFFFFF`, in `accept_client` and in `free_session_step1`
def slotKey (ip : BitVec 32) : Nat := (ip &&& 0x00FFFFFF#32).toNat

-- `ipv4 = tmpint[0] * 256 * 256 * 256 + ...`
def parseIpv4 (a b c d : Int) : Int :=
  toInt32 (a * 256 * 256 * 256 + b * 256 * 256 + c * 256 + d)

-- `global_ip_slot_idx = tmpint[1] * 256 * 256 + ...`
def parseIndex (b c d : Int) : Int := toInt32 (b * 256 * 256 + c * 256 + d)

-- `ipv4 % cfg.nWorkers`
def parseThread (nWorkers : Nat) (ipv4 : Int) : Int := Int.tmod ipv4 nWorkers

def lookupThread (nWorkers : Nat) (ip : BitVec 32) : Int :=
  parseThread nWorkers (parseIpv4 (ipByte ip 3) (ipByte ip 2) (ipByte ip 1) (ipByte ip 0))

def lookupIndex (ip : BitVec 32) : Int := parseIndex (ipByte ip 2) (ipByte ip 1) (ipByte ip 0)

/-- Both paths pick the same entries, and these exist. -/
structure RoutesAgree (nWorkers : Nat) (ip : BitVec 32) : Prop where
  thread : lookupThread nWorkers ip = acceptThread nWorkers ip
  index : lookupIndex ip = slotKey ip
  threadInside : 0 ≤ lookupThread nWorkers ip ∧ lookupThread nWorkers ip < nrMaxThreads
  indexInside : 0 ≤ lookupIndex ip ∧ lookupIndex ip < totalIpv4s

/-- The worker count divides what the low byte leaves of the signed address, and
the low byte too when the sign bit is set; the index fits the table. -/
structure Routable (nWorkers : Nat) (ip : BitVec 32) : Prop where
  upper : (nWorkers : Int) ∣ ip.toInt - acceptHash ip
  sign : 0 ≤ ip.toInt ∨ (nWorkers : Int) ∣ acceptHash ip
  fits : slotKey ip < totalIpv4s

theorem acceptHash_eq (ip : BitVec 32) : acceptHash ip = ipByte ip 0 := by
  have low : (ip &&& 0xFF#32).toNat = ip.toNat % 256 := by
    rw [BitVec.toNat_and]
    exact Nat.and_two_pow_sub_one_eq_mod ip.toNat 8
  have small : (ip &&& 0xFF#32).toNat < 256 := by omega
  simp only [acceptHash, ipByte, BitVec.toInt_eq_toNat_cond, low]
  omega

theorem slotKey_eq (ip : BitVec 32) :
    slotKey ip = ipByte ip 2 * 65536 + ipByte ip 1 * 256 + ipByte ip 0 := by
  have low : slotKey ip = ip.toNat % 16777216 := by
    rw [slotKey, BitVec.toNat_and]
    exact Nat.and_two_pow_sub_one_eq_mod ip.toNat 24
  simp only [low, ipByte]
  omega

theorem parseIpv4_octets (ip : BitVec 32) :
    parseIpv4 (ipByte ip 3) (ipByte ip 2) (ipByte ip 1) (ipByte ip 0) = ip.toInt := by
  have bound := ip.isLt
  have value : (ipByte ip 3 : Int) * 256 * 256 * 256 + ipByte ip 2 * 256 * 256 + ipByte ip 1 * 256
      + ipByte ip 0 = ip.toNat := by
    simp only [ipByte]
    omega
  rw [parseIpv4, value, toInt32, BitVec.toInt_eq_toNat_bmod]

theorem lookupIndex_eq (ip : BitVec 32) : lookupIndex ip = slotKey ip := by
  have first := ipByte_lt ip 2
  have second := ipByte_lt ip 1
  have third := ipByte_lt ip 0
  rw [lookupIndex, parseIndex, toInt32_of_range (by omega) (by omega), slotKey_eq]
  push_cast
  omega

theorem lookupThread_eq (nWorkers : Nat) (ip : BitVec 32) :
    lookupThread nWorkers ip = Int.tmod ip.toInt nWorkers := by
  rw [lookupThread, parseThread, parseIpv4_octets]

theorem acceptHash_nonneg (ip : BitVec 32) : 0 ≤ acceptHash ip := by
  rw [acceptHash_eq]
  exact Int.natCast_nonneg _

theorem acceptThread_inside {nWorkers : Nat} (positive : 0 < nWorkers) (ip : BitVec 32) :
    0 ≤ acceptThread nWorkers ip ∧ acceptThread nWorkers ip < nWorkers := by
  rw [acceptThread, Int.tmod_eq_emod_of_nonneg (acceptHash_nonneg ip)]
  exact ⟨Int.emod_nonneg _ (by omega), Int.emod_lt_of_pos _ (by omega)⟩

/-- A remainder of C takes the sign of its dividend, so a negative dividend has the
remainder of a non-negative one only where both are zero. -/
theorem tmod_eq_tmod_iff (value : Int) {low modulus : Int} (positive : 0 < modulus)
    (small : 0 ≤ low) : Int.tmod value modulus = Int.tmod low modulus ↔
      modulus ∣ value - low ∧ (0 ≤ value ∨ modulus ∣ low) := by
  rw [Int.tmod_eq_emod_of_nonneg small]
  by_cases sign : 0 ≤ value
  · rw [Int.tmod_eq_emod_of_nonneg sign, Int.emod_eq_emod_iff_emod_sub_eq_zero,
      ← Int.dvd_iff_emod_eq_zero]
    simp [sign]
  · have negative : Int.tmod value modulus = -((-value) % modulus) := by
      rw [← Int.tmod_eq_emod_of_nonneg (by omega), Int.neg_tmod, neg_neg]
    have upper := Int.emod_nonneg (-value) (by omega : modulus ≠ 0)
    have lower := Int.emod_nonneg low (by omega : modulus ≠ 0)
    rw [negative]
    constructor
    · intro same
      have whole : modulus ∣ value := by
        rw [← Int.dvd_neg, Int.dvd_iff_emod_eq_zero]
        omega
      have part : modulus ∣ low := by
        rw [Int.dvd_iff_emod_eq_zero]
        omega
      exact ⟨Int.dvd_sub whole part, .inr part⟩
    · rintro ⟨apart, nonneg | part⟩
      · contradiction
      · have whole : modulus ∣ -value := by
          rw [Int.dvd_neg]
          simpa using Int.dvd_add apart part
        rw [Int.dvd_iff_emod_eq_zero.mp whole, Int.dvd_iff_emod_eq_zero.mp part]
        rfl

/-- The two paths agree on an address, inside their tables, exactly when it is
routable. -/
theorem routes_agree_iff (nWorkers : Nat) (atLeast : 1 ≤ nWorkers) (atMost : nWorkers ≤ 16)
    (ip : BitVec 32) : RoutesAgree nWorkers ip ↔ Routable nWorkers ip := by
  have positive : (0 : Int) < nWorkers := by omega
  have same := tmod_eq_tmod_iff ip.toInt positive (acceptHash_nonneg ip)
  have inside := acceptThread_inside atLeast ip
  constructor
  · intro agree
    have thread := agree.thread
    rw [lookupThread_eq, acceptThread, same] at thread
    have bound := agree.indexInside.2
    rw [lookupIndex_eq] at bound
    exact ⟨thread.1, thread.2, Int.ofNat_lt.mp bound⟩
  · intro routable
    have thread : lookupThread nWorkers ip = acceptThread nWorkers ip := by
      rw [lookupThread_eq, acceptThread, same]
      exact ⟨routable.upper, routable.sign⟩
    refine ⟨thread, lookupIndex_eq ip, ?_, ?_⟩
    · rw [thread, nrMaxThreads]
      omega
    · rw [lookupIndex_eq]
      have fits := routable.fits
      omega

theorem routes_agree_iff_private :
    1 ≤ 3 ∧ 3 ≤ 16 ∧ (RoutesAgree 3 0x0A000001#32 ↔ Routable 3 0x0A000001#32) :=
  ⟨by decide, by decide, routes_agree_iff 3 (by decide) (by decide) 0x0A000001#32⟩

/-- 128.0.0.1 is registered under worker 1 of two and looked up under worker -1. -/
theorem routes_disagree :
    ¬ ∀ nWorkers, 1 ≤ nWorkers → nWorkers ≤ 16 → ∀ ip, RoutesAgree nWorkers ip := by
  intro always
  have agree := (always 2 (by decide) (by decide) 0x80000001#32).thread
  revert agree
  decide

theorem Routable.of_dvd {nWorkers : Nat} {ip : BitVec 32} (power : nWorkers ∣ 256)
    (sign : 0 ≤ ip.toInt) (fits : slotKey ip < totalIpv4s) : Routable nWorkers ip := by
  refine ⟨?_, .inl sign, fits⟩
  have bound := ip.isLt
  have multiple : (256 : Int) ∣ ip.toInt - acceptHash ip := by
    rw [acceptHash_eq, ipByte, BitVec.toInt_eq_toNat_cond]
    split <;> omega
  exact dvd_trans (Int.natCast_dvd_natCast.mpr power) multiple

end DirtyCode.ConfServer
