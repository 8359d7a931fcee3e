import DirtyCode.IPParser.Membership

/-!
`bitmapOpsBatch` against `bitmapOps` on each address of the network. A clear is a set on
the inverse map, so that what a set writes is also what a clear writes.
-/

namespace DirtyCode.IPParser

open Lib

def inverse (map : Memory) : Memory := fun address => ~~~map address

theorem inverse_inverse (map : Memory) : inverse (inverse map) = map :=
  funext fun _ => UInt8.not_not

theorem inverse_set (map : Memory) (address : Nat) (byte : UInt8) :
    inverse (map.set address byte) = (inverse map).set address (~~~byte) := by
  funext other
  by_cases same : other = address
  · subst same
    rw [inverse, Memory.set_self, Memory.set_self]
  · rw [inverse, Memory.set_other _ _ same, Memory.set_other _ _ same]
    rfl

theorem byte_not_or (first second : UInt8) : ~~~(first ||| second) = ~~~first &&& ~~~second := by
  apply UInt8.eq_of_toBitVec_eq
  simp only [UInt8.toBitVec_not, UInt8.toBitVec_or, UInt8.toBitVec_and, BitVec.not_or]

theorem testBit_not (byte : UInt8) {offset : Nat} (small : offset < 8) :
    (~~~byte).toNat.testBit offset = !byte.toNat.testBit offset := by
  change (~~~byte).toBitVec.getLsbD offset = !byte.toBitVec.getLsbD offset
  rw [UInt8.toBitVec_not, BitVec.getLsbD_not]
  simp [small]

theorem marked_inverse (map : Memory) (host : Nat) : marked (inverse map) host = !marked map host :=
  testBit_not _ (Nat.mod_lt _ (by decide))

theorem memory_ext {first second : Memory}
    (same : ∀ host, marked first host = marked second host) : first = second := by
  funext address
  apply UInt8.eq_of_toBitVec_eq
  apply BitVec.eq_of_getLsbD_eq
  intro offset small
  have here := same (8 * address + offset)
  have byte : (8 * address + offset) / 8 = address := by omega
  have bit : (8 * address + offset) % 8 = offset := by omega
  rwa [marked, marked, byte, bit] at here

theorem bitmapOps_clear (map : Memory) (pos : Nat) :
    (bitmapOps map pos 0).2 = inverse (bitmapOps (inverse map) pos 1).2 := by
  have set_ : (bitmapOps (inverse map) pos 1).2 =
      (inverse map).set (pos >>> 3) (inverse map (pos >>> 3) ||| bitMask (pos &&& 0x07)) := rfl
  rw [set_, inverse_set, inverse_inverse, byte_not_or, inverse, UInt8.not_not]
  rfl

theorem memset_clear (map : Memory) (offset count : Nat) :
    memset map offset 0x0 count = (memset (inverse map) offset 0xFF count).map inverse := by
  rw [memset, memset]
  split
  · rw [Option.map_some]
    congr 1
    funext address
    simp only [inverse, Memory.memcpy]
    split
    · rfl
    · exact UInt8.not_not.symm
  · rfl

theorem batch_clear (map : Memory) (pos : Nat) (bits : UInt8) :
    bitmapOpsBatch map pos bits 0 = (bitmapOpsBatch (inverse map) pos bits 1).map inverse := by
  have ored : ∀ mask, inverse ((inverse map).set (pos >>> 3) (inverse map (pos >>> 3) ||| mask)) =
      map.set (pos >>> 3) (map (pos >>> 3) &&& ~~~mask) := by
    intro mask
    rw [inverse_set, inverse_inverse, byte_not_or, inverse, UInt8.not_not]
  have one : ¬(1 : UInt8) = 0 := by decide
  simp only [bitmapOpsBatch, ne_eq, not_true_eq_false, if_false, one, not_false_eq_true, if_true]
  split
  · rw [Option.map_some, inverse_inverse]
  · cases shiftInt bits.toNat with
    | none => rfl
    | some nr =>
        simp only [Option.bind_some, memset_clear]
        split
        · rw [Option.map_some, ored]
        · split
          · rw [Option.map_some, ored, byte_not_or]
          · split
            · rw [Option.map_some, ored, byte_not_or, byte_not_or, byte_not_or]
            · rfl

/-- The map after `bitmapOps` on one address after another from `pos` on. -/
def singly (map : Memory) (pos : Nat) (op : UInt8) : Nat → Memory
  | 0 => map
  | count + 1 => (bitmapOps (singly map pos op count) (pos + count) op.toNat).2

section

variable {op : UInt8} (binary : op = 0 ∨ op = 1)

include binary

theorem marked_single (map : Memory) (pos host : Nat) :
    marked (bitmapOps map pos op.toNat).2 host =
      if host = pos then decide (op ≠ 0) else marked map host := by
  rcases binary with rfl | rfl
  · have clear : (bitmapOps map pos (UInt8.toNat 0)).2 =
      inverse (bitmapOps (inverse map) pos 1).2 :=
      bitmapOps_clear map pos
    rw [clear, marked_inverse, marked_bitmapOps, marked_inverse]
    by_cases same : host = pos <;> simp [same]
  · have set_ : (bitmapOps map pos (UInt8.toNat 1)).2 = (bitmapOps map pos 1).2 := rfl
    rw [set_, marked_bitmapOps]
    by_cases same : host = pos <;> simp [same]

theorem marked_singly (map : Memory) (pos count host : Nat) :
    marked (singly map pos op count) host =
      if pos ≤ host ∧ host < pos + count then decide (op ≠ 0) else marked map host := by
  induction count with
  | zero =>
      rw [if_neg (by omega)]
      rfl
  | succ count ih =>
      rw [singly, marked_single binary, ih]
      by_cases last : host = pos + count
      · rw [if_pos last, if_pos (by omega)]
      · rw [if_neg last]
        congr 1
        apply propext
        omega

theorem marked_batch (map : Memory) {pos : Nat} {bits : UInt8} (defined : Defined pos bits.toNat) :
    ∃ after, bitmapOpsBatch map pos bits op = some after ∧ ∀ host, marked after host =
      if Written pos bits.toNat host then decide (op ≠ 0) else marked map host := by
  rcases binary with rfl | rfl
  · obtain ⟨after, written, bitwise⟩ := batch_written (inverse map) defined
    refine ⟨inverse after, by rw [batch_clear, written, Option.map_some], ?_⟩
    intro host
    rw [marked_inverse, bitwise, marked_inverse]
    by_cases inside : Written pos bits.toNat host <;> simp [inside]
  · obtain ⟨after, written, bitwise⟩ := batch_written map defined
    refine ⟨after, written, ?_⟩
    intro host
    rw [bitwise]
    by_cases inside : Written pos bits.toNat host <;> simp [inside]

end

/-- The bit is what the call is to make of it. -/
def Already (map : Memory) (op : UInt8) (host : Nat) : Prop := marked map host = decide (op ≠ 0)

/-- The addresses that only one of the two ways writes need no writing. -/
structure SameUpdate (map : Memory) (pos bits : Nat) (op : UInt8) : Prop where
  defined : bits < 31
  pair : bits = 1 → Already map op (pos + 1)
  quad : bits = 2 → Already map op (pos + 1) ∧ Already map op (pos + 2) ∧ Already map op (pos + 3)
  extra : bits = 1 ∨ bits = 2 → pos % 16 < 8 → pos % 8 ≠ 0 → Already map op (pos / 8 * 8)

instance (pos bits host : Nat) : Decidable (Covers pos bits host) :=
  inferInstanceAs (Decidable (host / 2 ^ bits = pos / 2 ^ bits))

theorem range_iff_covers {pos bits : Nat} (multiple : 2 ^ bits ∣ pos) (host : Nat) :
    (pos ≤ host ∧ host < pos + 2 ^ bits) ↔ Covers pos bits host := by
  obtain ⟨quotient, rfl⟩ := multiple
  have positive : 0 < 2 ^ bits := Nat.two_pow_pos _
  rw [Covers, Nat.mul_div_cancel_left _ positive, Nat.div_eq_iff positive, Nat.mul_comm]
  omega

theorem aligned_of_multiple {pos bits : Nat} (three : 3 ≤ bits) (below : bits < 31)
    (multiple : 2 ^ bits ∣ pos) : Aligned pos bits :=
  .inr (.inr (.inr ⟨three, below, by rw [Nat.mod_eq_zero_of_dvd multiple]; decide⟩))

theorem defined_of_multiple {pos bits : Nat} (small : pos < 2 ^ 32) (below : bits < 31)
    (multiple : 2 ^ bits ∣ pos) : Defined pos bits := by
  by_cases three : 3 ≤ bits
  · exact defined_of_aligned small (aligned_of_multiple three below multiple)
  · exact ⟨below, fun more => absurd more three⟩

theorem batch_beyond (map : Memory) (pos : Nat) {bits : UInt8} (op : UInt8)
    (valid : bits.toNat ≤ 32) (beyond : ¬bits.toNat < 31) :
    bitmapOpsBatch map pos bits op = none := by
  have small : ¬32 < bits := by
    rw [UInt8.lt_iff_toNat_lt]
    change ¬32 < bits.toNat
    omega
  simp [bitmapOpsBatch, small, shiftInt, beyond]

theorem sameUpdate_pair_iff {map : Memory} {pos : Nat} {op : UInt8} (even : pos % 2 = 0) :
    SameUpdate map pos 1 op ↔
      ∀ host, (Written pos 1 host ↔ Covers pos 1 host) ∨ Already map op host := by
  simp only [Written, Covers, one_ne_zero, if_false, if_true, pow_one]
  constructor
  · intro same host
    by_cases next : host = pos + 1
    · exact .inr (next ▸ same.pair rfl)
    · by_cases first : pos % 16 < 8 ∧ pos % 8 ≠ 0 ∧ host = pos / 8 * 8
      · exact .inr (first.2.2 ▸ same.extra (.inl rfl) first.1 first.2.1)
      · left
        omega
  · intro each
    refine ⟨by omega, fun _ => ?_, by omega, fun _ low inside => ?_⟩
    · exact (each (pos + 1)).resolve_left (by omega)
    · exact (each (pos / 8 * 8)).resolve_left (by omega)

theorem sameUpdate_quad_iff {map : Memory} {pos : Nat} {op : UInt8} (fourth : pos % 4 = 0) :
    SameUpdate map pos 2 op ↔
      ∀ host, (Written pos 2 host ↔ Covers pos 2 host) ∨ Already map op host := by
  simp only [Written, Covers, OfNat.ofNat_ne_zero, OfNat.ofNat_ne_one, if_false, if_true]
  constructor
  · intro same host
    have quad := same.quad rfl
    by_cases missed : host = pos + 1 ∨ host = pos + 2 ∨ host = pos + 3
    · right
      rcases missed with rfl | rfl | rfl
      · exact quad.1
      · exact quad.2.1
      · exact quad.2.2
    · by_cases first : pos % 16 < 8 ∧ pos % 8 ≠ 0 ∧ host = pos / 8 * 8
      · exact .inr (first.2.2 ▸ same.extra (.inr rfl) first.1 first.2.1)
      · left
        omega
  · intro each
    refine ⟨by omega, by omega, fun _ => ⟨?_, ?_, ?_⟩, fun _ low inside => ?_⟩
    · exact (each (pos + 1)).resolve_left (by omega)
    · exact (each (pos + 2)).resolve_left (by omega)
    · exact (each (pos + 3)).resolve_left (by omega)
    · exact (each (pos / 8 * 8)).resolve_left (by omega)

/-- Outside the addresses that both write, the two maps agree where nothing changes. -/
theorem sameUpdate_iff {map : Memory} {pos bits : Nat} {op : UInt8} (below : bits < 31)
    (multiple : 2 ^ bits ∣ pos) : SameUpdate map pos bits op ↔
      ∀ host, (Written pos bits host ↔ Covers pos bits host) ∨ Already map op host := by
  by_cases three : 3 ≤ bits
  · have aligned := aligned_of_multiple three below multiple
    constructor
    · exact fun _ host => .inl (written_of_aligned aligned host)
    · intro _
      exact ⟨below, by omega, by omega, by omega⟩
  · have cases_ : bits = 0 ∨ bits = 1 ∨ bits = 2 := by omega
    rcases cases_ with rfl | rfl | rfl
    · constructor
      · exact fun _ host => .inl (written_of_aligned (.inl rfl) host)
      · exact fun _ => ⟨below, by omega, by omega, by omega⟩
    · exact sameUpdate_pair_iff (Nat.mod_eq_zero_of_dvd multiple)
    · exact sameUpdate_quad_iff (Nat.mod_eq_zero_of_dvd multiple)

/-- The call does what `bitmapOps` on each address does exactly where the bits that only
one of them writes are there already. -/
theorem batch_eq_singly_iff (map : Memory) {pos : Nat} {bits op : UInt8} (valid : bits.toNat ≤ 32)
    (small : pos < 2 ^ 32) (multiple : 2 ^ bits.toNat ∣ pos) (binary : op = 0 ∨ op = 1) :
    bitmapOpsBatch map pos bits op = some (singly map pos op (2 ^ bits.toNat)) ↔
      SameUpdate map pos bits.toNat op := by
  by_cases below : bits.toNat < 31
  · obtain ⟨after, written, bitwise⟩ :=
      marked_batch binary map (defined_of_multiple small below multiple)
    have looped := marked_singly binary map pos (2 ^ bits.toNat)
    rw [written, sameUpdate_iff below multiple]
    constructor
    · intro same host
      have here := bitwise host
      rw [Option.some.inj same, looped] at here
      simp only [range_iff_covers multiple] at here
      rw [Already]
      by_cases inside : Covers pos bits.toNat host <;>
        by_cases hit : Written pos bits.toNat host <;>
        simp_all
    · intro each
      congr 1
      apply memory_ext
      intro host
      rw [bitwise, looped]
      simp only [range_iff_covers multiple]
      rcases each host with same | already
      · simp only [same]
      · rw [Already] at already
        rw [already, ite_self, ite_self]
  · constructor
    · intro same
      rw [batch_beyond map pos op valid below] at same
      contradiction
    · exact fun same => absurd same.defined below

theorem batch_eq_singly_iff_net :
    (8 : UInt8).toNat ≤ 32 ∧ 0x0A000000 < 2 ^ 32 ∧ 2 ^ (8 : UInt8).toNat ∣ 0x0A000000 ∧
      ((1 : UInt8) = 0 ∨ (1 : UInt8) = 1) ∧
      (bitmapOpsBatch (fun _ => 0) 0x0A000000 8 1 =
          some (singly (fun _ => 0) 0x0A000000 1 (2 ^ (8 : UInt8).toNat)) ↔
        SameUpdate (fun _ => 0) 0x0A000000 (8 : UInt8).toNat 1) :=
  ⟨by decide, by decide, by decide, by decide,
    batch_eq_singly_iff (fun _ => 0) (by decide) (by decide) (by decide) (by decide)⟩

/-- Setting the two addresses 0 and 1 sets the first only. -/
theorem pair_half_set :
    bitmapOpsBatch (fun _ => 0) 0 1 1 ≠ some (singly (fun _ => 0) 0 1 (2 ^ (1 : UInt8).toNat)) := by
  intro same
  have second := congrArg (fun map => map 0) (Option.some.inj same)
  revert second
  decide

end DirtyCode.IPParser
