import DirtyCode.Lib.ArrayList
import DirtyCode.Workers.Shares

/-!
How `NIOClient.main` cuts the address list into a segment for each thread.
-/

namespace DirtyCode.Workers

open Lib

variable {α : Type*}

/-- The addresses read; `size()` is an `int`. -/
structure Addresses (α : Type*) where
  list : ArrayList α
  small : list.elements.length < 2147483648

def segments (list : ArrayList α) : Nat → Int → Int → Except JavaException (List (List α))
  | 0, _, _ => .ok []
  | more + 1, nsegs, offset =>
      let size : Int := list.elements.length
      let nsegs := if size < toInt32 (offset + nsegs) then toInt32 (size - offset) else nsegs
      match list.subList offset (toInt32 (offset + nsegs)) with
      | .error thrown => .error thrown
      | .ok subset =>
          match segments list more nsegs (toInt32 (offset + nsegs)) with
          | .error thrown => .error thrown
          | .ok rest => .ok (subset :: rest)

def dealt (ips : Addresses α) (nThreads : Count) : Except JavaException (List (List α)) :=
  segments ips.list nThreads.value (roundedShare ips.list.elements.length nThreads.value) 0

/-- Every range is valid and the segments are the list. -/
def Partitions (ips : Addresses α) (nThreads : Count) : Prop :=
  ∃ subsets, dealt ips nThreads = .ok subsets ∧ subsets.length = nThreads.value ∧
    subsets.flatten = ips.list.elements

section

variable {list : ArrayList α} {more width offset : Nat}

theorem segments_step (inside : offset ≤ list.elements.length)
    (room : offset + width < 2147483648) :
    segments list (more + 1) width offset =
      match segments list more (min width (list.elements.length - offset) : Nat)
          (offset + min width (list.elements.length - offset) : Nat) with
      | .error thrown => .error thrown
      | .ok rest => .ok ((list.elements.drop offset).take
          (min width (list.elements.length - offset)) :: rest) := by
  have sum : toInt32 ((offset : Int) + width) = ((offset + width : Nat) : Int) :=
    toInt32_natAdd room
  have nsegs : (if (list.elements.length : Int) < ((offset + width : Nat) : Int) then
      toInt32 ((list.elements.length : Int) - offset) else (width : Int)) =
        ((min width (list.elements.length - offset) : Nat) : Int) := by
    by_cases last : list.elements.length < offset + width
    · rw [if_pos (by omega), toInt32_of_range (by omega) (by omega)]
      omega
    · rw [if_neg (by omega)]
      omega
  have next : toInt32 ((offset : Int) + ((min width (list.elements.length - offset) : Nat) : Int)) =
      ((offset + min width (list.elements.length - offset) : Nat) : Int) :=
    toInt32_natAdd (by omega)
  have valid := list.subList_of_range (Nat.le_add_right offset
    (min width (list.elements.length - offset))) (by omega)
  rw [Nat.add_sub_cancel_left] at valid
  rw [segments]
  simp only [sum, nsegs, next, valid]

/-- The rounds left deal out what is behind the offset, as they are enough for it. -/
theorem segments_rest (inside : offset ≤ list.elements.length)
    (enough : list.elements.length ≤ offset + more * width)
    (room : offset + more * width < 2147483648) :
    ∃ subsets, segments list more width offset = .ok subsets ∧ subsets.length = more ∧
      subsets.flatten = list.elements.drop offset := by
  induction more generalizing width offset with
  | zero =>
      refine ⟨[], rfl, rfl, ?_⟩
      rw [List.drop_eq_nil_of_le (by omega)]
      rfl
  | succ more ih =>
      rw [Nat.succ_mul] at enough room
      generalize taken_eq : min width (list.elements.length - offset) = taken
      have shorter : more * taken ≤ more * width := Nat.mul_le_mul_left _ (by omega)
      have still : list.elements.length ≤ offset + taken + more * taken := by
        by_cases last : list.elements.length ≤ offset + width
        · omega
        · have same : taken = width := by omega
          rw [same]
          omega
      obtain ⟨subsets, rest, count, whole⟩ := ih (by omega) still (by omega)
      refine ⟨(list.elements.drop offset).take taken :: subsets, ?_, ?_, ?_⟩
      · rw [segments_step inside (by omega), taken_eq, rest]
      · rw [List.length_cons, count]
      · rw [List.flatten_cons, whole, ← List.drop_drop, List.take_append_drop]

theorem segments_zero (list : ArrayList α) (more : Nat) :
    segments list more 0 0 = .ok (List.replicate more []) := by
  induction more with
  | zero => rfl
  | succ more ih =>
      have small : 0 + 0 < 2147483648 := by decide
      have step := @segments_step _ list more 0 0 (Nat.zero_le _) small
      simp only [Nat.zero_min, Nat.add_zero, List.take_zero, Nat.cast_zero, ih] at step
      exact step

theorem segments_negative (list : ArrayList α) (more : Nat) {width : Nat} (positive : 1 ≤ width)
    (small : width ≤ 2147483648) :
    segments list (more + 1) (-width) 0 = .error .illegalArgument := by
  have sum : toInt32 (0 + -(width : Int)) = -(width : Int) := by
    rw [toInt32_of_range (by omega) (by omega), Int.zero_add]
  have thrown : list.subList 0 (-(width : Int)) = .error .illegalArgument := by
    rw [ArrayList.subList, if_neg (by omega), if_pos (by omega)]
  have kept : ¬(list.elements.length : Int) < -(width : Int) := by omega
  rw [segments]
  simp only [sum, if_neg kept, thrown]

end

theorem not_partitions (ips : Addresses α) (nThreads : Count)
    (large : 2147483648 < ips.list.elements.length + nThreads.value) :
    ¬Partitions ips nThreads := by
  have threads := nThreads.positive
  have bound := nThreads.small
  obtain ⟨width, width_eq, room⟩ := roundedShare_overflow threads ips.small bound large
  obtain ⟨more, rounds⟩ : ∃ more, nThreads.value = more + 1 := ⟨nThreads.value - 1, by omega⟩
  rintro ⟨subsets, ran, -, whole⟩
  rw [dealt, width_eq] at ran
  rcases Nat.eq_zero_or_pos width with zero | positive
  · rw [zero, Nat.cast_zero, Int.neg_zero, segments_zero] at ran
    rw [← Except.ok.inj ran, List.flatten_replicate_nil] at whole
    rw [← whole, List.length_nil] at large
    omega
  · have fits : width ≤ nThreads.value * width := Nat.le_mul_of_pos_left _ threads
    rw [rounds, segments_negative _ _ positive (by omega)] at ran
    contradiction

theorem partitions_iff (ips : Addresses α) (nThreads : Count) :
    Partitions ips nThreads ↔ ips.list.elements.length + nThreads.value ≤ 2147483648 := by
  constructor
  · intro partitions
    by_contra large
    exact not_partitions ips nThreads (Nat.lt_of_not_le large) partitions
  · intro fits
    obtain ⟨width, width_eq, enough, room⟩ := roundedShare_exact nThreads.positive fits
    have all : ips.list.elements.length ≤ 0 + nThreads.value * width := by omega
    have below : 0 + nThreads.value * width < 2147483648 := by omega
    obtain ⟨subsets, ran, count, whole⟩ := segments_rest (Nat.zero_le _) all below
    rw [List.drop_zero] at whole
    rw [Partitions, dealt, width_eq]
    exact ⟨subsets, ran, count, whole⟩

/-- Records and addresses are dealt out each once exactly when the rounded-up division does not
overflow. -/
theorem dealt_out_iff (nLine nWorkers : Count) (ips : Addresses α) (nThreads : Count) :
    (CoversOnce nLine (accessed nLine nWorkers) ↔ nLine.value + nWorkers.value ≤ 2147483648) ∧
      (Partitions ips nThreads ↔
        ips.list.elements.length + nThreads.value ≤ 2147483648) :=
  ⟨coversOnce_iff nLine nWorkers, partitions_iff ips nThreads⟩

/-- Two addresses for as many threads as an `int` can count. -/
theorem two_addresses_thrown :
    ¬Partitions ⟨⟨[0, 1], 2⟩, by decide⟩ ⟨2147483647, by decide, by decide⟩ :=
  not_partitions _ _ (by decide)

end DirtyCode.Workers
