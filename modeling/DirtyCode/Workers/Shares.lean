import DirtyCode.Lib.CInt

/-!
How `main` of `sbping`, `liveping` and `batchping` deals the records out to its workers.
-/

namespace DirtyCode.Workers

open Lib

/-- An `int` of at least one. -/
structure Count where
  value : Nat
  positive : 1 ≤ value
  small : value < 2147483648

/-- `(total + n - 1) / n`, as both languages divide. -/
def roundedShare (total n : Int) : Int := (toInt32 (total + n - 1)).tdiv n

structure Share where
  start : Int
  nElems : Int

def share (nLine nWorkers i : Int) : Share :=
  let nelems := roundedShare nLine nWorkers
  { start := toInt32 (i * nelems)
    nElems :=
      if nLine < toInt32 (i * nelems + nelems) then toInt32 (nLine - i * nelems) else nelems }

/-- The records that `do_work` touches, none for a negative number of elements. -/
def Share.indices (share : Share) : List Int :=
  (List.range share.nElems.toNat).map fun i : Nat => share.start + (i : Int)

def accessed (nLine nWorkers : Count) : List Int :=
  (List.range nWorkers.value).flatMap fun i : Nat =>
    (share nLine.value nWorkers.value (i : Int)).indices

/-- Each record once, and nothing else. -/
def CoversOnce (nLine : Count) (indices : List Int) : Prop :=
  ∀ index, indices.count index = if 0 ≤ index ∧ index < nLine.value then 1 else 0

theorem take_shares {α : Type*} (elements : List α) (width count : Nat) :
    (List.range count).flatMap (fun i => (elements.drop (i * width)).take width) =
      elements.take (count * width) := by
  induction count with
  | zero => simp
  | succ count ih =>
      rw [List.range_succ, List.flatMap_append, ih, Nat.succ_mul, List.take_add]
      simp

theorem roundedShare_exact {total n : Nat} (positive : 1 ≤ n) (fits : total + n ≤ 2147483648) :
    ∃ width : Nat, roundedShare total n = width ∧ total ≤ n * width ∧
      n * width ≤ total + n - 1 := by
  refine ⟨(total + n - 1) / n, ?_, ?_, Nat.mul_div_le _ _⟩
  · have sum : (total : Int) + n - 1 = ((total + n - 1 : Nat) : Int) := by omega
    rw [roundedShare, toInt32_of_range (by omega) (by omega), sum, Int.ofNat_tdiv]
  · have above := Nat.lt_mul_div_succ (total + n - 1) (show 0 < n by omega)
    rw [Nat.mul_add, Nat.mul_one] at above
    omega

/-- Past the largest `int` the share is zero or negative. -/
theorem roundedShare_overflow {total n : Nat} (positive : 1 ≤ n) (small : total < 2147483648)
    (bound : n < 2147483648) (large : 2147483648 < total + n) :
    ∃ width : Nat, roundedShare total n = -width ∧ n * width ≤ 2147483648 := by
  have wrapped : toInt32 ((total : Int) + n - 1) = -((4294967297 - total - n : Nat) : Int) := by
    simp only [toInt32, Int.bmod_def]
    omega
  refine ⟨(4294967297 - total - n) / n, ?_, (Nat.mul_div_le _ _).trans (by omega)⟩
  rw [roundedShare, wrapped, Int.neg_tdiv, Int.ofNat_tdiv]

theorem share_exact {nLine nWorkers width i : Nat} (width_eq : roundedShare nLine nWorkers = width)
    (inside : i < nWorkers) (room : nWorkers * width < 2147483648) (bound : nLine < 2147483648) :
    (share nLine nWorkers i).indices =
      (((List.range nLine).drop (i * width)).take width).map fun index : Nat => (index : Int) := by
  have reach : i * width + width ≤ nWorkers * width := by
    rw [← Nat.succ_mul]
    exact Nat.mul_le_mul_right _ inside
  have product : (i : Int) * width = ((i * width : Nat) : Int) := (Nat.cast_mul _ _).symm
  generalize i * width = start at reach product
  have shared : share nLine nWorkers i =
      ⟨start, if nLine < start + width then (nLine : Int) - start else width⟩ := by
    rw [share, width_eq, product]
    simp only [toInt32_of_range (show -2147483648 ≤ (start : Int) by omega) (by omega),
      toInt32_of_range (show -2147483648 ≤ (start : Int) + width by omega) (by omega),
      toInt32_of_range (show -2147483648 ≤ (nLine : Int) - start by omega) (by omega)]
    congr 1
    norm_cast
  have count : (share nLine nWorkers i).nElems.toNat = min width (nLine - start) := by
    rw [shared]
    simp only
    split <;> omega
  apply List.ext_getElem
  · rw [Share.indices, List.length_map, List.length_range, List.length_map, List.length_take,
      List.length_drop, List.length_range, count]
  · intro j _ _
    simp only [Share.indices, List.getElem_map, List.getElem_range, List.getElem_take,
      List.getElem_drop, shared]
    norm_cast

theorem share_overflow {nLine nWorkers width i : Nat}
    (width_eq : roundedShare nLine nWorkers = -width) (inside : i < nWorkers)
    (room : nWorkers * width ≤ 2147483648) : (share nLine nWorkers i).indices = [] := by
  have reach : i * width + width ≤ nWorkers * width := by
    rw [← Nat.succ_mul]
    exact Nat.mul_le_mul_right _ inside
  have product : (i : Int) * (-width : Int) = -((i * width : Nat) : Int) := by
    rw [Nat.cast_mul]
    ring
  have none : (share nLine nWorkers i).nElems.toNat = 0 := by
    rw [share, width_eq, product]
    simp only [toInt32_of_range (show -2147483648 ≤ -((i * width : Nat) : Int) + -(width : Int)
      by omega)
      (by omega)]
    rw [if_neg (by omega)]
    omega
  rw [Share.indices, none]
  rfl

theorem count_range (n : Nat) (index : Int) :
    ((List.range n).map fun i : Nat => (i : Int)).count index =
      if 0 ≤ index ∧ index < n then 1 else 0 := by
  have nodup : ((List.range n).map fun i : Nat => (i : Int)).Nodup :=
    List.nodup_range.map fun _ _ same => Int.ofNat.inj same
  split
  · rename_i inside
    exact List.count_eq_one_of_mem nodup
      (List.mem_map.mpr ⟨index.toNat, List.mem_range.mpr (by omega), by omega⟩)
  · rename_i outside
    refine List.count_eq_zero.mpr fun member => outside ?_
    obtain ⟨i, small, rfl⟩ := List.mem_map.mp member
    have bound := List.mem_range.mp small
    omega

theorem coversOnce_iff (nLine nWorkers : Count) :
    CoversOnce nLine (accessed nLine nWorkers) ↔ nLine.value + nWorkers.value ≤ 2147483648 := by
  have workers := nWorkers.positive
  have lines := nLine.positive
  have small := nLine.small
  constructor
  · intro covers
    by_contra large
    obtain ⟨width, width_eq, room⟩ :=
      roundedShare_overflow workers small nWorkers.small (Nat.lt_of_not_le large)
    have nothing : accessed nLine nWorkers = [] := by
      rw [accessed, List.flatMap_eq_nil_iff]
      intro i member
      have inside := List.mem_range.mp member
      exact share_overflow width_eq inside room
    have first := covers 0
    rw [nothing, List.count_nil, if_pos ⟨le_rfl, by omega⟩] at first
    contradiction
  · intro fits
    obtain ⟨width, width_eq, enough, room⟩ := roundedShare_exact workers fits
    have whole : accessed nLine nWorkers =
        (List.range nLine.value).map fun index : Nat => (index : Int) := by
      have shares : accessed nLine nWorkers = (List.range nWorkers.value).flatMap fun i =>
          (((List.range nLine.value).drop (i * width)).take width).map
            fun index : Nat => (index : Int) := by
        refine List.flatMap_congr fun i member => ?_
        exact share_exact width_eq (List.mem_range.mp member) (by omega) small
      rw [shares, ← List.map_flatMap, take_shares, List.take_of_length_le]
      rw [List.length_range]
      exact enough
    intro index
    rw [whole, count_range]

end DirtyCode.Workers
