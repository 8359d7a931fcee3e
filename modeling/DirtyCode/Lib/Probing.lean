import Mathlib

/-!
Triangular probing of a table whose size is a power of two: the steps grow by one, and the
first `size` buckets looked at are all the buckets.
-/

namespace DirtyCode.Lib

/-- The bucket looked at after so many steps. -/
def probe (size start : Nat) : Nat → Nat
  | 0 => start
  | step + 1 => (probe size start step + (step + 1)) % size

def triangle : Nat → Nat
  | 0 => 0
  | step + 1 => triangle step + (step + 1)

variable {size start : Nat}

theorem two_mul_triangle (step : Nat) : 2 * triangle step = step * (step + 1) := by
  induction step with
  | zero => rfl
  | succ step ih =>
      rw [triangle, Nat.mul_add, ih]
      ring

theorem probe_lt (below : start < size) (step : Nat) : probe size start step < size := by
  cases step with
  | zero => exact below
  | succ step => exact Nat.mod_lt _ (by omega)

theorem probe_eq (below : start < size) (step : Nat) :
    probe size start step = (start + triangle step) % size := by
  induction step with
  | zero => exact (Nat.mod_eq_of_lt below).symm
  | succ step ih => rw [probe, ih, Nat.mod_add_mod, triangle, Nat.add_assoc]

theorem probe_succ {bits : Nat} (power : size = 2 ^ bits) (step : Nat) :
    (probe size start step + (step + 1)) &&& (size - 1) = probe size start (step + 1) := by
  rw [power, Nat.and_two_pow_sub_one_eq_mod]
  rfl

/-- Two triangular numbers differ by a product one of whose factors is odd. -/
theorem probe_injective {bits first second : Nat} (power : size = 2 ^ bits) (below : start < size)
    (firstBound : first < size) (secondBound : second < size)
    (same : probe size start first = probe size start second) : first = second := by
  wlog ordered : first ≤ second generalizing first second
  · exact (this secondBound firstBound same.symm (by omega)).symm
  by_contra different
  obtain ⟨gap, rfl⟩ := Nat.exists_eq_add_of_le ordered
  have positive : 0 < gap := by omega
  have grown : triangle (first + gap) =
      triangle first + (triangle (first + gap) - triangle first) := by
    have one := two_mul_triangle first
    have two := two_mul_triangle (first + gap)
    have more : first * (first + 1) ≤ (first + gap) * (first + gap + 1) :=
      Nat.mul_le_mul (by omega) (by omega)
    omega
  have divides : size ∣ triangle (first + gap) - triangle first := by
    rw [probe_eq below, probe_eq below] at same
    have congruent : start + triangle first ≡ start + triangle (first + gap) [MOD size] := same
    rw [grown] at congruent
    have cancelled := Nat.ModEq.add_left_cancel' _ congruent
    have fromZero : triangle first + 0 ≡ triangle first +
        (triangle (first + gap) - triangle first) [MOD size] := cancelled
    exact (Nat.modEq_zero_iff_dvd).mp (Nat.ModEq.add_left_cancel' _ fromZero).symm
  have product : 2 * (triangle (first + gap) - triangle first) = gap * (2 * first + gap + 1) := by
    have one := two_mul_triangle first
    have two := two_mul_triangle (first + gap)
    have expanded : (first + gap) * (first + gap + 1) =
        first * (first + 1) + gap * (2 * first + gap + 1) := by ring
    omega
  have twice : 2 ^ (bits + 1) ∣ gap * (2 * first + gap + 1) := by
    rw [← product, Nat.pow_succ', ← power]
    exact Nat.mul_dvd_mul_left 2 divides
  have double : 2 ^ (bits + 1) = 2 * size := by rw [power, Nat.pow_succ']
  rcases Nat.even_or_odd gap with even | odd
  · have other : Odd (2 * first + gap + 1) := by
      rw [Nat.odd_add_one, Nat.not_odd_iff_even]
      exact (even_two_mul first).add even
    have coprime : Nat.Coprime (2 ^ (bits + 1)) (2 * first + gap + 1) :=
      (Nat.coprime_two_left.mpr other).pow_left _
    have small := Nat.le_of_dvd positive (coprime.dvd_of_dvd_mul_right twice)
    omega
  · have coprime : Nat.Coprime (2 ^ (bits + 1)) gap := (Nat.coprime_two_left.mpr odd).pow_left _
    have small := Nat.le_of_dvd (by omega) (coprime.dvd_of_dvd_mul_left twice)
    omega

theorem probe_surjective {bits bucket : Nat} (power : size = 2 ^ bits) (below : start < size)
    (inside : bucket < size) : ∃ step < size, probe size start step = bucket := by
  let visit : Fin size → Fin size := fun step => ⟨probe size start step, probe_lt below step⟩
  have injective : Function.Injective visit := by
    intro first second same
    exact Fin.ext (probe_injective power below first.isLt second.isLt (Fin.mk.inj same))
  obtain ⟨step, found⟩ := Finite.surjective_of_injective injective ⟨bucket, inside⟩
  exact ⟨step, step.isLt, Fin.mk.inj found⟩

/-- The search looks at the bucket after so many steps, and has not stopped before. -/
structure Stops (size start : Nat) (stop : Nat → Prop) (step : Nat) : Prop where
  here : stop (probe size start step)
  before : ∀ earlier < step, ¬stop (probe size start earlier)

variable {stop other : Nat → Prop} {step : Nat}

theorem Stops.unique {later : Nat} (stops : Stops size start stop step)
    (also : Stops size start stop later) : step = later := by
  rcases Nat.lt_trichotomy step later with less | same | more
  · exact absurd stops.here (also.before step less)
  · exact same
  · exact absurd also.here (stops.before later more)

theorem exists_stops {bits bucket : Nat} (power : size = 2 ^ bits) (below : start < size)
    (inside : bucket < size) (found : stop bucket) :
    ∃ step < size, Stops size start stop step := by
  classical
  obtain ⟨reached, bound, there⟩ := probe_surjective power below inside
  have reachable : ∃ step, stop (probe size start step) := ⟨reached, there.symm ▸ found⟩
  refine ⟨Nat.find reachable, ?_, Nat.find_spec reachable, fun earlier less =>
    Nat.find_min reachable less⟩
  exact (Nat.find_min' reachable (there.symm ▸ found)).trans_lt bound

end DirtyCode.Lib
