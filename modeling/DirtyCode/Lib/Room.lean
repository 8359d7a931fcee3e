import Mathlib

/-!
Tables of limited size that only grow. A step says how many places it takes and what it
leaves in the trace; it fails exactly where the places do not suffice.
-/

namespace DirtyCode.Lib

structure GrowingTable (σ ν : Type*) where
  capacity : Nat
  size : σ → Nat
  trace : σ → List ν

namespace GrowingTable

variable {σ ν : Type*} (T : GrowingTable σ ν)

structure Adds (s : σ) (result : Option σ) (count : Nat) (more : List ν) : Prop where
  room : T.size s + count ≤ T.capacity → ∃ after, result = some after ∧
    T.size after = T.size s + count ∧ T.trace after = T.trace s ++ more
  full : T.size s ≤ T.capacity → T.capacity < T.size s + count → result = none

variable {T} {s : σ}

theorem Adds.nothing (s : σ) : T.Adds s (some s) 0 [] where
  room _ := ⟨s, rfl, rfl, (List.append_nil _).symm⟩
  full within exceeds := by omega

theorem Adds.bind {first : Option σ} {rest : σ → Option σ} {count later : Nat} {more last : List ν}
    (begins : T.Adds s first count more)
    (ends : ∀ after, first = some after → T.Adds after (rest after) later last) :
    T.Adds s (first.bind rest) (count + later) (more ++ last) := by
  by_cases fits : T.size s + count ≤ T.capacity
  · obtain ⟨middle, rfl, size, trace⟩ := begins.room fits
    have next := ends middle rfl
    constructor
    · intro whole
      obtain ⟨after, stepped, grown, traced⟩ := next.room (by omega)
      refine ⟨after, stepped, by omega, ?_⟩
      rw [traced, trace, List.append_assoc]
    · intro _ exceeds
      exact next.full (by omega) (by omega)
  · constructor
    · intro whole
      omega
    · intro within _
      rw [begins.full within (by omega), Option.bind_none]

theorem Adds.map {result : Option σ} {count : Nat} {more : List ν}
    (adds : T.Adds s result count more)
    {f : σ → σ} (size : ∀ s, T.size (f s) = T.size s) (trace : ∀ s, T.trace (f s) = T.trace s) :
    T.Adds s (result.map f) count more where
  room fits := by
    obtain ⟨after, rfl, grown, traced⟩ := adds.room fits
    exact ⟨f after, rfl, (size after).trans grown, (trace after).trans traced⟩
  full within exceeds := by rw [adds.full within exceeds, Option.map_none]

theorem Adds.foldlM {ι : Type*} {step : σ → ι → Option σ} {count : ι → Nat} {more : ι → List ν}
    (each : ∀ s item, T.Adds s (step s item) (count item) (more item)) (items : List ι) (s : σ) :
    T.Adds s (items.foldlM step s) (items.map count).sum (items.flatMap more) := by
  induction items generalizing s with
  | nil => exact .nothing s
  | cons item rest ih => exact (each s item).bind fun after _ => ih after

/-- From a table that is not too full the run succeeds exactly where the places suffice. -/
theorem Adds.some_iff {result : Option σ} {count : Nat} {more : List ν}
    (adds : T.Adds s result count more) (within : T.size s ≤ T.capacity) (good : List ν → Prop) :
    (∃ after, result = some after ∧ good (T.trace after)) ↔
      T.size s + count ≤ T.capacity ∧ good (T.trace s ++ more) := by
  constructor
  · rintro ⟨after, ran, fine⟩
    have fits : T.size s + count ≤ T.capacity := by
      by_contra exceeds
      rw [adds.full within (Nat.lt_of_not_le exceeds)] at ran
      contradiction
    obtain ⟨last, same, -, trace⟩ := adds.room fits
    rw [ran, Option.some.injEq] at same
    exact ⟨fits, trace ▸ same ▸ fine⟩
  · rintro ⟨fits, fine⟩
    obtain ⟨last, ran, -, trace⟩ := adds.room fits
    exact ⟨last, ran, trace.symm ▸ fine⟩

end GrowingTable

end DirtyCode.Lib
