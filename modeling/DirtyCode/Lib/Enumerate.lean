import Mathlib

/-!
The numbers with a property in increasing order, met one behind the other.
-/

namespace DirtyCode.Lib

variable {p : Nat → Prop} {first last : Nat}

/-- The next number with the property from a place on. -/
structure NextFrom (p : Nat → Prop) (first last : Nat) : Prop where
  reach : first ≤ last
  found : p last
  skipped : ∀ number, first ≤ number → number < last → ¬p number

theorem NextFrom.refl (found : p first) : NextFrom p first first where
  reach := le_rfl
  found := found
  skipped _ from_ below := absurd below (Nat.not_lt_of_le from_)

theorem NextFrom.count [DecidablePred p] (next : NextFrom p first last) :
    Nat.count p last = Nat.count p first := by
  obtain ⟨distance, rfl⟩ := Nat.exists_eq_add_of_le next.reach
  rw [Nat.count_add, Nat.count_of_forall_not fun offset inside =>
    next.skipped _ (Nat.le_add_right _ _) (Nat.add_lt_add_left inside _), Nat.add_zero]

theorem NextFrom.nth [DecidablePred p] (next : NextFrom p first last) :
    Nat.nth p (Nat.count p first) = last := by
  rw [← next.count, Nat.nth_count next.found]

theorem NextFrom.count_succ [DecidablePred p] (next : NextFrom p first last) :
    Nat.count p (last + 1) = Nat.count p first + 1 := by
  rw [Nat.count_succ, if_pos next.found, next.count]

end DirtyCode.Lib
