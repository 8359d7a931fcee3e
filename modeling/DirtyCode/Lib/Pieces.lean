import Mathlib

/-!
A text read piece by piece until nothing is left, by a reader that returns the next
piece and what is behind it.
-/

namespace DirtyCode.Lib

variable {α : Type*}

/-- The pieces read until an empty one comes. -/
def pieces (next : List α → List α × List α) : Nat → List α → List (List α)
  | 0, _ => []
  | fuel + 1, text =>
      if (next text).1.isEmpty then [] else (next text).1 :: pieces next fuel (next text).2

/-- The reader returns these pieces and then is at the end. -/
inductive Yields (next : List α → List α × List α) : List α → List (List α) → Prop
  | done : Yields next [] []
  | read {text piece left rest} : next text = (piece, left) → piece ≠ [] →
      Yields next left rest → Yields next text (piece :: rest)

variable {next : List α → List α × List α}

theorem pieces_of_yields {text : List α} {expected : List (List α)}
    (yields : Yields next text expected) (ends : (next []).1 = []) {fuel : Nat}
    (enough : expected.length ≤ fuel) : pieces next fuel text = expected := by
  induction yields generalizing fuel with
  | done =>
      cases fuel with
      | zero => rfl
      | succ fuel => rw [pieces, ends]; rfl
  | @read text piece left rest took filled _ ih =>
      rw [List.length_cons] at enough
      obtain ⟨fuel, rfl⟩ := Nat.exists_eq_succ_of_ne_zero (by omega : fuel ≠ 0)
      rw [pieces, took, if_neg (by simpa using filled), ih (by omega)]

theorem Yields.length_le {text : List α} {expected : List (List α)}
    (yields : Yields next text expected)
    (splits : ∀ text, (next text).1 ++ (next text).2 = text) :
    expected.length ≤ text.length := by
  induction yields with
  | done => exact Nat.le_refl _
  | @read text piece left rest took filled _ ih =>
      have parts := congrArg List.length (splits text)
      have positive := List.length_pos_iff.mpr filled
      rw [took, List.length_append] at parts
      calc (piece :: rest).length ≤ left.length + 1 := Nat.succ_le_succ ih
        _ ≤ piece.length + left.length := by omega
        _ = text.length := parts

end DirtyCode.Lib
