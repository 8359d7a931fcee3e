import Mathlib

/-!
The front of a list that is kept while a test holds, and what is behind it.
-/

namespace DirtyCode.Lib

variable {α : Type*} {keep : α → Bool} {list front tail : List α} {stop : α}

theorem span_stop (kept : ∀ item ∈ front, keep item = true) (stops : keep stop = false)
    (tail : List α) : (front ++ stop :: tail).takeWhile keep = front ∧
      (front ++ stop :: tail).dropWhile keep = stop :: tail := by
  have behind : ¬keep stop = true := Bool.eq_false_iff.mp stops
  constructor
  · rw [List.takeWhile_append_of_pos kept, List.takeWhile_cons_of_neg behind, List.append_nil]
  · rw [List.dropWhile_append_of_pos kept, List.dropWhile_cons_of_neg behind]

theorem stop_of_dropWhile (left : list.dropWhile keep = stop :: tail) : keep stop = false := by
  have stops := List.head?_dropWhile_not keep list
  rw [left] at stops
  simpa using stops

theorem dropWhile_ne_nil_iff : list.dropWhile keep ≠ [] ↔ ∃ item ∈ list, keep item = false := by
  rw [Ne, List.dropWhile_eq_nil_iff]
  simp

theorem length_takeWhile_add (keep : α → Bool) (list : List α) :
    (list.takeWhile keep).length + (list.dropWhile keep).length = list.length := by
  rw [← List.length_append, List.takeWhile_append_dropWhile]

theorem drop_takeWhile (keep : α → Bool) (list : List α) :
    list.drop (list.takeWhile keep).length = list.dropWhile keep := by
  induction list with
  | nil => rfl
  | cons item rest ih =>
      by_cases here : keep item = true
      · rw [List.takeWhile_cons_of_pos here, List.dropWhile_cons_of_pos here, List.length_cons,
          List.drop_succ_cons, ih]
      · rw [List.takeWhile_cons_of_neg here, List.dropWhile_cons_of_neg here]
        rfl

theorem dropWhile_append_stop (list : List α) (stops : list.dropWhile keep ≠ []) :
    (list ++ tail).dropWhile keep = list.dropWhile keep ++ tail := by
  rw [List.dropWhile_append]
  simp [stops]

theorem dropWhile_append_all (list : List α) (empty : list.dropWhile keep = []) :
    (list ++ tail).dropWhile keep = tail.dropWhile keep := by
  rw [List.dropWhile_append]
  simp [empty]

theorem takeWhile_append_stop (list : List α) (stops : list.dropWhile keep ≠ []) :
    (list ++ tail).takeWhile keep = list.takeWhile keep := by
  rw [List.takeWhile_append, if_neg]
  intro whole
  have total := length_takeWhile_add keep list
  exact stops (List.eq_nil_of_length_eq_zero (by omega))

theorem reverse_dropWhile_stops (stops : ∃ item ∈ list, keep item = false) :
    ∃ item ∈ (list.dropWhile keep).reverse, keep item = false := by
  obtain ⟨item, member, fails⟩ := stops
  rw [← List.takeWhile_append_dropWhile (p := keep) (l := list), List.mem_append] at member
  rcases member with passed | member
  · rw [List.mem_takeWhile_imp passed] at fails
    contradiction
  · exact ⟨item, List.mem_reverse.mpr member, fails⟩

end DirtyCode.Lib
