import DirtyCode.Lib.Text

/-!
Texts that stand one behind the other, each with its end: the place of one of them, and
what a search finds that goes on behind the last.
-/

namespace DirtyCode.Lib

variable {α : Type*} {ends : α → Bool}

/-- The place behind so many ends, where something follows there. -/
def skipEnds (ends : α → Bool) : Nat → List α → Option Nat
  | _, [] => none
  | 0, _ :: _ => some 0
  | left + 1, char :: rest =>
      (skipEnds ends (if ends char then left else left + 1) rest).map (· + 1)

theorem length_splitLines (ends : α → Bool) (text : List α) :
    (splitLines ends text).1.length = text.countP ends := by
  induction text with
  | nil => rfl
  | cons char rest ih =>
      cases ending : ends char with
      | true =>
          rw [splitLines_end ending, List.length_cons, ih, List.countP_cons_of_pos ending]
      | false =>
          rw [List.countP_cons_of_neg (by simp [ending]), ← ih]
          cases found : (splitLines ends rest).1 with
          | nil => rw [splitLines_first ending found]
          | cons line others =>
              rw [splitLines_more ending found]
              rfl

theorem skipEnds_line {text : List α} {index : Nat} {line : List α}
    (found : (splitLines ends text).1[index]? = some line) (more : List α) :
    ∃ offset stop rest, skipEnds ends index (text ++ more) = some offset ∧
      text.drop offset = line ++ stop :: rest ∧ ends stop = true ∧
        ∀ char ∈ line, ends char = false := by
  induction text generalizing index line with
  | nil => simp [splitLines] at found
  | cons char tail ih =>
      cases ending : ends char with
      | true =>
          rw [splitLines_end ending] at found
          cases index with
          | zero =>
              rw [List.getElem?_cons_zero, Option.some.injEq] at found
              subst found
              exact ⟨0, char, tail, rfl, rfl, ending, by simp⟩
          | succ index =>
              rw [List.getElem?_cons_succ] at found
              obtain ⟨offset, stop, rest, skipped, content, plain⟩ := ih found
              refine ⟨offset + 1, stop, rest, ?_, content, plain⟩
              rw [List.cons_append, skipEnds, if_pos ending, skipped, Option.map_some]
      | false =>
          cases lines : (splitLines ends tail).1 with
          | nil =>
              rw [splitLines_first ending lines] at found
              simp at found
          | cons first others =>
              rw [splitLines_more ending lines] at found
              cases index with
              | zero =>
                  rw [List.getElem?_cons_zero, Option.some.injEq] at found
                  have next : (splitLines ends tail).1[0]? = some first := by rw [lines]; rfl
                  obtain ⟨offset, stop, rest, skipped, content, stops, plain⟩ := ih next
                  have here : offset = 0 := by
                    cases tail with
                    | nil => simp [splitLines] at lines
                    | cons _ _ => exact (Option.some.inj skipped).symm
                  subst here found
                  refine ⟨0, stop, rest, rfl, ?_, stops, List.forall_mem_cons.mpr ⟨ending, plain⟩⟩
                  rw [List.drop_zero] at content ⊢
                  rw [content, List.cons_append]
              | succ index =>
                  rw [List.getElem?_cons_succ] at found
                  have next : (splitLines ends tail).1[index + 1]? = some line := by
                    rw [lines, List.getElem?_cons_succ, found]
                  obtain ⟨offset, stop, rest, skipped, content, plain⟩ := ih next
                  refine ⟨offset + 1, stop, rest, ?_, content, plain⟩
                  rw [List.cons_append, skipEnds, if_neg (by simp [ending]), skipped,
                    Option.map_some]

theorem skipEnds_some {text : List α} {index offset : Nat}
    (found : skipEnds ends index text = some offset) :
    offset < text.length ∧ (text.take offset).countP ends = index := by
  induction text generalizing index offset with
  | nil => contradiction
  | cons char rest ih =>
      cases index with
      | zero =>
          rw [skipEnds, Option.some.injEq] at found
          subst found
          exact ⟨Nat.succ_pos _, rfl⟩
      | succ index =>
          obtain ⟨before, skipped, rfl⟩ := Option.map_eq_some_iff.mp found
          obtain ⟨inside, count⟩ := ih skipped
          refine ⟨Nat.succ_lt_succ inside, ?_⟩
          cases ending : ends char with
          | true =>
              rw [if_pos ending] at count
              rw [List.take_succ_cons, List.countP_cons_of_pos ending, count]
          | false =>
              rw [if_neg (by simp [ending])] at count
              rw [List.take_succ_cons, List.countP_cons_of_neg (by simp [ending]), count]

theorem skipEnds_stops {front : List α} {index : Nat} {char : α} (count : front.countP ends = index)
    (inside : ends char = false) (rest : List α) :
    ∃ offset first, skipEnds ends index (front ++ char :: rest) = some offset ∧
      (front ++ char :: rest)[offset]? = some first ∧ ends first = false := by
  induction front generalizing index with
  | nil =>
      subst count
      exact ⟨0, char, rfl, rfl, inside⟩
  | cons other front ih =>
      cases ending : ends other with
      | true =>
          rw [List.countP_cons_of_pos ending] at count
          obtain ⟨offset, first, skipped, here, plain⟩ := ih rfl
          refine ⟨offset + 1, first, ?_, here, plain⟩
          rw [← count, List.cons_append, skipEnds, if_pos ending, skipped, Option.map_some]
      | false =>
          rw [List.countP_cons_of_neg (by simp [ending])] at count
          cases index with
          | zero => exact ⟨0, other, rfl, rfl, ending⟩
          | succ index =>
              obtain ⟨offset, first, skipped, here, plain⟩ := ih count
              refine ⟨offset + 1, first, ?_, here, plain⟩
              rw [List.cons_append, skipEnds, if_neg (by simp [ending]), skipped, Option.map_some]

end DirtyCode.Lib
