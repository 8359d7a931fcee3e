import Mathlib

/-!
`while` loops that may not end, run with fuel, and the chains of pointers that
such a loop follows to the last node.
-/

namespace DirtyCode.Lib

variable {α : Type*}

def whileLoop (continues : α → Bool) (next : α → α) : Nat → α → Option α
  | 0, _ => none
  | fuel + 1, state =>
      if continues state then whileLoop continues next fuel (next state) else some state

theorem whileLoop_counter {continues : Nat → Bool} {start stop fuel : Nat} (ordered : start ≤ stop)
    (enough : stop - start < fuel)
    (passes : ∀ position, start ≤ position → position < stop → continues position = true)
    (fails : continues stop = false) :
    whileLoop continues (· + 1) fuel start = some stop := by
  induction fuel generalizing start with
  | zero => omega
  | succ fuel ih =>
      by_cases last : start = stop
      · simp [whileLoop, last, fails]
      · simp only [whileLoop, passes start le_rfl (by omega), if_true]
        exact ih (by omega) (by omega) fun position lower upper =>
          passes position (by omega) upper

theorem whileLoop_counter_some {continues : Nat → Bool} {fuel start stop : Nat}
    (stopped : whileLoop continues (· + 1) fuel start = some stop) :
    start ≤ stop ∧ continues stop = false ∧
      ∀ position, start ≤ position → position < stop → continues position = true := by
  induction fuel generalizing start with
  | zero => contradiction
  | succ fuel ih =>
      rw [whileLoop] at stopped
      split at stopped
      · rename_i going
        obtain ⟨later, fails, passes⟩ := ih stopped
        refine ⟨by omega, fails, ?_⟩
        intro position lower upper
        rcases Nat.eq_or_lt_of_le lower with rfl | above
        · exact going
        · exact passes position above upper
      · rename_i ended
        obtain rfl := Option.some.inj stopped
        refine ⟨le_rfl, by simpa using ended, ?_⟩
        intro position lower upper
        omega

/-- The nodes met from `head` on, up to the one whose successor is `null`. -/
def Linked (null : α) (next : α → α) : α → List α → Prop
  | head, [] => head = null
  | head, node :: rest => head = node ∧ node ≠ null ∧ Linked null next (next node) rest

theorem Linked.unique {null head : α} {next : α → α} {nodes others : List α}
    (linked : Linked null next head nodes) (again : Linked null next head others) :
    nodes = others := by
  induction nodes generalizing head others with
  | nil =>
      cases others with
      | nil => rfl
      | cons other rest => exact absurd (again.1.symm.trans linked) again.2.1
  | cons node rest ih =>
      cases others with
      | nil => exact absurd (linked.1.symm.trans again) linked.2.1
      | cons other later =>
          obtain ⟨rfl, -, tail⟩ := linked
          obtain ⟨rfl, -, tail'⟩ := again
          rw [ih tail tail']

theorem Linked.congr {null head : α} {next after : α → α} {nodes : List α}
    (linked : Linked null next head nodes) (agree : ∀ node ∈ nodes, after node = next node) :
    Linked null after head nodes := by
  induction nodes generalizing head with
  | nil => exact linked
  | cons node rest ih =>
      obtain ⟨first, present, tail⟩ := linked
      refine ⟨first, present, ?_⟩
      rw [agree node List.mem_cons_self]
      exact ih tail fun other member => agree other (List.mem_cons_of_mem _ member)

theorem Linked.head_ne_null {null head node : α} {next : α → α} {rest : List α}
    (linked : Linked null next head (node :: rest)) : head ≠ null :=
  linked.1 ▸ linked.2.1

theorem Linked.snoc {null head last node : α} {next after : α → α} {nodes : List α}
    (linked : Linked null next head (nodes ++ [last])) (present : node ≠ null)
    (kept : ∀ other ∈ nodes, after other = next other) (stored : after last = node)
    (ends : after node = null) : Linked null after head (nodes ++ [last, node]) := by
  induction nodes generalizing head with
  | nil =>
      obtain ⟨first, real, -⟩ := linked
      exact ⟨first, real, stored, present, ends⟩
  | cons other rest ih =>
      obtain ⟨first, real, tail⟩ := linked
      refine ⟨first, real, ?_⟩
      rw [kept other List.mem_cons_self]
      exact ih tail fun another member => kept another (List.mem_cons_of_mem _ member)

theorem Linked.whileLoop_last [DecidableEq α] {null head last : α} {next : α → α}
    {nodes : List α} {fuel : Nat} (linked : Linked null next head (nodes ++ [last]))
    (enough : nodes.length < fuel) :
    whileLoop (fun node => decide (next node ≠ null)) next fuel head = some last := by
  induction nodes generalizing head fuel with
  | nil =>
      obtain ⟨first, -, ends⟩ := linked
      obtain ⟨fuel, rfl⟩ := Nat.exists_eq_succ_of_ne_zero (by omega : fuel ≠ 0)
      have stops : next last = null := ends
      simp [whileLoop, first, stops]
  | cons other rest ih =>
      obtain ⟨first, -, tail⟩ := linked
      obtain ⟨fuel, rfl⟩ := Nat.exists_eq_succ_of_ne_zero (by omega : fuel ≠ 0)
      have going : next other ≠ null := by
        cases rest with
        | nil => exact tail.head_ne_null
        | cons _ _ => exact tail.head_ne_null
      simp only [whileLoop, first, going, ne_eq, not_false_eq_true, decide_true, if_true]
      exact ih tail (by simpa using enough)

end DirtyCode.Lib
