import DirtyCode.Lib.Machine

/-!
Countdowns: in every state before the end one label is awaited, its turn brings the end
nearer, and turns of the others leave it awaited. A schedule that gives every label a
turn in each of enough stretches then reaches the end.
-/

namespace DirtyCode.Lib

namespace Machine

variable {σ ι : Type*} (M : Machine σ ι)

/-- A turn of a label that cannot act changes nothing. -/
def turn (state : σ) (label : ι) : σ := (M.step state label).getD state

def play (state : σ) (labels : List ι) : σ := labels.foldl M.turn state

variable {M}

theorem turn_of_step {state after : σ} {label : ι} (stepped : M.step state label = some after) :
    M.turn state label = after := by rw [turn, stepped, Option.getD_some]

theorem turn_of_none {state : σ} {label : ι} (stuck : M.step state label = none) :
    M.turn state label = state := by rw [turn, stuck, Option.getD_none]

theorem Reachable.turn {allowed : σ → ι → Prop} {state : σ} (reached : M.Reachable allowed state)
    {label : ι} (permitted : allowed state label) : M.Reachable allowed (M.turn state label) := by
  cases stepped : M.step state label with
  | none => exact (turn_of_none stepped).symm ▸ reached
  | some after => exact (turn_of_step stepped).symm ▸ .next label reached permitted stepped

variable (M)

/-- `awaits state left label`: nothing but turns of `label` brings the end nearer, and
at most `left` turns of awaited labels follow it. -/
structure Countdown where
  ended : σ → Prop
  awaits : σ → Nat → ι → Prop
  settled {state} (label : ι) : ended state → ended (M.turn state label)
  nearer {state left label} : awaits state left label → ended (M.turn state label) ∨
    ∃ fewer next, fewer < left ∧ awaits (M.turn state label) fewer next
  patient {state left label other} : awaits state left label → other ≠ label →
    awaits (M.turn state other) left label

namespace Countdown

variable {M} (count : M.Countdown)

/-- At most `bound` awaited turns are missing to the end. -/
def Within (state : σ) (bound : Nat) : Prop :=
  count.ended state ∨ ∃ left label, left < bound ∧ count.awaits state left label

variable {count}

theorem Within.mono {state : σ} {bound wider : Nat} (within : count.Within state bound)
    (below : bound ≤ wider) : count.Within state wider := by
  obtain reached | ⟨left, label, few, awaited⟩ := within
  · exact .inl reached
  · exact .inr ⟨left, label, by omega, awaited⟩

theorem within_turn {state : σ} {left : Nat} {label : ι} (awaited : count.awaits state left label) :
    count.Within (M.turn state label) left := count.nearer awaited

theorem Within.turn [DecidableEq ι] {state : σ} {bound : Nat} (within : count.Within state bound)
    (label : ι) : count.Within (M.turn state label) bound := by
  obtain reached | ⟨left, wanted, few, awaited⟩ := within
  · exact .inl (count.settled label reached)
  · by_cases same : label = wanted
    · subst same
      exact (within_turn awaited).mono few.le
    · exact .inr ⟨left, wanted, few, count.patient awaited same⟩

theorem Within.play [DecidableEq ι] {state : σ} {bound : Nat} (within : count.Within state bound)
    (labels : List ι) : count.Within (M.play state labels) bound := by
  induction labels generalizing state with
  | nil => exact within
  | cons label rest ih => exact ih (within.turn label)

theorem within_play [DecidableEq ι] {state : σ} {left : Nat} {wanted : ι} {labels : List ι}
    (awaited : count.awaits state left wanted) (given : wanted ∈ labels) :
    count.Within (M.play state labels) left := by
  induction labels generalizing state with
  | nil => exact absurd given List.not_mem_nil
  | cons label rest ih =>
      by_cases same : label = wanted
      · subst same
        exact (within_turn awaited).play rest
      · have later := (List.mem_cons.mp given).resolve_left (Ne.symm same)
        exact ih (count.patient awaited same) later

theorem Within.ends [DecidableEq ι] {state : σ} {bound : Nat} (within : count.Within state bound)
    {stretches : List (List ι)} (fair : ∀ stretch ∈ stretches, ∀ label, label ∈ stretch)
    (enough : bound ≤ stretches.length) : count.ended (M.play state stretches.flatten) := by
  induction stretches generalizing state bound with
  | nil =>
      obtain reached | ⟨left, label, few, -⟩ := within
      · exact reached
      · simp only [List.length_nil] at enough
        omega
  | cons stretch rest ih =>
      have onward : count.Within (M.play state stretch) (bound - 1) := by
        obtain reached | ⟨left, label, few, awaited⟩ := within
        · exact Within.play (.inl reached) stretch
        · have nearer := within_play awaited (fair stretch List.mem_cons_self label)
          exact nearer.mono (by omega)
      rw [List.length_cons] at enough
      have finished := ih onward
        (fun later member => fair later (List.mem_cons_of_mem _ member)) (by omega)
      rwa [List.flatten_cons, Machine.play, List.foldl_append]

end Countdown

end Machine

end DirtyCode.Lib
