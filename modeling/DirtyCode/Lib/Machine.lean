import Mathlib

/-!
Labelled partial machines. A step names what happened and is undefined where
that cannot happen; a run is a list of labels. Reachability and the whole-run
rules are relative to a condition on the steps that are allowed to occur.
-/

namespace DirtyCode.Lib

structure Machine (σ ι : Type*) where
  init : σ → Prop
  step : σ → ι → Option σ

namespace Machine

variable {σ ι : Type*} (M : Machine σ ι)

def run : σ → List ι → Option σ
  | state, [] => some state
  | state, label :: rest => (M.step state label).bind fun next => run next rest

/-- States reached from an initial one by steps that all meet `allowed`. -/
inductive Reachable (allowed : σ → ι → Prop) : σ → Prop
  | start {state} : M.init state → Reachable allowed state
  | next {state after} (label : ι) : Reachable allowed state → allowed state label →
      M.step state label = some after → Reachable allowed after

/-- The run of the labels, cut off at the first step that is not allowed. -/
def runAllowed (allowed : σ → ι → Prop) [∀ state label, Decidable (allowed state label)] :
    σ → List ι → Option σ
  | state, [] => some state
  | state, label :: rest =>
      if allowed state label then
        (M.step state label).bind fun next => runAllowed allowed next rest
      else none

/-- Every step that the labels take from this state satisfies `holds`. -/
def Along (holds : σ → ι → σ → Prop) : σ → List ι → Prop
  | _, [] => True
  | state, label :: rest => ∀ after, M.step state label = some after →
      holds state label after ∧ Along holds after rest

variable {M}

theorem Reachable.mono {allowed wider : σ → ι → Prop} {state : σ}
    (reached : M.Reachable allowed state)
    (weaker : ∀ state label, allowed state label → wider state label) :
    M.Reachable wider state := by
  induction reached with
  | start initial => exact .start initial
  | next label _ permitted stepped ih => exact .next label ih (weaker _ _ permitted) stepped

/-- The induction over runs: what holds at the start and survives every allowed
step holds in every state reached. -/
theorem Reachable.invariant {allowed : σ → ι → Prop} {holds : σ → Prop} {state : σ}
    (reached : M.Reachable allowed state)
    (initially : ∀ state, M.init state → holds state)
    (kept : ∀ state label after, holds state → allowed state label →
      M.step state label = some after → holds after) : holds state := by
  induction reached with
  | start initial => exact initially _ initial
  | next label _ permitted stepped ih => exact kept _ label _ ih permitted stepped

theorem run_cons {state next : σ} {label : ι} (stepped : M.step state label = some next)
    (rest : List ι) : M.run state (label :: rest) = M.run next rest := by
  rw [run, stepped, Option.bind_some]

theorem run_append (state : σ) (first second : List ι) :
    M.run state (first ++ second) = (M.run state first).bind fun middle => M.run middle second := by
  induction first generalizing state with
  | nil => rfl
  | cons label rest ih =>
      simp only [List.cons_append, run]
      cases M.step state label with
      | none => rfl
      | some next => exact ih next

theorem run_trans {state middle last : σ} {first second : List ι}
    (leading : M.run state first = some middle) (trailing : M.run middle second = some last) :
    M.run state (first ++ second) = some last := by
  rw [run_append, leading]
  exact trailing

/-- A run whose steps are all allowed ends in a reachable state. -/
theorem Reachable.of_run {allowed : σ → ι → Prop} {labels : List ι} {state last : σ}
    (reached : M.Reachable allowed state)
    (permitted : M.Along (fun state label _ => allowed state label) state labels)
    (ran : M.run state labels = some last) : M.Reachable allowed last := by
  induction labels generalizing state with
  | nil =>
      simp only [run, Option.some.injEq] at ran
      exact ran ▸ reached
  | cons label rest ih =>
      obtain ⟨next, stepped, finished⟩ := Option.bind_eq_some_iff.mp ran
      have here := permitted next stepped
      exact ih (.next label reached here.1 stepped) here.2 finished

/-- A run that meets a condition on its own labels that is enough for the one allowed. -/
theorem Reachable.of_runNarrower {narrow allowed : σ → ι → Prop}
    [∀ state label, Decidable (narrow state label)] {labels : List ι} {state last : σ}
    (narrower : ∀ label ∈ labels, ∀ state, narrow state label → allowed state label)
    (reached : M.Reachable allowed state)
    (ran : M.runAllowed narrow state labels = some last) : M.Reachable allowed last := by
  induction labels generalizing state with
  | nil =>
      simp only [runAllowed, Option.some.injEq] at ran
      exact ran ▸ reached
  | cons label rest ih =>
      simp only [runAllowed] at ran
      split at ran
      · rename_i permitted
        obtain ⟨next, stepped, finished⟩ := Option.bind_eq_some_iff.mp ran
        have here := narrower label List.mem_cons_self state permitted
        exact ih (fun other member => narrower other (List.mem_cons_of_mem label member))
          (.next label reached here stepped) finished
      · contradiction

theorem Reachable.of_runAllowed {allowed : σ → ι → Prop}
    [∀ state label, Decidable (allowed state label)] {labels : List ι} {state last : σ}
    (reached : M.Reachable allowed state)
    (ran : M.runAllowed allowed state labels = some last) : M.Reachable allowed last :=
  reached.of_runNarrower (fun _ _ _ permitted => permitted) ran

theorem along_of_runAllowed {allowed : σ → ι → Prop}
    [∀ state label, Decidable (allowed state label)] {labels : List ι} {state last : σ}
    (ran : M.runAllowed allowed state labels = some last) :
    M.Along (fun state label _ => allowed state label) state labels := by
  induction labels generalizing state with
  | nil => trivial
  | cons label rest ih =>
      intro after stepped
      simp only [runAllowed, stepped, Option.bind_some] at ran
      split at ran
      · rename_i permitted
        exact ⟨permitted, ih ran⟩
      · contradiction

theorem along_of_mem {holds : σ → ι → σ → Prop} {labels : List ι}
    (always : ∀ label ∈ labels, ∀ state after, M.step state label = some after →
      holds state label after) (state : σ) : M.Along holds state labels := by
  induction labels generalizing state with
  | nil => trivial
  | cons label rest ih =>
      intro after stepped
      have later := ih fun other member => always other (List.mem_cons_of_mem label member)
      exact ⟨always label List.mem_cons_self state after stepped, later after⟩

theorem along_of_forall {holds : σ → ι → σ → Prop}
    (always : ∀ state label after, M.step state label = some after → holds state label after)
    (state : σ) (labels : List ι) : M.Along holds state labels :=
  along_of_mem (fun label _ state after => always state label after) state

theorem Along.last {holds : σ → ι → σ → Prop} {labels : List ι} {label : ι}
    {state middle last : σ} (along : M.Along holds state (labels ++ [label]))
    (ran : M.run state labels = some middle) (stepped : M.step middle label = some last) :
    holds middle label last := by
  induction labels generalizing state with
  | nil =>
      simp only [run, Option.some.injEq] at ran
      subst ran
      exact (along last stepped).1
  | cons first rest ih =>
      obtain ⟨next, moved, finished⟩ := Option.bind_eq_some_iff.mp ran
      exact ih (along next moved).2 finished

/-- What every allowed step from the invariant satisfies holds along a whole run of
allowed steps. -/
theorem Along.of_invariant {holds allowed : σ → ι → σ → Prop} (invariant : σ → Prop)
    (gives : ∀ state label after, invariant state → allowed state label after →
      M.step state label = some after → holds state label after ∧ invariant after)
    {state : σ} {labels : List ι} (start : invariant state) (along : M.Along allowed state labels) :
    M.Along holds state labels := by
  induction labels generalizing state with
  | nil => trivial
  | cons label rest ih =>
      intro after stepped
      have here := along after stepped
      have next := gives state label after start here.1 stepped
      exact ⟨next.1, ih next.2 here.2⟩

/-- Where, under an invariant that allowed steps keep, a step is right exactly
when it is allowed, a whole run is right exactly when all its steps are. -/
theorem along_iff (invariant : σ → Prop) {right : σ → ι → σ → Prop} {allowed : σ → ι → Prop}
    (exact_step : ∀ state label after, invariant state → M.step state label = some after →
      (right state label after ↔ allowed state label))
    (kept : ∀ state label after, invariant state → allowed state label →
      M.step state label = some after → invariant after)
    {state : σ} (holds : invariant state) (labels : List ι) :
    M.Along right state labels ↔
      M.Along (fun state label _ => allowed state label) state labels := by
  induction labels generalizing state with
  | nil => exact Iff.rfl
  | cons label rest ih =>
      constructor
      · intro correct after stepped
        have permitted := (exact_step _ _ _ holds stepped).mp (correct after stepped).1
        exact ⟨permitted, (ih (kept _ _ _ holds permitted stepped)).mp (correct after stepped).2⟩
      · intro permitted after stepped
        have here := permitted after stepped
        exact ⟨(exact_step _ _ _ holds stepped).mpr here.1,
          (ih (kept _ _ _ holds here.1 stepped)).mpr here.2⟩

end Machine

end DirtyCode.Lib
