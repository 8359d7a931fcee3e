import Mathlib

/-!
Directories and files by the names that lead to them, and `mkdir`.
-/

namespace DirtyCode.Lib

/-- What the names from the root on lead to. Links are left out. -/
structure DirTree where
  kind : List (List UInt8) → Option Bool -- true for a directory, false for a file
  root : kind [] = some true
  parent : ∀ route name, (kind (route ++ [name])).isSome → kind route = some true

namespace DirTree

inductive Mkdir
  | made (tree : DirTree)
  | present -- `EEXIST`
  | failed

variable {tree : DirTree} {route : List (List UInt8)}

theorem parent_of_add (absent : tree.kind route = none)
    (above : tree.kind route.dropLast = some true) (other : List (List UInt8)) (name : List UInt8)
    (found : (Function.update tree.kind route (some true) (other ++ [name])).isSome) :
    Function.update tree.kind route (some true) other = some true := by
  have apart : (tree.kind other = some true) → other ≠ route := by
    rintro directory rfl
    rw [absent] at directory
    contradiction
  by_cases here : other ++ [name] = route
  · rw [← here, List.dropLast_concat] at above
    rw [Function.update_of_ne (apart above), above]
  · rw [Function.update_of_ne here] at found
    have directory := tree.parent other name found
    rw [Function.update_of_ne (apart directory), directory]

def add (tree : DirTree) (route : List (List UInt8)) (absent : tree.kind route = none)
    (above : tree.kind route.dropLast = some true) : DirTree where
  kind := Function.update tree.kind route (some true)
  root := by
    rw [Function.update_of_ne, tree.root]
    rintro rfl
    rw [tree.root] at absent
    contradiction
  parent := parent_of_add absent above

@[simp] theorem kind_add_self (absent : tree.kind route = none)
    (above : tree.kind route.dropLast = some true) :
    (tree.add route absent above).kind route = some true :=
  Function.update_self ..

theorem kind_add_other (absent : tree.kind route = none)
    (above : tree.kind route.dropLast = some true) {other : List (List UInt8)}
    (apart : other ≠ route) : (tree.add route absent above).kind other = tree.kind other :=
  Function.update_of_ne apart ..

/-- It may also be refused for a reason of the system's own. -/
def mkdir (tree : DirTree) (refused : Bool) (route : List (List UInt8)) : Mkdir :=
  if refused then .failed
  else if absent : tree.kind route = none then
    if above : tree.kind route.dropLast = some true then .made (tree.add route absent above)
    else .failed
  else .present

theorem mkdir_made {refused : Bool} {later : DirTree}
    (made : tree.mkdir refused route = .made later) :
    ∃ absent above, later = tree.add route absent above := by
  rw [mkdir] at made
  split_ifs at made with _ absent above
  exact ⟨absent, above, (Mkdir.made.inj made).symm⟩

theorem mkdir_present {refused : Bool} (present : tree.mkdir refused route = .present) :
    (tree.kind route).isSome := by
  rw [mkdir] at present
  split_ifs at present with _ absent
  exact Option.isSome_iff_ne_none.mpr absent

theorem mkdir_failed {refused : Bool} (failed : tree.mkdir refused route = .failed) :
    refused = true ∨ (tree.kind route = none ∧ tree.kind route.dropLast ≠ some true) := by
  rw [mkdir] at failed
  split_ifs at failed with system absent above
  · exact Or.inl system
  · exact Or.inr ⟨absent, above⟩

/-- Nothing that stands in the first tree has changed. -/
def Extends (later tree : DirTree) : Prop :=
  ∀ route, (tree.kind route).isSome → later.kind route = tree.kind route

theorem Extends.isSome {later : DirTree} (extends_ : later.Extends tree)
    (present : (tree.kind route).isSome) : (later.kind route).isSome := by
  rwa [extends_ route present]

theorem extends_add (absent : tree.kind route = none)
    (above : tree.kind route.dropLast = some true) :
    (tree.add route absent above).Extends tree := by
  intro other present
  apply kind_add_other
  rintro rfl
  rw [absent] at present
  contradiction

theorem directory_above (more : List (List UInt8)) (some_ : more ≠ [])
    (present : (tree.kind (route ++ more)).isSome) : tree.kind route = some true := by
  induction more using List.reverseRecOn with
  | nil => exact absurd rfl some_
  | append_singleton more name ih =>
      rw [← List.append_assoc] at present
      have directory := tree.parent _ _ present
      by_cases last : more = []
      · rwa [last, List.append_nil] at directory
      · exact ih last (by rw [directory]; rfl)

end DirTree

end DirtyCode.Lib
