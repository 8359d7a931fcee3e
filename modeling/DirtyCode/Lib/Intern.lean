import Mathlib

/-!
Names that get their ids in the order in which they come, with room for so many.
-/

namespace DirtyCode.Lib

variable {α : Type*} [DecidableEq α]

def intern (room : Nat) (names : List α) (name : α) : List α :=
  if name ∈ names ∨ room ≤ names.length then names else names ++ [name]

def idIn (names : List α) (name : α) : Option Nat :=
  if name ∈ names then some (names.idxOf name) else none

/-- No later name changes what the id of this one is. -/
def Settled (room : Nat) (names : List α) (name : α) : Prop :=
  name ∈ names ∨ room ≤ names.length

variable {room : Nat} {names : List α} {name other : α}

theorem idIn_listed (listed : name ∈ names) :
    ∃ id, idIn names name = some id ∧ names[id]? = some name ∧
      ∀ earlier < id, names[earlier]? ≠ some name := by
  have inside := List.idxOf_lt_length_of_mem listed
  refine ⟨names.idxOf name, if_pos listed, ?_, ?_⟩
  · rw [List.getElem?_eq_getElem inside, List.getElem_idxOf inside]
  · intro earlier before same
    have other := List.not_of_lt_findIdx before
    rw [List.getElem?_eq_getElem (Nat.lt_trans before inside), Option.some.injEq] at same
    simp [same] at other

theorem idIn_absent (absent : name ∉ names) : idIn names name = none := if_neg absent

theorem idIn_snoc (absent : name ∉ names) : idIn (names ++ [name]) name = some names.length := by
  have listed : name ∈ names ++ [name] := List.mem_append_right _ (List.mem_singleton_self name)
  rw [idIn, if_pos listed, List.idxOf_append_of_notMem absent, List.idxOf_cons_self, Nat.add_zero]

theorem intern_settles (room : Nat) (names : List α) (name : α) :
    Settled room (intern room names name) name := by
  unfold intern
  split
  · assumption
  · exact Or.inl (List.mem_append_right _ (List.mem_singleton_self name))

theorem Settled.intern (settled : Settled room names name) (other : α) :
    Settled room (intern room names other) name ∧
      idIn (intern room names other) name = idIn names name := by
  unfold Lib.intern
  split
  · exact ⟨settled, rfl⟩
  · rename_i fresh
    have listed : name ∈ names := settled.resolve_right (not_or.mp fresh).2
    have still : name ∈ names ++ [other] := List.mem_append_left _ listed
    refine ⟨Or.inl still, ?_⟩
    rw [idIn, idIn, if_pos still, if_pos listed, List.idxOf_append_of_mem listed]

theorem Settled.foldl (settled : Settled room names name) (later : List α) :
    idIn (later.foldl (Lib.intern room) names) name = idIn names name := by
  induction later generalizing names with
  | nil => rfl
  | cons other rest ih =>
      obtain ⟨still, same⟩ := settled.intern other
      exact (ih still).trans same

theorem no_room {earlier later : List α}
    (none : idIn ((earlier ++ name :: later).foldl (Lib.intern room) names) name = none) :
    name ∉ earlier.foldl (Lib.intern room) names ∧
      room ≤ (earlier.foldl (Lib.intern room) names).length := by
  rw [List.foldl_append, List.foldl_cons, (intern_settles room _ name).foldl] at none
  generalize earlier.foldl (Lib.intern room) names = before at none
  have absent : name ∉ intern room before name := by
    intro listed
    rw [idIn, if_pos listed] at none
    contradiction
  by_cases settled : name ∈ before ∨ room ≤ before.length
  · rw [intern, if_pos settled] at absent
    exact ⟨absent, settled.resolve_left absent⟩
  · rw [intern, if_neg settled] at absent
    exact absurd (List.mem_append_right _ (List.mem_singleton_self name)) absent

theorem idIn_inj {id : Nat} (first : idIn names name = some id)
    (second : idIn names other = some id) :
    name = other := by
  unfold idIn at first second
  split at first
  · rename_i listed
    split at second
    · exact (List.idxOf_inj listed).mp ((Option.some.inj first).trans (Option.some.inj second).symm)
    · contradiction
  · contradiction

end DirtyCode.Lib
