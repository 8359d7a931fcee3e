import Mathlib

/-!
The `pidmap` of `ParallelExecRemote`: slots that are free where their key is 0.
-/

namespace DirtyCode.ParallelExec

structure Slot where
  key : Int
  val : Int
  deriving DecidableEq, Repr

def keyAt (pidmap : List Slot) (i : Nat) : Option Int := pidmap[i]?.map Slot.key

-- the loop of `stupidMap_Add` and `stupidMap_Remove`; `i` may not start with 0 in the future
def findKey (pidmap : List Slot) (key : Int) : Nat → Nat → Option Nat
  | 0, _ => none
  | loop + 1, i =>
      if keyAt pidmap i = some key then some i
      else findKey pidmap key loop (if i + 1 = pidmap.length then 0 else i + 1)

def stupidMapAdd (pidmap : List Slot) (key val : Int) : Int × List Slot :=
  match findKey pidmap 0 pidmap.length 0 with
  | some i => (i, pidmap.set i ⟨key, val⟩)
  | none => (-1, pidmap)

def stupidMapRemove (pidmap : List Slot) (key : Int) : Int × List Slot :=
  match findKey pidmap key pidmap.length 0 with
  | some i =>
      let slot := pidmap.getD i ⟨0, -1⟩
      (slot.val, pidmap.set i { slot with key := 0 })
  | none => (-1, pidmap)

theorem findKey_sound {pidmap : List Slot} {key : Int} {loop start i : Nat}
    (found : findKey pidmap key loop start = some i) : keyAt pidmap i = some key := by
  induction loop generalizing start with
  | zero => contradiction
  | succ loop ih =>
      rw [findKey] at found
      split at found
      · rename_i here
        exact Option.some.inj found ▸ here
      · exact ih found

theorem findKey_none {pidmap : List Slot} {key : Int} {loop start : Nat}
    (whole : start + loop = pidmap.length) (missing : findKey pidmap key loop start = none) :
    ∀ i, start ≤ i → keyAt pidmap i ≠ some key := by
  induction loop generalizing start with
  | zero =>
      intro i later here
      rw [keyAt, List.getElem?_eq_none (by omega)] at here
      contradiction
  | succ loop ih =>
      rw [findKey] at missing
      split at missing
      · contradiction
      · rename_i elsewhere
        intro i later
        by_cases here : i = start
        · exact here ▸ elsewhere
        · by_cases last : start + 1 = pidmap.length
          · intro beyond
            rw [keyAt, List.getElem?_eq_none (by omega)] at beyond
            contradiction
          · rw [if_neg last] at missing
            exact ih (by omega) missing i (by omega)

def taken (slot : Slot) : Option (Int × Int) :=
  if slot.key = 0 then none else some (slot.key, slot.val)

def entries (pidmap : List Slot) : List (Int × Int) := pidmap.filterMap taken

theorem entries_perm {pidmap : List Slot} {i : Nat} {slot : Slot} (here : pidmap[i]? = some slot) :
    (entries pidmap).Perm ((taken slot).toList ++ entries (pidmap.eraseIdx i)) := by
  obtain ⟨inside, rfl⟩ := List.getElem?_eq_some_iff.mp here
  have moved := (List.getElem_cons_eraseIdx_perm inside).filterMap taken
  rw [List.filterMap_cons] at moved
  refine moved.symm.trans ?_
  cases taken pidmap[i] <;> exact List.Perm.refl _

theorem entries_set {pidmap : List Slot} {i : Nat} (inside : i < pidmap.length) (slot : Slot) :
    (entries (pidmap.set i slot)).Perm ((taken slot).toList ++ entries (pidmap.eraseIdx i)) := by
  have here : (pidmap.set i slot)[i]? = some slot := by
    rw [List.getElem?_set_self inside]
  have moved := entries_perm here
  rwa [List.eraseIdx_set_eq] at moved

theorem entries_fill {pidmap : List Slot} {i : Nat} {key : Int} (free : keyAt pidmap i = some 0)
    (used : key ≠ 0) (val : Int) :
    (entries (pidmap.set i ⟨key, val⟩)).Perm ((key, val) :: entries pidmap) := by
  obtain ⟨slot, here, zero⟩ := Option.map_eq_some_iff.mp free
  obtain ⟨inside, _⟩ := List.getElem?_eq_some_iff.mp here
  have before := entries_perm here
  have after := entries_set inside ⟨key, val⟩
  rw [taken, if_pos zero] at before
  rw [taken, if_neg used] at after
  exact after.trans (before.symm.cons _)

theorem stupidMapAdd_full {pidmap : List Slot} {key val : Int}
    (full : (stupidMapAdd pidmap key val).1 = -1) : (entries pidmap).length = pidmap.length := by
  rw [stupidMapAdd] at full
  cases found : findKey pidmap 0 pidmap.length 0 with
  | some i =>
      rw [found] at full
      exact absurd full (by simp)
  | none =>
      have busy := findKey_none (Nat.zero_add _) found
      rw [entries, List.length_filterMap_eq_countP, List.countP_eq_length]
      intro slot member
      obtain ⟨i, here⟩ := List.getElem?_of_mem member
      have used : slot.key ≠ 0 := by
        intro zero
        apply busy i (Nat.zero_le i)
        rw [keyAt, here, Option.map_some, zero]
      rw [taken, if_neg used]
      rfl

theorem stupidMapAdd_length (pidmap : List Slot) (key val : Int) :
    (stupidMapAdd pidmap key val).2.length = pidmap.length := by
  rw [stupidMapAdd]
  split
  · exact List.length_set
  · rfl

theorem stupidMapAdd_room {pidmap : List Slot} (room : (entries pidmap).length < pidmap.length)
    {key : Int} (used : key ≠ 0) (val : Int) :
    (stupidMapAdd pidmap key val).1 ≠ -1 ∧
      (entries (stupidMapAdd pidmap key val).2).Perm ((key, val) :: entries pidmap) := by
  have fits : (stupidMapAdd pidmap key val).1 ≠ -1 := fun full => room.ne (stupidMapAdd_full full)
  refine ⟨fits, ?_⟩
  rw [stupidMapAdd] at fits ⊢
  cases found : findKey pidmap 0 pidmap.length 0 with
  | some i => exact entries_fill (findKey_sound found) used val
  | none =>
      rw [found] at fits
      exact absurd rfl fits

theorem stupidMapRemove_length (pidmap : List Slot) (key : Int) :
    (stupidMapRemove pidmap key).2.length = pidmap.length := by
  rw [stupidMapRemove]
  split
  · exact List.length_set
  · rfl

theorem mem_entries_iff {pidmap : List Slot} {key val : Int} :
    (key, val) ∈ entries pidmap ↔ ⟨key, val⟩ ∈ pidmap ∧ key ≠ 0 := by
  rw [entries, List.mem_filterMap]
  constructor
  · rintro ⟨slot, member, kept⟩
    rw [taken] at kept
    split at kept
    · contradiction
    · rename_i used
      obtain ⟨rfl, rfl⟩ := Prod.mk.inj (Option.some.inj kept)
      exact ⟨member, used⟩
  · rintro ⟨member, used⟩
    exact ⟨⟨key, val⟩, member, if_neg used⟩

theorem stupidMapRemove_entry {pidmap : List Slot} {key val : Int}
    (member : (key, val) ∈ entries pidmap) (once : ((entries pidmap).map Prod.fst).Nodup) :
    (stupidMapRemove pidmap key).1 = val ∧
      (entries pidmap).Perm ((key, val) :: entries (stupidMapRemove pidmap key).2) := by
  obtain ⟨inside, used⟩ := mem_entries_iff.mp member
  rw [stupidMapRemove]
  cases found : findKey pidmap key pidmap.length 0 with
  | none =>
      obtain ⟨i, here⟩ := List.getElem?_of_mem inside
      have missing := findKey_none (Nat.zero_add _) found i (Nat.zero_le i)
      rw [keyAt, here] at missing
      exact absurd rfl missing
  | some i =>
      obtain ⟨slot, here, same⟩ := Option.map_eq_some_iff.mp (findKey_sound found)
      obtain ⟨short, _⟩ := List.getElem?_eq_some_iff.mp here
      have filled : slot.key ≠ 0 := same ▸ used
      have before := entries_perm here
      have after := entries_set short { slot with key := 0 }
      rw [taken, if_neg filled] at before
      rw [taken, if_pos rfl] at after
      have whole := before.trans (after.symm.cons (slot.key, slot.val))
      have value : slot.val = val := by
        have also : (key, slot.val) ∈ entries pidmap := same ▸ before.mem_iff.mpr List.mem_cons_self
        have pair := List.inj_on_of_nodup_map once also member rfl
        exact (Prod.mk.inj pair).2
      have got : pidmap.getD i ⟨0, -1⟩ = slot := by
        rw [List.getD_eq_getElem?_getD, here]
        rfl
      simp only [got]
      subst value
      rw [same] at whole
      exact ⟨rfl, whole⟩

end DirtyCode.ParallelExec
