import Mathlib

/-!
A finite map laid out over numbered buckets: which buckets are in use, and what their
keys and values are. Two keys are the same entry when their texts are.
-/

namespace DirtyCode.Lib

variable {Key Val Text : Type*}

/-- The buckets in use hold the entries of the map, each of them once. -/
structure Holds (text : Key → Text) (used : Finset Nat) (keys : Nat → Key) (vals : Nat → Val)
    (entries : Text → Option (Key × Val)) : Prop where
  bucket : ∀ i ∈ used, entries (text (keys i)) = some (keys i, vals i)
  once : ∀ i ∈ used, ∀ j ∈ used, text (keys i) = text (keys j) → i = j
  covers : ∀ word entry, entries word = some entry → ∃ i ∈ used, text (keys i) = word

namespace Holds

variable {text : Key → Text} {used : Finset Nat} {keys : Nat → Key} {vals : Nat → Val}
  {entries : Text → Option (Key × Val)}

theorem nothing (text : Key → Text) (keys : Nat → Key) (vals : Nat → Val) :
    Holds text ∅ keys vals fun _ => none where
  bucket := by simp
  once := by simp
  covers := by simp

theorem entry_iff (holds : Holds text used keys vals entries) (word : Text) (entry : Key × Val) :
    entries word = some entry ↔ ∃ i ∈ used, text (keys i) = word ∧ (keys i, vals i) = entry := by
  constructor
  · intro found
    obtain ⟨i, member, rfl⟩ := holds.covers word entry found
    exact ⟨i, member, rfl, Option.some.inj ((holds.bucket i member).symm.trans found)⟩
  · rintro ⟨i, member, rfl, rfl⟩
    exact holds.bucket i member

theorem absent_iff (holds : Holds text used keys vals entries) (word : Text) :
    entries word = none ↔ ∀ i ∈ used, text (keys i) ≠ word := by
  constructor
  · rintro absent i member rfl
    simp [holds.bucket i member] at absent
  · intro apart
    cases found : entries word with
    | none => rfl
    | some entry =>
        obtain ⟨i, member, same⟩ := holds.covers word entry found
        exact absurd same (apart i member)

theorem congr {otherKeys : Nat → Key} {otherVals : Nat → Val}
    (holds : Holds text used keys vals entries)
    (agree : ∀ i ∈ used, otherKeys i = keys i ∧ otherVals i = vals i) :
    Holds text used otherKeys otherVals entries where
  bucket i member := by
    rw [(agree i member).1, (agree i member).2]
    exact holds.bucket i member
  once i member j also same := by
    rw [(agree i member).1, (agree j also).1] at same
    exact holds.once i member j also same
  covers word entry found := by
    obtain ⟨i, member, same⟩ := holds.covers word entry found
    exact ⟨i, member, by rw [(agree i member).1, same]⟩

variable [DecidableEq Text]

theorem remove (holds : Holds text used keys vals entries) {i : Nat} (member : i ∈ used) :
    Holds text (used.erase i) keys vals (Function.update entries (text (keys i)) none) where
  bucket j also := by
    obtain ⟨apart, inside⟩ := Finset.mem_erase.mp also
    have other : text (keys j) ≠ text (keys i) := fun same =>
      apart (holds.once j inside i member same)
    rw [Function.update_of_ne other]
    exact holds.bucket j inside
  once j also k third same :=
    holds.once j (Finset.mem_of_mem_erase also) k (Finset.mem_of_mem_erase third) same
  covers word entry found := by
    by_cases same : word = text (keys i)
    · simp [same] at found
    · rw [Function.update_of_ne same] at found
      obtain ⟨j, inside, this⟩ := holds.covers word entry found
      have apart : j ≠ i := fun equal => same (by rw [← this, equal])
      exact ⟨j, Finset.mem_erase.mpr ⟨apart, inside⟩, this⟩

theorem insert (holds : Holds text used keys vals entries) {i : Nat} (free : i ∉ used) (key : Key)
    (absent : entries (text key) = none) (val : Val) :
    Holds text (insert i used) (Function.update keys i key) (Function.update vals i val)
      (Function.update entries (text key) (some (key, val))) := by
  have kept : ∀ j ∈ used, Function.update keys i key j = keys j ∧
      Function.update vals i val j = vals j := by
    intro j member
    have apart : j ≠ i := fun equal => free (equal ▸ member)
    exact ⟨Function.update_of_ne apart _ _, Function.update_of_ne apart _ _⟩
  have apart := (holds.absent_iff (text key)).mp absent
  constructor
  · intro j member
    rcases Finset.mem_insert.mp member with rfl | inside
    · simp
    · rw [(kept j inside).1, (kept j inside).2, Function.update_of_ne (apart j inside)]
      exact holds.bucket j inside
  · intro j member k also same
    rcases Finset.mem_insert.mp member with rfl | inside <;>
      rcases Finset.mem_insert.mp also with rfl | within
    · rfl
    · rw [Function.update_self, (kept k within).1] at same
      exact absurd same.symm (apart k within)
    · rw [Function.update_self, (kept j inside).1] at same
      exact absurd same (apart j inside)
    · rw [(kept j inside).1, (kept k within).1] at same
      exact holds.once j inside k within same
  · intro word entry found
    by_cases same : word = text key
    · exact ⟨i, Finset.mem_insert_self i used, by rw [Function.update_self, same]⟩
    · rw [Function.update_of_ne same] at found
      obtain ⟨j, inside, this⟩ := holds.covers word entry found
      exact ⟨j, Finset.mem_insert_of_mem inside, by rw [(kept j inside).1, this]⟩

theorem setVal (holds : Holds text used keys vals entries) {i : Nat} (member : i ∈ used)
    (val : Val) :
    Holds text used keys (Function.update vals i val)
      (Function.update entries (text (keys i)) (some (keys i, val))) := by
  have removed := holds.remove member
  have again := removed.insert (Finset.notMem_erase i used) (keys i) (by simp) val
  rw [Finset.insert_erase member, Function.update_eq_self, Function.update_idem] at again
  exact again

theorem ncard_eq (holds : Holds text used keys vals entries) :
    {word | (entries word).isSome}.ncard = used.card := by
  have image : {word | (entries word).isSome} = ↑(used.image fun i => text (keys i)) := by
    ext word
    simp only [Set.mem_ofPred_eq, Option.isSome_iff_exists, holds.entry_iff, Finset.coe_image,
      Set.mem_image, Finset.mem_coe]
    constructor
    · rintro ⟨-, i, member, same, -⟩
      exact ⟨i, member, same⟩
    · rintro ⟨i, member, same⟩
      exact ⟨_, i, member, same, rfl⟩
  rw [image, Set.ncard_coe_finset, Finset.card_image_of_injOn]
  intro i member j also same
  exact holds.once i member j also same

end Holds

end DirtyCode.Lib
