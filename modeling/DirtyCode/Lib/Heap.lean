import Mathlib

/-!
A heap of C strings. The allocator is a parameter: which free block `strdup`
returns may depend on the heap and on the calls made before.
-/

namespace DirtyCode.Lib

abbrev Heap := List (Nat × List UInt8)

namespace Heap

/-- The string at an address, if a block is allocated there. -/
def read (heap : Heap) (address : Nat) : Option (List UInt8) :=
  (heap.find? fun block => block.1 = address).map Prod.snd

def free (heap : Heap) (address : Nat) : Heap := heap.filter fun block => block.1 ≠ address

def store (heap : Heap) (address : Nat) (bytes : List UInt8) : Heap := (address, bytes) :: heap

end Heap

structure Allocator where
  strdup : Heap → Nat → Option Nat
  fresh : ∀ heap calls address, strdup heap calls = some address →
    address ≠ 0 ∧ heap.read address = none

namespace Heap

@[simp] theorem read_store_self (heap : Heap) (address : Nat) (bytes : List UInt8) :
    (heap.store address bytes).read address = some bytes := by
  simp [read, store]

theorem read_store_other (heap : Heap) {address other : Nat} (bytes : List UInt8)
    (apart : other ≠ address) : (heap.store address bytes).read other = heap.read other := by
  simp [read, store, apart.symm]

@[simp] theorem read_free_self (heap : Heap) (address : Nat) :
    (heap.free address).read address = none := by
  simp only [read, free, Option.map_eq_none_iff, List.find?_eq_none]
  intro block member
  have kept := (List.mem_filter.mp member).2
  simpa using kept

theorem read_free_other (heap : Heap) {address other : Nat} (apart : other ≠ address) :
    (heap.free address).read other = heap.read other := by
  induction heap with
  | nil => rfl
  | cons block rest ih =>
      simp only [read, free] at ih ⊢
      by_cases gone : block.1 = address
      · have different : ¬block.1 = other := by
          intro equal
          exact apart (equal.symm.trans gone)
        simpa [gone, different, apart.symm] using ih
      · by_cases found : block.1 = other
        · simp [found, apart]
        · simpa [gone, found] using ih

end Heap

end DirtyCode.Lib
