import DirtyCode.Lib.Loop

/-!
`java.util.ArrayList` with its fail-fast iterator and the ranges that `subList` takes.
-/

namespace DirtyCode.Lib

inductive JavaException
  | concurrentModification
  | illegalState
  | noSuchElement
  | indexOutOfBounds
  | illegalArgument
  deriving DecidableEq, Repr

structure ArrayList (α : Type*) where
  elements : List α
  modCount : BitVec 32

structure Itr where
  cursor : Nat
  lastRet : Option Nat
  expectedModCount : BitVec 32

variable {α : Type*}

namespace ArrayList

def removeAt (list : ArrayList α) (index : Nat) : ArrayList α :=
  ⟨list.elements.eraseIdx index, list.modCount + 1⟩

/-- `remove` of an object takes the first one that is equal, if there is any. -/
def remove [DecidableEq α] (list : ArrayList α) (element : α) : ArrayList α :=
  if element ∈ list.elements then ⟨list.elements.erase element, list.modCount + 1⟩ else list

def iterator (list : ArrayList α) : Itr := ⟨0, none, list.modCount⟩

def subList (list : ArrayList α) (first last : Int) : Except JavaException (List α) :=
  if first < 0 ∨ list.elements.length < last then .error .indexOutOfBounds
  else if last < first then .error .illegalArgument
  else .ok ((list.elements.drop first.toNat).take (last - first).toNat)

theorem subList_of_range (list : ArrayList α) {first last : Nat} (ordered : first ≤ last)
    (inside : last ≤ list.elements.length) :
    list.subList first last = .ok ((list.elements.drop first).take (last - first)) := by
  rw [subList, if_neg (by omega), if_neg (by omega)]
  congr 2
  omega

end ArrayList

namespace Itr

def hasNext (it : Itr) (list : ArrayList α) : Bool := it.cursor ≠ list.elements.length

def next (it : Itr) (list : ArrayList α) : Except JavaException (α × Itr) :=
  if list.modCount ≠ it.expectedModCount then .error .concurrentModification
  else
    match list.elements[it.cursor]? with
    | none => .error .noSuchElement
    | some element => .ok (element, ⟨it.cursor + 1, some it.cursor, it.expectedModCount⟩)

def remove (it : Itr) (list : ArrayList α) : Except JavaException (ArrayList α × Itr) :=
  match it.lastRet with
  | none => .error .illegalState
  | some last =>
      if list.modCount ≠ it.expectedModCount then .error .concurrentModification
      else .ok (list.removeAt last, ⟨last, none, list.modCount + 1⟩)

/-- The list has only been changed through the iterator. -/
structure Fresh (it : Itr) (list : ArrayList α) : Prop where
  modCount : list.modCount = it.expectedModCount
  cursor : it.cursor ≤ list.elements.length

theorem fresh_iterator (list : ArrayList α) : Fresh list.iterator list := ⟨rfl, Nat.zero_le _⟩

theorem Fresh.hasNext_iff {it : Itr} {list : ArrayList α} (fresh : Fresh it list) :
    it.hasNext list = true ↔ it.cursor < list.elements.length := by
  have within := fresh.cursor
  simp only [hasNext, ne_eq, decide_eq_true_eq]
  omega

theorem Fresh.next {it : Itr} {list : ArrayList α} (fresh : Fresh it list)
    (more : it.cursor < list.elements.length) :
    it.next list = .ok (list.elements[it.cursor],
      ⟨it.cursor + 1, some it.cursor, it.expectedModCount⟩) := by
  rw [Itr.next, if_neg (not_not.mpr fresh.modCount), List.getElem?_eq_getElem more]

theorem Fresh.advance {it : Itr} {list : ArrayList α} (fresh : Fresh it list)
    (more : it.cursor < list.elements.length) :
    Fresh ⟨it.cursor + 1, some it.cursor, it.expectedModCount⟩ list := ⟨fresh.modCount, more⟩

/-- After a removal behind its back the iterator refuses to remove. -/
theorem remove_of_foreign [DecidableEq α] {it : Itr} {list : ArrayList α} {last : Nat} {element : α}
    (started : it.lastRet = some last) (fresh : list.modCount = it.expectedModCount)
    (member : element ∈ list.elements) :
    it.remove (list.remove element) = .error .concurrentModification := by
  have moved : list.modCount + 1 ≠ it.expectedModCount := by
    rw [← fresh]
    bv_omega
  rw [Itr.remove, started, ArrayList.remove, if_pos member]
  exact if_pos moved

end Itr

end DirtyCode.Lib
