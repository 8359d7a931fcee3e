import DirtyCode.Lib.CString

/-!
Texts laid over each other in memory, one write after the other.
-/

namespace DirtyCode.Lib.Memory

def overlay (memory : Memory) (writes : List (Nat × List UInt8)) : Memory :=
  writes.foldl (fun memory text => memory.write text.1 text.2) memory

def Covers (text : Nat × List UInt8) (place : Nat) : Prop :=
  text.1 ≤ place ∧ place < text.1 + text.2.length

instance (text : Nat × List UInt8) (place : Nat) : Decidable (Covers text place) :=
  inferInstanceAs (Decidable (_ ∧ _))

variable {memory other : Memory} {writes rest : List (Nat × List UInt8)}
  {text : Nat × List UInt8} {bytes : List UInt8} {base target place offset : Nat}

theorem write_free (free : ¬Covers (target, bytes) place) :
    memory.write target bytes place = memory place := by
  apply write_outside
  simp only [Covers] at free
  omega

theorem write_congr (same : memory (base + place) = other place) :
    memory.write (base + target) bytes (base + place) = other.write target bytes place := by
  by_cases covered : Covers (target, bytes) place
  · obtain ⟨offset, rfl⟩ := Nat.exists_eq_add_of_le covered.1
    have inside : offset < bytes.length := Nat.lt_of_add_lt_add_left covered.2
    rw [← Nat.add_assoc, write_inside inside, write_inside inside]
  · have shifted : ¬Covers (base + target, bytes) (base + place) := by
      simp only [Covers] at covered ⊢
      omega
    rw [write_free covered, write_free shifted, same]

theorem overlay_append (memory : Memory) (first second : List (Nat × List UInt8)) :
    memory.overlay (first ++ second) = (memory.overlay first).overlay second :=
  List.foldl_append

theorem overlay_congr (same : memory place = other place) (writes : List (Nat × List UInt8)) :
    memory.overlay writes place = other.overlay writes place := by
  induction writes generalizing memory other with
  | nil => exact same
  | cons text rest ih =>
      have here : memory (0 + place) = other place := by rwa [Nat.zero_add]
      have next := @write_congr memory other text.2 0 text.1 place here
      rw [Nat.zero_add, Nat.zero_add] at next
      exact ih next

theorem overlay_free (free : ∀ text ∈ writes, ¬Covers text place) :
    memory.overlay writes place = memory place := by
  induction writes generalizing memory with
  | nil => rfl
  | cons text rest ih =>
      obtain ⟨here, later⟩ := List.forall_mem_cons.mp free
      exact (ih later).trans (write_free here)

theorem overlay_last (inside : offset < bytes.length)
    (free : ∀ text ∈ rest, ¬Covers text (target + offset)) :
    memory.overlay (writes ++ (target, bytes) :: rest) (target + offset) = bytes[offset] := by
  rw [overlay_append, overlay, List.foldl_cons, ← overlay, overlay_free free]
  exact write_inside inside

theorem slice_overlay_last
    (free : ∀ offset < bytes.length, ∀ text ∈ rest, ¬Covers text (target + offset)) :
    (memory.overlay (writes ++ (target, bytes) :: rest)).slice target bytes.length = bytes := by
  rw [overlay_append, overlay, List.foldl_cons, ← overlay]
  have written := slice_write_self (memory.overlay writes) target bytes
  exact (slice_congr fun offset inside => overlay_free (free offset inside)).trans written

theorem overlay_covered (covered : ∃ text ∈ writes, Covers text place) :
    ∃ text ∈ writes, Covers text place ∧ memory.overlay writes place ∈ text.2 := by
  induction writes generalizing memory with
  | nil =>
      obtain ⟨text, member, -⟩ := covered
      contradiction
  | cons text rest ih =>
      by_cases later : ∃ text ∈ rest, Covers text place
      · obtain ⟨last, member, both⟩ := ih later
        exact ⟨last, List.mem_cons_of_mem _ member, both⟩
      · have here : Covers text place := by
          obtain ⟨another, member, covers⟩ := covered
          rcases List.mem_cons.mp member with rfl | member
          · exact covers
          · exact absurd ⟨another, member, covers⟩ later
        refine ⟨text, List.mem_cons_self, here, ?_⟩
        have free : ∀ text ∈ rest, ¬Covers text place :=
          fun another member covers => later ⟨another, member, covers⟩
        obtain ⟨offset, rfl⟩ := Nat.exists_eq_add_of_le here.1
        have inside : offset < text.2.length := Nat.lt_of_add_lt_add_left here.2
        have last := @overlay_last memory [] rest text.2 text.1 offset inside free
        rw [List.nil_append] at last
        rw [last]
        exact List.getElem_mem inside

end DirtyCode.Lib.Memory
