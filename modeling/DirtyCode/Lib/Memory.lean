import Mathlib

/-!
Flat byte memory. A block is a total map from offsets to bytes, so a copy past
the end of one buffer lands in whatever lies behind it.
-/

namespace DirtyCode.Lib

abbrev Memory := Nat → UInt8

namespace Memory

def slice (memory : Memory) : Nat → Nat → List UInt8
  | _, 0 => []
  | base, count + 1 => memory base :: slice memory (base + 1) count

def view (memory : Memory) (base : Nat) : Memory := fun offset => memory (base + offset)

def memcpy (memory : Memory) (target : Nat) (source : Memory) (count : Nat) : Memory :=
  fun offset => if target ≤ offset ∧ offset < target + count then source (offset - target)
    else memory offset

def set (memory : Memory) (address : Nat) (byte : UInt8) : Memory :=
  memory.memcpy address (fun _ => byte) 1

/-- The bytes of a number, lowest first. -/
def littleEndian (value : Nat) : Memory := fun offset => UInt8.ofNat (value / 256 ^ offset % 256)

def ofLittleEndian : List UInt8 → Nat
  | [] => 0
  | byte :: rest => byte.toNat + 256 * ofLittleEndian rest

-- a pointer takes eight bytes
def storeWord (memory : Memory) (address value : Nat) : Memory :=
  memory.memcpy address (littleEndian value) 8

def loadWord (memory : Memory) (address : Nat) : Nat := ofLittleEndian (memory.slice address 8)

@[simp] theorem slice_zero (memory : Memory) (base : Nat) : memory.slice base 0 = [] := rfl

@[simp] theorem length_slice (memory : Memory) (base count : Nat) :
    (memory.slice base count).length = count := by
  induction count generalizing base with
  | zero => rfl
  | succ count ih => simp [slice, ih]

theorem slice_append (memory : Memory) (base first second : Nat) :
    memory.slice base (first + second) =
      memory.slice base first ++ memory.slice (base + first) second := by
  induction first generalizing base with
  | zero => simp
  | succ first ih =>
      have shifted : base + 1 + first = base + (first + 1) := by omega
      rw [Nat.succ_add]
      simp only [slice, ih, shifted, List.cons_append]

theorem mem_slice {memory : Memory} {base count : Nat} {byte : UInt8} :
    byte ∈ memory.slice base count ↔ ∃ offset < count, memory (base + offset) = byte := by
  induction count generalizing base with
  | zero => simp
  | succ count ih =>
      rw [slice, List.mem_cons, ih, Nat.exists_lt_succ_left, eq_comm]
      simp only [Nat.add_assoc, Nat.add_comm 1, Nat.add_zero]

theorem slice_drop (memory : Memory) (base : Nat) {skipped count : Nat} (within : skipped ≤ count) :
    memory.slice (base + skipped) (count - skipped) = (memory.slice base count).drop skipped := by
  have split := memory.slice_append base skipped (count - skipped)
  rw [Nat.add_sub_cancel' within] at split
  rw [split, List.drop_left' (memory.length_slice base skipped)]

theorem slice_congr {left right : Memory} {base other count : Nat}
    (agree : ∀ offset < count, left (base + offset) = right (other + offset)) :
    left.slice base count = right.slice other count := by
  induction count generalizing base other with
  | zero => rfl
  | succ count ih =>
      simp only [slice, List.cons.injEq]
      refine ⟨by simpa using agree 0 (by omega), ih ?_⟩
      intro offset below
      have next := agree (offset + 1) (by omega)
      simpa [Nat.add_assoc, Nat.add_comm 1] using next

@[simp] theorem slice_view (memory : Memory) (base start count : Nat) :
    (memory.view base).slice start count = memory.slice (base + start) count := by
  apply slice_congr
  intro offset _
  simp [Memory.view, Nat.add_assoc]

theorem slice_getD (bytes : List UInt8) :
    slice (fun offset => bytes.getD offset 0) 0 bytes.length = bytes := by
  induction bytes with
  | nil => rfl
  | cons byte rest ih =>
      rw [List.length_cons, slice]
      congr 1
      nth_rewrite 3 [← ih]
      apply slice_congr
      intro offset _
      rw [Nat.zero_add, Nat.zero_add, Nat.add_comm 1, List.getD_cons_succ]

theorem slice_memcpy_self (memory source : Memory) (target count : Nat) :
    (memory.memcpy target source count).slice target count = source.slice 0 count := by
  apply slice_congr
  intro offset below
  simp [memcpy, below]

theorem slice_memcpy_disjoint (memory source : Memory) {target count base length : Nat}
    (apart : base + length ≤ target ∨ target + count ≤ base) :
    (memory.memcpy target source count).slice base length = memory.slice base length := by
  apply slice_congr
  intro offset below
  have outside : ¬(target ≤ base + offset ∧ base + offset < target + count) := by omega
  simp [memcpy, outside]

theorem memcpy_outside (memory source : Memory) {target count offset : Nat}
    (apart : offset < target ∨ target + count ≤ offset) :
    memory.memcpy target source count offset = memory offset := by
  have outside : ¬(target ≤ offset ∧ offset < target + count) := by omega
  simp [memcpy, outside]

@[simp] theorem memcpy_zero (memory source : Memory) (target : Nat) :
    memory.memcpy target source 0 = memory := by
  funext offset
  exact memcpy_outside _ _ (by omega)

@[simp] theorem set_self (memory : Memory) (address : Nat) (byte : UInt8) :
    memory.set address byte address = byte := by
  simp [set, memcpy]

theorem set_other (memory : Memory) {address offset : Nat} (byte : UInt8)
    (apart : offset ≠ address) : memory.set address byte offset = memory offset :=
  memcpy_outside _ _ (by omega)

theorem apply_of_slice {memory : Memory} {base : Nat} {bytes : List UInt8} {offset : Nat}
    (held : memory.slice base bytes.length = bytes) (below : offset < bytes.length) :
    memory (base + offset) = bytes[offset] := by
  induction bytes generalizing base offset with
  | nil => simp at below
  | cons byte rest ih =>
      simp only [List.length_cons, slice, List.cons.injEq] at held
      cases offset with
      | zero => exact held.1
      | succ offset =>
          have next := ih held.2 (by simpa using below)
          simpa [Nat.add_assoc, Nat.add_comm 1] using next

theorem slice_replicate {memory : Memory} {base count : Nat} {byte : UInt8}
    (same : ∀ offset < count, memory (base + offset) = byte) :
    memory.slice base count = List.replicate count byte := by
  induction count generalizing base with
  | zero => rfl
  | succ count ih =>
      simp only [slice, List.replicate_succ, List.cons.injEq]
      refine ⟨by simpa using same 0 (by omega), ih ?_⟩
      intro offset below
      have next := same (offset + 1) (by omega)
      simpa [Nat.add_assoc, Nat.add_comm 1] using next

theorem storeWord_outside (memory : Memory) {address value offset : Nat}
    (apart : offset < address ∨ address + 8 ≤ offset) :
    memory.storeWord address value offset = memory offset :=
  memcpy_outside _ _ apart

theorem ofLittleEndian_slice (value start count : Nat) :
    ofLittleEndian ((littleEndian value).slice start count) =
      value / 256 ^ start % 256 ^ count := by
  induction count generalizing start with
  | zero => simp [ofLittleEndian, Nat.mod_one]
  | succ count ih =>
      have lowest : (littleEndian value start).toNat = value / 256 ^ start % 256 := by
        simp [littleEndian]
      rw [slice, ofLittleEndian, ih, lowest, Nat.pow_succ 256 start, ← Nat.div_div_eq_div_mul,
        Nat.pow_succ', Nat.mod_mul]

theorem loadWord_storeWord (memory : Memory) (address : Nat) {value : Nat}
    (small : value < 2 ^ 64) : (memory.storeWord address value).loadWord address = value := by
  rw [loadWord, storeWord, slice_memcpy_self, ofLittleEndian_slice, Nat.pow_zero, Nat.div_one]
  exact Nat.mod_eq_of_lt small

theorem loadWord_congr {left right : Memory} {address : Nat}
    (agree : ∀ offset, address ≤ offset → offset < address + 8 → left offset = right offset) :
    left.loadWord address = right.loadWord address := by
  rw [loadWord, loadWord]
  congr 1
  exact slice_congr fun offset below => agree _ (by omega) (by omega)

end Memory

end DirtyCode.Lib
