import DirtyCode.Lib.CString

/-!
Domain names in messages: labels with a length in front of each, pointers to the rest of
an earlier name, and the dotted text that they stand for.
-/

namespace DirtyCode.Lib

/-- A label whose bytes cannot be taken for a pointer, for a dot or for the end. -/
structure Label where
  text : List UInt8
  nonempty : text ≠ []
  short : text.length ≤ 63
  plain : ∀ byte ∈ text, byte ≠ 0 ∧ byte ≠ 46 ∧ byte < 192

def Label.wire (label : Label) : List UInt8 := UInt8.ofNat label.text.length :: label.text

def wireOf (labels : List Label) : List UInt8 := labels.flatMap Label.wire

def dotted (labels : List Label) : List UInt8 := [46].intercalate (labels.map Label.text)

def pointerTarget (first second : UInt8) : Nat := first.toNat * 256 + second.toNat - 49152

/-- The labels that the bytes from an offset on stand for, and how many of these bytes
belong to the name itself. -/
inductive NameAt (buffer : Memory) : Nat → List Label → Nat → Prop
  | root {offset : Nat} (ended : buffer offset = 0) : NameAt buffer offset [] 1
  | label {offset length : Nat} {rest : List Label} (label : Label)
      (content : buffer.slice offset label.wire.length = label.wire)
      (onward : NameAt buffer (offset + label.wire.length) rest length) :
      NameAt buffer offset (label :: rest) (label.wire.length + length)
  | pointer {offset length : Nat} {labels : List Label} (marked : 192 ≤ buffer offset)
      (target : NameAt buffer (pointerTarget (buffer offset) (buffer (offset + 1))) labels length) :
      NameAt buffer offset labels 2

@[simp] theorem wireOf_nil : wireOf [] = [] := rfl

@[simp] theorem wireOf_cons (label : Label) (rest : List Label) :
    wireOf (label :: rest) = label.wire ++ wireOf rest := List.flatMap_cons

theorem Label.length_pos (label : Label) : 0 < label.text.length :=
  List.length_pos_of_ne_nil label.nonempty

theorem Label.length_byte (label : Label) :
    (UInt8.ofNat label.text.length).toNat = label.text.length := by
  have short := label.short
  rw [UInt8.toNat_ofNat']
  exact Nat.mod_eq_of_lt (by omega)

@[simp] theorem Label.length_wire (label : Label) : label.wire.length = label.text.length + 1 := rfl

theorem Label.wire_plain (label : Label) : ∀ byte ∈ label.wire, byte ≠ 0 ∧ byte < 192 := by
  intro byte member
  rcases List.mem_cons.mp member with rfl | inside
  · have length := label.length_byte
    have positive := label.length_pos
    have short := label.short
    constructor
    · intro zero
      rw [zero] at length
      simp only [UInt8.toNat_zero] at length
      omega
    · rw [UInt8.lt_iff_toNat_lt, length]
      exact short.trans_lt (by decide)
  · exact ⟨(label.plain byte inside).1, (label.plain byte inside).2.2⟩

theorem wireOf_plain (labels : List Label) : ∀ byte ∈ wireOf labels, byte ≠ 0 ∧ byte < 192 := by
  intro byte member
  obtain ⟨label, -, inside⟩ := List.mem_flatMap.mp member
  exact label.wire_plain byte inside

theorem length_le_wireOf (labels : List Label) : labels.length ≤ (wireOf labels).length := by
  induction labels with
  | nil => exact le_rfl
  | cons label rest ih =>
      rw [wireOf_cons, List.length_append, List.length_cons, label.length_wire]
      omega

/-- With a dot behind every label instead of between two. -/
theorem dotted_snoc {labels : List Label} (named : labels ≠ []) :
    dotted labels ++ [46] = labels.flatMap fun label => label.text ++ [46] := by
  induction labels with
  | nil => contradiction
  | cons label rest ih =>
      cases rest with
      | nil => simp [dotted, List.intercalate]
      | cons next others =>
          have tail := ih (List.cons_ne_nil _ _)
          rw [List.flatMap_cons, ← tail]
          simp [dotted, List.intercalate]

theorem splitOn_dotted {labels : List Label} (named : labels ≠ []) :
    (dotted labels).splitOn 46 = labels.map Label.text := by
  have undotted : ∀ text ∈ labels.map Label.text, (46 : UInt8) ∉ text := by
    intro text member inside
    obtain ⟨label, -, rfl⟩ := List.mem_map.mp member
    exact (label.plain 46 inside).2.1 rfl
  exact List.splitOn_intercalate 46 undotted (by simpa using named)

theorem nameAt_of_slice {buffer : Memory} {offset : Nat} {labels : List Label}
    (content : buffer.slice offset (wireOf labels).length = wireOf labels)
    (ended : buffer (offset + (wireOf labels).length) = 0) :
    NameAt buffer offset labels ((wireOf labels).length + 1) := by
  induction labels generalizing offset with
  | nil => exact .root ended
  | cons label rest ih =>
      rw [wireOf_cons, List.length_append, Memory.slice_append] at content
      obtain ⟨first, later⟩ := List.append_inj content (Memory.length_slice _ _ _)
      rw [wireOf_cons, List.length_append, ← Nat.add_assoc] at ended
      have onward := ih later ended
      rw [wireOf_cons, List.length_append, Nat.add_assoc]
      exact .label label first onward

end DirtyCode.Lib
