import DirtyCode.Lib.Memory
import DirtyCode.Lib.Spans

/-!
C strings in flat memory, and copies into it that end a string and that do not.
-/

namespace DirtyCode.Lib.Memory

def write (memory : Memory) (target : Nat) (bytes : List UInt8) : Memory :=
  memory.memcpy target (fun offset => bytes.getD offset 0) bytes.length

/-- `strlen`, which fails where it would leave the array that the string is in. -/
def strlen (memory : Memory) : Nat → Nat → Option Nat
  | _, 0 => none
  | base, room + 1 =>
      if memory base = 0 then some 0 else (strlen memory (base + 1) room).map (· + 1)

def strncpy (memory : Memory) : Nat → Nat → List UInt8
  | _, 0 => []
  | base, count + 1 =>
      if memory base = 0 then List.replicate (count + 1) 0
      else memory base :: strncpy memory (base + 1) count

/-- What `snprintf` stores of a string, undefined where the string leaves its array. -/
def snprintf (memory : Memory) (base room : Nat) : Nat → Option (List UInt8)
  | 0 => (memory.strlen base room).map fun _ => []
  | size + 1 => (memory.strlen base room).map fun length =>
      memory.slice base (min length size) ++ [0]

def strcpy (memory : Memory) (target : Nat) (text : List UInt8) : Memory :=
  memory.write target (text ++ [0])

/-- The C string at an address. -/
structure Shows (memory : Memory) (base : Nat) (text : List UInt8) : Prop where
  content : memory.slice base text.length = text
  ended : memory (base + text.length) = 0
  plain : 0 ∉ text

variable {memory : Memory} {base target : Nat} {bytes text : List UInt8}

theorem slice_part (memory : Memory) (base : Nat) {skipped count length : Nat}
    (within : skipped + count ≤ length) :
    ((memory.slice base length).drop skipped).take count = memory.slice (base + skipped) count := by
  obtain ⟨rest, rfl⟩ := Nat.exists_eq_add_of_le within
  rw [Nat.add_assoc, slice_append, List.drop_left' (length_slice _ _ _), slice_append,
    List.take_left' (length_slice _ _ _)]

theorem write_inside {offset : Nat} (inside : offset < bytes.length) :
    memory.write target bytes (target + offset) = bytes[offset] := by
  have within : target ≤ target + offset ∧ target + offset < target + bytes.length := by omega
  rw [write, memcpy, if_pos within, Nat.add_sub_cancel_left, List.getD_eq_getElem _ _ inside]

theorem write_outside {offset : Nat} (outside : offset < target ∨ target + bytes.length ≤ offset) :
    memory.write target bytes offset = memory offset :=
  memcpy_outside _ _ outside

theorem slice_write_self (memory : Memory) (target : Nat) (bytes : List UInt8) :
    (memory.write target bytes).slice target bytes.length = bytes := by
  rw [write, slice_memcpy_self, slice_getD]

theorem slice_write_disjoint {length : Nat}
    (apart : base + length ≤ target ∨ target + bytes.length ≤ base) :
    (memory.write target bytes).slice base length = memory.slice base length :=
  slice_memcpy_disjoint _ _ apart

theorem Shows.byte (shows_ : Shows memory base text) {offset : Nat}
    (inside : offset < text.length) :
    memory (base + offset) = text[offset] := apply_of_slice shows_.content inside

theorem Shows.ne_zero (shows_ : Shows memory base text) {offset : Nat}
    (inside : offset < text.length) : memory (base + offset) ≠ 0 := by
  intro zero
  rw [shows_.byte inside] at zero
  exact shows_.plain (zero ▸ List.getElem_mem inside)

theorem Shows.length_unique (shows_ : Shows memory base text) (other : Shows memory base bytes) :
    text.length = bytes.length := by
  rcases Nat.lt_trichotomy text.length bytes.length with shorter | same | longer
  · exact absurd shows_.ended (other.ne_zero shorter)
  · exact same
  · exact absurd other.ended (shows_.ne_zero longer)

theorem Shows.unique (shows_ : Shows memory base text) (other : Shows memory base bytes) :
    text = bytes := by
  rw [← shows_.content, ← other.content, shows_.length_unique other]

theorem Shows.tail {byte : UInt8} (shows_ : Shows memory base (byte :: text)) :
    memory base = byte ∧ byte ≠ 0 ∧ Shows memory (base + 1) text := by
  have content := shows_.content
  rw [List.length_cons, slice, List.cons.injEq] at content
  have ended := shows_.ended
  rw [List.length_cons, Nat.add_comm text.length, ← Nat.add_assoc] at ended
  have plain := shows_.plain
  rw [List.mem_cons, not_or] at plain
  exact ⟨content.1, Ne.symm plain.1, content.2, ended, plain.2⟩

theorem Shows.cons (shows_ : Shows memory (base + 1) text) (nonzero : memory base ≠ 0) :
    Shows memory base (memory base :: text) where
  content := by rw [List.length_cons, slice, shows_.content]
  ended := by
    rw [List.length_cons, Nat.add_comm text.length, ← Nat.add_assoc]
    exact shows_.ended
  plain := by
    rw [List.mem_cons, not_or]
    exact ⟨nonzero.symm, shows_.plain⟩

theorem shows_iff_slice (plain : 0 ∉ text) :
    Shows memory base text ↔ memory.slice base (text.length + 1) = text ++ [0] := by
  have last : memory.slice (base + text.length) 1 = [memory (base + text.length)] := rfl
  rw [slice_append, last]
  constructor
  · rintro ⟨content, ended, -⟩
    rw [content, ended]
  · intro same
    obtain ⟨content, ended⟩ := List.append_inj same (length_slice _ _ _)
    exact ⟨content, (List.cons.inj ended).1, plain⟩

theorem Shows.drop (shows_ : Shows memory base text) {skipped : Nat}
    (within : skipped ≤ text.length) : Shows memory (base + skipped) (text.drop skipped) where
  content := by
    have inside : skipped + (text.drop skipped).length ≤ text.length := by
      rw [List.length_drop]
      omega
    rw [← slice_part memory base inside, shows_.content, List.take_length]
  ended := by
    rw [List.length_drop, Nat.add_assoc, Nat.add_sub_cancel' within]
    exact shows_.ended
  plain member := shows_.plain (List.mem_of_mem_drop member)

theorem Shows.takeWhile (shows_ : Shows memory base text) {room : Nat}
    (inside : text.length < room) : (memory.slice base room).takeWhile (· ≠ 0) = text := by
  obtain ⟨rest, rfl⟩ := Nat.exists_eq_add_of_lt inside
  have plain : ∀ byte ∈ text, decide (byte ≠ 0) = true := by
    intro byte member
    exact decide_eq_true fun zero => shows_.plain (zero ▸ member)
  have stops : decide (memory (base + text.length) ≠ 0) = false := by simp [shows_.ended]
  rw [Nat.add_assoc, slice_append, shows_.content]
  exact (span_stop plain stops _).1

theorem Shows.slice_eq_iff (shows_ : Shows memory base text) (plain : 0 ∉ bytes) :
    memory.slice base bytes.length = bytes ↔ bytes <+: text := by
  by_cases within : bytes.length ≤ text.length
  · have part := slice_part memory base ((Nat.zero_add _).trans_le within)
    rw [shows_.content, List.drop_zero, Nat.add_zero] at part
    rw [← part, List.prefix_iff_eq_take, eq_comm]
  · refine iff_of_false ?_ fun starts => within starts.length_le
    intro same
    have zero := apply_of_slice same (Nat.lt_of_not_le within)
    rw [shows_.ended] at zero
    exact plain (zero ▸ List.getElem_mem _)

theorem Shows.strlen (shows_ : Shows memory base text) {room : Nat} (inside : text.length < room) :
    memory.strlen base room = some text.length := by
  induction text generalizing base room with
  | nil =>
      cases room with
      | zero => contradiction
      | succ room => exact if_pos shows_.ended
  | cons byte rest ih =>
      obtain ⟨first, nonzero, later⟩ := shows_.tail
      cases room with
      | zero => contradiction
      | succ room =>
          rw [Memory.strlen, first, if_neg nonzero, ih later (Nat.lt_of_succ_lt_succ inside)]
          rfl

theorem exists_shows {length : Nat} (ended : ∃ offset ≤ length, memory (base + offset) = 0) :
    ∃ text, Shows memory base text ∧ text.length ≤ length := by
  induction length generalizing base with
  | zero =>
      obtain ⟨offset, within, zero⟩ := ended
      rw [Nat.le_zero.mp within] at zero
      exact ⟨[], ⟨rfl, zero, List.not_mem_nil⟩, le_rfl⟩
  | succ length ih =>
      by_cases here : memory base = 0
      · exact ⟨[], ⟨rfl, here, List.not_mem_nil⟩, Nat.zero_le _⟩
      · obtain ⟨offset, within, zero⟩ := ended
        cases offset with
        | zero => exact absurd zero here
        | succ offset =>
            rw [Nat.add_comm offset, ← Nat.add_assoc] at zero
            obtain ⟨text, shows_, short⟩ := ih ⟨offset, Nat.le_of_succ_le_succ within, zero⟩
            exact ⟨memory base :: text, shows_.cons here, Nat.succ_le_succ short⟩

theorem Shows.congr {other : Memory} (shows_ : Shows memory base text)
    (agree : ∀ offset ≤ text.length, other (base + offset) = memory (base + offset)) :
    Shows other base text where
  content := (slice_congr fun offset below => agree offset below.le).trans shows_.content
  ended := (agree _ le_rfl).trans shows_.ended
  plain := shows_.plain

theorem Shows.snprintf (shows_ : Shows memory base text) {room : Nat} (inside : text.length < room)
    (size : Nat) : memory.snprintf base room (size + 1) = some (text.take size ++ [0]) := by
  have part := slice_part memory base
    ((Nat.zero_add _).trans_le (Nat.min_le_left text.length size))
  rw [shows_.content, List.drop_zero, Nat.add_zero, Nat.min_comm, ← List.take_eq_take_min] at part
  rw [Memory.snprintf, shows_.strlen inside, Option.map_some, Nat.min_comm, part]

theorem strlen_ne_zero {room len : Nat} (nonzero : memory base ≠ 0)
    (measured : memory.strlen base room = some len) : len ≠ 0 := by
  cases room with
  | zero => contradiction
  | succ room =>
      rw [Memory.strlen, if_neg nonzero, Option.map_eq_some_iff] at measured
      obtain ⟨rest, -, rfl⟩ := measured
      exact Nat.succ_ne_zero rest

theorem strncpy_length (memory : Memory) (base count : Nat) :
    (memory.strncpy base count).length = count := by
  induction count generalizing base with
  | zero => rfl
  | succ count ih =>
      rw [strncpy]
      split
      · exact List.length_replicate
      · rw [List.length_cons, ih]

theorem strncpy_inside {count : Nat} (inside : ∀ offset < count, memory (base + offset) ≠ 0) :
    memory.strncpy base count = memory.slice base count := by
  induction count generalizing base with
  | zero => rfl
  | succ count ih =>
      have first := inside 0 (Nat.succ_pos count)
      rw [Nat.add_zero] at first
      rw [strncpy, slice, if_neg first, ih]
      intro offset below
      rw [Nat.add_assoc, Nat.add_comm 1]
      exact inside (offset + 1) (Nat.succ_lt_succ below)

theorem Shows.strncpy (shows_ : Shows memory base text) :
    memory.strncpy base text.length = text :=
  (strncpy_inside fun _ inside => shows_.ne_zero inside).trans shows_.content

theorem Shows.write_disjoint (shows_ : Shows memory base text)
    (apart : base + text.length < target ∨ target + bytes.length ≤ base) :
    Shows (memory.write target bytes) base text := by
  apply shows_.congr
  intro offset within
  exact write_outside (by omega)

theorem shows_strcpy (plain : 0 ∉ text) : Shows (memory.strcpy base text) base text where
  content := by
    have whole := slice_write_self memory base (text ++ [0])
    rw [List.length_append, slice_append] at whole
    exact (List.append_inj whole (length_slice _ _ _)).1
  ended := by
    have inside : text.length < (text ++ [(0 : UInt8)]).length := by simp
    rw [strcpy, write_inside inside]
    simp
  plain := plain

end DirtyCode.Lib.Memory
