import DirtyCode.Lib.CString

/-!
`struct disk_entry` of `disklist.c` as it lies in a table, and what `init_disk_entry` puts there.
-/

namespace DirtyCode.DiskList

open Lib

def maxDisk : Nat := 128

def entrySize : Nat := 556

/-- The text fields that the sections of `megacli -pdlist` fill. -/
inductive Field
  | ver
  | pdType
  | wwn
  | peerAddr
  | raidInq
  deriving DecidableEq

instance : Fintype Field where
  elems := {.ver, .pdType, .wwn, .peerAddr, .raidInq}
  complete field := by cases field <;> decide

namespace Field

def offset : Field → Nat
  | ver => 50
  | pdType => 200
  | wwn => 232
  | peerAddr => 296
  | raidInq => 440

def size : Field → Nat
  | ver => 64
  | pdType => 32
  | wwn => 64
  | peerAddr => 64
  | raidInq => 96

def address (index : Nat) (field : Field) : Nat := entrySize * index + field.offset

theorem apart {field other : Field} (different : field ≠ other) :
    field.offset + field.size ≤ other.offset ∨ other.offset + other.size ≤ field.offset := by
  revert different
  cases field <;> cases other <;> decide

theorem inside (field : Field) : field.offset + field.size ≤ entrySize := by
  cases field <;> decide

end Field

def na : List UInt8 := [78, 65]

-- the nine shorts, `SN`, `VER`, `MODEL`, the float `sizeGB` and the other texts, `type_usb`
def initWrites : List (Nat × List UInt8) :=
  [(0, List.replicate 18 255), (50, na ++ [0]), (18, na ++ [0]), (114, na ++ [0]),
    (180, [0, 0, 128, 191]), (184, na ++ [0]), (200, na ++ [0]), (232, na ++ [0]),
    (296, na ++ [0]), (360, na ++ [0]), (392, na ++ [0]), (408, na ++ [0]), (424, na ++ [0]),
    (440, na ++ [0]), (536, na ++ [0]), (552, [0, 0])]

def writeAll (depot : Memory) (index : Nat) (writes : List (Nat × List UInt8)) : Memory :=
  writes.foldl (fun memory place => memory.write (entrySize * index + place.1) place.2) depot

def initDiskEntry (depot : Memory) (index : Nat) : Memory := writeAll depot index initWrites

abbrev Drive := Field → List UInt8

def untold : Drive := fun _ => na

/-- The entry holds the texts of the drive, each with its end inside its field. -/
structure Exact (depot : Memory) (index : Nat) (drive : Drive) : Prop where
  shows_ : ∀ field, Memory.Shows depot (field.address index) (drive field)
  fits : ∀ field, (drive field).length < field.size

section

variable {depot after : Memory} {index : Nat} {drive : Drive} {text : List UInt8}

theorem Exact.congr (exact_ : Exact depot index drive) (agree : ∀ offset < entrySize,
    after (entrySize * index + offset) = depot (entrySize * index + offset)) :
    Exact after index drive where
  shows_ field := by
    refine (exact_.shows_ field).congr ?_
    intro offset within
    have room := field.inside
    have fits := exact_.fits field
    rw [Field.address, Nat.add_assoc]
    exact agree _ (by omega)
  fits := exact_.fits

theorem shows_writeAll {base : Nat} (writes : List (Nat × List UInt8))
    (shows_ : Memory.Shows depot base text)
    (apart : ∀ place ∈ writes, base + text.length < entrySize * index + place.1 ∨
      entrySize * index + place.1 + place.2.length ≤ base) :
    Memory.Shows (writeAll depot index writes) base text := by
  induction writes generalizing depot with
  | nil => exact shows_
  | cons place rest ih =>
      have here := shows_.write_disjoint (apart place List.mem_cons_self)
      exact ih here fun later member => apart later (List.mem_cons_of_mem _ member)

theorem initWrites_field (field : Field) : ∃ front rest,
    initWrites = front ++ (field.offset, na ++ [0]) :: rest ∧
      ∀ place ∈ rest, field.offset + 2 < place.1 ∨ place.1 + place.2.length ≤ field.offset := by
  cases field with
  | ver => exact ⟨initWrites.take 1, initWrites.drop 2, rfl, by decide⟩
  | pdType => exact ⟨initWrites.take 6, initWrites.drop 7, rfl, by decide⟩
  | wwn => exact ⟨initWrites.take 7, initWrites.drop 8, rfl, by decide⟩
  | peerAddr => exact ⟨initWrites.take 8, initWrites.drop 9, rfl, by decide⟩
  | raidInq => exact ⟨initWrites.take 13, initWrites.drop 14, rfl, by decide⟩

theorem exact_initDiskEntry (depot : Memory) (index : Nat) :
    Exact (initDiskEntry depot index) index untold where
  shows_ field := by
    obtain ⟨front, rest, split, apart⟩ := initWrites_field field
    rw [initDiskEntry, split, writeAll, List.foldl_append, List.foldl_cons]
    refine shows_writeAll rest (Memory.shows_strcpy (by decide)) ?_
    intro place member
    have room := apart place member
    have two : na.length = 2 := rfl
    unfold untold Field.address
    omega
  fits field := by
    cases field <;> decide

theorem writeAll_apart {address : Nat} (writes : List (Nat × List UInt8))
    (apart : ∀ place ∈ writes, address < entrySize * index + place.1 ∨
      entrySize * index + place.1 + place.2.length ≤ address) :
    writeAll depot index writes address = depot address := by
  induction writes generalizing depot with
  | nil => rfl
  | cons place rest ih =>
      have here := @Memory.write_outside depot _ _ _ (apart place List.mem_cons_self)
      exact (ih fun other member => apart other (List.mem_cons_of_mem _ member)).trans here

theorem initDiskEntry_outside {address : Nat}
    (outside : address < entrySize * index ∨ entrySize * (index + 1) ≤ address) :
    initDiskEntry depot index address = depot address := by
  have inside : ∀ place ∈ initWrites, place.1 + place.2.length ≤ entrySize := by decide
  refine writeAll_apart initWrites fun place member => ?_
  have here := inside place member
  rw [Nat.mul_succ] at outside
  omega

theorem initDiskEntry_number {offset : Nat} (number : offset < 18) :
    initDiskEntry depot index (entrySize * index + offset) = 255 := by
  have behind : ∀ place ∈ initWrites.tail, 18 ≤ place.1 := by decide
  have first : initDiskEntry depot index =
      writeAll (depot.write (entrySize * index + 0) (List.replicate 18 255)) index
        initWrites.tail := rfl
  rw [first, writeAll_apart, Nat.add_zero, Memory.write_inside (by simpa using number)]
  · exact List.getElem_replicate (by simpa using number)
  · intro place member
    have later := behind place member
    omega

end

end DirtyCode.DiskList
