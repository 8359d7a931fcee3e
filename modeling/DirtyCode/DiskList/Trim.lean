import DirtyCode.Lib.CString
import DirtyCode.Lib.Spans

/-!
`trim_string` of `disklist.c`, which packs an offset and a length into an `int`.
-/

namespace DirtyCode.DiskList

open Lib

def isBlank (byte : UInt8) : Bool := byte = 32

/-- The text between its leading and its trailing blanks. -/
def trim (text : List UInt8) : List UInt8 := (text.dropWhile isBlank).rdropWhile isBlank

-- both loops look at a byte before they compare `i` with `len`
def leadingBlanks (buf : Memory) : Nat → Nat → Nat
  | _, 0 => 0
  | p, left + 1 => if isBlank (buf p) then leadingBlanks buf (p + 1) left + 1 else 0

def trailingBlanks (buf : Memory) (p : Nat) : Nat → Nat
  | 0 => 0
  | left + 1 => if isBlank (buf (p + left)) then trailingBlanks buf p left + 1 else 0

def trimString (buf : Memory) (p len : Nat) : BitVec 32 :=
  if len < 1 then 0
  else
    let leading := leadingBlanks buf p len
    let tail := trailingBlanks buf p len
    (BitVec.ofNat 32 leading <<< 16 &&& 0xFFFF0000#32) |||
      (BitVec.ofInt 32 ((len : Int) - tail - leading) &&& 0xFFFF#32)

def lengthOf (fuse : BitVec 32) : Nat := (fuse &&& 0xFFFF#32).toNat

def offsetOf (fuse : BitVec 32) : Nat := (fuse.sshiftRight 16 &&& 0xFFFF#32).toNat

theorem leadingBlanks_eq (buf : Memory) (p len : Nat) :
    leadingBlanks buf p len = ((buf.slice p len).takeWhile isBlank).length := by
  induction len generalizing p with
  | zero => rfl
  | succ len ih =>
      rw [leadingBlanks, Memory.slice, List.takeWhile_cons, ih]
      split
      · rfl
      · rfl

theorem trailingBlanks_eq (buf : Memory) (p len : Nat) :
    trailingBlanks buf p len = ((buf.slice p len).reverse.takeWhile isBlank).length := by
  induction len with
  | zero => rfl
  | succ len ih =>
      have last : buf.slice (p + len) 1 = [buf (p + len)] := rfl
      rw [trailingBlanks, Memory.slice_append, last, List.reverse_append, List.reverse_singleton,
        List.singleton_append, List.takeWhile_cons, ih]
      split
      · rfl
      · rfl

theorem getLsbD_low : ∀ i < 32, (0xFFFF#32).getLsbD i = decide (i < 16) := by decide

theorem getLsbD_high : ∀ i < 32, (0xFFFF0000#32).getLsbD i = decide (16 ≤ i) := by decide

theorem pack_eq (leading : Nat) (size : BitVec 32) :
    (BitVec.ofNat 32 leading <<< 16 &&& 0xFFFF0000#32) ||| (size &&& 0xFFFF#32) =
      BitVec.ofNat 16 leading ++ size.setWidth 16 := by
  apply BitVec.eq_of_getLsbD_eq
  intro i inside
  rw [BitVec.getLsbD_or, BitVec.getLsbD_and, BitVec.getLsbD_and, getLsbD_low i inside,
    getLsbD_high i inside, BitVec.getLsbD_shiftLeft, BitVec.getLsbD_append]
  by_cases low : i < 16
  · simp [low, Nat.not_le_of_lt low]
  · have within : i - 16 < 16 := by omega
    rw [if_neg low, BitVec.getLsbD_ofNat, BitVec.getLsbD_ofNat]
    simp [low, Nat.le_of_not_lt low, inside, within, show i - 16 < 32 by omega]

theorem and_low (value : BitVec 32) : (value &&& 0xFFFF#32).toNat = value.toNat % 65536 := by
  rw [BitVec.toNat_and]
  exact Nat.and_two_pow_sub_one_eq_mod _ 16

theorem lengthOf_pack (leading : Nat) (size : BitVec 32) :
    lengthOf (BitVec.ofNat 16 leading ++ size.setWidth 16) = size.toNat % 65536 := by
  rw [lengthOf, and_low, BitVec.toNat_append, BitVec.toNat_setWidth,
    ← Nat.shiftLeft_add_eq_or_of_lt (Nat.mod_lt _ (by decide)), Nat.shiftLeft_eq]
  omega

theorem offsetOf_pack {leading : Nat} (small : leading < 65536) (size : BitVec 32) :
    offsetOf (BitVec.ofNat 16 leading ++ size.setWidth 16) = leading := by
  have bits : (BitVec.ofNat 16 leading ++ size.setWidth 16).sshiftRight 16 &&& 0xFFFF#32 =
      (BitVec.ofNat 16 leading).setWidth 32 := by
    apply BitVec.eq_of_getLsbD_eq
    intro i inside
    rw [BitVec.getLsbD_and, getLsbD_low i inside, BitVec.getLsbD_sshiftRight,
      BitVec.getLsbD_setWidth]
    by_cases low : i < 16
    · rw [if_pos (by omega), BitVec.getLsbD_append, if_neg (by omega),
        show 16 + i - 16 = i by omega]
      simp [low, inside, show ¬32 ≤ i by omega]
    · rw [BitVec.getLsbD_of_ge _ _ (Nat.le_of_not_lt low)]
      simp [low]
  rw [offsetOf, bits, BitVec.toNat_setWidth, BitVec.toNat_ofNat]
  omega

/-- All that `trim_string` says of a field of at most 65535 bytes. -/
theorem trimString_parts (buf : Memory) (p : Nat) {len : Nat} (positive : 1 ≤ len)
    (small : len ≤ 65535) :
    offsetOf (trimString buf p len) = leadingBlanks buf p len ∧
      (lengthOf (trimString buf p len) : Int) =
        ((len : Int) - trailingBlanks buf p len - leadingBlanks buf p len) % 65536 := by
  have leading : leadingBlanks buf p len ≤ len := by
    rw [leadingBlanks_eq]
    exact (List.takeWhile_prefix _).length_le.trans (Memory.length_slice _ _ _).le
  rw [trimString, if_neg (by omega), pack_eq, offsetOf_pack (by omega), lengthOf_pack,
    BitVec.toNat_ofInt]
  refine ⟨rfl, ?_⟩
  omega

theorem trailing_core {text : List UInt8} (some_ : ∃ byte ∈ text, isBlank byte = false) :
    text.reverse.takeWhile isBlank = (text.dropWhile isBlank).reverse.takeWhile isBlank := by
  nth_rewrite 1 [← List.takeWhile_append_dropWhile (p := isBlank) (l := text)]
  have stops := dropWhile_ne_nil_iff.mpr (reverse_dropWhile_stops some_)
  rw [List.reverse_append, takeWhile_append_stop _ stops]

theorem trim_eq {text : List UInt8} (some_ : ∃ byte ∈ text, isBlank byte = false) :
    trim text = (text.drop (text.takeWhile isBlank).length).take (text.length -
      (text.reverse.takeWhile isBlank).length - (text.takeWhile isBlank).length) := by
  have size := length_takeWhile_add isBlank text
  rw [drop_takeWhile, trailing_core some_, trim, List.rdropWhile, ← drop_takeWhile,
    List.drop_reverse, List.reverse_reverse]
  congr 1
  omega

theorem blanks_le {text : List UInt8} (some_ : ∃ byte ∈ text, isBlank byte = false) :
    (text.takeWhile isBlank).length + (text.reverse.takeWhile isBlank).length ≤ text.length := by
  have before := length_takeWhile_add isBlank text
  have core := length_takeWhile_add isBlank (text.dropWhile isBlank).reverse
  rw [List.length_reverse] at core
  rw [trailing_core some_]
  omega

theorem trim_parts (text : List UInt8) : ∃ front back, text = front ++ trim text ++ back ∧
    (∀ byte ∈ front, isBlank byte = true) ∧ ∀ byte ∈ back, isBlank byte = true := by
  refine ⟨text.takeWhile isBlank, (text.dropWhile isBlank).rtakeWhile isBlank, ?_, ?_, ?_⟩
  · rw [trim, List.append_assoc, List.rdropWhile_append_rtakeWhile, List.takeWhile_append_dropWhile]
  · exact fun byte member => List.mem_takeWhile_imp member
  · exact fun byte member => List.mem_rtakeWhile_imp member

theorem trim_ends {text : List UInt8} (filled : trim text ≠ []) :
    isBlank ((trim text).head filled) = false ∧ isBlank ((trim text).getLast filled) = false := by
  have kept : trim text <+: text.dropWhile isBlank := List.rdropWhile_prefix isBlank _
  constructor
  · rw [kept.head filled]
    exact List.head_dropWhile_not isBlank (kept.ne_nil filled)
  · exact Bool.eq_false_iff.mpr (List.rdropWhile_last_not isBlank _ filled)

theorem length_trim_le (text : List UInt8) : (trim text).length ≤ text.length :=
  (List.rdropWhile_prefix isBlank _).length_le.trans (List.dropWhile_suffix isBlank).length_le

theorem mem_of_mem_trim {text : List UInt8} {byte : UInt8} (member : byte ∈ trim text) :
    byte ∈ text :=
  (List.dropWhile_suffix isBlank).mem ((List.rdropWhile_prefix isBlank _).mem member)

theorem trim_blank {text : List UInt8} (blank : ∀ byte ∈ text, isBlank byte = true) :
    trim text = [] := by
  rw [trim, List.dropWhile_eq_nil_iff.mpr blank]
  rfl

theorem trimString_some {buf : Memory} {p len : Nat} (positive : 1 ≤ len) (small : len ≤ 65535)
    (some_ : ∃ byte ∈ buf.slice p len, isBlank byte = false) :
    offsetOf (trimString buf p len) + lengthOf (trimString buf p len) ≤ len ∧
      buf.slice (p + offsetOf (trimString buf p len)) (lengthOf (trimString buf p len)) =
        trim (buf.slice p len) := by
  obtain ⟨offset, length⟩ := trimString_parts buf p positive small
  have shape := trim_eq some_
  have room := blanks_le some_
  rw [leadingBlanks_eq] at offset length
  rw [trailingBlanks_eq] at length
  rw [buf.length_slice] at shape room
  have fits : lengthOf (trimString buf p len) = len -
      ((buf.slice p len).reverse.takeWhile isBlank).length -
        ((buf.slice p len).takeWhile isBlank).length := by omega
  refine ⟨by omega, ?_⟩
  rw [shape, ← fits, offset, Memory.slice_part _ _ (by omega)]

theorem trimString_blank {buf : Memory} {p len : Nat} (positive : 1 ≤ len) (small : len ≤ 65535)
    (blank : ∀ byte ∈ buf.slice p len, isBlank byte = true) :
    offsetOf (trimString buf p len) = len ∧ lengthOf (trimString buf p len) = 65536 - len := by
  obtain ⟨offset, length⟩ := trimString_parts buf p positive small
  have leading := List.takeWhile_eq_self_iff.mpr blank
  have trailing : (buf.slice p len).reverse.takeWhile isBlank = (buf.slice p len).reverse :=
    List.takeWhile_eq_self_iff.mpr fun byte member => blank byte (List.mem_reverse.mp member)
  rw [leadingBlanks_eq, leading, buf.length_slice] at offset length
  rw [trailingBlanks_eq, trailing, List.length_reverse, buf.length_slice] at length
  exact ⟨offset, by omega⟩

/-- The offset and the length of a result designate the bytes of a buffer without the
blanks at its ends. -/
structure Designates (buf : Memory) (p len : Nat) (fuse : BitVec 32) : Prop where
  offset : offsetOf fuse = ((buf.slice p len).takeWhile isBlank).length
  within : offsetOf fuse + lengthOf fuse ≤ len
  bytes : buf.slice (p + offsetOf fuse) (lengthOf fuse) = trim (buf.slice p len)

theorem trim_string_right_iff (buf : Memory) (p : Nat) {len : Nat} (positive : 1 ≤ len)
    (small : len ≤ 65535) :
    Designates buf p len (trimString buf p len) ↔
      ∃ byte ∈ buf.slice p len, isBlank byte = false := by
  constructor
  · intro designates
    by_contra none
    have blank : ∀ byte ∈ buf.slice p len, isBlank byte = true := by
      intro byte member
      by_contra other
      exact none ⟨byte, member, Bool.eq_false_iff.mpr other⟩
    have empty := congrArg List.length designates.bytes
    rw [Memory.length_slice, trim_blank blank, (trimString_blank positive small blank).2,
      List.length_nil] at empty
    omega
  · intro some_
    obtain ⟨within, bytes⟩ := trimString_some positive small some_
    obtain ⟨offset, _⟩ := trimString_parts buf p positive small
    exact ⟨offset.trans (leadingBlanks_eq buf p len), within, bytes⟩

theorem trim_string_right_iff_padded :
    Designates (fun offset => [32, 83, 78, 32].getD offset 0) 0 4
      (trimString (fun offset => [32, 83, 78, 32].getD offset 0) 0 4) :=
  (trim_string_right_iff _ 0 (by decide) (by decide)).mpr (by decide)

/-- Of 20 blanks, 65516 bytes behind the last one are designated. -/
theorem blanks_not_designated :
    ¬Designates (fun offset => if offset < 20 then 32 else 0) 0 20
      (trimString (fun offset => if offset < 20 then 32 else 0) 0 20) := by
  intro designates
  exact absurd designates.within (by decide)

end DirtyCode.DiskList
