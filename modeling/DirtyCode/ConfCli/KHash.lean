import Mathlib

/-!
The hash table that `ConfCli.c` carries with it, as its macros expand: two flag bits a
bucket, triangular probing, and a rehash in place.
-/

namespace DirtyCode.ConfCli

abbrev Flags := Nat → BitVec 32

section Macros

def isEmpty (flag : Flags) (i : Nat) : Bool := (flag (i >>> 4) >>> ((i &&& 15) <<< 1)) &&& 2 ≠ 0

def isDel (flag : Flags) (i : Nat) : Bool := (flag (i >>> 4) >>> ((i &&& 15) <<< 1)) &&& 1 ≠ 0

def isEither (flag : Flags) (i : Nat) : Bool := (flag (i >>> 4) >>> ((i &&& 15) <<< 1)) &&& 3 ≠ 0

def setIsEmptyFalse (flag : Flags) (i : Nat) : Flags :=
  Function.update flag (i >>> 4) (flag (i >>> 4) &&& ~~~((2 : BitVec 32) <<< ((i &&& 15) <<< 1)))

def setIsBothFalse (flag : Flags) (i : Nat) : Flags :=
  Function.update flag (i >>> 4) (flag (i >>> 4) &&& ~~~((3 : BitVec 32) <<< ((i &&& 15) <<< 1)))

def setIsDelTrue (flag : Flags) (i : Nat) : Flags :=
  Function.update flag (i >>> 4) (flag (i >>> 4) ||| (1 : BitVec 32) <<< ((i &&& 15) <<< 1))

/-- What `memset` with `0xaa` leaves. -/
def freshFlags : Flags := fun _ => 0xaaaaaaaa

def kroundup32 (x : BitVec 32) : BitVec 32 :=
  let x := x - 1
  let x := x ||| x >>> 1
  let x := x ||| x >>> 2
  let x := x ||| x >>> 4
  let x := x ||| x >>> 8
  let x := x ||| x >>> 16
  x + 1

/-- `(khint_t)(n * __ac_HASH_UPPER + 0.5)`; for a power of two below 2^32 the double is
never as near to a whole number as its rounding error. -/
def upperOf (nBuckets : Nat) : Nat := (77 * nBuckets + 50) / 100

end Macros

/-- The string a key points to, and the function that hashes strings. -/
structure KeyKind (Key Text : Type*) where
  text : Key → Text
  hash : Text → BitVec 32

structure KHash (Key Val : Type*) where
  nBuckets : Nat
  size : Nat
  nOccupied : Nat
  upperBound : Nat
  flags : Flags
  keys : Nat → Key
  vals : Nat → Val

section Table

variable {Key Val Text : Type*} [DecidableEq Text] (kind : KeyKind Key Text)

def KeyKind.hashFunc (key : Key) : Nat := (kind.hash (kind.text key)).toNat

def KeyKind.hashEqual (first second : Key) : Bool := kind.text first = kind.text second

def khInit (keys : Nat → Key) (vals : Nat → Val) : KHash Key Val :=
  ⟨0, 0, 0, 0, fun _ => 0, keys, vals⟩

def khClear (h : KHash Key Val) : KHash Key Val :=
  if h.nBuckets ≠ 0 then { h with flags := freshFlags, size := 0, nOccupied := 0 } else h

/-- Where a probe loop ends: the bucket, the site noted on the way, and whether it came
back to the first bucket. -/
structure Ended where
  i : Nat
  site : Nat
  again : Bool
  deriving DecidableEq

/-- The loop of `kh_get` and of `kh_put`; only the latter notes a site. -/
def probeLoop (mask last : Nat) (goesOn : Nat → Bool) (note : Nat → Nat → Nat) :
    Nat → Nat → Nat → Nat → Option Ended
  | 0, _, _, _ => none
  | fuel + 1, i, step, site =>
      if goesOn i then
        let next := (i + (step + 1)) &&& mask
        if next = last then some ⟨next, note i site, true⟩
        else probeLoop mask last goesOn note fuel next (step + 1) (note i site)
      else some ⟨i, site, false⟩

def goesOn (h : KHash Key Val) (key : Key) (i : Nat) : Bool :=
  !isEmpty h.flags i && (isDel h.flags i || !kind.hashEqual (h.keys i) key)

def khGet (h : KHash Key Val) (key : Key) : Option Nat :=
  if h.nBuckets ≠ 0 then
    let mask := h.nBuckets - 1
    let i := kind.hashFunc key &&& mask
    (probeLoop mask i (goesOn kind h key) (fun _ site => site) (2 * h.nBuckets) i 0 0).map
      fun ended =>
        if ended.again then h.nBuckets
        else if isEither h.flags ended.i then h.nBuckets else ended.i
  else some 0

/-- The arrays while `kh_resize` moves the entries over. -/
structure Moving (Key Val : Type*) where
  flags : Flags
  newFlags : Flags
  keys : Nat → Key
  vals : Nat → Val

def Moving.vacate (moving : Moving Key Val) (i : Nat) : Moving Key Val :=
  { moving with flags := setIsDelTrue moving.flags i }

def Moving.write (moving : Moving Key Val) (i : Nat) (key : Key) (val : Val) : Moving Key Val :=
  { moving with
    newFlags := setIsEmptyFalse moving.newFlags i
    keys := Function.update moving.keys i key
    vals := Function.update moving.vals i val }

def findEmpty (flags : Flags) (mask : Nat) : Nat → Nat → Nat → Option Nat
  | 0, _, _ => none
  | fuel + 1, i, step =>
      if isEmpty flags i then some i
      else findEmpty flags mask fuel ((i + (step + 1)) &&& mask) (step + 1)

/-- The kick-out process with this entry in hand. -/
def kickOut (nBuckets newNBuckets : Nat) : Nat → Moving Key Val → Key → Val →
    Option (Moving Key Val)
  | 0, _, _, _ => none
  | fuel + 1, moving, key, val =>
      let newMask := newNBuckets - 1
      (findEmpty moving.newFlags newMask newNBuckets (kind.hashFunc key &&& newMask) 0).bind
        fun i =>
          if i < nBuckets ∧ isEither moving.flags i = false then
            kickOut nBuckets newNBuckets fuel ((moving.vacate i).write i key val)
              (moving.keys i) (moving.vals i)
          else some (moving.write i key val)

def moveBucket (nBuckets newNBuckets : Nat) (moving : Moving Key Val) (j : Nat) :
    Option (Moving Key Val) :=
  if isEither moving.flags j = false then
    kickOut kind nBuckets newNBuckets (nBuckets + 1) (moving.vacate j) (moving.keys j)
      (moving.vals j)
  else some moving

def moveFrom (nBuckets newNBuckets : Nat) : Nat → Nat → Moving Key Val → Option (Moving Key Val)
  | 0, _, moving => some moving
  | left + 1, j, moving =>
      (moveBucket kind nBuckets newNBuckets moving j).bind
        (moveFrom nBuckets newNBuckets left (j + 1))

/-- What is returned, and the table; `memory` tells whether the allocations succeed.
Shrinking the arrays does not fail. -/
def khResize (memory : Bool) (newNBuckets : BitVec 32) (h : KHash Key Val) :
    Option (Int × KHash Key Val) :=
  let rounded := (kroundup32 newNBuckets).toNat
  let newNBuckets := if rounded < 4 then 4 else rounded
  if h.size ≥ upperOf newNBuckets then some (0, h)
  else if !memory then some (-1, h)
  else
    (moveFrom kind h.nBuckets newNBuckets h.nBuckets 0 ⟨h.flags, freshFlags, h.keys, h.vals⟩).map
      fun moved =>
        (0, { nBuckets := newNBuckets
              size := h.size
              nOccupied := h.size
              upperBound := upperOf newNBuckets
              flags := moved.newFlags
              keys := moved.keys
              vals := moved.vals })

/-- The table is resized first when it has too many used or deleted buckets. -/
def makeRoom (memory : Bool) (h : KHash Key Val) : Option (Int × KHash Key Val) :=
  if h.nOccupied ≥ h.upperBound then
    if h.nBuckets > h.size * 2 % 2 ^ 32 then
      khResize kind memory (BitVec.ofNat 32 h.nBuckets - 1) h
    else khResize kind memory (BitVec.ofNat 32 h.nBuckets + 1) h
  else some (0, h)

/-- The bucket for the key: its own, or else the last deleted one passed, or else the
empty one that ends the search. -/
def putSite (h : KHash Key Val) (key : Key) : Option Nat :=
  let mask := h.nBuckets - 1
  let i := kind.hashFunc key &&& mask
  if isEmpty h.flags i then some i
  else
    (probeLoop mask i (goesOn kind h key) (fun i site => if isDel h.flags i then i else site)
      (2 * h.nBuckets) i 0 h.nBuckets).map fun ended =>
        let x := if ended.again then ended.site else h.nBuckets
        if x = h.nBuckets then
          if isEmpty h.flags ended.i ∧ ended.site ≠ h.nBuckets then ended.site else ended.i
        else x

structure Put (Key Val : Type*) where
  table : KHash Key Val
  x : Nat
  ret : Int

def occupy (h : KHash Key Val) (key : Key) (x : Nat) : Put Key Val :=
  if isEmpty h.flags x then
    ⟨{ h with
        keys := Function.update h.keys x key
        flags := setIsBothFalse h.flags x
        size := h.size + 1
        nOccupied := h.nOccupied + 1 }, x, 1⟩
  else if isDel h.flags x then
    ⟨{ h with
        keys := Function.update h.keys x key
        flags := setIsBothFalse h.flags x
        size := h.size + 1 }, x, 2⟩
  else ⟨h, x, 0⟩

def khPut (memory : Bool) (h : KHash Key Val) (key : Key) : Option (Put Key Val) :=
  (makeRoom kind memory h).bind fun (result, roomy) =>
    if result < 0 then some ⟨roomy, roomy.nBuckets, -1⟩
    else (putSite kind roomy key).map (occupy roomy key)

def khDel (h : KHash Key Val) (x : Nat) : KHash Key Val :=
  if x ≠ h.nBuckets ∧ isEither h.flags x = false then
    { h with flags := setIsDelTrue h.flags x, size := h.size - 1 }
  else h

def setValue (h : KHash Key Val) (x : Nat) (val : Val) : KHash Key Val :=
  { h with vals := Function.update h.vals x val }

end Table

section Bits

variable (flag : Flags) (i : Nat)

theorem word_of (i : Nat) : i >>> 4 = i / 16 := Nat.shiftRight_eq_div_pow i 4

theorem shift_of (i : Nat) : (i &&& 15) <<< 1 = 2 * (i % 16) := by
  have low : i &&& 15 = i % 16 := Nat.and_two_pow_sub_one_eq_mod i 4
  rw [low, Nat.shiftLeft_eq, Nat.pow_one, Nat.mul_comm]

theorem one_bits (place : Nat) : (1 : BitVec 32).getLsbD place = decide (place = 0) := by
  simp [BitVec.getLsbD_one]

theorem two_bits (place : Nat) : (2 : BitVec 32).getLsbD place = decide (place = 1) := by
  have power : (2 : BitVec 32) = BitVec.twoPow 32 1 := rfl
  rw [power, BitVec.getLsbD_twoPow]
  simp [eq_comm]

theorem three_bits (place : Nat) : (3 : BitVec 32).getLsbD place = decide (place < 2) := by
  have both : (3 : BitVec 32) = 1 ||| 2 := rfl
  rw [both, BitVec.getLsbD_or, one_bits, two_bits]
  grind

theorem isEmpty_eq : isEmpty flag i = (flag (i / 16)).getLsbD (2 * (i % 16) + 1) := by
  have power : (2 : BitVec 32) = BitVec.twoPow 32 1 := rfl
  rw [isEmpty, word_of, shift_of, power, BitVec.and_twoPow, BitVec.getLsbD_ushiftRight]
  cases (flag (i / 16)).getLsbD (2 * (i % 16) + 1) <;> simp; decide

theorem isDel_eq : isDel flag i = (flag (i / 16)).getLsbD (2 * (i % 16)) := by
  have power : (1 : BitVec 32) = BitVec.twoPow 32 0 := rfl
  rw [isDel, word_of, shift_of, power, BitVec.and_twoPow, BitVec.getLsbD_ushiftRight]
  cases (flag (i / 16)).getLsbD (2 * (i % 16)) <;> simp; decide

theorem isEither_eq : isEither flag i = (isEmpty flag i || isDel flag i) := by
  have both (word : BitVec 32) : word &&& 3 = 0 ↔ word &&& 2 = 0 ∧ word &&& 1 = 0 := by
    have three : (3 : BitVec 32) = 2 ||| 1 := rfl
    rw [three, BitVec.and_or_distrib_left]
    exact BitVec.or_eq_zero_iff
  simp only [isEither, isEmpty, isDel, ne_eq, both]
  grind

variable {mask : BitVec 32} (low : ∀ place, 2 ≤ place → mask.getLsbD place = false)

include low

theorem mask_bits {bit : Nat} (small : bit < 2) {j : Nat} (word : j / 16 = i / 16) :
    (mask <<< (2 * (i % 16))).getLsbD (2 * (j % 16) + bit) =
      (decide (j = i) && mask.getLsbD bit) := by
  have inside : 2 * (j % 16) + bit < 32 := by omega
  rw [BitVec.getLsbD_shiftLeft, decide_eq_true inside, Bool.true_and]
  by_cases same : j = i
  · subst same
    simp
  · by_cases before : 2 * (j % 16) + bit < 2 * (i % 16)
    · simp [before, same]
    · rw [low _ (by omega)]
      simp [same]

theorem clear_bits {bit : Nat} (small : bit < 2) (j : Nat) :
    (Function.update flag (i / 16) (flag (i / 16) &&& ~~~(mask <<< (2 * (i % 16))))
        (j / 16)).getLsbD (2 * (j % 16) + bit) =
      ((flag (j / 16)).getLsbD (2 * (j % 16) + bit) && !(decide (j = i) && mask.getLsbD bit)) := by
  by_cases word : j / 16 = i / 16
  · have inside : 2 * (j % 16) + bit < 32 := by omega
    rw [word, Function.update_self, BitVec.getLsbD_and, BitVec.getLsbD_not,
      decide_eq_true inside, Bool.true_and, mask_bits i low small word]
  · have other : j ≠ i := fun same => word (by rw [same])
    simp [Function.update_of_ne word, other]

theorem set_bits {bit : Nat} (small : bit < 2) (j : Nat) :
    (Function.update flag (i / 16) (flag (i / 16) ||| mask <<< (2 * (i % 16)))
        (j / 16)).getLsbD (2 * (j % 16) + bit) =
      ((flag (j / 16)).getLsbD (2 * (j % 16) + bit) || (decide (j = i) && mask.getLsbD bit)) := by
  by_cases word : j / 16 = i / 16
  · rw [word, Function.update_self, BitVec.getLsbD_or, mask_bits i low small word]
  · have other : j ≠ i := fun same => word (by rw [same])
    simp [Function.update_of_ne word, other]

theorem clear_flags (j : Nat) :
    let cleared := Function.update flag (i / 16) (flag (i / 16) &&& ~~~(mask <<< (2 * (i % 16))))
    isEmpty cleared j = (isEmpty flag j && !(decide (j = i) && mask.getLsbD 1)) ∧
      isDel cleared j = (isDel flag j && !(decide (j = i) && mask.getLsbD 0)) := by
  intro cleared
  rw [isEmpty_eq, isEmpty_eq, isDel_eq, isDel_eq]
  exact ⟨clear_bits flag i low Nat.one_lt_two j, clear_bits flag i low Nat.two_pos j⟩

theorem set_flags (j : Nat) :
    let set := Function.update flag (i / 16) (flag (i / 16) ||| mask <<< (2 * (i % 16)))
    isEmpty set j = (isEmpty flag j || (decide (j = i) && mask.getLsbD 1)) ∧
      isDel set j = (isDel flag j || (decide (j = i) && mask.getLsbD 0)) := by
  intro set
  rw [isEmpty_eq, isEmpty_eq, isDel_eq, isDel_eq]
  exact ⟨set_bits flag i low Nat.one_lt_two j, set_bits flag i low Nat.two_pos j⟩

end Bits

section Setters

variable (flag : Flags) (i : Nat)

theorem setIsEmptyFalse_flags (j : Nat) :
    isEmpty (setIsEmptyFalse flag i) j = (isEmpty flag j && !decide (j = i)) ∧
      isDel (setIsEmptyFalse flag i) j = isDel flag j := by
  have low : ∀ place, 2 ≤ place → (2 : BitVec 32).getLsbD place = false := by
    intro place high
    rw [two_bits]
    exact decide_eq_false (by omega)
  have both := clear_flags flag i low j
  rw [setIsEmptyFalse, word_of, shift_of]
  simpa [two_bits, -BitVec.ofNat_eq_ofNat] using both

theorem setIsBothFalse_flags (j : Nat) :
    isEmpty (setIsBothFalse flag i) j = (isEmpty flag j && !decide (j = i)) ∧
      isDel (setIsBothFalse flag i) j = (isDel flag j && !decide (j = i)) := by
  have low : ∀ place, 2 ≤ place → (3 : BitVec 32).getLsbD place = false := by
    intro place high
    rw [three_bits]
    exact decide_eq_false (by omega)
  have both := clear_flags flag i low j
  rw [setIsBothFalse, word_of, shift_of]
  simpa [three_bits, -BitVec.ofNat_eq_ofNat] using both

theorem setIsDelTrue_flags (j : Nat) :
    isEmpty (setIsDelTrue flag i) j = isEmpty flag j ∧
      isDel (setIsDelTrue flag i) j = (isDel flag j || decide (j = i)) := by
  have low : ∀ place, 2 ≤ place → (1 : BitVec 32).getLsbD place = false := by
    intro place high
    rw [one_bits]
    exact decide_eq_false (by omega)
  have both := set_flags flag i low j
  rw [setIsDelTrue, word_of, shift_of]
  simpa [one_bits, -BitVec.ofNat_eq_ofNat] using both

theorem freshFlags_flags (j : Nat) :
    isEmpty freshFlags j = true ∧ isDel freshFlags j = false := by
  have table : ∀ place < 16, (0xaaaaaaaa : BitVec 32).getLsbD (2 * place + 1) = true ∧
      (0xaaaaaaaa : BitVec 32).getLsbD (2 * place) = false := by decide
  rw [isEmpty_eq, isDel_eq]
  exact table (j % 16) (Nat.mod_lt _ (by decide))

theorem isEither_eq_false :
    isEither flag i = false ↔ isEmpty flag i = false ∧ isDel flag i = false := by
  rw [isEither_eq, Bool.or_eq_false_iff]

end Setters

section Roundup

/-- Every bit is set as far down as this below a set bit. -/
def Smeared (start : BitVec 32) (width : Nat) (x : BitVec 32) : Prop :=
  ∀ place, x.getLsbD place = true ↔ ∃ up < width, start.getLsbD (place + up) = true

theorem Smeared.double {start x : BitVec 32} {width : Nat} (smeared : Smeared start width x) :
    Smeared start (2 * width) (x ||| x >>> width) := by
  intro place
  rw [BitVec.getLsbD_or, BitVec.getLsbD_ushiftRight, Bool.or_eq_true, smeared, smeared]
  constructor
  · rintro (⟨up, less, bit⟩ | ⟨up, less, bit⟩)
    · exact ⟨up, by omega, bit⟩
    · exact ⟨width + up, by omega, by rwa [show place + (width + up) = width + place + up by omega]⟩
  · rintro ⟨up, less, bit⟩
    by_cases near : up < width
    · exact .inl ⟨up, near, bit⟩
    · refine .inr ⟨up - width, by omega, ?_⟩
      rwa [show width + place + (up - width) = place + up by omega]

theorem toNat_of_smeared {start x : BitVec 32} (smeared : Smeared start 32 x) :
    x.toNat = 2 ^ Nat.size start.toNat - 1 := by
  apply Nat.eq_of_testBit_eq
  intro place
  rw [Nat.testBit_two_pow_sub_one]
  have below : x.toNat.testBit place = true ↔ place < Nat.size start.toNat := by
    rw [BitVec.testBit_toNat, smeared place, Nat.lt_size]
    constructor
    · rintro ⟨up, -, bit⟩
      have large := Nat.ge_two_pow_of_testBit bit
      exact (Nat.pow_le_pow_right (by decide) (Nat.le_add_right place up)).trans large
    · intro large
      obtain ⟨top, least, bit⟩ := Nat.exists_ge_and_testBit_of_ge_two_pow large
      have inside : top < 32 := by
        by_contra outside
        rw [Nat.testBit_lt_two_pow (start.isLt.trans_le
          (Nat.pow_le_pow_right (by decide) (by omega)))] at bit
        contradiction
      exact ⟨top - place, by omega, by
        rw [Nat.add_sub_cancel' least]
        exact bit⟩
  rw [Bool.eq_iff_iff, below, decide_eq_true_iff]

theorem toNat_kroundup32 (x : BitVec 32) :
    (kroundup32 x).toNat = 2 ^ Nat.size (x - 1).toNat % 2 ^ 32 := by
  have start : Smeared (x - 1) 1 (x - 1) := by
    intro place
    simp
  have all := toNat_of_smeared start.double.double.double.double.double
  have positive : 0 < 2 ^ Nat.size (x - 1).toNat := Nat.two_pow_pos _
  have wrapped : (kroundup32 x).toNat = (2 ^ Nat.size (x - 1).toNat - 1 + 1) % 2 ^ 32 := by
    rw [← all]
    exact BitVec.toNat_add _ _
  rw [wrapped, Nat.sub_add_cancel positive]

/-- The number of buckets that `kh_resize` settles on. -/
theorem roundup_power (x : BitVec 32) :
    ∃ bits, 2 ≤ bits ∧ bits ≤ 31 ∧
      (if (kroundup32 x).toNat < 4 then 4 else (kroundup32 x).toNat) = 2 ^ bits := by
  have least : (if (kroundup32 x).toNat < 4 then 4 else (kroundup32 x).toNat) =
      max 4 (kroundup32 x).toNat := by grind
  have bound : Nat.size (x - 1).toNat ≤ 32 := Nat.size_le.mpr (x - 1).isLt
  rw [least, toNat_kroundup32]
  rcases Nat.lt_or_eq_of_le bound with small | large
  · have fits : 2 ^ Nat.size (x - 1).toNat < 2 ^ 32 := Nat.pow_lt_pow_right (by decide) small
    rw [Nat.mod_eq_of_lt fits]
    rcases Nat.lt_or_ge (Nat.size (x - 1).toNat) 2 with tiny | enough
    · have less : 2 ^ Nat.size (x - 1).toNat ≤ 2 ^ 2 := Nat.pow_le_pow_right (by decide) tiny.le
      exact ⟨2, le_rfl, by decide, max_eq_left less⟩
    · have more : 2 ^ 2 ≤ 2 ^ Nat.size (x - 1).toNat := Nat.pow_le_pow_right (by decide) enough
      exact ⟨_, enough, by omega, max_eq_right more⟩
  · rw [large]
    exact ⟨2, le_rfl, by decide, rfl⟩

theorem roundup_pred {bits : Nat} (enough : 2 ≤ bits) (fits : bits ≤ 31) :
    (kroundup32 (BitVec.ofNat 32 (2 ^ bits) - 1)).toNat = 2 ^ bits := by
  have small : 2 ^ bits < 2 ^ 32 := Nat.pow_lt_pow_right (by decide) (by omega)
  have more : 2 ^ 2 ≤ 2 ^ bits := Nat.pow_le_pow_right (by decide) enough
  have less : (BitVec.ofNat 32 (2 ^ bits) - 1 - 1).toNat = 2 ^ bits - 2 := by
    have one : (1 : BitVec 32).toNat = 1 := rfl
    simp only [BitVec.toNat_sub, BitVec.toNat_ofNat, one, Nat.mod_eq_of_lt small]
    omega
  have half : 2 ^ bits = 2 * 2 ^ (bits - 1) := by
    rw [← Nat.pow_succ', Nat.succ_eq_add_one, Nat.sub_add_cancel (by omega)]
  have size : Nat.size (2 ^ bits - 2) = bits := by
    apply Nat.le_antisymm
    · exact Nat.size_le.mpr (by omega)
    · have above : 2 ^ (bits - 1) ≤ 2 ^ bits - 2 := by omega
      have least := Nat.lt_size.mpr above
      omega
  rw [toNat_kroundup32, less, size, Nat.mod_eq_of_lt small]

theorem roundup_succ {bits : Nat} (fits : bits ≤ 30) :
    (kroundup32 (BitVec.ofNat 32 (2 ^ bits) + 1)).toNat = 2 ^ (bits + 1) := by
  have small : 2 ^ (bits + 1) < 2 ^ 32 := Nat.pow_lt_pow_right (by decide) (by omega)
  have same : BitVec.ofNat 32 (2 ^ bits) + 1 - 1 = BitVec.ofNat 32 (2 ^ bits) :=
    BitVec.add_sub_cancel _ _
  have less : (BitVec.ofNat 32 (2 ^ bits)).toNat = 2 ^ bits := by
    rw [BitVec.toNat_ofNat, Nat.mod_eq_of_lt (by omega)]
  rw [toNat_kroundup32, same, less, Nat.size_pow, Nat.mod_eq_of_lt small]

end Roundup

end DirtyCode.ConfCli
