import DirtyCode.Lib.Format

/-!
Device addresses in `disklist.c`: `parse_colon_list`, the order in which `scandir` sorts
the names, and what of a logical unit number ends up in a `disk_entry`.
-/

namespace DirtyCode.DiskList

open Lib

structure AddrHctl where
  h : Int
  c : Int
  t : Int
  l : Nat
  lunArr : List UInt8
  deriving DecidableEq

/-- `%llu`, which takes a sign as well and stops at the bound of its type. -/
def scanUnsigned (text : List UInt8) : Option Nat :=
  let signed := scanSign (text.dropWhile isSpace)
  let digits := signed.2.takeWhile isDigit
  let value := decimal digits
  if digits = [] then none
  else if 2 ^ 64 ≤ value then some (2 ^ 64 - 1)
  else some (if signed.1 then (2 ^ 64 - value) % 2 ^ 64 else value)

def behindColon (text : List UInt8) : Option (List UInt8) :=
  match text.dropWhile (· ≠ 58) with
  | [] => none
  | _ :: rest => some rest

def lunWord (z : Nat) : List UInt8 :=
  let u := z % 65536
  [UInt8.ofNat (u / 256 % 256), UInt8.ofNat (u % 256)]

def lunBytes : Nat → Nat → List UInt8
  | 0, _ => []
  | left + 1, z => lunWord z ++ lunBytes left (z / 65536)

def parseColonList (colonList : List UInt8) : Option AddrHctl :=
  (scanInt colonList).bind fun (h, _) =>
    (behindColon colonList).bind fun colonList =>
      (scanInt colonList).bind fun (c, _) =>
        (behindColon colonList).bind fun colonList =>
          (scanInt colonList).bind fun (t, _) =>
            (behindColon colonList).bind fun colonList =>
              (scanUnsigned colonList).map fun l => ⟨h, c, t, l, lunBytes 4 l⟩

def cmpHctl (le ri : AddrHctl) : Int :=
  if le.h = ri.h then
    if le.c = ri.c then
      if le.t = ri.t then if le.l = ri.l then 0 else if le.l < ri.l then -1 else 1
      else if le.t < ri.t then -1 else 1
    else if le.c < ri.c then -1 else 1
  else if le.h < ri.h then -1 else 1

def sdevScandirSort (a b : List UInt8) : Int :=
  match parseColonList a with
  | none => -1
  | some left =>
      match parseColonList b with
      | none => 1
      | some right => cmpHctl left right

/-- The loop of `lun_word_flip` with so many words to come behind this one. -/
def flipFrom : Nat → BitVec 64 → BitVec 64 → BitVec 64
  | 0, res, word => res ||| (word &&& 0xffff)
  | left + 1, res, word => flipFrom left ((res ||| (word &&& 0xffff)) <<< 16) (word >>> 16)

def lunWordFlip (word : BitVec 64) : BitVec 64 := flipFrom 3 0 word

/-- The entries of the directory that are devices; `filter` is the one that is asked for. -/
def sdevDirScanSelect (filter : Option AddrHctl) (name : List UInt8) : Bool :=
  if ascii "mt" <:+: name then false
  else if ascii "ot" <:+: name then false
  else if ascii "gen" <:+: name then false
  else if ascii "host" <+: name then false
  else if ascii "target" <+: name then false
  else if 58 ∈ name then
    match filter with
    | none => true
    | some filter =>
        match parseColonList name with
        | none => false
        | some hctl =>
            (filter.h = -1 ∨ hctl.h = filter.h) ∧ (filter.c = -1 ∨ hctl.c = filter.c) ∧
              (filter.t = -1 ∨ hctl.t = filter.t) ∧ (filter.l = 2 ^ 64 - 1 ∨ hctl.l = filter.l)
  else false

/-- The four shorts of an entry that `one_sdev_entry` stores for a name. -/
def storedAddress (devname : List UInt8) : Option (List (BitVec 16)) :=
  (parseColonList devname).map fun hctl =>
    [BitVec.ofInt 16 hctl.h, BitVec.ofInt 16 hctl.c, BitVec.ofInt 16 hctl.t,
      (lunWordFlip (BitVec.ofNat 64 hctl.l)).setWidth 16]

def IsInt (value : Int) : Prop := -2147483648 ≤ value ∧ value < 2147483648

/-- An address that a device can have. -/
structure IsAddress (hctl : AddrHctl) : Prop where
  host : IsInt hctl.h
  channel : IsInt hctl.c
  target : IsInt hctl.t
  unit : hctl.l < 2 ^ 64
  bytes : hctl.lunArr = lunBytes 4 hctl.l

/-- A name as the kernel gives it to a device. -/
def sysfsName (hctl : AddrHctl) : List UInt8 :=
  printInt hctl.h ++ 58 :: (printInt hctl.c ++ 58 :: (printInt hctl.t ++ 58 :: printNat hctl.l))

/-- The order of addresses: by host, then channel, then target, then unit. -/
def rank (hctl : AddrHctl) : Int ×ₗ Int ×ₗ Int ×ₗ Nat :=
  toLex (hctl.h, toLex (hctl.c, toLex (hctl.t, hctl.l)))

def byRank (devices : List AddrHctl) : List AddrHctl :=
  devices.mergeSort fun left right => rank left ≤ rank right

theorem pairwise_byRank (devices : List AddrHctl) :
    (byRank devices).Pairwise fun left right => rank left ≤ rank right := by
  have sorted : (byRank devices).Pairwise fun left right =>
      decide (rank left ≤ rank right) = true :=
    List.pairwise_mergeSort (by simpa using fun a b c => le_trans)
      (by simpa using fun a b => le_total _ _) devices
  simpa using sorted

theorem cmpHctl_eq (le ri : AddrHctl) :
    cmpHctl le ri = if rank le < rank ri then -1 else if rank le = rank ri then 0 else 1 := by
  simp only [rank, Prod.Lex.toLex_lt_toLex, EmbeddingLike.apply_eq_iff_eq, Prod.mk.injEq, cmpHctl]
  grind

section Flip

theorem wordMask_bits (i : Nat) : (0xffff : BitVec 64).getLsbD i = decide (i < 16) := by
  have mask : (0xffff : BitVec 64).toNat = 2 ^ 16 - 1 := rfl
  rw [← BitVec.testBit_toNat, mask, Nat.testBit_two_pow_sub_one]

/-- The words still to come go below those collected, the last one lowest. -/
theorem flipFrom_bits {left i : Nat} {res word : BitVec 64} (inside : i < 64)
    (clear : ∀ place < 16, res.getLsbD place = false) :
    (flipFrom left res word).getLsbD i =
      if i / 16 ≤ left then word.getLsbD (16 * (left - i / 16) + i % 16)
      else res.getLsbD (i - 16 * left) := by
  induction left generalizing res word i with
  | zero =>
      rw [flipFrom, BitVec.getLsbD_or, BitVec.getLsbD_and, wordMask_bits]
      by_cases low : i < 16
      · have first : i / 16 = 0 := by omega
        have same : i % 16 = i := by omega
        simp [low, first, same, clear i low]
      · have later : ¬i / 16 ≤ 0 := by omega
        rw [if_neg later]
        simp [low]
  | succ left ih =>
      have collected (place : Nat) (within : place < 64) :
          ((res ||| (word &&& 0xffff)) <<< 16).getLsbD place =
            (!decide (place < 16) && (res.getLsbD (place - 16) ||
              (word.getLsbD (place - 16) && decide (place - 16 < 16)))) := by
        rw [BitVec.getLsbD_shiftLeft, BitVec.getLsbD_or, BitVec.getLsbD_and, wordMask_bits,
          decide_eq_true within, Bool.true_and]
      rw [flipFrom, ih inside fun place below => by
        rw [collected place (by omega)]
        simp [below]]
      by_cases here : i / 16 ≤ left
      · have place : 16 + (16 * (left - i / 16) + i % 16) = 16 * (left + 1 - i / 16) + i % 16 := by
          omega
        rw [if_pos here, if_pos (by omega), BitVec.getLsbD_ushiftRight, place]
      · rw [if_neg here, collected _ (by omega)]
        have high : ¬i - 16 * left < 16 := by omega
        by_cases next : i / 16 ≤ left + 1
        · have low : i - 16 * left - 16 < 16 := by omega
          have place : 16 * (left + 1 - i / 16) + i % 16 = i - 16 * left - 16 := by omega
          rw [if_pos next, place, clear _ low]
          simp [high, low]
        · have beyond : ¬i - 16 * left - 16 < 16 := by omega
          have place : i - 16 * left - 16 = i - 16 * (left + 1) := by omega
          rw [if_neg next, ← place]
          simp [high, beyond]

theorem lunWordFlip_bits (word : BitVec 64) {i : Nat} (inside : i < 64) :
    (lunWordFlip word).getLsbD i = word.getLsbD (16 * (3 - i / 16) + i % 16) := by
  have clear : ∀ place < 16, (0 : BitVec 64).getLsbD place = false := by
    intro place _
    simp
  rw [lunWordFlip, flipFrom_bits inside clear, if_pos (by omega)]

end Flip

section Names

variable {hctl : AddrHctl} {l : Nat}

theorem printInt_plain (value : Int) :
    ∀ byte ∈ printInt value, isDigit byte = true ∨ byte = 45 := by
  have digits := printNat_digits value.natAbs
  intro byte member
  rw [printInt] at member
  split at member
  · rcases List.mem_cons.mp member with minus | behind
    · exact Or.inr minus
    · exact Or.inl (digits byte behind)
  · exact Or.inl (digits byte member)

theorem behindColon_printInt (value : Int) (rest : List UInt8) :
    behindColon (printInt value ++ 58 :: rest) = some rest := by
  have passed : (printInt value ++ 58 :: rest).dropWhile (· ≠ 58) = 58 :: rest := by
    have foreign : ∀ byte ∈ printInt value, decide (byte ≠ 58) = true := by
      intro byte member
      apply decide_eq_true
      rintro rfl
      rcases printInt_plain value 58 member with digit | minus
      · contradiction
      · contradiction
    rw [List.dropWhile_append_of_pos foreign]
    rfl
  rw [behindColon, passed]

theorem scanUnsigned_printNat (fits : l < 2 ^ 64) : scanUnsigned (printNat l) = some l := by
  have plain : printInt (l : Int) = printNat l := by
    rw [printInt, if_neg (by omega), Int.natAbs_natCast]
  obtain ⟨solid, signed⟩ := scanSign_printInt (l : Int) []
  rw [List.append_nil, plain] at solid signed
  rw [Int.natAbs_natCast] at signed
  obtain ⟨front, -⟩ := @span_printNat l [] rfl
  have positive : ¬(l : Int) < 0 := by omega
  rw [List.append_nil] at signed front
  rw [scanUnsigned, solid, signed]
  simp only [front, decimal_printNat, if_neg (printNat_ne_nil l), if_neg (Nat.not_le.mpr fits),
    positive, decide_false, Bool.false_eq_true, if_false]

theorem parseColonList_sysfsName (address : IsAddress hctl) :
    parseColonList (sysfsName hctl) = some hctl := by
  have stop (rest : List UInt8) : stops (58 :: rest) = true := rfl
  rw [parseColonList, sysfsName]
  simp only [scanInt_printInt address.host.1 address.host.2 (stop _),
    scanInt_printInt address.channel.1 address.channel.2 (stop _),
    scanInt_printInt address.target.1 address.target.2 (stop _), behindColon_printInt,
    Option.bind_some, scanUnsigned_printNat address.unit, Option.map_some, ← address.bytes]

/-- Of the unit an entry keeps the highest word of the number in the name, which is zero below
`2 ^ 48`. -/
theorem stored_unit (address : IsAddress hctl) :
    storedAddress (sysfsName hctl) = some [BitVec.ofInt 16 hctl.h, BitVec.ofInt 16 hctl.c,
      BitVec.ofInt 16 hctl.t, BitVec.ofNat 16 (hctl.l / 2 ^ 48)] := by
  have highest : (lunWordFlip (BitVec.ofNat 64 hctl.l)).setWidth 16 =
      BitVec.ofNat 16 (hctl.l / 2 ^ 48) := by
    apply BitVec.eq_of_getLsbD_eq
    intro i inside
    have place : 16 * (3 - i / 16) + i % 16 = 48 + i := by omega
    rw [BitVec.getLsbD_setWidth, lunWordFlip_bits _ (by omega), place, BitVec.getLsbD_ofNat,
      BitVec.getLsbD_ofNat, Nat.testBit_div_two_pow, Nat.add_comm i 48]
    simp [inside, show 48 + i < 64 by omega]
  rw [storedAddress, parseColonList_sysfsName address, Option.map_some, highest]

theorem sysfsName_plain (hctl : AddrHctl) :
    ∀ byte ∈ sysfsName hctl, isDigit byte = true ∨ byte = 45 ∨ byte = 58 := by
  have printed (value : Int) :
      ∀ byte ∈ printInt value, isDigit byte = true ∨ byte = 45 ∨ byte = 58 :=
    fun byte member => (printInt_plain value byte member).imp_right Or.inl
  intro byte member
  simp only [sysfsName, List.mem_append, List.mem_cons] at member
  rcases member with host | colon | channel | colon | target | colon | unit
  · exact printed _ byte host
  · exact Or.inr (Or.inr colon)
  · exact printed _ byte channel
  · exact Or.inr (Or.inr colon)
  · exact printed _ byte target
  · exact Or.inr (Or.inr colon)
  · exact Or.inl (printNat_digits _ byte unit)

theorem foreign_of_plain {name word : List UInt8}
    (plain : ∀ byte ∈ name, isDigit byte = true ∨ byte = 45 ∨ byte = 58)
    {letter : UInt8} (inside : letter ∈ word)
    (foreign : ¬(isDigit letter = true ∨ letter = 45 ∨ letter = 58)) : ¬word <:+: name :=
  fun part => foreign (plain letter (part.subset inside))

theorem select_sysfsName (hctl : AddrHctl) : sdevDirScanSelect none (sysfsName hctl) = true := by
  have plain := sysfsName_plain hctl
  have mt : ¬ascii "mt" <:+: sysfsName hctl :=
    @foreign_of_plain _ _ plain 109 (by decide +kernel) (by decide)
  have ot : ¬ascii "ot" <:+: sysfsName hctl :=
    @foreign_of_plain _ _ plain 111 (by decide +kernel) (by decide)
  have gen : ¬ascii "gen" <:+: sysfsName hctl :=
    @foreign_of_plain _ _ plain 103 (by decide +kernel) (by decide)
  have host : ¬ascii "host" <+: sysfsName hctl := fun front =>
    @foreign_of_plain _ _ plain 104 (by decide +kernel) (by decide) front.isInfix
  have target : ¬ascii "target" <+: sysfsName hctl := fun front =>
    @foreign_of_plain _ _ plain 116 (by decide +kernel) (by decide) front.isInfix
  have colon : 58 ∈ sysfsName hctl :=
    List.mem_append_right _ List.mem_cons_self
  rw [sdevDirScanSelect, if_neg mt, if_neg ot, if_neg gen, if_neg host, if_neg target, if_pos colon]

theorem sdevScandirSort_sysfsName {left right : AddrHctl} (first : IsAddress left)
    (second : IsAddress right) :
    sdevScandirSort (sysfsName left) (sysfsName right) ≤ 0 ↔ rank left ≤ rank right := by
  rw [sdevScandirSort, parseColonList_sysfsName first, parseColonList_sysfsName second]
  simp only [cmpHctl_eq]
  by_cases below : rank left < rank right
  · simp [below, below.le]
  · by_cases same : rank left = rank right
    · simp [same]
    · have above : ¬rank left ≤ rank right := fun under => below (lt_of_le_of_ne under same)
      simp [below, same, above]

theorem rank_injective {left right : AddrHctl} (first : IsAddress left) (second : IsAddress right)
    (same : rank left = rank right) : left = right := by
  simp only [rank, EmbeddingLike.apply_eq_iff_eq, Prod.mk.injEq] at same
  obtain ⟨host, channel, target, unit⟩ := same
  have bytes : left.lunArr = right.lunArr := by rw [first.bytes, second.bytes, unit]
  cases left
  cases right
  simp_all only

/-- An entry beside the devices: a host, a target, `.` or `..`. -/
def IsAside (name : List UInt8) : Prop :=
  ascii "host" <+: name ∨ ascii "target" <+: name ∨ 58 ∉ name

/-- However `scandir` sorts, it lists the devices of the directory by host, channel, target and
unit, and nothing else of it. -/
theorem devices_listed_by_address {devices : List AddrHctl}
    {others entries listed : List (List UInt8)}
    (addresses : ∀ device ∈ devices, IsAddress device) (aside : ∀ other ∈ others, IsAside other)
    (found : entries.Perm (devices.map sysfsName ++ others))
    (kept : listed.Perm (entries.filter (sdevDirScanSelect none)))
    (sorted : listed.Pairwise fun a b => sdevScandirSort a b ≤ 0) :
    listed = (byRank devices).map sysfsName := by
  have selected : (devices.map sysfsName ++ others).filter (sdevDirScanSelect none) =
      devices.map sysfsName := by
    have named : ∀ name ∈ devices.map sysfsName, sdevDirScanSelect none name = true := by
      intro name member
      obtain ⟨device, -, rfl⟩ := List.mem_map.mp member
      exact select_sysfsName device
    have dropped : ∀ other ∈ others, ¬sdevDirScanSelect none other = true := by
      intro other member
      rcases aside other member with host | target | unnamed
      · simp [sdevDirScanSelect, host]
      · simp [sdevDirScanSelect, target]
      · simp [sdevDirScanSelect, unnamed]
    rw [List.filter_append, List.filter_eq_self.mpr named, List.filter_eq_nil_iff.mpr dropped,
      List.append_nil]
  have perm : listed.Perm (devices.map sysfsName) :=
    kept.trans (selected ▸ found.filter _)
  have addressed : ∀ name ∈ listed, ∃ device ∈ devices, sysfsName device = name :=
    fun name member => List.mem_map.mp (perm.subset member)
  have antisymm : ∀ a b, a ∈ listed → b ∈ (byRank devices).map sysfsName →
      sdevScandirSort a b ≤ 0 → sdevScandirSort b a ≤ 0 → a = b := by
    intro a b here there below above
    obtain ⟨first, inFirst, rfl⟩ := addressed a here
    obtain ⟨second, inSecond, rfl⟩ := List.mem_map.mp there
    have left := addresses first inFirst
    have right := addresses second ((List.mergeSort_perm _ _).subset inSecond)
    have up := (sdevScandirSort_sysfsName left right).mp below
    have down := (sdevScandirSort_sysfsName right left).mp above
    rw [rank_injective left right (le_antisymm up down)]
  have ordered : ((byRank devices).map sysfsName).Pairwise fun a b => sdevScandirSort a b ≤ 0 := by
    rw [List.pairwise_map]
    refine (pairwise_byRank devices).imp_of_mem ?_
    intro first second here there below
    have known : ∀ device ∈ byRank devices, IsAddress device :=
      fun device member => addresses device ((List.mergeSort_perm _ _).subset member)
    exact (sdevScandirSort_sysfsName (known first here) (known second there)).mpr below
  exact List.Perm.eq_of_pairwise antisymm sorted ordered
    (perm.trans ((List.mergeSort_perm devices _).map sysfsName).symm)

def nearDevice : AddrHctl := ⟨0, 0, 8, 0, lunBytes 4 0⟩

def farDevice : AddrHctl := ⟨0, 2, 1, 5, lunBytes 4 5⟩

theorem address_nearDevice : IsAddress nearDevice :=
  ⟨⟨by decide, by decide⟩, ⟨by decide, by decide⟩, ⟨by decide, by decide⟩, by decide, rfl⟩

theorem address_farDevice : IsAddress farDevice :=
  ⟨⟨by decide, by decide⟩, ⟨by decide, by decide⟩, ⟨by decide, by decide⟩, by decide, rfl⟩

theorem far_and_near_listed : [sysfsName nearDevice, sysfsName farDevice] =
    (byRank [farDevice, nearDevice]).map sysfsName := by
  have addresses : ∀ device ∈ [farDevice, nearDevice], IsAddress device := by
    simp [address_farDevice, address_nearDevice]
  have aside : ∀ other ∈ [ascii "host0", ascii "target0:2:1"], IsAside other := by
    have host : ascii "host" <+: ascii "host0" := by decide +kernel
    have target : ascii "target" <+: ascii "target0:2:1" := by decide +kernel
    simp [IsAside, host, target]
  have dropped : ([ascii "host0", ascii "target0:2:1"]).filter (sdevDirScanSelect none) = [] := by
    decide +kernel
  have below : rank nearDevice ≤ rank farDevice := by decide
  refine devices_listed_by_address addresses aside (List.Perm.refl _) ?_ ?_
  · rw [List.filter_append, dropped]
    simp only [List.map_cons, List.map_nil, List.append_nil, List.filter_cons, select_sysfsName,
      if_true, List.filter_nil]
    exact List.Perm.swap _ _ _
  · have sorted := (sdevScandirSort_sysfsName address_nearDevice address_farDevice).mpr below
    simpa using sorted

theorem stored_unit_far : storedAddress (sysfsName farDevice) =
    some [BitVec.ofInt 16 0, BitVec.ofInt 16 2, BitVec.ofInt 16 1, BitVec.ofNat 16 0] :=
  stored_unit address_farDevice

end Names

end DirtyCode.DiskList
