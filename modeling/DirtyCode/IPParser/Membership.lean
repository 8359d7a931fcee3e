import DirtyCode.IPParser.Bitmap
import DirtyCode.Lib.Address
import DirtyCode.Lib.Spans

/-!
Which addresses a sequence of `addIPstoBitmap` calls marks, and when these are the
addresses of the networks that the entries name.
-/

namespace DirtyCode.IPParser

open Lib

/-- The addresses that share all but the last `bits` bits with `pos`. -/
def Covers (pos bits host : Nat) : Prop := host / 2 ^ bits = pos / 2 ^ bits

/-- The addresses whose bits `bitmapOpsBatch` sets. -/
def Written (pos bits host : Nat) : Prop :=
  if bits = 0 then host = pos
  else if bits = 1 then
    host / 8 = pos / 8 ∧ (host % 8 = pos % 8 ∨ (pos % 16 < 8 ∧ host % 8 = 0))
  else if bits = 2 then
    host / 8 = pos / 8 ∧ (host % 8 = pos % 8 ∨
      (pos % 16 < 8 ∧ (host % 8 = 0 ∨ host % 8 = pos % 2 ∨ host % 8 = pos / 2 % 2 * 2)))
  else pos / 8 * 8 ≤ host ∧ host < pos / 8 * 8 + 2 ^ bits

instance (pos bits host : Nat) : Decidable (Written pos bits host) := by
  unfold Written
  infer_instance

/-- The shift is defined and the `memset` stays in the map. -/
def Defined (pos bits : Nat) : Prop :=
  bits < 31 ∧ (3 ≤ bits → pos / 8 * 8 + 2 ^ bits ≤ 2 ^ 32)

/-- The bases from which the call marks exactly the network. -/
def Aligned (pos bits : Nat) : Prop :=
  bits = 0 ∨ (bits = 1 ∧ pos % 16 = 1) ∨ (bits = 2 ∧ pos % 16 = 3) ∨
    (3 ≤ bits ∧ bits < 31 ∧ pos % 2 ^ bits < 8)

theorem and_low {pos mask : Nat} (low : 0x0F &&& mask = mask) :
    pos &&& mask = pos % 16 &&& mask := by
  have sixteen : pos % 16 = pos &&& 0x0F := (Nat.and_two_pow_sub_one_eq_mod pos 4).symm
  rw [sixteen, Nat.and_assoc, low]

theorem two_bits : ∀ low < 16, ∀ offset < 8,
    (bitMask (low &&& 0x07) ||| bitMask (low &&& (0x07 + 1))).toNat.testBit offset =
      decide (offset = low % 8 ∨ (low < 8 ∧ offset = 0)) := by
  decide

theorem four_bits : ∀ low < 16, ∀ offset < 8,
    (bitMask (low &&& 0x07) ||| bitMask (low &&& (0x07 + 1)) ||| bitMask (low &&& (0x07 + 2)) |||
        bitMask (low &&& (0x07 + 3))).toNat.testBit offset =
      decide (offset = low % 8 ∨
        (low < 8 ∧ (offset = 0 ∨ offset = low % 2 ∨ offset = low / 2 % 2 * 2))) := by
  decide

theorem full_byte : ∀ offset < 8, (0xFF : UInt8).toNat.testBit offset = true := by
  decide

theorem marked_memset (map : Memory) (offset count host : Nat) :
    marked (map.memcpy offset (fun _ => 0xFF) count) host =
      (marked map host || decide (offset ≤ host / 8 ∧ host / 8 < offset + count)) := by
  rw [marked, marked, Memory.memcpy]
  have offsetBound : host % 8 < 8 := Nat.mod_lt _ (by decide)
  by_cases inside : offset ≤ host / 8 ∧ host / 8 < offset + count
  · rw [if_pos inside, full_byte _ offsetBound]
    simp [inside]
  · rw [if_neg inside]
    simp [inside]

theorem batch_one (map : Memory) (pos : Nat) :
    ∃ after, bitmapOpsBatch map pos 0 1 = some after ∧
      ∀ host, marked after host = (marked map host || decide (Written pos 0 host)) := by
  refine ⟨_, rfl, ?_⟩
  intro host
  exact marked_bitmapOps map pos host

theorem batch_two (map : Memory) (pos : Nat) :
    ∃ after, bitmapOpsBatch map pos 1 1 = some after ∧
      ∀ host, marked after host = (marked map host || decide (Written pos 1 host)) := by
  refine ⟨_, rfl, ?_⟩
  intro host
  have first : pos &&& 0x07 = pos % 16 &&& 0x07 := and_low rfl
  have second : pos &&& (0x07 + 1) = pos % 16 &&& (0x07 + 1) := and_low rfl
  have lowBound : pos % 16 < 16 := Nat.mod_lt _ (by decide)
  have offsetBound : host % 8 < 8 := Nat.mod_lt _ (by decide)
  have low : pos % 16 % 8 = pos % 8 := by omega
  rw [marked_or, first, second,
    two_bits _ lowBound _ offsetBound, ← Bool.decide_and, low]
  rfl

theorem batch_four (map : Memory) (pos : Nat) :
    ∃ after, bitmapOpsBatch map pos 2 1 = some after ∧
      ∀ host, marked after host = (marked map host || decide (Written pos 2 host)) := by
  refine ⟨_, rfl, ?_⟩
  intro host
  have first : pos &&& 0x07 = pos % 16 &&& 0x07 := and_low rfl
  have second : pos &&& (0x07 + 1) = pos % 16 &&& (0x07 + 1) := and_low rfl
  have third : pos &&& (0x07 + 2) = pos % 16 &&& (0x07 + 2) := and_low rfl
  have fourth : pos &&& (0x07 + 3) = pos % 16 &&& (0x07 + 3) := and_low rfl
  have lowBound : pos % 16 < 16 := Nat.mod_lt _ (by decide)
  have offsetBound : host % 8 < 8 := Nat.mod_lt _ (by decide)
  have low : pos % 16 % 8 = pos % 8 := by omega
  have lowest : pos % 16 % 2 = pos % 2 := by omega
  have next : pos % 16 / 2 % 2 = pos / 2 % 2 := by omega
  rw [marked_or, first, second, third, fourth,
    four_bits _ lowBound _ offsetBound, ← Bool.decide_and, low,
    lowest, next]
  rfl

theorem batch_bytes (map : Memory) {pos : Nat} {bits : UInt8} (three : 3 ≤ bits.toNat)
    (below : bits.toNat < 31) :
    bitmapOpsBatch map pos bits 1 = memset map (pos >>> 3) 0xFF (2 ^ bits.toNat / 8) := by
  have large : 2 ^ 3 ≤ 2 ^ bits.toNat := Nat.pow_le_pow_right (by decide) three
  have valid : ¬32 < bits := by
    rw [UInt8.lt_iff_toNat_lt]
    change ¬32 < bits.toNat
    omega
  have one : ¬2 ^ bits.toNat = 1 := by omega
  have two : ¬2 ^ bits.toNat = 2 := by omega
  have four : ¬2 ^ bits.toNat = 4 := by omega
  simp only [bitmapOpsBatch, valid, if_false, shiftInt, below, if_true, Option.bind_some,
    Nat.one_shiftLeft, one, two, four]
  exact if_pos (by decide)

theorem batch_small {bits : UInt8} (small : bits.toNat < 3) :
    bits = 0 ∨ bits = 1 ∨ bits = 2 := by
  have value : bits.toNat = 0 ∨ bits.toNat = 1 ∨ bits.toNat = 2 := by omega
  rcases value with zero | one | two
  · exact .inl (UInt8.toNat_inj.mp zero)
  · exact .inr (.inl (UInt8.toNat_inj.mp one))
  · exact .inr (.inr (UInt8.toNat_inj.mp two))

theorem batch_written (map : Memory) {pos : Nat} {bits : UInt8}
    (defined : Defined pos bits.toNat) :
    ∃ after, bitmapOpsBatch map pos bits 1 = some after ∧
      ∀ host, marked after host = (marked map host || decide (Written pos bits.toNat host)) := by
  by_cases three : 3 ≤ bits.toNat
  · obtain ⟨extra, size⟩ : ∃ extra, bits.toNat = extra + 3 := ⟨bits.toNat - 3, by omega⟩
    have bytes : 2 ^ bits.toNat = 8 * 2 ^ extra := by
      rw [size, Nat.pow_add, Nat.mul_comm]
    have inside := defined.2 three
    have room : pos / 8 + 2 ^ extra ≤ bitmapSize := by
      rw [bitmapSize]
      omega
    refine ⟨map.memcpy (pos / 8) (fun _ => 0xFF) (2 ^ extra), ?_, ?_⟩
    · rw [batch_bytes map three defined.1, memset, Nat.shiftRight_eq_div_pow, bytes,
        Nat.mul_div_cancel_left _ (by decide)]
      exact if_pos room
    · intro host
      rw [marked_memset]
      congr 1
      apply decide_eq_decide.mpr
      have zero : ¬bits.toNat = 0 := by omega
      have one : ¬bits.toNat = 1 := by omega
      have two : ¬bits.toNat = 2 := by omega
      simp only [Written, zero, one, two, if_false, bytes]
      omega
  · rcases batch_small (Nat.lt_of_not_le three) with rfl | rfl | rfl
    · exact batch_one map pos
    · exact batch_two map pos
    · exact batch_four map pos

theorem batch_undefined (map : Memory) {pos : Nat} {bits : UInt8} (valid : bits.toNat ≤ 32)
    (undefined : ¬Defined pos bits.toNat) : bitmapOpsBatch map pos bits 1 = none := by
  have small : ¬32 < bits := by
    rw [UInt8.lt_iff_toNat_lt]
    change ¬32 < bits.toNat
    omega
  by_cases below : bits.toNat < 31
  · have three : 3 ≤ bits.toNat := by
      by_contra fewer
      exact undefined ⟨below, fun three => absurd three fewer⟩
    obtain ⟨extra, size⟩ : ∃ extra, bits.toNat = extra + 3 := ⟨bits.toNat - 3, by omega⟩
    have bytes : 2 ^ bits.toNat = 8 * 2 ^ extra := by
      rw [size, Nat.pow_add, Nat.mul_comm]
    have outside : ¬pos / 8 + 2 ^ extra ≤ bitmapSize := by
      intro room
      rw [bitmapSize] at room
      exact undefined ⟨below, fun _ => by omega⟩
    rw [batch_bytes map three below, memset, Nat.shiftRight_eq_div_pow, bytes,
      Nat.mul_div_cancel_left _ (by decide)]
    exact if_neg outside
  · simp [bitmapOpsBatch, small, shiftInt, below]

theorem base_start {pos bits : Nat} (base : pos % 2 ^ bits < 8) (three : 3 ≤ bits) :
    pos / 8 * 8 = 2 ^ bits * (pos / 2 ^ bits) := by
  obtain ⟨extra, rfl⟩ : ∃ extra, bits = extra + 3 := ⟨bits - 3, by omega⟩
  have bytes : 2 ^ (extra + 3) = 8 * 2 ^ extra := by
    rw [Nat.pow_add, Nat.mul_comm]
  have whole := Nat.div_add_mod pos (2 ^ (extra + 3))
  rw [bytes] at whole base ⊢
  generalize pos / (8 * 2 ^ extra) = quotient at whole ⊢
  have regroup : 8 * 2 ^ extra * quotient = 8 * (2 ^ extra * quotient) := Nat.mul_assoc _ _ _
  rw [regroup] at whole ⊢
  omega

/-- From an aligned base the bits that are set are those of the network. -/
theorem written_of_aligned {pos bits : Nat} (aligned : Aligned pos bits) (host : Nat) :
    Written pos bits host ↔ Covers pos bits host := by
  rcases aligned with rfl | ⟨rfl, base⟩ | ⟨rfl, base⟩ | ⟨three, below, base⟩
  · simp [Written, Covers]
  · simp only [Written, Covers, one_ne_zero, if_false, if_true, pow_one]
    omega
  · simp only [Written, Covers, OfNat.ofNat_ne_zero, OfNat.ofNat_ne_one, if_false, if_true]
    omega
  · have positive : 0 < 2 ^ bits := Nat.two_pow_pos _
    have zero : ¬bits = 0 := by omega
    have one : ¬bits = 1 := by omega
    have two : ¬bits = 2 := by omega
    simp only [Written, Covers, zero, one, two, if_false, base_start base three]
    rw [Nat.div_eq_iff positive, Nat.mul_comm]
    omega

theorem defined_of_aligned {pos bits : Nat} (small : pos < 2 ^ 32) (aligned : Aligned pos bits) :
    Defined pos bits := by
  rcases aligned with rfl | ⟨rfl, base⟩ | ⟨rfl, base⟩ | ⟨three, below, base⟩
  · exact ⟨by decide, by omega⟩
  · exact ⟨by decide, by omega⟩
  · exact ⟨by decide, by omega⟩
  · refine ⟨below, fun _ => ?_⟩
    have start := base_start base three
    have split : 2 ^ 32 = 2 ^ bits * 2 ^ (32 - bits) := by
      rw [← Nat.pow_add]
      congr 1
      omega
    have quotient : pos / 2 ^ bits < 2 ^ (32 - bits) := by
      apply Nat.div_lt_of_lt_mul
      rwa [← split]
    calc pos / 8 * 8 + 2 ^ bits = 2 ^ bits * (pos / 2 ^ bits + 1) := by rw [start, Nat.mul_succ]
      _ ≤ 2 ^ bits * 2 ^ (32 - bits) := Nat.mul_le_mul_left _ quotient
      _ = 2 ^ 32 := split.symm

/-- No other base is right: one entry alone marks its network only when aligned. -/
theorem aligned_of_written {pos bits : Nat} (small : pos < 2 ^ 32) (defined : Defined pos bits)
    (exact_ : ∀ host < 2 ^ 32, Written pos bits host ↔ Covers pos bits host) :
    Aligned pos bits := by
  by_contra unaligned
  rw [Aligned] at unaligned
  push Not at unaligned
  obtain ⟨notZero, notOne, notTwo, large⟩ := unaligned
  by_cases one : bits = 1
  · subst one
    have base := notOne rfl
    simp only [Written, Covers, one_ne_zero, if_false, if_true, pow_one] at exact_
    by_cases even : pos % 2 = 0
    · have partner := exact_ (pos + 1) (by omega)
      omega
    · have partner := exact_ (pos - 1) (by omega)
      omega
  · by_cases two : bits = 2
    · subst two
      have base := notTwo rfl
      simp only [Written, Covers, OfNat.ofNat_ne_zero, OfNat.ofNat_ne_one, if_false,
        if_true] at exact_
      have first := exact_ (pos / 8 * 8) (by omega)
      have last := exact_ (pos / 4 * 4 + 3) (by omega)
      have start := exact_ (pos / 4 * 4) (by omega)
      omega
    · have beyond := large (by omega) defined.1
      have start := exact_ (2 ^ bits * (pos / 2 ^ bits)) (by
        exact (Nat.mul_div_le pos (2 ^ bits)).trans_lt small)
      have whole := Nat.div_add_mod pos (2 ^ bits)
      have covered : Covers pos bits (2 ^ bits * (pos / 2 ^ bits)) :=
        Nat.mul_div_cancel_left _ (Nat.two_pow_pos _)
      have written := start.mpr covered
      simp only [Written, notZero, one, two, if_false] at written
      omega

/-- An entry `address` or `address/mask`. -/
structure Entry where
  address : Bytes
  plain : ∀ byte ∈ address, notSlash byte = true
  sAddr : Nat
  parsed : inetPton address = some sAddr
  mask : Option Bytes
  valid : ∀ text, mask = some text → 0 ≤ atoi text ∧ atoi text ≤ 32

namespace Entry

def text (entry : Entry) : Bytes :=
  match entry.mask with
  | none => entry.address
  | some mask => entry.address ++ 47 :: mask

def host (entry : Entry) : Nat := htonl entry.sAddr

/-- The number of host bits. -/
def bits (entry : Entry) : Nat :=
  match entry.mask with
  | none => 0
  | some mask => 32 - (atoi mask).toNat

def Names (entry : Entry) (host : Nat) : Prop := Covers entry.host entry.bits host

def Marks (entry : Entry) (host : Nat) : Prop := Written entry.host entry.bits host

/-- Other entries mark what this one misses and name what it marks in excess. -/
def MadeUp (entry : Entry) (entries : List Entry) : Prop :=
  Defined entry.host entry.bits ∧ ∀ host < 2 ^ 32,
    (entry.Names host → ∃ other ∈ entries, other.Marks host) ∧
      (entry.Marks host → ∃ other ∈ entries, other.Names host)

end Entry

def addAll : List Bytes → Memory → Option Memory
  | [], map => some map
  | IPs :: rest, map => (addIPstoBitmap IPs map).bind fun added => addAll rest added.2

theorem htonl_lt (sAddr : Nat) : htonl sAddr < 2 ^ 32 := by
  rw [htonl]
  omega

theorem htonl_octets {a b c d : Nat} (first : a < 256) (second : b < 256) (third : c < 256)
    (fourth : d < 256) :
    htonl (a + 256 * b + 65536 * c + 16777216 * d) =
      16777216 * a + 65536 * b + 256 * c + d := by
  have lowest : (a + 256 * b + 65536 * c + 16777216 * d) % 256 = a := by omega
  have next : (a + 256 * b + 65536 * c + 16777216 * d) / 256 % 256 = b := by omega
  have upper : (a + 256 * b + 65536 * c + 16777216 * d) / 65536 % 256 = c := by omega
  have highest : (a + 256 * b + 65536 * c + 16777216 * d) / 16777216 % 256 = d := by omega
  rw [htonl, lowest, next, upper, highest]

theorem mask_bits : ∀ mask ≤ 32, (32 - UInt8.ofInt (mask : Nat)).toNat = 32 - mask := by
  decide

theorem addIPstoBitmap_plain (entry : Entry) (plain : entry.mask = none) (map : Memory) :
    addIPstoBitmap entry.text map = some (0, (bitmapOps map entry.host 1).2) := by
  have whole : entry.text = entry.address := by
    rw [Entry.text, plain]
  have stops : entry.address.dropWhile notSlash = [] := List.dropWhile_eq_nil_iff.mpr entry.plain
  rw [addIPstoBitmap, whole, stops, entry.parsed]
  rfl

theorem addIPstoBitmap_masked (entry : Entry) {mask : Bytes} (masked : entry.mask = some mask) :
    ∃ bits : UInt8, bits.toNat = entry.bits ∧ entry.bits ≤ 32 ∧ ∀ map,
      addIPstoBitmap entry.text map =
        (bitmapOpsBatch map entry.host bits 1).map fun after => (0, after) := by
  have shape : entry.text = entry.address ++ 47 :: mask := by
    rw [Entry.text, masked]
  have count : entry.bits = 32 - (atoi mask).toNat := by
    rw [Entry.bits, masked]
  have slash : notSlash 47 = false := rfl
  obtain ⟨taken, dropped⟩ := span_stop entry.plain slash mask
  obtain ⟨lower, upper⟩ := entry.valid mask masked
  obtain ⟨value, number⟩ := Int.eq_ofNat_of_zero_le lower
  refine ⟨32 - UInt8.ofInt (atoi mask), ?_, ?_, ?_⟩
  · rw [count, number]
    exact mask_bits value (by omega)
  · rw [count]
    exact Nat.sub_le _ _
  · intro map
    rw [addIPstoBitmap, shape, dropped, taken, entry.parsed]
    rfl

theorem addIPstoBitmap_defined (entry : Entry) (defined : Defined entry.host entry.bits)
    (map : Memory) :
    ∃ after, addIPstoBitmap entry.text map = some (0, after) ∧
      ∀ host, marked after host = true ↔ marked map host = true ∨ entry.Marks host := by
  cases masked : entry.mask with
  | none =>
      have single : entry.bits = 0 := by
        rw [Entry.bits, masked]
      refine ⟨_, addIPstoBitmap_plain entry masked map, ?_⟩
      intro host
      rw [marked_bitmapOps, Bool.or_eq_true, decide_eq_true_iff, Entry.Marks, single]
      rfl
  | some mask =>
      obtain ⟨bits, size, -, added⟩ := addIPstoBitmap_masked entry masked
      rw [← size] at defined
      obtain ⟨after, done, written⟩ := batch_written map defined
      refine ⟨after, by rw [added, done]; rfl, ?_⟩
      intro host
      rw [written host, Bool.or_eq_true, decide_eq_true_iff, size]
      rfl

theorem addIPstoBitmap_undefined (entry : Entry) (undefined : ¬Defined entry.host entry.bits)
    (map : Memory) : addIPstoBitmap entry.text map = none := by
  cases masked : entry.mask with
  | none =>
      have single : entry.bits = 0 := by
        rw [Entry.bits, masked]
      rw [single] at undefined
      exact absurd ⟨by decide, by omega⟩ undefined
  | some mask =>
      obtain ⟨bits, size, bound, added⟩ := addIPstoBitmap_masked entry masked
      rw [← size] at undefined bound
      rw [added, batch_undefined map bound undefined]
      rfl

/-- All calls go through exactly when each is defined, and then what they mark adds up. -/
theorem addAll_defined (entries : List Entry)
    (defined : ∀ entry ∈ entries, Defined entry.host entry.bits) (map : Memory) :
    ∃ after, addAll (entries.map Entry.text) map = some after ∧
      ∀ host, marked after host = true ↔
        marked map host = true ∨ ∃ entry ∈ entries, entry.Marks host := by
  induction entries generalizing map with
  | nil =>
      refine ⟨map, rfl, ?_⟩
      simp
  | cons entry rest ih =>
      obtain ⟨middle, added, first⟩ :=
        addIPstoBitmap_defined entry (defined entry List.mem_cons_self) map
      obtain ⟨after, finished, others⟩ :=
        ih (fun other member => defined other (List.mem_cons_of_mem _ member)) middle
      refine ⟨after, ?_, ?_⟩
      · rw [List.map_cons, addAll, added]
        exact finished
      · intro host
        rw [others host, first host, List.exists_mem_cons_iff, or_assoc]

theorem defined_of_addAll {entries : List Entry} {map after : Memory}
    (added : addAll (entries.map Entry.text) map = some after) :
    ∀ entry ∈ entries, Defined entry.host entry.bits := by
  induction entries generalizing map with
  | nil => nofun
  | cons entry rest ih =>
      rw [List.map_cons, addAll] at added
      obtain ⟨middle, first, others⟩ := Option.bind_eq_some_iff.mp added
      intro other member
      rcases List.mem_cons.mp member with rfl | later
      · by_contra undefined
        rw [addIPstoBitmap_undefined other undefined] at first
        contradiction
      · exact ih others other later

theorem octet_shortDecimal : ∀ value < 256, octet (shortDecimal value) = some value := by
  decide +kernel

theorem shortDecimal_plain {value : Nat} (small : value < 256) {byte : UInt8}
    (member : byte ∈ shortDecimal value) : byte ≠ 46 ∧ notSlash byte = true := by
  have numeral := List.all_eq_true.mp (shortDecimal_digits value small) byte member
  constructor
  · rintro rfl
    contradiction
  · rw [notSlash, decide_eq_true_iff]
    rintro rfl
    contradiction

theorem splitOn_shortDecimal {value : Nat} (small : value < 256) (rest : Bytes) :
    (shortDecimal value ++ 46 :: rest).splitOn 46 = shortDecimal value :: rest.splitOn 46 := by
  rw [List.splitOn_eq_splitOnP]
  apply List.splitOnP_append_cons_of_forall_mem
  · intro byte member
    simpa using (shortDecimal_plain small member).1
  · rfl

theorem splitOn_last {value : Nat} (small : value < 256) :
    (shortDecimal value).splitOn 46 = [shortDecimal value] := by
  rw [List.splitOn_eq_splitOnP]
  apply List.splitOnP_eq_singleton
  intro byte member
  simpa using (shortDecimal_plain small member).1

theorem inetPton_dottedIp (ip : BitVec 32) :
    inetPton (dottedIp ip) =
      some (ipByte ip 3 + 256 * ipByte ip 2 + 65536 * ipByte ip 1 + 16777216 * ipByte ip 0) := by
  have parts : (dottedIp ip).splitOn 46 =
      [shortDecimal (ipByte ip 3), shortDecimal (ipByte ip 2), shortDecimal (ipByte ip 1),
        shortDecimal (ipByte ip 0)] := by
    rw [dottedIp, splitOn_shortDecimal (ipByte_lt ip 3), splitOn_shortDecimal (ipByte_lt ip 2),
      splitOn_shortDecimal (ipByte_lt ip 1), splitOn_last (ipByte_lt ip 0)]
  rw [inetPton, parts]
  simp only [octet_shortDecimal _ (ipByte_lt ip _)]
  rfl

theorem dottedIp_plain (ip : BitVec 32) : ∀ byte ∈ dottedIp ip, notSlash byte = true := by
  intro byte member
  simp only [dottedIp, List.mem_append, List.mem_cons] at member
  rcases member with inside | rfl | inside | rfl | inside | rfl | inside
  · exact (shortDecimal_plain (ipByte_lt ip 3) inside).2
  · rfl
  · exact (shortDecimal_plain (ipByte_lt ip 2) inside).2
  · rfl
  · exact (shortDecimal_plain (ipByte_lt ip 1) inside).2
  · rfl
  · exact (shortDecimal_plain (ipByte_lt ip 0) inside).2

/-- Every address is the address of some text. -/
theorem exists_text {host : Nat} (small : host < 2 ^ 32) :
    ∃ (text : Bytes) (sAddr : Nat),
      inetPton (text.takeWhile notSlash) = some sAddr ∧ htonl sAddr = host := by
  obtain ⟨ip, rfl⟩ : ∃ ip : BitVec 32, ip.toNat = host :=
    ⟨BitVec.ofNat 32 host, by rw [BitVec.toNat_ofNat, Nat.mod_eq_of_lt small]⟩
  refine ⟨dottedIp ip, _, ?_, htonl_octets (ipByte_lt ip 3) (ipByte_lt ip 2) (ipByte_lt ip 1)
    (ipByte_lt ip 0) |>.trans ?_⟩
  · rw [List.takeWhile_eq_self_iff.mpr (dottedIp_plain ip), inetPton_dottedIp]
  · simp only [ipByte, Nat.reducePow, Nat.div_one]
    omega

theorem marked_zero (host : Nat) : marked (fun _ => 0) host = false := by
  simp [marked]

theorem hitIPSet_eq {query : Bytes} {sAddr : Nat}
    (parsed : inetPton (query.takeWhile notSlash) = some sAddr) (map : Memory) :
    hitIPSet query map = if marked map (htonl sAddr) = true then 1 else 0 := by
  rw [hitIPSet, parsed]
  by_cases there : marked map (htonl sAddr) = true
  · rw [if_pos there]
    exact if_pos ((bitmapOps_query map _).mpr there)
  · rw [if_neg there]
    exact if_neg fun hit => there ((bitmapOps_query map _).mp hit)

/-- After the calls every query answers 1 for the addresses of the entries and 0 for
all others, exactly when each entry is aligned or the others make up for it. -/
theorem membership_iff (entries : List Entry) :
    (∃ map, addAll (entries.map Entry.text) (fun _ => 0) = some map ∧
      ∀ query sAddr, inetPton (query.takeWhile notSlash) = some sAddr →
        ((∃ entry ∈ entries, entry.Names (htonl sAddr)) → hitIPSet query map = 1) ∧
        ((¬∃ entry ∈ entries, entry.Names (htonl sAddr)) → hitIPSet query map = 0)) ↔
    ∀ entry ∈ entries, Aligned entry.host entry.bits ∨ entry.MadeUp entries := by
  constructor
  · rintro ⟨map, added, answers⟩ entry member
    have defined := defined_of_addAll added
    obtain ⟨after, same, marks⟩ := addAll_defined entries defined (fun _ => 0)
    obtain rfl := Option.some.inj (added.symm.trans same)
    refine .inr ⟨defined entry member, ?_⟩
    intro host small
    obtain ⟨query, sAddr, parsed, rfl⟩ := exists_text small
    obtain ⟨hits, misses⟩ := answers query sAddr parsed
    rw [hitIPSet_eq parsed] at hits misses
    have stored := marks (htonl sAddr)
    rw [marked_zero] at stored
    constructor
    · intro named
      have hit := hits ⟨entry, member, named⟩
      by_cases there : marked map (htonl sAddr) = true
      · exact (stored.mp there).resolve_left Bool.false_ne_true
      · rw [if_neg there] at hit
        contradiction
    · intro written
      by_contra unnamed
      have miss := misses unnamed
      rw [if_pos (stored.mpr (.inr ⟨entry, member, written⟩))] at miss
      contradiction
  · intro made
    have defined : ∀ entry ∈ entries, Defined entry.host entry.bits := by
      intro entry member
      rcases made entry member with aligned | up
      · exact defined_of_aligned (htonl_lt _) aligned
      · exact up.1
    have both : ∀ host < 2 ^ 32, (∃ entry ∈ entries, entry.Marks host) ↔
        ∃ entry ∈ entries, entry.Names host := by
      intro host small
      constructor
      · rintro ⟨entry, member, written⟩
        rcases made entry member with aligned | up
        · exact ⟨entry, member, (written_of_aligned aligned host).mp written⟩
        · exact (up.2 host small).2 written
      · rintro ⟨entry, member, named⟩
        rcases made entry member with aligned | up
        · exact ⟨entry, member, (written_of_aligned aligned host).mpr named⟩
        · exact (up.2 host small).1 named
    obtain ⟨map, added, marks⟩ := addAll_defined entries defined (fun _ => 0)
    refine ⟨map, added, ?_⟩
    intro query sAddr parsed
    have stored := marks (htonl sAddr)
    rw [marked_zero, both _ (htonl_lt _)] at stored
    rw [hitIPSet_eq parsed]
    constructor
    · intro named
      exact if_pos (stored.mpr (.inr named))
    · intro unnamed
      refine if_neg fun there => unnamed ?_
      exact (stored.mp there).resolve_left Bool.false_ne_true

def pairEntry : Entry where
  address := [49, 48, 46, 48, 46, 48, 46, 56]
  plain := by decide +kernel
  sAddr := 134217738
  parsed := by decide
  mask := some [51, 49]
  valid := by
    intro text same
    obtain rfl := Option.some.inj same
    decide

/-- The pair of `10.0.0.8/31` is `10.0.0.8` and `10.0.0.9`, but for this base
`1 << (pos & 8)` is no bit of the byte. -/
theorem pair_missed :
    ∃ map, addAll [pairEntry.text] (fun _ => 0) = some map ∧
      pairEntry.Names 167772169 ∧ inetPton [49, 48, 46, 48, 46, 48, 46, 57] = some 150994954 ∧
      htonl 150994954 = 167772169 ∧ hitIPSet [49, 48, 46, 48, 46, 48, 46, 57] map = 0 := by
  have answer : (addAll [pairEntry.text] (fun _ => 0)).map
      (hitIPSet [49, 48, 46, 48, 46, 48, 46, 57]) = some 0 := by
    decide
  obtain ⟨map, added, missed⟩ := Option.map_eq_some_iff.mp answer
  refine ⟨map, added, ?_, by decide, by decide, missed⟩
  rw [Entry.Names, Covers]
  decide

end DirtyCode.IPParser
