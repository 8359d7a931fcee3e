import DirtyCode.Lib.CString
import DirtyCode.Lib.Terminated

/-!
The strings that `decode_dmi_dimm` of `edac_parser.c` stores for the memory slots.
-/

namespace DirtyCode.EdacParser

open Lib

def maxDimmSlot : Int := 32

def bufSize : Nat := 4096

-- `char` is signed
def signedChar (byte : UInt8) : Int := if byte < 128 then byte.toNat else byte.toNat - 256

/-- The loop of `get_dmi_entry_str`, with `i`, `begin` and the bytes left before `end`. -/
def getDmiEntryStr (buf : Memory) (seq : Nat) : Nat → Nat → Nat → Option Nat
  | _, _, 0 => none
  | i, begin_, left + 1 =>
      if seq ≤ i then if i = seq then some begin_ else none
      else getDmiEntryStr buf seq (if buf begin_ = 0 then i + 1 else i) (begin_ + 1) left

/-- The text for a string number; `none` where a pointer leaves `buf` or the text its field. -/
def storedText (buf : Memory) (n : Nat) (number : UInt8) : Option (List UInt8) :=
  if 0 < signedChar number then
    if signedChar (buf 1) < 0 then none
    else
      match getDmiEntryStr buf number.toNat 1 (buf 1).toNat (n - 1) with
      | some str => (buf.strlen str (bufSize - str)).bind fun len =>
          if len < 64 then some (buf.slice str len) else none
      | none => some []
  else some []

inductive DimmField
  | dloc
  | bloc
  | pn
  | sn

def DimmField.position : DimmField → Nat
  | dloc => 0x10
  | bloc => 0x11
  | pn => 0x1A
  | sn => 0x18

structure DimmInfo where
  seq : Int
  szGb : Int
  topo : Int
  edacPath : Int
  edacVal : Int
  text : DimmField → List UInt8

structure Dimms where
  buf : Memory
  dimmInfoData : Nat → DimmInfo
  dimmPlugged : Nat
  nrDimmSlots : Nat

def signedAt (buf : Memory) (offset size : Nat) : Int :=
  (BitVec.ofNat (8 * size) (Memory.ofLittleEndian (buf.slice offset size))).toInt

def sizeMibyte (buf : Memory) : Int :=
  if signedAt buf 0x0C 2 = 0x7fff then signedAt buf 0x1C 4 else signedAt buf 0x0C 2

def texts (dloc bloc pn sn : List UInt8) : DimmField → List UInt8
  | .dloc => dloc
  | .bloc => bloc
  | .pn => pn
  | .sn => sn

def decodeEntry (s : Dimms) (seq : Int) (raw : List UInt8) : Option Dimms :=
  let n := (raw.take 1024).length
  let buf := s.buf.write 0 (raw.take 1024)
  let size := sizeMibyte buf
  if maxDimmSlot < seq ∨ (0 < size ∧ size < 1024) then some { s with buf := buf }
  else if seq < 1 then none
  else do
    let dloc ← storedText buf n (buf 0x10)
    let bloc ← storedText buf n (buf 0x11)
    let pn ← storedText buf n (buf 0x1A)
    let sn ← storedText buf n (buf 0x18)
    let info : DimmInfo := {
      seq := seq
      szGb := (BitVec.ofInt 16 (size.tdiv 1024)).toInt
      topo := -1
      edacPath := -1
      edacVal := -2
      text := texts dloc bloc pn sn }
    return {
      buf := buf
      dimmInfoData := Function.update s.dimmInfoData (seq - 1).toNat info
      dimmPlugged := if 1024 ≤ size then s.dimmPlugged + 1 else s.dimmPlugged
      nrDimmSlots := s.nrDimmSlots + 1 }

def decodeDmiDimm (s : Dimms) (entries : List (Int × List UInt8)) : Option Dimms :=
  entries.foldlM (fun s entry => decodeEntry s entry.1 entry.2)
    { s with dimmInfoData := fun _ => ⟨0, 0, 0, 0, 0, fun _ => []⟩ }

theorem decodeEntry_buf {s after : Dimms} {seq : Int} {raw : List UInt8}
    (decoded : decodeEntry s seq raw = some after) :
    after.buf = s.buf.write 0 (raw.take 1024) := by
  simp only [decodeEntry] at decoded
  split at decoded
  · rw [← Option.some.inj decoded]
  · split at decoded
    · contradiction
    · simp only [Option.bind_eq_bind, Option.bind_eq_some_iff, Option.pure_def,
        Option.some.injEq] at decoded
      obtain ⟨dloc, -, bloc, -, pn, -, sn, -, rfl⟩ := decoded
      rfl

theorem decodeEntry_text {s after : Dimms} {seq : Int} {raw : List UInt8}
    (decoded : decodeEntry s seq raw = some after) (slot : Nat) :
    after.dimmInfoData slot = s.dimmInfoData slot ∨
      slot = (seq - 1).toNat ∧ ∀ field : DimmField,
        storedText after.buf (raw.take 1024).length (after.buf field.position) =
          some ((after.dimmInfoData slot).text field) := by
  simp only [decodeEntry] at decoded
  split at decoded
  · rw [← Option.some.inj decoded]
    exact Or.inl rfl
  · split at decoded
    · contradiction
    · simp only [Option.bind_eq_bind, Option.bind_eq_some_iff, Option.pure_def,
        Option.some.injEq] at decoded
      obtain ⟨dloc, first, bloc, second, pn, third, sn, fourth, rfl⟩ := decoded
      by_cases here : slot = (seq - 1).toNat
      · refine Or.inr ⟨here, fun field => ?_⟩
        subst here
        simp only [Function.update_self]
        cases field with
        | dloc => exact first
        | bloc => exact second
        | pn => exact third
        | sn => exact fourth
      · exact Or.inl (Function.update_of_ne here _ _)

/-- The file of an entry, which tells the length of its formatted part. -/
structure RawEntry where
  bytes : List UInt8
  short : bytes.length ≤ 1024
  header : 4 ≤ (bytes.getD 1 0).toNat
  inside : (bytes.getD 1 0).toNat ≤ bytes.length

abbrev StringNumber := { number : UInt8 // number ≠ 0 }

namespace RawEntry

def formatted (entry : RawEntry) : Nat := (entry.bytes.getD 1 0).toNat

def strings (entry : RawEntry) : List (List UInt8) :=
  (splitLines (· = 0) (entry.bytes.drop entry.formatted)).1

def string (entry : RawEntry) (number : StringNumber) : List UInt8 :=
  (entry.strings[number.val.toNat - 1]?).getD []

/-- Whatever was in the buffer, the text stored for the number is the entry's own string. -/
def StoresOwn (entry : RawEntry) (number : StringNumber) : Prop :=
  ∀ stale : Memory, storedText (stale.write 0 entry.bytes) entry.bytes.length number.val =
    some (entry.string number)

/-- The string is there and fits its field, or its number is too high for the bytes searched. -/
def Safe (entry : RawEntry) (number : StringNumber) : Prop :=
  if number.val < 128 then
    entry.formatted < 128 ∧
      ((number.val.toNat ≤ entry.strings.length ∧ (entry.string number).length < 64) ∨
        entry.strings.length + entry.formatted ≤ number.val.toNat)
  else entry.string number = []

end RawEntry

theorem getDmiEntryStr_eq (buf : Memory) (skipped i begin_ left : Nat) :
    getDmiEntryStr buf (i + skipped) i begin_ left =
      (skipEnds (· = 0) skipped (buf.slice begin_ left)).map (begin_ + ·) := by
  induction left generalizing skipped i begin_ with
  | zero =>
      rw [getDmiEntryStr, Memory.slice, skipEnds]
      rfl
  | succ left ih =>
      cases skipped with
      | zero =>
          rw [Nat.add_zero, getDmiEntryStr, if_pos le_rfl, if_pos rfl, Memory.slice, skipEnds]
          rfl
      | succ skipped =>
          have more : ¬i + (skipped + 1) ≤ i := by omega
          have next : (fun offset => begin_ + (offset + 1)) = (begin_ + 1 + ·) := by
            funext offset
            omega
          rw [getDmiEntryStr, if_neg more, Memory.slice, skipEnds, Option.map_map]
          by_cases zero : buf begin_ = 0
          · have count : i + (skipped + 1) = i + 1 + skipped := by omega
            rw [if_pos zero, if_pos (decide_eq_true zero), count, ih]
            exact congrArg (Option.map · _) next.symm
          · rw [if_neg zero, if_neg (by simp [zero]), ih]
            exact congrArg (Option.map · _) next.symm

theorem signedChar_neg {byte : UInt8} : signedChar byte < 0 ↔ ¬byte < 128 := by
  have bound := byte.toNat_lt
  have small : byte < 128 ↔ byte.toNat < 128 := UInt8.lt_iff_toNat_lt
  unfold signedChar
  split
  · rename_i below
    refine iff_of_false ?_ (not_not.mpr below)
    omega
  · rename_i above
    refine iff_of_true ?_ above
    omega

theorem signedChar_pos {byte : UInt8} (nonzero : byte ≠ 0) : 0 < signedChar byte ↔ byte < 128 := by
  have positive : byte.toNat ≠ 0 := fun zero => nonzero (UInt8.toNat_inj.mp zero)
  have nonneg := not_congr (@signedChar_neg byte)
  rw [not_lt, not_not] at nonneg
  rw [← nonneg]
  refine ⟨le_of_lt, fun least => lt_of_le_of_ne least fun zero => ?_⟩
  have below := nonneg.mp least
  rw [signedChar, if_pos below] at zero
  omega

namespace RawEntry

section

variable {entry : RawEntry} {number : StringNumber} {stale : Memory}

theorem buf_formatted (entry : RawEntry) (stale : Memory) :
    stale.write 0 entry.bytes 1 = entry.bytes.getD 1 0 := by
  have within : 1 < entry.bytes.length := by
    have header := entry.header
    have inside := entry.inside
    omega
  rw [List.getD_eq_getElem _ _ within]
  exact Memory.write_inside within

/-- The bytes that are searched: those behind the formatted part and as many stale ones as
the formatted part has, less one. -/
def searched (entry : RawEntry) (stale : Memory) : List UInt8 :=
  entry.bytes.drop entry.formatted ++ stale.slice entry.bytes.length (entry.formatted - 1)

theorem slice_searched (entry : RawEntry) (stale : Memory) :
    (stale.write 0 entry.bytes).slice entry.formatted (entry.bytes.length - 1) =
      entry.searched stale := by
  have header : 4 ≤ entry.formatted := entry.header
  have inside : entry.formatted ≤ entry.bytes.length := entry.inside
  have whole := Memory.slice_write_self stale 0 entry.bytes
  have own : entry.formatted + (entry.bytes.length - entry.formatted) ≤ entry.bytes.length := by
    omega
  have size : entry.bytes.length - 1 =
      (entry.bytes.length - entry.formatted) + (entry.formatted - 1) := by omega
  have first := Memory.slice_part (stale.write 0 entry.bytes) 0 own
  rw [whole, Nat.zero_add, List.take_of_length_le (by rw [List.length_drop])] at first
  rw [size, Memory.slice_append, ← first, Nat.add_sub_cancel' inside,
    Memory.slice_write_disjoint (Or.inr (by omega)), searched]

theorem storedText_eq (low : number.val < 128) (short : entry.formatted < 128) :
    storedText (stale.write 0 entry.bytes) entry.bytes.length number.val =
      match skipEnds (· = 0) (number.val.toNat - 1) (entry.searched stale) with
      | some offset =>
          ((stale.write 0 entry.bytes).strlen (entry.formatted + offset)
            (bufSize - (entry.formatted + offset))).bind fun len =>
              if len < 64 then
                some ((stale.write 0 entry.bytes).slice (entry.formatted + offset) len)
              else none
      | none => some [] := by
  have positive := (signedChar_pos number.property).mpr low
  have forward : ¬signedChar (entry.bytes.getD 1 0) < 0 :=
    fun negative => signedChar_neg.mp negative (UInt8.lt_iff_toNat_lt.mpr short)
  have one : 1 + (number.val.toNat - 1) = number.val.toNat := by
    have nonzero : number.val.toNat ≠ 0 := fun zero => number.property (UInt8.toNat_inj.mp zero)
    omega
  have place : (entry.bytes.getD 1 0).toNat = entry.formatted := rfl
  rw [storedText, if_pos positive, buf_formatted, if_neg forward, ← one, getDmiEntryStr_eq, place,
    slice_searched, one]
  cases skipEnds (· = 0) (number.val.toNat - 1) (entry.searched stale) with
  | none => rfl
  | some offset => rfl

theorem storedText_listed (low : number.val < 128) (short : entry.formatted < 128)
    (listed : number.val.toNat ≤ entry.strings.length) (stale : Memory) :
    storedText (stale.write 0 entry.bytes) entry.bytes.length number.val =
      if (entry.string number).length < 64 then some (entry.string number) else none := by
  have nonzero : number.val.toNat ≠ 0 := fun zero => number.property (UInt8.toNat_inj.mp zero)
  have below : number.val.toNat - 1 < entry.strings.length := by omega
  have found : entry.strings[number.val.toNat - 1]? = some (entry.string number) := by
    rw [string, List.getElem?_eq_getElem below, Option.getD_some]
  obtain ⟨offset, stop, rest, skipped, content, stops, plain⟩ := skipEnds_line found
    (stale.slice entry.bytes.length (entry.formatted - 1))
  have zero : stop = 0 := of_decide_eq_true stops
  subst zero
  have noNul : 0 ∉ entry.string number := fun member => by simpa using plain 0 member
  have size := congrArg List.length content
  rw [List.drop_drop] at content
  rw [List.length_drop, List.length_drop, List.length_append, List.length_cons] at size
  have shown : Memory.Shows (stale.write 0 entry.bytes) (entry.formatted + offset)
      (entry.string number) := by
    have part := Memory.slice_part (stale.write 0 entry.bytes) 0
      (show entry.formatted + offset + ((entry.string number).length + 1) ≤ entry.bytes.length by
        omega)
    rw [Memory.slice_write_self, content, List.append_cons, Nat.zero_add,
      List.take_left' (by rw [List.length_append, List.length_singleton])] at part
    exact (Memory.shows_iff_slice noNul).mpr part.symm
  have room : (entry.string number).length < bufSize - (entry.formatted + offset) := by
    have limit := entry.short
    have page : bufSize = 4096 := rfl
    omega
  rw [storedText_eq low short, searched, skipped]
  simp only [shown.strlen room, Option.bind_some, shown.content]

theorem storedText_far (low : number.val < 128) (short : entry.formatted < 128)
    (far : entry.strings.length + entry.formatted ≤ number.val.toNat) (stale : Memory) :
    storedText (stale.write 0 entry.bytes) entry.bytes.length number.val = some [] := by
  have header : 4 ≤ entry.formatted := entry.header
  rw [storedText_eq low short]
  cases found : skipEnds (· = 0) (number.val.toNat - 1) (entry.searched stale) with
  | none => rfl
  | some offset =>
      obtain ⟨inside, count⟩ := skipEnds_some found
      have own := length_splitLines (· = 0) (entry.bytes.drop entry.formatted)
      rw [searched, List.length_append, Memory.length_slice] at inside
      rw [searched, List.take_append, List.countP_append] at count
      have first : ((entry.bytes.drop entry.formatted).take offset).countP (· = 0) ≤
          entry.strings.length :=
        (List.take_sublist offset _).countP_le.trans own.ge
      have second : ((stale.slice entry.bytes.length (entry.formatted - 1)).take
          (offset - (entry.bytes.drop entry.formatted).length)).countP (· = 0) ≤
            offset - (entry.bytes.drop entry.formatted).length :=
        List.countP_le_length.trans (List.length_take_le _ _)
      omega

/-- With NULs up to the number wanted and another byte behind them the stale bytes give a text. -/
theorem storedText_stale (low : number.val < 128) (short : entry.formatted < 128)
    (missing : entry.strings.length < number.val.toNat)
    (near : number.val.toNat < entry.strings.length + entry.formatted) :
    ∃ stale : Memory,
      storedText (stale.write 0 entry.bytes) entry.bytes.length number.val ≠ some [] := by
  obtain ⟨nuls, exactly⟩ : ∃ nuls, number.val.toNat - 1 = entry.strings.length + nuls :=
    ⟨number.val.toNat - 1 - entry.strings.length, by omega⟩
  obtain ⟨others, size⟩ : ∃ others, entry.formatted - 1 = nuls + (others + 1) :=
    ⟨entry.formatted - 1 - nuls - 1, by omega⟩
  let stale : Memory := fun offset => if offset < entry.bytes.length + nuls then 0 else 120
  have zeros : stale.slice entry.bytes.length nuls = List.replicate nuls 0 :=
    Memory.slice_replicate fun offset inside => if_pos (Nat.add_lt_add_left inside _)
  have behind : stale (entry.bytes.length + nuls) = 120 := if_neg (Nat.lt_irrefl _)
  have split : entry.searched stale =
      (entry.bytes.drop entry.formatted ++ List.replicate nuls 0) ++
        120 :: stale.slice (entry.bytes.length + nuls + 1) others := by
    rw [searched, size, Memory.slice_append, zeros, Memory.slice, behind, List.append_assoc]
  have count : (entry.bytes.drop entry.formatted ++ List.replicate nuls (0 : UInt8)).countP
    (· = 0) =
      number.val.toNat - 1 := by
    rw [List.countP_append, ← length_splitLines, List.countP_replicate, if_pos (by decide), exactly,
      strings]
  have plain : decide ((120 : UInt8) = 0) = false := by decide
  obtain ⟨offset, first, skipped, here, nonzero⟩ :=
    skipEnds_stops count plain (stale.slice (entry.bytes.length + nuls + 1) others)
  rw [← split] at skipped here
  refine ⟨stale, ?_⟩
  obtain ⟨inside, byte⟩ := List.getElem?_eq_some_iff.mp here
  have region := entry.slice_searched stale
  have length : (entry.searched stale).length = entry.bytes.length - 1 := by
    rw [← region, Memory.length_slice]
  have start : stale.write 0 entry.bytes (entry.formatted + offset) ≠ 0 := by
    rw [← length] at region
    exact (Memory.apply_of_slice region inside).trans byte ▸ of_decide_eq_false nonzero
  rw [storedText_eq low short, skipped]
  intro stored
  obtain ⟨len, measured, kept⟩ := Option.bind_eq_some_iff.mp stored
  rw [Option.ite_none_right_eq_some, Option.some.injEq] at kept
  have zero := congrArg List.length kept.2
  rw [Memory.length_slice] at zero
  exact Memory.strlen_ne_zero start measured zero

theorem string_missing (missing : entry.strings.length < number.val.toNat) :
    entry.string number = [] := by
  rw [string, List.getElem?_eq_none (by omega), Option.getD_none]

end

theorem stores_of_safe {entry : RawEntry} {number : StringNumber} (safe : entry.Safe number) :
    entry.StoresOwn number := by
  intro stale
  rw [Safe] at safe
  split at safe
  · rename_i low
    obtain ⟨short, ⟨listed, fits⟩ | far⟩ := safe
    · rw [storedText_listed low short listed, if_pos fits]
    · have header : 4 ≤ entry.formatted := entry.header
      rw [storedText_far low short far, string_missing (by omega)]
  · rename_i high
    have unread : ¬0 < signedChar number.val :=
      fun positive => high ((signedChar_pos number.property).mp positive)
    rw [storedText, if_neg unread, safe]

theorem safe_of_stores {entry : RawEntry} {number : StringNumber} (own : entry.StoresOwn number) :
    entry.Safe number := by
  have stored := own fun _ => 0
  rw [Safe]
  split
  · rename_i low
    by_cases short : entry.formatted < 128
    · refine ⟨short, ?_⟩
      by_cases listed : number.val.toNat ≤ entry.strings.length
      · refine Or.inl ⟨listed, ?_⟩
        by_contra long
        rw [storedText_listed low short listed, if_neg long] at stored
        contradiction
      · have missing : entry.strings.length < number.val.toNat := Nat.lt_of_not_le listed
        refine Or.inr ?_
        by_contra near
        obtain ⟨stale, other⟩ := storedText_stale low short missing (Nat.lt_of_not_le near)
        rw [StoresOwn, string_missing missing] at own
        exact other (own stale)
    · have negative : signedChar (entry.bytes.getD 1 0) < 0 :=
        signedChar_neg.mpr fun below => short (UInt8.lt_iff_toNat_lt.mp below)
      rw [storedText, if_pos ((signedChar_pos number.property).mpr low), buf_formatted,
        if_pos negative] at stored
      contradiction
  · rename_i high
    have unread : ¬0 < signedChar number.val :=
      fun positive => high ((signedChar_pos number.property).mp positive)
    rw [storedText, if_neg unread] at stored
    exact (Option.some.inj stored).symm

/-- The text stored is the entry's own string exactly in these cases. -/
theorem storesOwn_iff (entry : RawEntry) (number : StringNumber) :
    entry.StoresOwn number ↔ entry.Safe number :=
  ⟨safe_of_stores, stores_of_safe⟩

def oneString : RawEntry where
  bytes := [17, 27, 40, 0] ++ List.replicate 8 0 ++ [0, 64, 9, 0, 3, 1] ++ List.replicate 9 0 ++
    [65, 0, 0]
  short := by decide
  header := by decide
  inside := by decide

theorem oneString_stores_stale : ¬oneString.StoresOwn ⟨3, by decide⟩ := by
  intro own
  have stored := own fun offset => if offset < 40 then 120 else 0
  exact absurd stored (by decide)

def fieldText (entry : RawEntry) (field : DimmField) : List UInt8 :=
  if nonzero : entry.bytes.getD field.position 0 ≠ 0 then entry.string ⟨_, nonzero⟩ else []

def SafeField (entry : RawEntry) (field : DimmField) : Prop :=
  field.position < entry.bytes.length ∧
    ∀ nonzero : entry.bytes.getD field.position 0 ≠ 0, entry.Safe ⟨_, nonzero⟩

theorem storedText_field {entry : RawEntry} {field : DimmField} (safe : entry.SafeField field)
    (stale : Memory) :
    storedText (stale.write 0 entry.bytes) entry.bytes.length
      (stale.write 0 entry.bytes field.position) = some (entry.fieldText field) := by
  obtain ⟨inside, safe⟩ := safe
  have read : stale.write 0 entry.bytes (0 + field.position) =
      entry.bytes.getD field.position 0 := by
    rw [Memory.write_inside inside, List.getD_eq_getElem _ _ inside]
  rw [Nat.zero_add] at read
  rw [read, fieldText]
  split
  · rename_i nonzero
    exact stores_of_safe (safe nonzero) stale
  · rename_i zero
    have none : ¬0 < signedChar 0 := by decide
    rw [storedText, not_not.mp zero, if_neg none]

theorem decodeEntry_own {s after : Dimms} {seq : Int} {entry : RawEntry}
    (decoded : decodeEntry s seq entry.bytes = some after)
    (safe : ∀ field, entry.SafeField field) (slot : Nat) :
    after.dimmInfoData slot = s.dimmInfoData slot ∨
      slot = (seq - 1).toNat ∧ (after.dimmInfoData slot).text = entry.fieldText := by
  have whole : entry.bytes.take 1024 = entry.bytes := List.take_of_length_le entry.short
  rcases decodeEntry_text decoded slot with kept | ⟨here, stored⟩
  · exact Or.inl kept
  · refine Or.inr ⟨here, funext fun field => ?_⟩
    have read := stored field
    rw [decodeEntry_buf decoded, whole, storedText_field (safe field)] at read
    exact (Option.some.inj read).symm

/-- Whatever was in the buffer and in whatever order the entries come, a slot is empty or
has the strings of an entry with its number. -/
theorem decodeDmiDimm_own {s after : Dimms} {entries : List (Int × RawEntry)}
    (decoded : decodeDmiDimm s (entries.map fun entry => (entry.1, entry.2.bytes)) = some after)
    (safe : ∀ entry ∈ entries, ∀ field, entry.2.SafeField field) (slot : Nat) :
    (after.dimmInfoData slot).text = (fun _ => []) ∨
      ∃ entry ∈ entries, slot = (entry.1 - 1).toNat ∧
        (after.dimmInfoData slot).text = entry.2.fieldText := by
  rw [decodeDmiDimm] at decoded
  generalize start : { s with dimmInfoData := fun _ => ⟨0, 0, 0, 0, 0, fun _ => []⟩ } = first
    at decoded
  have empty : (first.dimmInfoData slot).text = (fun _ => []) ∨
      ∃ entry ∈ entries, slot = (entry.1 - 1).toNat ∧
        (first.dimmInfoData slot).text = entry.2.fieldText := Or.inl (by rw [← start])
  clear start
  generalize all : entries = whole at empty ⊢
  have within : entries ⊆ whole := all ▸ List.Subset.refl _
  clear all
  induction entries generalizing first with
  | nil =>
      rw [← Option.some.inj decoded]
      exact empty
  | cons entry rest ih =>
      obtain ⟨next, here, later⟩ := Option.bind_eq_some_iff.mp decoded
      refine ih (fun other member => safe other (List.mem_cons_of_mem _ member)) next later ?_
        (List.cons_subset.mp within).2
      rcases decodeEntry_own here (safe entry List.mem_cons_self) slot with same | ⟨place, own⟩
      · rw [same]
        exact empty
      · exact Or.inr ⟨entry, (List.cons_subset.mp within).1, place, own⟩

end RawEntry

end DirtyCode.EdacParser
