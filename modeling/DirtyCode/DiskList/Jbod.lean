import DirtyCode.DiskList.Entry
import DirtyCode.DiskList.Inquiry
import DirtyCode.Lib.Machine
import DirtyCode.Lib.Text

/-!
`mega_jbod_list` of `disklist.c`: the output of `megacli -pdlist`, line after line, into
`raid_pd_depot`.
-/

namespace DirtyCode.DiskList

open Lib

inductive Key
  | ec
  | slot
  | did
  | wwn
  | size
  | state
  | firmver
  | sasaddr
  | inq
  | type
  deriving DecidableEq

def Key.text : Key → List UInt8
  | ec => ascii "Enclosure Device ID"
  | slot => ascii "Slot Number"
  | did => ascii "Device Id"
  | wwn => ascii "WWN"
  | size => ascii "Raw Size"
  | state => ascii "Firmware state"
  | firmver => ascii "Device Firmware Level"
  | sasaddr => ascii "SAS Address(0)"
  | inq => ascii "Inquiry Data"
  | type => ascii "Media Type"

def Key.all : List Key := [ec, slot, did, wwn, size, state, firmver, sasaddr, inq, type]

structure PdList where
  raidPdDepot : Memory
  raidLdPdIdx : Nat
  buf : Memory
  -- where `e` points, which is NULL until an enclosure is named
  e : Nat
  ecId : Int
  slotId : Int
  did : Int

def bufSize : Nat := 128

def jbod : List UInt8 := ascii "JBOD"

def shortBytes (value : Int) : List UInt8 :=
  let bits := (BitVec.ofInt 16 value).toNat
  [UInt8.ofNat (bits % 256), UInt8.ofNat (bits / 256)]

-- `sscanf(buf, "...: %d", &value)`, which leaves the value where it does not match
def scanNumber (key : Key) (line : List UInt8) (value : Int) : Int :=
  match line.drop key.text.length with
  | 58 :: rest => ((scanInt rest).map Prod.fst).getD value
  | _ => value

namespace PdList

def line (s : PdList) : List UInt8 := (s.buf.slice 0 bufSize).takeWhile (· ≠ 0)

def store (s : PdList) (offset : Nat) (bytes : List UInt8) : PdList :=
  { s with raidPdDepot := s.raidPdDepot.write (entrySize * s.e + offset) bytes }

def keyed (key : Key) (act : PdList → Option PdList) (s : PdList) : Option PdList :=
  if key.text <+: s.line then act s else some s

-- `none`: an entry behind the table
def enclosure (s : PdList) : Option PdList :=
  let ecId := scanNumber .ec s.line s.ecId
  if s.raidLdPdIdx < maxDisk then
    let opened := { s with
      ecId := ecId
      e := s.raidLdPdIdx
      raidPdDepot := initDiskEntry s.raidPdDepot s.raidLdPdIdx }
    some (opened.store 12 (shortBytes ecId))
  else none

def slot (s : PdList) : Option PdList :=
  let slotId := scanNumber .slot s.line s.slotId
  some ({ s with slotId := slotId }.store 14 (shortBytes slotId))

def deviceId (s : PdList) : Option PdList :=
  let did := scanNumber .did s.line s.did
  some ({ s with did := did }.store 16 (shortBytes did))

-- `strncpy(e->field, buf + skipped, strlen(buf + skipped))`
def copyText (field : Field) (skipped : Nat) (s : PdList) : Option PdList :=
  (s.buf.strlen skipped (bufSize - skipped)).map fun count =>
    s.store field.offset (s.buf.strncpy skipped count)

-- `sizeGB` gives the bits of the float that `atof` and the factors give
def rawSize (sizeGB : Memory → BitVec 32) (s : PdList) : Option PdList :=
  some (s.store 180 ((Memory.littleEndian (sizeGB s.buf).toNat).slice 0 4))

def discard (s : PdList) : PdList :=
  { s with raidPdDepot := initDiskEntry s.raidPdDepot s.e, ecId := -1 }

def inquiry (s : PdList) : Option PdList :=
  (lsiInqDecode s.buf 14 (bufSize - 14)).map (s.store Field.raidInq.offset)

def mediaType (s : PdList) : Option PdList :=
  (copyText .pdType 12 s).map fun told =>
    { told with raidLdPdIdx := told.raidLdPdIdx + 1, ecId := -1 }

def parse (sizeGB : Memory → BitVec 32) (s : PdList) : Option PdList := do
  let s ← keyed .ec enclosure s
  if s.ecId < 0 then
    return s
  let s ← keyed .slot slot s
  let s ← keyed .did deviceId s
  let s ← keyed .wwn (copyText .wwn 5) s
  let s ← keyed .size (rawSize sizeGB) s
  if Key.state.text <+: s.line ∧ s.buf.slice 16 4 ≠ jbod then
    return s.discard
  let s ← keyed .firmver (copyText .ver 23) s
  let s ← keyed .sasaddr (copyText .peerAddr 18) s
  let s ← keyed .inq inquiry s
  keyed .type mediaType s

-- `fgets` into `buf`, and `buf[len - 1] = '\0'`, which is `buf[-1]` for a text of no bytes
def receive (s : PdList) (piece : List UInt8) : Option PdList :=
  let buf := s.buf.write 0 (piece ++ [0])
  (buf.strlen 0 bufSize).bind fun len =>
    if len = 0 then none else some { s with buf := buf.set (len - 1) 0 }

end PdList

def megaJbodList (sizeGB : Memory → BitVec 32) : Machine PdList (List UInt8) where
  init s := s.ecId = -1 ∧ s.slotId = -1 ∧ s.did = -1
  step s piece := (s.receive piece).bind (PdList.parse sizeGB)

/-- What `fgets` returns, call after call, with room for so many bytes. -/
def pieces (room : Nat) : List UInt8 → List UInt8 → List (List UInt8)
  | taken, [] => if taken = [] then [] else [taken]
  | taken, byte :: rest =>
      if byte = 10 ∨ taken.length + 1 = room then (taken ++ [byte]) :: pieces room [] rest
      else pieces room (taken ++ [byte]) rest

def keyOf (line : List UInt8) : Option Key := Key.all.find? fun key => key.text <+: line

theorem key_unique {key other : Key} {line : List UInt8} (here : key.text <+: line)
    (also : other.text <+: line) : key = other := by
  have exclusive : ∀ key ∈ Key.all, ∀ other ∈ Key.all, key.text <+: other.text → key = other := by
    decide
  have listed : ∀ key : Key, key ∈ Key.all := by
    intro key
    cases key <;> decide
  rcases List.prefix_or_prefix_of_prefix here also with first | second
  · exact exclusive _ (listed key) _ (listed other) first
  · exact (exclusive _ (listed other) _ (listed key) second).symm

theorem keyOf_starts {key : Key} {line : List UInt8} (found : keyOf line = some key) :
    key.text <+: line := by
  rw [keyOf] at found
  have holds := List.find?_some found
  exact of_decide_eq_true holds

theorem keyOf_some {key : Key} {line : List UInt8} :
    keyOf line = some key ↔ key.text <+: line := by
  refine ⟨keyOf_starts, ?_⟩
  intro here
  have listed : key ∈ Key.all := by cases key <;> decide
  cases found : keyOf line with
  | none => exact absurd (decide_eq_true here) (List.find?_eq_none.mp found key listed)
  | some other => rw [key_unique here (keyOf_starts found)]

namespace PdList

def act (sizeGB : Memory → BitVec 32) : Key → PdList → Option PdList
  | .ec => enclosure
  | .slot => slot
  | .did => deviceId
  | .wwn => copyText .wwn 5
  | .size => rawSize sizeGB
  | .state => fun s => some (if s.buf.slice 16 4 = jbod then s else s.discard)
  | .firmver => copyText .ver 23
  | .sasaddr => copyText .peerAddr 18
  | .inq => inquiry
  | .type => mediaType

variable {sizeGB : Memory → BitVec 32} {s after : PdList} {key : Key}

theorem act_buf (done : act sizeGB key s = some after) : after.buf = s.buf := by
  cases key with
  | ec =>
      simp only [act, enclosure, Option.ite_none_right_eq_some] at done
      rw [← Option.some.inj done.2]
      rfl
  | slot => exact (Option.some.inj done) ▸ rfl
  | did => exact (Option.some.inj done) ▸ rfl
  | wwn =>
      obtain ⟨count, -, rfl⟩ := Option.map_eq_some_iff.mp done
      rfl
  | size => exact (Option.some.inj done) ▸ rfl
  | state =>
      rw [← Option.some.inj done]
      split
      · rfl
      · rfl
  | firmver =>
      obtain ⟨count, -, rfl⟩ := Option.map_eq_some_iff.mp done
      rfl
  | sasaddr =>
      obtain ⟨count, -, rfl⟩ := Option.map_eq_some_iff.mp done
      rfl
  | inq =>
      obtain ⟨stored, -, rfl⟩ := Option.map_eq_some_iff.mp done
      rfl
  | type =>
      obtain ⟨told, copied, rfl⟩ := Option.map_eq_some_iff.mp done
      obtain ⟨count, -, rfl⟩ := Option.map_eq_some_iff.mp copied
      rfl

theorem keyed_skip {act : PdList → Option PdList} (skips : ¬key.text <+: s.line) :
    keyed key act s = some s := if_neg skips

theorem keyed_hit {act : PdList → Option PdList} (hits : key.text <+: s.line) :
    keyed key act s = act s := if_pos hits

theorem bind_rest {α : Type*} {first : Option α} {rest : α → Option α}
    (ends : ∀ value, first = some value → rest value = some value) : first.bind rest = first := by
  cases first with
  | none => rfl
  | some value => exact ends value rfl

/-- A line has one key at most, so one thing is done for it. -/
theorem parse_eq (sizeGB : Memory → BitVec 32) (s : PdList) :
    parse sizeGB s = match keyOf s.line with
      | none => some s
      | some .ec => enclosure s
      | some key => if s.ecId < 0 then some s else act sizeGB key s := by
  cases found : keyOf s.line with
  | none =>
      have skips : ∀ key : Key, ¬key.text <+: s.line := by
        intro key here
        rw [keyOf_some.mpr here] at found
        contradiction
      simp [parse, keyed, skips]
  | some key =>
      have hits := keyOf_starts found
      have before : ∀ other act, other ≠ key → keyed other act s = some s := by
        intro other act different
        exact keyed_skip fun here => different (key_unique here hits)
      have behind : ∀ after other act', act sizeGB key s = some after → other ≠ key →
          keyed other act' after = some after := by
        intro after other act' done different
        have same : after.line = s.line := by rw [line, act_buf done, line]
        exact keyed_skip fun here => different (key_unique (same ▸ here) hits)
      have noState : ∀ after, act sizeGB key s = some after → key ≠ .state →
          ¬Key.state.text <+: after.line := by
        intro after done different here
        have same : after.line = s.line := by rw [line, act_buf done, line]
        exact different (key_unique hits (same ▸ here))
      cases key with
      | ec =>
          rw [parse, keyed_hit hits]
          refine bind_rest fun after done => ?_
          simp [behind after _ _ done, noState after done]
      | state =>
          by_cases closed : s.ecId < 0
          · simp [parse, before, closed]
          · by_cases told : s.buf.slice 16 4 = jbod
            · simp [parse, before, closed, hits, told, act]
            · simp [parse, before, closed, hits, told, act]
      | type =>
          have other : ¬Key.state.text <+: s.line :=
            fun here => absurd (key_unique here hits) (by decide)
          simp [parse, before, keyed_hit hits, other, act]
      | _ =>
          have other : ¬Key.state.text <+: s.line :=
            fun here => absurd (key_unique here hits) (by decide)
          by_cases closed : s.ecId < 0
          · simp [parse, before, closed]
          · simp only [parse, before, ne_eq, reduceCtorEq, not_false_eq_true, keyed_hit hits, other,
              closed, false_and, if_false, Option.bind_eq_bind, Option.bind_some, act]
            refine bind_rest fun after done => ?_
            simp [behind after _ _ done, noState after done]

end PdList

end DirtyCode.DiskList
