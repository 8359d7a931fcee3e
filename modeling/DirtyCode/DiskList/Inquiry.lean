import DirtyCode.DiskList.Trim

/-!
`lsi_inq_decode` of `disklist.c`. What it stores goes without a gap from `dst` on.
-/

namespace DirtyCode.DiskList

open Lib

abbrev Place := Nat × Nat

def copyField (buf : Memory) (base : Nat) (place : Place) : List UInt8 :=
  let fuse := trimString buf (base + place.1) place.2
  buf.strncpy (base + place.1 + offsetOf fuse) (lengthOf fuse)

def separator : List UInt8 := [32, 42, 32]

def decodeFields (buf : Memory) (base : Nat) (model firmware serial : Place) : List UInt8 :=
  copyField buf base model ++ separator ++ (copyField buf base firmware ++ separator ++
    (copyField buf base serial ++ [0]))

/-- The bytes stored for the string at `base`, in an array with this much room left. -/
def lsiInqDecode (buf : Memory) (base room : Nat) : Option (List UInt8) :=
  (buf.strlen base room).map fun inqlen =>
    if 60 < inqlen then decodeFields buf base (20, 40) (60, 8) (0, 20)
    else decodeFields buf base (8, 16) (24, 4) (28, 20)

structure Inquiry where
  text : List UInt8
  plain : 0 ∉ text
  long : 48 ≤ text.length
  form : 60 < text.length → 68 ≤ text.length

namespace Inquiry

def places (inquiry : Inquiry) : Place × Place × Place :=
  if 60 < inquiry.text.length then ((20, 40), (60, 8), (0, 20)) else ((8, 16), (24, 4), (28, 20))

def field (inquiry : Inquiry) (place : Place) : List UInt8 :=
  (inquiry.text.drop place.1).take place.2

def decoded (inquiry : Inquiry) : List UInt8 :=
  trim (inquiry.field inquiry.places.1) ++ separator ++
    (trim (inquiry.field inquiry.places.2.1) ++ separator ++
      trim (inquiry.field inquiry.places.2.2))

/-- At most 96 bytes are stored, the decoded fields and a NUL. -/
def Decodes (inquiry : Inquiry) (buf : Memory) (base : Nat) : Prop :=
  ∃ stored, lsiInqDecode buf base (inquiry.text.length + 1) = some stored ∧
    stored.length ≤ 96 ∧ stored = inquiry.decoded ++ [0]

def HasText (field : List UInt8) : Prop := ∃ byte ∈ field, isBlank byte = false

instance (field : List UInt8) : Decidable (HasText field) := by
  unfold HasText
  infer_instance

def NoBlankField (inquiry : Inquiry) : Prop :=
  HasText (inquiry.field inquiry.places.1) ∧ HasText (inquiry.field inquiry.places.2.1) ∧
    HasText (inquiry.field inquiry.places.2.2)

instance (inquiry : Inquiry) : Decidable inquiry.NoBlankField := by
  unfold NoBlankField
  infer_instance

section

variable {inquiry : Inquiry} {buf : Memory} {base : Nat} {place : Place}

theorem slice_field (shows_ : Memory.Shows buf base inquiry.text)
    (inside : place.1 + place.2 ≤ inquiry.text.length) :
    buf.slice (base + place.1) place.2 = inquiry.field place := by
  rw [field, ← Memory.slice_part buf base inside, shows_.content]

theorem copyField_some (shows_ : Memory.Shows buf base inquiry.text)
    (inside : place.1 + place.2 ≤ inquiry.text.length) (positive : 1 ≤ place.2)
    (small : place.2 ≤ 65535) (some_ : HasText (inquiry.field place)) :
    copyField buf base place = trim (inquiry.field place) := by
  have same := slice_field shows_ inside
  obtain ⟨within, content⟩ := trimString_some positive small (same.symm ▸ some_)
  rw [copyField, Memory.strncpy_inside, content, same]
  intro offset below
  rw [Nat.add_assoc, Nat.add_assoc]
  exact shows_.ne_zero (by omega)

theorem copyField_blank (shows_ : Memory.Shows buf base inquiry.text)
    (inside : place.1 + place.2 ≤ inquiry.text.length) (positive : 1 ≤ place.2)
    (small : place.2 ≤ 65535) (blank : ¬HasText (inquiry.field place)) :
    (copyField buf base place).length = 65536 - place.2 := by
  have same := slice_field shows_ inside
  have all : ∀ byte ∈ buf.slice (base + place.1) place.2, isBlank byte = true := by
    intro byte member
    by_contra other
    exact blank ⟨byte, same ▸ member, Bool.eq_false_of_not_eq_true other⟩
  rw [copyField, Memory.strncpy_length]
  exact (trimString_blank positive small all).2

end

theorem places_spec (inquiry : Inquiry) (place : Place)
    (listed : place = inquiry.places.1 ∨ place = inquiry.places.2.1 ∨ place = inquiry.places.2.2) :
    place.1 + place.2 ≤ inquiry.text.length ∧ 1 ≤ place.2 ∧ place.2 ≤ 40 := by
  have long := inquiry.long
  have form := inquiry.form
  rw [places] at listed
  by_cases wide : 60 < inquiry.text.length
  · rw [if_pos wide] at listed
    have reach := form wide
    rcases listed with rfl | rfl | rfl
    · exact ⟨by show 20 + 40 ≤ _; omega, by decide, by decide⟩
    · exact ⟨by show 60 + 8 ≤ _; omega, by decide, by decide⟩
    · exact ⟨by show 0 + 20 ≤ _; omega, by decide, by decide⟩
  · rw [if_neg wide] at listed
    rcases listed with rfl | rfl | rfl
    · exact ⟨by show 8 + 16 ≤ _; omega, by decide, by decide⟩
    · exact ⟨by show 24 + 4 ≤ _; omega, by decide, by decide⟩
    · exact ⟨by show 28 + 20 ≤ _; omega, by decide, by decide⟩

theorem lsiInqDecode_eq {inquiry : Inquiry} {buf : Memory} {base room : Nat}
    (shows_ : Memory.Shows buf base inquiry.text) (inside : inquiry.text.length < room) :
    lsiInqDecode buf base room =
      some (decodeFields buf base inquiry.places.1 inquiry.places.2.1 inquiry.places.2.2) := by
  rw [lsiInqDecode, shows_.strlen inside, Option.map_some, places]
  split
  · rfl
  · rfl

theorem decodeFields_some {inquiry : Inquiry} {buf : Memory} {base : Nat}
    (shows_ : Memory.Shows buf base inquiry.text) (some_ : inquiry.NoBlankField) :
    decodeFields buf base inquiry.places.1 inquiry.places.2.1 inquiry.places.2.2 =
      inquiry.decoded ++ [0] := by
  have model := inquiry.places_spec _ (Or.inl rfl)
  have firmware := inquiry.places_spec _ (Or.inr (Or.inl rfl))
  have serial := inquiry.places_spec _ (Or.inr (Or.inr rfl))
  rw [decodeFields, decoded,
    copyField_some shows_ model.1 model.2.1 (model.2.2.trans (by decide)) some_.1,
    copyField_some shows_ firmware.1 firmware.2.1 (firmware.2.2.trans (by decide)) some_.2.1,
    copyField_some shows_ serial.1 serial.2.1 (serial.2.2.trans (by decide)) some_.2.2]
  simp only [List.append_assoc]

theorem length_decoded_le (inquiry : Inquiry) : inquiry.decoded.length ≤ 74 := by
  have model := (length_trim_le (inquiry.field inquiry.places.1)).trans (List.length_take_le _ _)
  have firmware :=
    (length_trim_le (inquiry.field inquiry.places.2.1)).trans (List.length_take_le _ _)
  have serial :=
    (length_trim_le (inquiry.field inquiry.places.2.2)).trans (List.length_take_le _ _)
  have sum : inquiry.places.1.2 + inquiry.places.2.1.2 + inquiry.places.2.2.2 ≤ 68 := by
    rw [places]
    split
    · decide
    · decide
  simp only [decoded, separator, List.length_append, List.length_cons, List.length_nil]
  omega

theorem decoded_plain (inquiry : Inquiry) : 0 ∉ inquiry.decoded := by
  have fields : ∀ place, 0 ∉ trim (inquiry.field place) := by
    intro place member
    exact inquiry.plain (List.mem_of_mem_drop (List.mem_of_mem_take (mem_of_mem_trim member)))
  have between : 0 ∉ separator := by decide
  simp only [decoded, List.mem_append, not_or]
  exact ⟨⟨fields _, between⟩, ⟨fields _, between⟩, fields _⟩

theorem decodeFields_blank {inquiry : Inquiry} {buf : Memory} {base : Nat}
    (shows_ : Memory.Shows buf base inquiry.text) (blank : ¬inquiry.NoBlankField) :
    96 < (decodeFields buf base inquiry.places.1 inquiry.places.2.1 inquiry.places.2.2).length := by
  have long : ∀ place, place = inquiry.places.1 ∨ place = inquiry.places.2.1 ∨
      place = inquiry.places.2.2 → ¬HasText (inquiry.field place) →
        96 < (copyField buf base place).length := by
    intro place listed none
    obtain ⟨inside, positive, small⟩ := inquiry.places_spec place listed
    rw [copyField_blank shows_ inside positive (small.trans (by decide)) none]
    omega
  rw [NoBlankField, not_and_or, not_and_or] at blank
  simp only [decodeFields, List.length_append]
  rcases blank with model | firmware | serial
  · have reach := long _ (Or.inl rfl) model
    omega
  · have reach := long _ (Or.inr (Or.inl rfl)) firmware
    omega
  · have reach := long _ (Or.inr (Or.inr rfl)) serial
    omega

theorem decodes_iff_of_shows {inquiry : Inquiry} {buf : Memory} {base : Nat}
    (shows_ : Memory.Shows buf base inquiry.text) :
    inquiry.Decodes buf base ↔ inquiry.NoBlankField := by
  have stored := lsiInqDecode_eq shows_ (Nat.lt_succ_self _)
  constructor
  · rintro ⟨bytes, run, short, -⟩
    by_contra blank
    have long := decodeFields_blank shows_ blank
    rw [stored] at run
    rw [Option.some.inj run] at long
    omega
  · intro some_
    refine ⟨_, stored, ?_, decodeFields_some shows_ some_⟩
    have short := inquiry.length_decoded_le
    rw [decodeFields_some shows_ some_, List.length_append, List.length_singleton]
    omega

/-- An inquiry string is decoded as it should be exactly when none of its fields is blank. -/
theorem decodes_iff (memory : Memory) (base : Nat) (inquiry : Inquiry) :
    inquiry.Decodes (memory.strcpy base inquiry.text) base ↔ inquiry.NoBlankField :=
  decodes_iff_of_shows (Memory.shows_strcpy inquiry.plain)

/-- A drive that tells its model and serial number, but no firmware. -/
def noFirmware : Inquiry where
  text := List.replicate 8 32 ++ List.replicate 16 77 ++ List.replicate 4 32 ++ List.replicate 20 83
  plain := by decide
  long := by decide
  form := by decide

theorem noFirmware_not_decoded :
    ¬noFirmware.Decodes (Memory.strcpy (fun _ => 0) 0 noFirmware.text) 0 := by
  rw [decodes_iff_of_shows (Memory.shows_strcpy noFirmware.plain)]
  decide

end Inquiry

end DirtyCode.DiskList
