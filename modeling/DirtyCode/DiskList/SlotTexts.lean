import DirtyCode.DiskList.Entry
import DirtyCode.Lib.Overlay

/-!
What an entry of a table shows after several sections have been read into it: the marker of
`init_disk_entry` ends no text that is longer than itself, and neither does `strncpy`.
-/

namespace DirtyCode.DiskList

open Lib

/-- Texts that are told of a drive, in their order. -/
abbrev Texts := List (Field × List UInt8)

/-- What is told for an entry: in sections that were left out or broken off, and in the last. -/
structure Slot where
  before : Texts
  own : Texts

def placed (told : Field × List UInt8) : Nat × List UInt8 :=
  (told.1.offset, if told.1 = .raidInq then told.2 ++ [0] else told.2)

namespace Slot

def reopened (slot : Slot) : Slot := ⟨slot.before ++ slot.own, []⟩

def tell (slot : Slot) (field : Field) (text : List UInt8) : Slot :=
  { slot with own := slot.own ++ [(field, text)] }

def drive (slot : Slot) : Drive :=
  slot.own.foldl (fun drive told => Function.update drive told.1 told.2) untold

/-- The entry, if this was there before the first section. -/
def content (slot : Slot) (start : Memory) : Memory :=
  (initDiskEntry (start.overlay (slot.before.map placed)) 0).overlay (slot.own.map placed)

/-- The NUL behind a copied text: that of the marker, or one where nothing was copied to. -/
structure Ends (slot : Slot) (start : Memory) (field : Field) (text : List UInt8) : Prop where
  fits : 2 ≤ text.length ∧ text.length < field.size
  own : ∀ told ∈ slot.own, ¬Memory.Covers (placed told) (field.offset + text.length)
  before : 2 < text.length →
    (∀ told ∈ slot.before, ¬Memory.Covers (placed told) (field.offset + text.length)) ∧
      start (field.offset + text.length) = 0

/-- Each text of the last section ends where it was told to. An inquiry brings its own NUL. -/
def Apart (slot : Slot) (start : Memory) : Prop :=
  ∀ told ∈ slot.own, told.1 ≠ .raidInq → slot.Ends start told.1 (slot.drive told.1)

instance (slot : Slot) (start : Memory) (field : Field) (text : List UInt8) :
    Decidable (slot.Ends start field text) :=
  decidable_of_iff ((2 ≤ text.length ∧ text.length < field.size) ∧
      (∀ told ∈ slot.own, ¬Memory.Covers (placed told) (field.offset + text.length)) ∧
      (2 < text.length →
        (∀ told ∈ slot.before, ¬Memory.Covers (placed told) (field.offset + text.length)) ∧
          start (field.offset + text.length) = 0))
    ⟨fun all => ⟨all.1, all.2.1, all.2.2⟩, fun ends => ⟨ends.fits, ends.own, ends.before⟩⟩

instance (slot : Slot) (start : Memory) : Decidable (slot.Apart start) :=
  inferInstanceAs (Decidable (∀ told ∈ slot.own, _))

end Slot

/-- A text as it can stand in a line of the tool. -/
structure Sane (told : Field × List UInt8) : Prop where
  plain : 0 ∉ told.2
  short : told.2.length ≤ 121
  inquiry : told.1 = .raidInq → told.2.length ≤ 74

section Marker

variable {depot other : Memory} {index place n : Nat} {field : Field}

@[simp] theorem address_zero (field : Field) : field.address 0 = field.offset := by
  rw [Field.address, Nat.mul_zero, Nat.zero_add]

theorem initDiskEntry_marker (field : Field) :
    initDiskEntry depot index (field.address index) = 78 ∧
      initDiskEntry depot index (field.address index + 1) = 65 ∧
      initDiskEntry depot index (field.address index + 2) = 0 := by
  have shown := (exact_initDiskEntry depot index).shows_ field
  have two : (untold field).length = 2 := rfl
  exact ⟨shown.byte (show 0 < _ by omega), shown.byte (show 1 < _ by omega), shown.ended⟩

theorem initDiskEntry_behind (behind : 3 ≤ n) (inside : n < field.size) :
    initDiskEntry depot index (field.address index + n) = depot (field.address index + n) := by
  have places : ∀ place ∈ initWrites, place.1 + place.2.length ≤ field.offset + 3 ∨
      field.offset + field.size ≤ place.1 := by
    cases field <;> decide
  refine writeAll_apart initWrites fun place member => ?_
  have here := places place member
  rw [Field.address]
  omega

end Marker

section Content

variable {slot : Slot} {start : Memory} {told : Field × List UInt8} {field : Field} {n : Nat}

theorem Sane.room (sane : Sane told) : (placed told).1 + (placed told).2.length ≤ entrySize := by
  have short := sane.short
  have inquiry := sane.inquiry
  rw [placed]
  cases field : told.1 with
  | raidInq =>
      have small := inquiry field
      simp only [if_true, List.length_append, List.length_singleton, Field.offset, entrySize]
      omega
  | _ =>
      simp only [reduceCtorEq, if_false, Field.offset, entrySize]
      omega

theorem Sane.covered (sane : Sane told) (other : field ≠ .raidInq) (inside : n < field.size)
    (covers : Memory.Covers (placed told) (field.offset + n)) {byte : UInt8}
    (member : byte ∈ (placed told).2) : byte ≠ 0 := by
  have early : field.offset + field.size ≤ Field.raidInq.offset := by
    cases field with
    | raidInq => exact absurd rfl other
    | _ => decide
  have text : told.1 ≠ .raidInq := by
    intro inquiry
    have from_ := covers.1
    rw [placed, inquiry] at from_
    simp only at from_
    omega
  rw [placed, if_neg text] at member
  rintro rfl
  exact sane.plain member

theorem overlay_nonzero {texts : Texts} (sane : ∀ told ∈ texts, Sane told)
    (other : field ≠ .raidInq)
    (inside : n < field.size)
    (covered : ∃ told ∈ texts, Memory.Covers (placed told) (field.offset + n)) :
    start.overlay (texts.map placed) (field.offset + n) ≠ 0 := by
  obtain ⟨told, member, covers⟩ := covered
  obtain ⟨text, listed, here, byte⟩ := @Memory.overlay_covered start (texts.map placed)
    (field.offset + n) ⟨placed told, List.mem_map_of_mem member, covers⟩
  obtain ⟨last, among, rfl⟩ := List.mem_map.mp listed
  exact (sane last among).covered other inside here byte

theorem overlay_unreached (start : Memory) {texts : Texts} {place : Nat}
    (free : ∀ told ∈ texts, ¬Memory.Covers (placed told) place) :
    start.overlay (texts.map placed) place = start place := by
  refine Memory.overlay_free fun text member => ?_
  obtain ⟨told, among, rfl⟩ := List.mem_map.mp member
  exact free told among

theorem drive_cases (own : Texts) (field : Field) :
    ((∀ told ∈ own, told.1 ≠ field) ∧ (⟨[], own⟩ : Slot).drive field = na) ∨
      ∃ front text rest, own = front ++ (field, text) :: rest ∧
        (∀ told ∈ rest, told.1 ≠ field) ∧ (⟨[], own⟩ : Slot).drive field = text := by
  induction own using List.reverseRecOn with
  | nil => exact Or.inl ⟨fun _ member => absurd member List.not_mem_nil, rfl⟩
  | append_singleton own last ih =>
      have step : (⟨[], own ++ [last]⟩ : Slot).drive =
          Function.update (⟨[], own⟩ : Slot).drive last.1 last.2 := by
        rw [Slot.drive, List.foldl_append]
        rfl
      obtain ⟨another, text⟩ := last
      by_cases here : another = field
      · subst here
        refine Or.inr ⟨own, text, [], rfl, fun _ member => absurd member List.not_mem_nil, ?_⟩
        rw [step, Function.update_self]
      · have kept : (⟨[], own ++ [(another, text)]⟩ : Slot).drive field =
            (⟨[], own⟩ : Slot).drive field := by
          rw [step, Function.update_of_ne (Ne.symm here)]
        rw [kept]
        rcases ih with ⟨none, untold⟩ | ⟨front, found, rest, rfl, later, told⟩
        · refine Or.inl ⟨fun told member => ?_, untold⟩
          rcases List.mem_append.mp member with earlier | last
          · exact none told earlier
          · rw [List.mem_singleton.mp last]
            exact here
        · refine Or.inr ⟨front, found, rest ++ [(another, text)], by simp, fun told member => ?_,
            told⟩
          rcases List.mem_append.mp member with earlier | last
          · exact later told earlier
          · rw [List.mem_singleton.mp last]
            exact here

theorem Slot.content_unreached
    (free : ∀ told ∈ slot.own, ¬Memory.Covers (placed told) (field.offset + n)) :
    slot.content start (field.offset + n) =
      initDiskEntry (start.overlay (slot.before.map placed)) 0 (field.address 0 + n) := by
  rw [Slot.content, overlay_unreached _ free, address_zero]

theorem Slot.ends_of_exact (sane : ∀ told ∈ slot.before ++ slot.own, Sane told)
    (exact_ : Exact (slot.content start) 0 slot.drive) (other : field ≠ .raidInq) :
    slot.Ends start field (slot.drive field) := by
  have shown := exact_.shows_ field
  have fits := exact_.fits field
  have ended := shown.ended
  rw [address_zero] at ended
  generalize slot.drive field = text at fits ended
  have sound : ∀ told ∈ slot.own, Sane told :=
    fun told member => sane told (List.mem_append_right _ member)
  have free : ∀ told ∈ slot.own, ¬Memory.Covers (placed told) (field.offset + text.length) :=
    fun told member covers => overlay_nonzero sound other fits ⟨told, member, covers⟩ ended
  rw [content_unreached free] at ended
  have marker := @initDiskEntry_marker (start.overlay (slot.before.map placed)) 0 field
  have long : 2 ≤ text.length := by
    by_contra short
    have few : text.length = 0 ∨ text.length = 1 := by omega
    rcases few with none | one
    · rw [none, Nat.add_zero, marker.1] at ended
      exact absurd ended (by decide)
    · rw [one, marker.2.1] at ended
      exact absurd ended (by decide)
  refine ⟨⟨long, fits⟩, free, fun longer => ?_⟩
  rw [initDiskEntry_behind longer fits, address_zero] at ended
  have clear : ∀ told ∈ slot.before, ¬Memory.Covers (placed told) (field.offset + text.length) :=
    fun told member covers => overlay_nonzero
      (fun told among => sane told (List.mem_append_left _ among)) other fits
      ⟨told, member, covers⟩ ended
  exact ⟨clear, by rwa [← overlay_unreached start clear]⟩

theorem Slot.Apart.confined (sane : ∀ told ∈ slot.before ++ slot.own, Sane told)
    (apart : slot.Apart start) (member : told ∈ slot.own) :
    (placed told).2.length ≤ told.1.size := by
  have text := sane told (List.mem_append_right _ member)
  by_cases inquiry : told.1 = .raidInq
  · have small := text.inquiry inquiry
    rw [placed, if_pos inquiry, List.length_append, List.length_singleton, inquiry]
    exact Nat.succ_le_succ small |>.trans (by decide)
  · have ends := apart told member inquiry
    have free := ends.own told member
    have fits := ends.fits
    rw [placed, if_neg inquiry] at free ⊢
    simp only [Memory.Covers] at free ⊢
    omega

theorem Slot.Apart.elsewhere (sane : ∀ told ∈ slot.before ++ slot.own, Sane told)
    (apart : slot.Apart start) (member : told ∈ slot.own) (other : told.1 ≠ field)
    (inside : n < field.size) : ¬Memory.Covers (placed told) (field.offset + n) := by
  have within := apart.confined sane member
  have places := Field.apart other
  rintro ⟨from_, below⟩
  have base : (placed told).1 = told.1.offset := rfl
  omega

theorem Slot.Apart.shows_untold (sane : ∀ told ∈ slot.before ++ slot.own, Sane told)
    (apart : slot.Apart start) (none : ∀ told ∈ slot.own, told.1 ≠ field) :
    Memory.Shows (slot.content start) field.offset na ∧ na.length < field.size := by
  have marked := (exact_initDiskEntry (start.overlay (slot.before.map placed)) 0).shows_ field
  have small : na.length < field.size := by
    cases field <;> decide
  rw [address_zero] at marked
  refine ⟨marked.congr fun offset within => ?_, small⟩
  have free : ∀ told ∈ slot.own, ¬Memory.Covers (placed told) (field.offset + offset) :=
    fun told member => apart.elsewhere sane member (none told member)
      (Nat.lt_of_le_of_lt within small)
  rw [content_unreached free, address_zero]

section LastText

variable {front rest : Texts} {text : List UInt8}
  (sane : ∀ told ∈ slot.before ++ slot.own, Sane told) (apart : slot.Apart start)
  (split : slot.own = front ++ (field, text) :: rest)

include split

theorem Slot.content_last : slot.content start =
    (initDiskEntry (start.overlay (slot.before.map placed)) 0).overlay
      (front.map placed ++ placed (field, text) :: rest.map placed) := by
  rw [Slot.content, split, List.map_append, List.map_cons]

include sane apart

theorem Slot.Apart.uncovered (later : ∀ told ∈ rest, told.1 ≠ field) (inside : n < field.size) :
    ∀ place ∈ rest.map placed, ¬Memory.Covers place (field.offset + n) := by
  intro place listed
  obtain ⟨after, among, rfl⟩ := List.mem_map.mp listed
  have listed : after ∈ slot.own :=
    split ▸ List.mem_append_right _ (List.mem_cons_of_mem _ among)
  exact apart.elsewhere sane listed (later after among) inside

theorem Slot.Apart.shows_inquiry (later : ∀ told ∈ rest, told.1 ≠ field)
    (inquiry : field = .raidInq) :
    Memory.Shows (slot.content start) field.offset text ∧ text.length < field.size := by
  have member : (field, text) ∈ slot.own := split ▸ List.mem_append_right _ List.mem_cons_self
  have sound := sane _ (List.mem_append_right _ member)
  have within := apart.confined sane member
  have stored : placed (field, text) = (field.offset, text ++ [0]) := by
    rw [placed, if_pos inquiry]
  rw [stored, List.length_append, List.length_singleton] at within
  have small : text.length < field.size := within
  refine ⟨(Memory.shows_iff_slice sound.plain).mpr ?_, small⟩
  have last := @Memory.slice_overlay_last
    (initDiskEntry (start.overlay (slot.before.map placed)) 0) (front.map placed)
    (rest.map placed) (text ++ [0]) field.offset fun offset inside =>
      apart.uncovered sane split later (by
        rw [List.length_append, List.length_singleton] at inside
        omega)
  rw [content_last split, stored]
  rwa [List.length_append, List.length_singleton] at last

theorem Slot.Apart.shows_text (later : ∀ told ∈ rest, told.1 ≠ field) (other : field ≠ .raidInq)
    (told : slot.drive field = text) :
    Memory.Shows (slot.content start) field.offset text ∧ text.length < field.size := by
  have member : (field, text) ∈ slot.own := split ▸ List.mem_append_right _ List.mem_cons_self
  have sound := sane _ (List.mem_append_right _ member)
  have ends := apart _ member other
  simp only [told] at ends
  have stored : placed (field, text) = (field.offset, text) := by
    rw [placed, if_neg other]
  refine ⟨⟨?_, ?_, sound.plain⟩, ends.fits.2⟩
  · rw [content_last split, stored]
    have small := ends.fits.2
    exact Memory.slice_overlay_last fun offset inside =>
      apart.uncovered sane split later (inside.trans small)
  · rw [content_unreached ends.own]
    rcases Nat.lt_or_eq_of_le ends.fits.1 with longer | two
    · obtain ⟨clear, zero⟩ := ends.before longer
      rw [initDiskEntry_behind longer ends.fits.2, address_zero, overlay_unreached _ clear]
      exact zero
    · rw [← two]
      exact (initDiskEntry_marker field).2.2

end LastText

/-- With a NUL behind every text the entry shows what the last section tells. -/
theorem Slot.Apart.exact_ (sane : ∀ told ∈ slot.before ++ slot.own, Sane told)
    (apart : slot.Apart start) : Exact (slot.content start) 0 slot.drive := by
  have both (field : Field) : Memory.Shows (slot.content start) field.offset (slot.drive field) ∧
      (slot.drive field).length < field.size := by
    rcases drive_cases slot.own field with ⟨none, untold⟩ | ⟨front, text, rest, split, later, told⟩
    · have shown : slot.drive field = na := untold
      rw [shown]
      exact apart.shows_untold sane none
    · have shown : slot.drive field = text := told
      rw [shown]
      by_cases inquiry : field = .raidInq
      · exact apart.shows_inquiry sane split later inquiry
      · exact apart.shows_text sane split later inquiry shown
  exact ⟨fun field => address_zero field ▸ (both field).1, fun field => (both field).2⟩

theorem Slot.exact_iff (sane : ∀ told ∈ slot.before ++ slot.own, Sane told) :
    Exact (slot.content start) 0 slot.drive ↔ slot.Apart start :=
  ⟨fun exact_ _ _ other => Slot.ends_of_exact sane exact_ other, fun apart => apart.exact_ sane⟩

end Content

end DirtyCode.DiskList
