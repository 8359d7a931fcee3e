import DirtyCode.DiskList.Jbod
import DirtyCode.DiskList.SlotTexts

/-!
The drives that the sections of a `megacli -pdlist` output tell of, against the entries
that `mega_jbod_list` leaves for them.
-/

namespace DirtyCode.DiskList

open Lib

/-- The decoded text of an inquiry string; any other text stays as it is. -/
def toldInquiry (text : List UInt8) : List UInt8 :=
  if good : 0 ∉ text ∧ 48 ≤ text.length ∧ (60 < text.length → 68 ≤ text.length) then
    Inquiry.decoded ⟨text, good.1, good.2.1, good.2.2⟩
  else text

structure Sections where
  ecId : Int
  slot : Slot
  recorded : List Slot

namespace Sections

def start : Sections := ⟨-1, ⟨[], []⟩, []⟩

def told (a : Sections) (field : Field) (text : List UInt8) : Sections :=
  { a with slot := a.slot.tell field text }

def tell (a : Sections) (line : List UInt8) : Key → Sections
  | .wwn => a.told .wwn (line.drop 5)
  | .firmver => a.told .ver (line.drop 23)
  | .sasaddr => a.told .peerAddr (line.drop 18)
  | .inq => a.told .raidInq (toldInquiry (line.drop 14))
  | .state =>
      if jbod <+: line.drop 16 then a else { a with ecId := -1, slot := a.slot.reopened }
  | .type => ⟨-1, ⟨[], []⟩, a.recorded ++ [a.slot.tell .pdType (line.drop 12)]⟩
  | _ => a

def next (a : Sections) (line : List UInt8) : Sections :=
  match keyOf line with
  | none => a
  | some .ec => { a with ecId := scanNumber .ec line a.ecId, slot := a.slot.reopened }
  | some key => if a.ecId < 0 then a else a.tell line key

/-- What holds of each line, where the lines before it have been read. -/
def Along (holds : Sections → List UInt8 → Prop) : Sections → List (List UInt8) → Prop
  | _, [] => True
  | a, line :: rest => holds a line ∧ Along holds (a.next line) rest

end Sections

/-- What the lines tell for each entry that is completed. -/
def slots (lines : List (List UInt8)) : List Slot := (lines.foldl Sections.next .start).recorded

/-- The lines of an output, the last one also where it has no end. -/
def linesOf (output : List UInt8) : List (List UInt8) :=
  let split := splitLines (· = 10) output
  if split.2 = [] then split.1 else split.1 ++ [split.2]

def drives (output : List UInt8) : List Drive := (slots (linesOf output)).map Slot.drive

/-- What `buf` shows of a piece: nothing behind a NUL, and the last byte is cut off. -/
def heard (piece : List UInt8) : List UInt8 := (piece.takeWhile (· ≠ 0)).dropLast

def heardLines (output : List UInt8) : List (List UInt8) := (pieces 127 [] output).map heard

def Readable (text : List UInt8) : Prop :=
  ∃ good : 0 ∉ text ∧ 48 ≤ text.length ∧ (60 < text.length → 68 ≤ text.length),
    Inquiry.NoBlankField ⟨text, good.1, good.2.1, good.2.2⟩

def LegibleAs (line : List UInt8) : Key → Prop
  | .wwn => 5 ≤ line.length
  | .firmver => 23 ≤ line.length
  | .sasaddr => 18 ≤ line.length
  | .type => 12 ≤ line.length
  | .inq => Readable (line.drop 14)
  | _ => True

/-- A line that is long enough for what is looked at in it, where a section is open. -/
def Sections.Legible (a : Sections) (line : List UInt8) : Prop :=
  0 ≤ a.ecId → ∀ key ∈ keyOf line, LegibleAs line key ∧ (key = .state → 16 ≤ line.length)

/-- The table has room for the entry that the line opens. -/
def Sections.Room (first : Nat) (a : Sections) (line : List UInt8) : Prop :=
  keyOf line = some .ec → first + a.recorded.length < maxDisk

/-- An output in the format of the tool: no line that is looked at is too short for it, and
what `fgets` makes of long lines and of a last line without end tells the same drives. -/
structure Format (output : List UInt8) : Prop where
  begins : ∀ piece ∈ pieces 127 [] output, piece.head? ≠ some 0
  legible : Sections.start.Along Sections.Legible (heardLines output)
  same : (slots (heardLines output)).map Slot.drive = drives output

/-- The table has room, and in it each text of a drive ends where it was told to. -/
structure Separate (s : PdList) (output : List UInt8) : Prop where
  room : Sections.start.Along (Sections.Room s.raidLdPdIdx) (heardLines output)
  apart : ∀ numbered ∈ (slots (heardLines output)).zipIdx s.raidLdPdIdx,
    numbered.1.Apart (s.raidPdDepot.view (entrySize * numbered.2))

def WholeLine (piece : List UInt8) : Prop :=
  piece.getLast? = some 10 ∧ 0 ∉ piece ∧ piece.length < bufSize

instance (text : List UInt8) : Decidable (Readable text) := by
  unfold Readable
  infer_instance

instance (line : List UInt8) : (key : Key) → Decidable (LegibleAs line key)
  | .wwn | .firmver | .sasaddr | .type => inferInstanceAs (Decidable (_ ≤ line.length))
  | .inq => inferInstanceAs (Decidable (Readable _))
  | .ec | .slot | .did | .size | .state => inferInstanceAs (Decidable True)

instance (a : Sections) (line : List UInt8) : Decidable (a.Legible line) := by
  unfold Sections.Legible
  infer_instance

instance (first : Nat) (a : Sections) (line : List UInt8) : Decidable (a.Room first line) := by
  unfold Sections.Room
  infer_instance

def Sections.decidableAlong (holds : Sections → List UInt8 → Prop)
    [∀ a line, Decidable (holds a line)] :
    (a : Sections) → (lines : List (List UInt8)) → Decidable (a.Along holds lines)
  | _, [] => inferInstanceAs (Decidable True)
  | a, line :: rest =>
      have := decidableAlong holds (a.next line) rest
      inferInstanceAs (Decidable (holds a line ∧ _))

instance (holds : Sections → List UInt8 → Prop) [∀ a line, Decidable (holds a line)]
    (a : Sections) (lines : List (List UInt8)) : Decidable (a.Along holds lines) :=
  Sections.decidableAlong holds a lines

instance (piece : List UInt8) : Decidable (WholeLine piece) := by
  unfold WholeLine
  infer_instance

theorem pieces_whole {room : Nat} {taken text : List UInt8} (inside : 10 ∉ taken)
    (whole : ∀ piece ∈ pieces room taken text, piece.getLast? = some 10) :
    pieces room taken text =
      (splitLines (· = 10) (taken ++ text)).1.map (· ++ [10]) := by
  have none : splitLines (· = (10 : UInt8)) taken = ([], taken) := by
    refine splitLines_inside fun char member => decide_eq_false ?_
    exact fun newline => inside (newline ▸ member)
  induction text generalizing taken with
  | nil =>
      rw [List.append_nil, none, pieces]
      split
      · rfl
      · rename_i nonempty
        rw [pieces, if_neg nonempty] at whole
        exact absurd (List.mem_of_getLast? (whole taken List.mem_cons_self)) inside
  | cons byte rest ih =>
      rw [pieces] at whole ⊢
      by_cases newline : byte = 10
      · subst newline
        rw [if_pos (Or.inl rfl)] at whole ⊢
        have later : pieces room [] rest = (splitLines (· = 10) ([] ++ rest)).1.map (· ++ [10]) :=
          ih List.not_mem_nil (fun piece member => whole piece (List.mem_cons_of_mem _ member)) rfl
        have first : (splitLines (· = (10 : UInt8)) (10 :: rest)).1 =
            [] :: (splitLines (· = 10) rest).1 := by
          rw [splitLines_end (by decide)]
        rw [splitLines_append_lines taken first, none, later]
        simp
      · by_cases full : taken.length + 1 = room
        · rw [if_pos (Or.inr full)] at whole
          have last := whole _ List.mem_cons_self
          rw [List.getLast?_concat, Option.some.injEq] at last
          exact absurd last newline
        · rw [if_neg (not_or.mpr ⟨newline, full⟩)] at whole ⊢
          have still : 10 ∉ taken ++ [byte] := by
            simp [inside, Ne.symm newline]
          have later := ih still whole (by
            refine splitLines_inside fun char member => decide_eq_false ?_
            exact fun end_ => still (end_ ▸ member))
          rw [later, List.append_assoc, List.singleton_append]

theorem pieces_size {room : Nat} {taken text : List UInt8} (small : taken.length < room) :
    ∀ piece ∈ pieces room taken text, piece ≠ [] ∧ piece.length ≤ room := by
  induction text generalizing taken with
  | nil =>
      intro piece member
      rw [pieces] at member
      split at member
      · contradiction
      · rename_i nonempty
        rw [List.mem_singleton.mp member]
        exact ⟨nonempty, small.le⟩
  | cons byte rest ih =>
      intro piece member
      rw [pieces] at member
      split at member
      · rcases List.mem_cons.mp member with rfl | later
        · refine ⟨by simp, ?_⟩
          rw [List.length_append, List.length_singleton]
          exact small
        · exact @ih [] (Nat.zero_lt_of_lt small) piece later
      · rename_i going
        refine ih ?_ piece member
        rw [List.length_append, List.length_singleton]
        omega

namespace PdList

variable {s : PdList} {line text : List UInt8}

theorem receive_heard (s : PdList) {piece : List UInt8} (some_ : piece ≠ [])
    (short : piece.length ≤ 127) (begins : piece.head? ≠ some 0) :
    ∃ buf, s.receive piece = some { s with buf := buf } ∧
      Memory.Shows buf 0 (heard piece) ∧ (heard piece).length + 1 < bufSize := by
  let filled := s.buf.write 0 (piece ++ [0])
  have stored : filled.slice 0 (piece.length + 1) = piece ++ [0] := by
    have whole := Memory.slice_write_self s.buf 0 (piece ++ [0])
    rwa [List.length_append, List.length_singleton] at whole
  have ended : filled (0 + piece.length) = 0 := by
    have last := @Memory.write_inside s.buf 0 (piece ++ [0]) piece.length (by simp)
    simpa using last
  obtain ⟨text, shown, within⟩ := Memory.exists_shows ⟨piece.length, le_rfl, ended⟩
  have same : piece.takeWhile (· ≠ 0) = text := by
    have held := shown.takeWhile (Nat.lt_succ_of_le within)
    rw [stored, List.takeWhile_append] at held
    rw [← held]
    split
    · rename_i whole
      rw [List.takeWhile_cons_of_neg (by decide), List.append_nil]
      exact List.takeWhile_prefix _ |>.eq_of_length whole
    · rfl
  have first : text ≠ [] := by
    rw [← same]
    cases piece with
    | nil => exact absurd rfl some_
    | cons byte rest =>
        have nonzero : byte ≠ 0 := fun zero => begins (by rw [zero]; rfl)
        simp [nonzero]
  have size := shown.strlen (show text.length < bufSize by unfold bufSize; omega)
  obtain ⟨line, last, rfl⟩ : ∃ line last, text = line ++ [last] :=
    ⟨text.dropLast, text.getLast first, (List.dropLast_append_getLast first).symm⟩
  rw [heard, same, List.dropLast_concat]
  rw [List.length_append, List.length_singleton] at size within
  have room : line.length + 1 < bufSize := by
    unfold bufSize
    omega
  refine ⟨filled.set line.length 0, ?_, ⟨?_, ?_, ?_⟩, room⟩
  · rw [receive, size]
    rfl
  · rw [Memory.set, Memory.slice_memcpy_disjoint _ _ (by omega)]
    have content := shown.content
    rw [List.length_append, Memory.slice_append] at content
    exact (List.append_inj content (Memory.length_slice _ _ _)).1
  · rw [Nat.zero_add, Memory.set_self]
  · exact fun member => shown.plain (List.mem_append_left _ member)

theorem WholeLine.heard_eq {piece : List UInt8} (whole : WholeLine piece) :
    heard piece = piece.dropLast := by
  have all : piece.takeWhile (· ≠ 0) = piece := by
    rw [List.takeWhile_eq_self_iff]
    intro byte member
    exact decide_eq_true fun zero => whole.2.1 (zero ▸ member)
  rw [heard, all]

theorem receive_whole (s : PdList) {piece : List UInt8} (whole : WholeLine piece) :
    ∃ buf, s.receive piece = some { s with buf := buf } ∧
      Memory.Shows buf 0 piece.dropLast ∧ piece.dropLast.length + 1 < bufSize := by
  have first : piece ≠ [] := by
    rintro rfl
    have ends := whole.1
    contradiction
  rw [← WholeLine.heard_eq whole]
  refine s.receive_heard first (Nat.le_of_lt_succ whole.2.2) fun zero => whole.2.1 ?_
  exact List.mem_of_head? zero

theorem line_eq (shown : Memory.Shows s.buf 0 line) (short : line.length < bufSize) :
    s.line = line := shown.takeWhile short

theorem copyText_within (shown : Memory.Shows s.buf 0 line) (short : line.length < bufSize)
    (field : Field) {skipped : Nat} (within : skipped ≤ line.length) :
    copyText field skipped s = some (s.store field.offset (line.drop skipped)) := by
  have tail := shown.drop within
  rw [Nat.zero_add] at tail
  have inside : (line.drop skipped).length < bufSize - skipped := by
    rw [List.length_drop]
    omega
  rw [copyText, tail.strlen inside, Option.map_some, tail.strncpy]

theorem inquiry_eq (shown : Memory.Shows s.buf 0 line) (short : line.length < bufSize)
    (readable : Readable (line.drop 14)) :
    s.inquiry = some (s.store Field.raidInq.offset (toldInquiry (line.drop 14) ++ [0])) ∧
      0 ∉ toldInquiry (line.drop 14) ∧ (toldInquiry (line.drop 14)).length ≤ 74 := by
  obtain ⟨good, some_⟩ := readable
  have size := good.2.1
  rw [List.length_drop] at size
  have tail := shown.drop (by omega : 14 ≤ line.length)
  rw [Nat.zero_add] at tail
  have inside : (line.drop 14).length < bufSize - 14 := by
    rw [List.length_drop]
    omega
  have stored := @Inquiry.lsiInqDecode_eq ⟨_, good.1, good.2.1, good.2.2⟩ _ _ _ tail inside
  rw [Inquiry.decodeFields_some tail some_] at stored
  rw [toldInquiry, dif_pos good]
  exact ⟨by rw [inquiry, stored, Option.map_some], Inquiry.decoded_plain _,
    Inquiry.length_decoded_le _⟩

theorem jbod_iff (shown : Memory.Shows s.buf 0 line) (told : 16 ≤ line.length) :
    s.buf.slice 16 4 = jbod ↔ jbod <+: line.drop 16 := by
  have tail := shown.drop told
  have plain : 0 ∉ jbod := by decide +kernel
  rw [Nat.zero_add] at tail
  exact tail.slice_eq_iff plain

end PdList

/-- The entry holds what the lines so far have told for it. Until a section is open in it, its
marker may still be missing. -/
structure Holds (opened : Prop) (now start : Memory) (index : Nat) (slot : Slot) : Prop where
  sane : ∀ told ∈ slot.before ++ slot.own, Sane told
  bytes : ∀ (field : Field) (n : Nat), n < field.size → opened ∨ 3 ≤ n →
    now (field.address index + n) =
      slot.content (start.view (entrySize * index)) (field.offset + n)

section

variable {opened : Prop} {now later start : Memory} {index : Nat} {slot : Slot} {field : Field}
  {text : List UInt8}

theorem view_field (start : Memory) (index : Nat) (field : Field) (n : Nat) :
    start.view (entrySize * index) (field.offset + n) = start (field.address index + n) := by
  rw [Memory.view, Field.address, Nat.add_assoc]

theorem Holds.congr (holds : Holds opened now start index slot)
    (same : ∀ (field : Field) (n : Nat), n < field.size →
      later (field.address index + n) = now (field.address index + n)) :
    Holds opened later start index slot where
  sane := holds.sane
  bytes field n inside marked := (same field n inside).trans (holds.bytes field n inside marked)

theorem Slot.content_behind (slot : Slot) {n : Nat} (behind : 3 ≤ n) (inside : n < field.size) :
    slot.content start (field.offset + n) =
      start.overlay ((slot.before ++ slot.own).map placed) (field.offset + n) := by
  rw [Slot.content, List.map_append, Memory.overlay_append]
  apply Memory.overlay_congr
  have kept := @initDiskEntry_behind (start.overlay (slot.before.map placed)) 0 n field behind
    inside
  rwa [address_zero] at kept

theorem Holds.reopened (holds : Holds opened now start index slot) :
    Holds True (initDiskEntry now index) start index slot.reopened where
  sane := by
    rw [Slot.reopened, List.append_nil]
    exact holds.sane
  bytes field n inside _ := by
    by_cases behind : 3 ≤ n
    · rw [initDiskEntry_behind behind inside, holds.bytes field n inside (Or.inr behind),
        slot.content_behind behind inside, Slot.content_behind _ behind inside, Slot.reopened,
        List.append_nil]
    · have both := @initDiskEntry_marker now index field
      have fresh := @initDiskEntry_marker ((start.view (entrySize * index)).overlay
        (slot.reopened.before.map placed)) 0 field
      have free : slot.reopened.content (start.view (entrySize * index)) (field.offset + n) =
          initDiskEntry ((start.view (entrySize * index)).overlay
            (slot.reopened.before.map placed)) 0 (field.address 0 + n) :=
        Slot.content_unreached fun _ member => absurd member List.not_mem_nil
      rw [free]
      obtain rfl | rfl | rfl : n = 0 ∨ n = 1 ∨ n = 2 := by omega
      · rw [Nat.add_zero, Nat.add_zero, both.1, fresh.1]
      · rw [both.2.1, fresh.2.1]
      · rw [both.2.2, fresh.2.2]

theorem Holds.tell (holds : Holds opened now start index slot) (sane : Sane (field, text)) :
    Holds opened (now.write (field.address index) (placed (field, text)).2) start index
      (slot.tell field text) where
  sane told member := by
    rw [Slot.tell, ← List.append_assoc] at member
    rcases List.mem_append.mp member with earlier | last
    · exact holds.sane told earlier
    · exact List.mem_singleton.mp last ▸ sane
  bytes another n inside marked := by
    have here := holds.bytes another n inside marked
    have step : (slot.tell field text).content (start.view (entrySize * index)) =
        (slot.content (start.view (entrySize * index))).write field.offset
          (placed (field, text)).2 := by
      rw [Slot.content, Slot.tell, List.map_append, Memory.overlay_append]
      rfl
    rw [Field.address, Nat.add_assoc] at here
    rw [step, Field.address, Field.address, Nat.add_assoc]
    exact Memory.write_congr here

theorem Holds.untold (same : ∀ place, entrySize * index ≤ place → now place = start place) :
    Holds False now start index ⟨[], []⟩ where
  sane _ member := absurd member List.not_mem_nil
  bytes field n inside marked := by
    have behind := marked.resolve_left id
    rw [Slot.content_behind _ behind inside, List.append_nil, List.map_nil]
    exact (same _ (Nat.le_add_right_of_le (Nat.le_add_right _ _))).trans
      (view_field start index field n).symm

/-- A complete entry shows its own texts exactly where they end. -/
theorem Holds.exact_iff (holds : Holds True now start index slot) :
    Exact now index slot.drive ↔ slot.Apart (start.view (entrySize * index)) := by
  rw [← Slot.exact_iff holds.sane]
  have agree (field : Field) (offset : Nat) (inside : offset < field.size) :
      now (field.address index + offset) =
        slot.content (start.view (entrySize * index)) (field.address 0 + offset) := by
    rw [address_zero, holds.bytes field offset inside (Or.inl trivial)]
  have fields (field : Field) (small : (slot.drive field).length < field.size) :
      Memory.Shows now (field.address index) (slot.drive field) ↔
        Memory.Shows (slot.content (start.view (entrySize * index))) (field.address 0)
          (slot.drive field) := by
    have slices : now.slice (field.address index) (slot.drive field).length =
        (slot.content (start.view (entrySize * index))).slice (field.address 0)
          (slot.drive field).length :=
      Memory.slice_congr fun offset below => agree field offset (below.trans small)
    constructor
    · rintro ⟨content, ended, plain⟩
      exact ⟨slices ▸ content, agree field _ small ▸ ended, plain⟩
    · rintro ⟨content, ended, plain⟩
      exact ⟨slices ▸ content, (agree field _ small).trans ended, plain⟩
  constructor
  · exact fun exact_ => ⟨fun field => (fields field (exact_.fits field)).mp (exact_.shows_ field),
      exact_.fits⟩
  · exact fun exact_ => ⟨fun field => (fields field (exact_.fits field)).mpr (exact_.shows_ field),
      exact_.fits⟩

end

structure Follows (first : Nat) (start : Memory) (s : PdList) (a : Sections) : Prop where
  ecId : s.ecId = a.ecId
  count : s.raidLdPdIdx = first + a.recorded.length
  current : 0 ≤ s.ecId → s.e = s.raidLdPdIdx
  slot : Holds (0 ≤ s.ecId) s.raidPdDepot start s.raidLdPdIdx a.slot
  ahead : ∀ place, entrySize * (s.raidLdPdIdx + 1) ≤ place → s.raidPdDepot place = start place
  recorded : ∀ i slot, a.recorded[i]? = some slot →
    Holds True s.raidPdDepot start (first + i) slot

section

variable {first : Nat} {start : Memory} {s after : PdList} {a : Sections} {line text : List UInt8}
  {field : Field} {slot : Slot}

theorem Follows.change (follows : Follows first start s a)
    (index : after.raidLdPdIdx = s.raidLdPdIdx)
    (current : 0 ≤ after.ecId → after.e = after.raidLdPdIdx)
    (outside : ∀ place, place < entrySize * s.raidLdPdIdx ∨
      entrySize * (s.raidLdPdIdx + 1) ≤ place → after.raidPdDepot place = s.raidPdDepot place)
    (holds : Holds (0 ≤ after.ecId) after.raidPdDepot start s.raidLdPdIdx slot) :
    Follows first start after { a with ecId := after.ecId, slot := slot } where
  ecId := rfl
  count := index.trans follows.count
  current := current
  slot := by rwa [index]
  ahead place beyond := by
    rw [index] at beyond
    rw [outside place (Or.inr beyond), follows.ahead place beyond]
  recorded i done listed := by
    have below : i < a.recorded.length := (List.getElem?_eq_some_iff.mp listed).1
    have count := follows.count
    refine (follows.recorded i done listed).congr fun field n inside => outside _ (Or.inl ?_)
    have room := field.inside
    rw [Field.address]
    unfold entrySize at *
    omega

theorem store_outside {offset place : Nat} {bytes : List UInt8} (here : s.e = s.raidLdPdIdx)
    (room : offset + bytes.length ≤ entrySize)
    (outside : place < entrySize * s.raidLdPdIdx ∨ entrySize * (s.raidLdPdIdx + 1) ≤ place) :
    (s.store offset bytes).raidPdDepot place = s.raidPdDepot place := by
  apply Memory.write_outside
  rw [here]
  rw [Nat.mul_succ] at outside
  omega

theorem Follows.store_number (follows : Follows first start s a) (opened : 0 ≤ s.ecId)
    {offset : Nat} {bytes : List UInt8}
    (apart : ∀ field : Field, field.offset + field.size ≤ offset ∨
      offset + bytes.length ≤ field.offset) (inside : offset + bytes.length ≤ entrySize) :
    Follows first start (s.store offset bytes) a := by
  have here := follows.current opened
  have kept : Follows first start (s.store offset bytes)
      { a with ecId := s.ecId, slot := a.slot } := by
    refine follows.change rfl (fun _ => here) (fun _ => store_outside here inside) ?_
    refine follows.slot.congr fun field n within => Memory.write_outside ?_
    have room := apart field
    rw [here, Field.address]
    omega
  rwa [follows.ecId] at kept

theorem Follows.store_short (follows : Follows first start s a) (opened : 0 ≤ s.ecId)
    {offset : Nat} (early : offset + 2 ≤ Field.ver.offset) (value : Int) :
    Follows first start (s.store offset (shortBytes value)) a := by
  have size : (shortBytes value).length = 2 := rfl
  have lowest : ∀ field : Field, Field.ver.offset ≤ field.offset := by
    intro field
    cases field <;> decide
  refine follows.store_number opened (fun field => Or.inr ?_) ?_
  · rw [size]
    exact early.trans (lowest field)
  · rw [size]
    exact early.trans (by decide)

theorem Follows.told (follows : Follows first start s a) (opened : 0 ≤ s.ecId)
    (sane : Sane (field, text)) :
    Follows first start (s.store field.offset (placed (field, text)).2) (a.told field text) := by
  have here := follows.current opened
  have kept : Follows first start (s.store field.offset (placed (field, text)).2)
      { a with ecId := s.ecId, slot := a.slot.tell field text } := by
    refine follows.change rfl (fun _ => here) (fun _ => store_outside here sane.room) ?_
    have telling := follows.slot.tell sane
    rw [Field.address, ← here] at telling
    exact here ▸ telling
  rwa [follows.ecId] at kept

theorem Follows.copied (follows : Follows first start s a) (opened : 0 ≤ s.ecId)
    (text_ : field ≠ .raidInq) (sane : Sane (field, text)) :
    Follows first start (s.store field.offset text) (a.told field text) := by
  have told := follows.told opened sane
  rwa [placed, if_neg text_] at told

theorem Follows.discard (follows : Follows first start s a) (opened : 0 ≤ s.ecId) :
    Follows first start s.discard { a with ecId := -1, slot := a.slot.reopened } := by
  have here := follows.current opened
  have discarded : s.discard.raidPdDepot = initDiskEntry s.raidPdDepot s.raidLdPdIdx := by
    rw [← here]
    rfl
  have closed : ¬0 ≤ s.discard.ecId := of_decide_eq_false rfl
  refine follows.change rfl (fun opened => absurd opened closed) (fun place outside => ?_) ?_
  · rw [discarded]
    exact initDiskEntry_outside outside
  · rw [discarded]
    exact ⟨follows.slot.reopened.sane,
      fun field n inside _ => follows.slot.reopened.bytes field n inside (Or.inl trivial)⟩

theorem Follows.enclosure (follows : Follows first start s a) (shown : s.line = line)
    (room : s.raidLdPdIdx < maxDisk) : ∃ after, s.enclosure = some after ∧
      Follows first start after
        { a with ecId := scanNumber .ec line a.ecId, slot := a.slot.reopened } := by
  refine ⟨_, if_pos room, ?_⟩
  let opened : PdList :=
    { s with
      ecId := scanNumber .ec s.line s.ecId
      e := s.raidLdPdIdx
      raidPdDepot := initDiskEntry s.raidPdDepot s.raidLdPdIdx }
  let numbered := opened.store 12 (shortBytes (scanNumber .ec s.line s.ecId))
  have reopened := follows.slot.reopened
  have number : (shortBytes (scanNumber .ec s.line s.ecId)).length = 2 := rfl
  have fresh : Follows first start numbered
      { a with ecId := numbered.ecId, slot := a.slot.reopened } := by
    refine follows.change rfl (fun _ => rfl) (fun place outside => ?_) ?_
    · have stored := @store_outside opened 12 place (shortBytes _) rfl (by rw [number]; decide)
        outside
      exact stored.trans (initDiskEntry_outside outside)
    · refine ⟨reopened.sane, fun field n inside _ => ?_⟩
      rw [← reopened.bytes field n inside (Or.inl trivial)]
      apply Memory.write_outside
      have lowest : 14 ≤ field.offset := by
        cases field <;> decide
      show _ < entrySize * s.raidLdPdIdx + 12 ∨ entrySize * s.raidLdPdIdx + 12 + _ ≤ _
      rw [number, Field.address]
      omega
  have same : numbered.ecId = scanNumber .ec line a.ecId := by
    rw [← shown, ← follows.ecId]
    rfl
  rwa [same] at fresh

theorem Follows.complete (follows : Follows first start s a) (opened : 0 ≤ s.ecId) :
    Follows first start { s with raidLdPdIdx := s.raidLdPdIdx + 1, ecId := -1 }
      ⟨-1, ⟨[], []⟩, a.recorded ++ [a.slot]⟩ where
  ecId := rfl
  count := by
    rw [List.length_append, List.length_singleton, ← Nat.add_assoc, ← follows.count]
  current opened := absurd opened (of_decide_eq_false rfl)
  slot := by
    have untold := Holds.untold follows.ahead
    exact ⟨untold.sane, fun field n inside marked =>
      untold.bytes field n inside (marked.imp_left (of_decide_eq_false rfl))⟩
  ahead place beyond := follows.ahead place
    ((Nat.mul_le_mul_left _ (Nat.le_succ _)).trans beyond)
  recorded i done listed := by
    rcases Nat.lt_or_ge i a.recorded.length with earlier | last
    · rw [List.getElem?_append_left earlier] at listed
      exact follows.recorded i done listed
    · have below := (List.getElem?_eq_some_iff.mp listed).1
      rw [List.length_append, List.length_singleton] at below
      have same : i = a.recorded.length := by omega
      rw [same, List.getElem?_concat_length, Option.some.injEq] at listed
      rw [same, ← follows.count, ← listed]
      exact ⟨follows.slot.sane, fun field n inside _ =>
        follows.slot.bytes field n inside (Or.inl opened)⟩

theorem Follows.act (sizeGB : Memory → BitVec 32) (follows : Follows first start s a)
    (opened : 0 ≤ s.ecId) (shown : Memory.Shows s.buf 0 line) (short : line.length + 1 < bufSize)
    {key : Key} (later : key ≠ .ec) (legible : LegibleAs line key)
    (state : key = .state → 16 ≤ line.length) :
    ∃ after, PdList.act sizeGB key s = some after ∧
      Follows first start after (a.tell line key) := by
  have inside : line.length < bufSize := Nat.lt_of_succ_lt short
  have sane (field : Field) (text_ : field ≠ .raidInq) (skipped : Nat) (label : 5 ≤ skipped) :
      Sane (field, line.drop skipped) := by
    refine ⟨fun member => shown.plain (List.mem_of_mem_drop member), ?_,
      fun inquiry => absurd inquiry text_⟩
    rw [List.length_drop]
    unfold bufSize at short
    omega
  have copied (field : Field) (text_ : field ≠ .raidInq) (skipped : Nat) (label : 5 ≤ skipped)
      (within : skipped ≤ line.length) : ∃ after, PdList.copyText field skipped s = some after ∧
        Follows first start after (a.told field (line.drop skipped)) :=
    ⟨_, PdList.copyText_within shown inside field within,
      follows.copied opened text_ (sane field text_ skipped label)⟩
  cases key with
  | ec => exact absurd rfl later
  | slot =>
      have numbered : Follows first start { s with slotId := scanNumber .slot s.line s.slotId } a :=
        ⟨follows.ecId, follows.count, follows.current, follows.slot, follows.ahead,
          follows.recorded⟩
      exact ⟨_, rfl, numbered.store_short opened (by decide) _⟩
  | did =>
      have numbered : Follows first start { s with did := scanNumber .did s.line s.did } a :=
        ⟨follows.ecId, follows.count, follows.current, follows.slot, follows.ahead,
          follows.recorded⟩
      exact ⟨_, rfl, numbered.store_short opened (by decide) _⟩
  | size =>
      refine ⟨_, rfl, follows.store_number opened ?_ ?_⟩
      · intro field
        rw [Memory.length_slice]
        cases field <;> decide
      · rw [Memory.length_slice]
        decide
  | wwn => exact copied .wwn (by decide) 5 (by decide) legible
  | firmver => exact copied .ver (by decide) 23 (by decide) legible
  | sasaddr => exact copied .peerAddr (by decide) 18 (by decide) legible
  | inq =>
      obtain ⟨stored, plain, small⟩ := PdList.inquiry_eq shown inside legible
      have told : Sane (Field.raidInq, toldInquiry (line.drop 14)) :=
        ⟨plain, small.trans (by decide), fun _ => small⟩
      exact ⟨_, stored, follows.told opened told⟩
  | state =>
      have told := PdList.jbod_iff shown (state rfl)
      refine ⟨_, rfl, ?_⟩
      by_cases isJbod : jbod <+: line.drop 16
      · rw [if_pos (told.mpr isJbod), Sections.tell, if_pos isJbod]
        exact follows
      · rw [if_neg (mt told.mp isJbod), Sections.tell, if_neg isJbod]
        exact follows.discard opened
  | type =>
      obtain ⟨told, stored, follows⟩ := copied .pdType (by decide) 12 (by decide) legible
      have still : 0 ≤ told.ecId := by
        obtain ⟨count, -, rfl⟩ := Option.map_eq_some_iff.mp stored
        exact opened
      refine ⟨_, ?_, follows.complete still⟩
      rw [PdList.act, PdList.mediaType, stored]
      rfl

theorem Follows.parse (sizeGB : Memory → BitVec 32) (follows : Follows first start s a)
    (shown : Memory.Shows s.buf 0 line) (short : line.length + 1 < bufSize)
    (legible : a.Legible line) :
    (a.Room first line → ∃ after, s.parse sizeGB = some after ∧
      Follows first start after (a.next line)) ∧
    (¬a.Room first line → s.parse sizeGB = none) := by
  have same := PdList.line_eq shown (Nat.lt_of_succ_lt short)
  have count := follows.count
  rw [PdList.parse_eq, same, Sections.next, Sections.Room, ← follows.ecId]
  cases found : keyOf line with
  | none => exact ⟨fun _ => ⟨s, rfl, follows⟩, fun full => absurd nofun full⟩
  | some key =>
      cases key with
      | ec =>
          refine ⟨fun room => ?_, fun full => ?_⟩
          · rw [follows.ecId]
            exact follows.enclosure same (count ▸ room rfl)
          · have outside : ¬s.raidLdPdIdx < maxDisk := fun inside => full fun _ => count ▸ inside
            exact if_neg outside
      | _ =>
          refine ⟨fun _ => ?_, fun full => absurd nofun full⟩
          by_cases closed : s.ecId < 0
          · simp only [if_pos closed]
            exact ⟨s, rfl, follows⟩
          · have opened : 0 ≤ s.ecId := Int.le_of_not_gt closed
            obtain ⟨long, state⟩ := legible (follows.ecId ▸ opened) _ found
            simp only [if_neg closed]
            exact follows.act sizeGB opened shown short (by decide) long state

theorem Follows.step (sizeGB : Memory → BitVec 32) {piece : List UInt8}
    (follows : Follows first start s a) (size : piece ≠ [] ∧ piece.length ≤ 127)
    (begins : piece.head? ≠ some 0) (legible : a.Legible (heard piece)) :
    (a.Room first (heard piece) → ∃ after, (megaJbodList sizeGB).step s piece = some after ∧
      Follows first start after (a.next (heard piece))) ∧
    (¬a.Room first (heard piece) → (megaJbodList sizeGB).step s piece = none) := by
  obtain ⟨buf, received, shown, short⟩ := s.receive_heard size.1 size.2 begins
  have still : Follows first start { s with buf := buf } a :=
    ⟨follows.ecId, follows.count, follows.current, follows.slot, follows.ahead, follows.recorded⟩
  have step : (megaJbodList sizeGB).step s piece = PdList.parse sizeGB { s with buf := buf } := by
    show (s.receive piece).bind _ = _
    rw [received, Option.bind_some]
  rw [step]
  exact still.parse sizeGB shown short legible

/-- The whole output: with room the table follows it to the end. -/
theorem Follows.run (sizeGB : Memory → BitVec 32) {read : List (List UInt8)}
    (follows : Follows first start s a) (size : ∀ piece ∈ read, piece ≠ [] ∧ piece.length ≤ 127)
    (begins : ∀ piece ∈ read, piece.head? ≠ some 0)
    (legible : a.Along Sections.Legible (read.map heard)) :
    (a.Along (Sections.Room first) (read.map heard) →
      ∃ last, (megaJbodList sizeGB).run s read = some last ∧
        Follows first start last ((read.map heard).foldl Sections.next a)) ∧
    (¬a.Along (Sections.Room first) (read.map heard) →
      (megaJbodList sizeGB).run s read = none) := by
  induction read generalizing s a with
  | nil => exact ⟨fun _ => ⟨s, rfl, follows⟩, fun full => absurd trivial full⟩
  | cons piece rest ih =>
      obtain ⟨here, later⟩ := legible
      obtain ⟨goes, stops⟩ := follows.step sizeGB (size piece List.mem_cons_self)
        (begins piece List.mem_cons_self) here
      have sizes := fun other member => size other (List.mem_cons_of_mem _ member)
      have beginnings := fun other member => begins other (List.mem_cons_of_mem _ member)
      by_cases room : a.Room first (heard piece)
      · obtain ⟨after, stepped, next⟩ := goes room
        obtain ⟨ends, stuck⟩ := ih next sizes beginnings later
        rw [Machine.run_cons stepped]
        exact ⟨fun rooms => ends rooms.2, fun full => stuck fun rooms => full ⟨room, rooms⟩⟩
      · refine ⟨fun rooms => absurd rooms.1 room, fun _ => ?_⟩
        rw [Machine.run, stops room, Option.bind_none]

end

def Recorded (depot : Memory) (first : Nat) (complete : List Drive) : Prop :=
  ∀ numbered ∈ complete.zipIdx first, Exact depot numbered.2 numbered.1

/-- The entries for an output hold the texts of their own sections. -/
def Isolated (sizeGB : Memory → BitVec 32) (s : PdList) (output : List UInt8) : Prop :=
  ∃ last, (megaJbodList sizeGB).run s (pieces 127 [] output) = some last ∧
    last.raidLdPdIdx = s.raidLdPdIdx + (drives output).length ∧
    Recorded last.raidPdDepot s.raidLdPdIdx (drives output)

def zeroTable : PdList where
  raidPdDepot _ := 0
  raidLdPdIdx := 0
  buf _ := 0
  e := 0
  ecId := -1
  slotId := -1
  did := -1

def printed (lines : List String) : List UInt8 := lines.flatMap fun line => ascii line ++ [10]

/-- A JBOD drive, one that is left out, and another JBOD drive in the entry of this one; a line
that `fgets` cuts in two goes before them, and behind them one that does not end. -/
def threeDrives : List UInt8 :=
  List.replicate 150 61 ++ 10 :: printed ["Enclosure Device ID: 8", "WWN: 5000C50A",
    "Firmware state: JBOD", "Inquiry Data: ATA     WDC WD10EZEX-00 1A01WD-WCC3F0123456     ",
    "Media Type: HDD", "Enclosure Device ID: 8", "WWN: 5000", "Firmware state: Online",
    "Enclosure Device ID: 8", "WWN: 5000C5", "Firmware state: JBOD", "Media Type: SSD"] ++
    ascii "Exit"

/-- A drive that is no JBOD drive and then, in the same slot of the table, one that is. -/
def twoDrives : List UInt8 := printed ["Enclosure Device ID: 8", "WWN: 50014",
  "Firmware state: Online", "Enclosure Device ID: 8", "WWN: 500", "Firmware state: JBOD",
  "Media Type: HDD"]

end DirtyCode.DiskList
