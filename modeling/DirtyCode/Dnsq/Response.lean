import DirtyCode.Dnsq.ReadName

/-!
`ngethostbyname` of `dnsq.c`: the query that it sends, and the three sections of records
that it takes out of the response.
-/

namespace DirtyCode.Dnsq

open Lib

section Model

def ntohs (buf : Memory) (offset : Nat) : Nat :=
  (buf offset).toNat * 256 + (buf (offset + 1)).toNat

def htons (value : Nat) : List UInt8 := [UInt8.ofNat (value / 256), UInt8.ofNat value]

def header (id : Nat) : List UInt8 := htons id ++ [1, 0] ++ htons 1 ++ htons 0 ++ htons 0 ++ htons 0

/-- What is sent, after the header and the question are laid into the buffer. -/
def query (buf : Memory) (id : Nat) (host : List UInt8) (queryType : Nat) : Option (List UInt8) :=
  let buf := (buf.write 0 (header id)).write 12 (changetoDnsNameFormat host)
  (buf.strlen 12 (65536 - 12)).map fun length =>
    (buf.write (12 + (length + 1)) (htons queryType ++ htons 1)).slice 0 (12 + (length + 1) + 4)

structure ResRecord where
  name : Memory
  type : Nat
  dataLen : Nat
  rdata : Memory

/-- One record; where addresses are told apart, they are copied instead of read as a name.
The blocks are whatever `malloc` hands out when the reader stands there, and a block for so
many bytes has the room that `usable` says. -/
def readRecord (usable : Nat → Nat) (addresses : Bool) (buf : Memory) (fresh : Nat → Memory)
    (fuel reader : Nat) : Option (ResRecord × Nat) :=
  (readName buf (fresh reader) fuel reader).bind fun (name, stop) =>
    let type := ntohs buf (reader + stop)
    let dataLen := ntohs buf (reader + stop + 8)
    let reader := reader + stop + 10
    if addresses && type = 1 then
      -- the NUL goes behind the bytes that were asked for
      if dataLen < usable dataLen then
        let rdata := ((fresh reader).memcpy 0 (buf.view reader) dataLen).set dataLen 0
        some (⟨name, type, dataLen, rdata⟩, reader + dataLen)
      else none
    else
      (readName buf (fresh reader) fuel reader).map fun (rdata, stop) =>
        (⟨name, type, dataLen, rdata⟩, reader + stop)

/-- The records from number `i` on, into an array of 20. -/
def readSection (usable : Nat → Nat) (addresses : Bool) (buf : Memory) (fresh : Nat → Memory)
    (fuel : Nat) : Nat → Nat → Nat → Option (List ResRecord × Nat)
  | 0, _, reader => some ([], reader)
  | left + 1, i, reader =>
      if i < 20 then
        (readRecord usable addresses buf fresh fuel reader).bind fun (record, reader) =>
          (readSection usable addresses buf fresh fuel left (i + 1) reader).map
            fun (records, reader) => (record :: records, reader)
      else none

structure Response where
  answers : List ResRecord
  auth : List ResRecord
  addit : List ResRecord
  reader : Nat

def readResponse (usable : Nat → Nat) (buf : Memory) (fresh : Nat → Memory) (fuel : Nat) :
    Option Response :=
  (buf.strlen 12 (65536 - 12)).bind fun length =>
    (readSection usable true buf fresh fuel (ntohs buf 6) 0 (12 + (length + 1) + 4)).bind
      fun (answers, reader) =>
        (readSection usable false buf fresh fuel (ntohs buf 8) 0 reader).bind fun (auth, reader) =>
          (readSection usable true buf fresh fuel (ntohs buf 10) 0 reader).map
            fun (addit, reader) => ⟨answers, auth, addit, reader⟩

end Model

/-- What the data of a record is: bytes, or a name. -/
inductive Datum
  | bytes (bytes : List UInt8)
  | name (labels : List Label)

structure Meaning where
  owner : List Label
  type : Nat
  datum : Datum

/-- A name that is not the root's and that the reader has room for. -/
structure Fits (labels : List Label) : Prop where
  named : labels ≠ []
  room : (wireOf labels).length ≤ 255

/-- The record that starts at an offset and ends before another. -/
inductive RecordAt (addresses : Bool) (buf : Memory) : Nat → Meaning → Nat → Prop
  | bytes {offset length : Nat} {owner : List Label} {data : List UInt8}
      (told : addresses = true) (encoded : NameAt buf offset owner length) (fits : Fits owner)
      (type : ntohs buf (offset + length) = 1)
      (dataLen : ntohs buf (offset + length + 8) = data.length)
      (content : buf.slice (offset + length + 10) data.length = data) :
      RecordAt addresses buf offset ⟨owner, 1, .bytes data⟩ (offset + length + 10 + data.length)
  | name {offset length width type : Nat} {owner labels : List Label}
      (encoded : NameAt buf offset owner length) (fits : Fits owner)
      (typed : ntohs buf (offset + length) = type) (other : addresses = true → type ≠ 1)
      (dataLen : ntohs buf (offset + length + 8) = width)
      (data : NameAt buf (offset + length + 10) labels width) (dataFits : Fits labels) :
      RecordAt addresses buf offset ⟨owner, type, .name labels⟩ (offset + length + 10 + width)

inductive SectionAt (addresses : Bool) (buf : Memory) : Nat → List Meaning → Nat → Prop
  | nil (offset : Nat) : SectionAt addresses buf offset [] offset
  | cons {offset middle stop : Nat} {meaning : Meaning} {rest : List Meaning}
      (first : RecordAt addresses buf offset meaning middle)
      (onward : SectionAt addresses buf middle rest stop) :
      SectionAt addresses buf offset (meaning :: rest) stop

/-- What the program has of a record is what the record says. -/
structure Tells (record : ResRecord) (meaning : Meaning) : Prop where
  name : record.name.Shows 0 (dotted meaning.owner)
  type : record.type = meaning.type
  rdata : match meaning.datum with
    | .bytes bytes => record.dataLen = bytes.length ∧ record.rdata.slice 0 bytes.length = bytes ∧
        record.rdata bytes.length = 0
    | .name labels => record.rdata.Shows 0 (dotted labels)

/-- The block for an address has room for the NUL behind it. -/
def Meaning.Roomy (usable : Nat → Nat) (meaning : Meaning) : Prop :=
  ∀ bytes, meaning.datum = .bytes bytes → bytes.length < usable bytes.length

/-- A message with an uncompressed question and these records behind it. -/
structure MessageAt (buf : Memory) (asked : List Label) (answers auth addit : List Meaning)
    (stop : Nat) : Prop where
  question : buf.Shows 12 (wireOf asked)
  short : (wireOf asked).length ≤ 255
  counts : ntohs buf 6 = answers.length ∧ ntohs buf 8 = auth.length ∧ ntohs buf 10 = addit.length
  sections : ∃ first second,
    SectionAt true buf (12 + ((wireOf asked).length + 1) + 4) answers first ∧
      SectionAt false buf first auth second ∧ SectionAt true buf second addit stop

section Records

variable {usable : Nat → Nat} {addresses : Bool} {buf : Memory} {offset stop : Nat}
  {meaning : Meaning}

/-- With room for the NUL a record is read, and without it the program goes astray there. -/
theorem readRecord_cases (encoded : RecordAt addresses buf offset meaning stop)
    (fresh : Nat → Memory) : ∃ steps,
      (meaning.Roomy usable → ∃ record, Tells record meaning ∧ ∀ fuel,
        readRecord usable addresses buf fresh (fuel + steps) offset = some (record, stop)) ∧
      (¬meaning.Roomy usable → ∀ fuel,
        readRecord usable addresses buf fresh (fuel + steps) offset = none) := by
  cases encoded with
  | bytes told encoded fits type dataLen content =>
      rename_i length owner data
      obtain ⟨steps, name, reads, shown⟩ :=
        readName_eq encoded fits.named fits.room (fresh offset)
      have roomy_iff : (⟨owner, 1, .bytes data⟩ : Meaning).Roomy usable ↔
          data.length < usable data.length :=
        ⟨fun roomy => roomy data rfl, fun room bytes same => Datum.bytes.inj same ▸ room⟩
      let copied := ((fresh (offset + length + 10)).memcpy 0 (buf.view (offset + length + 10))
        data.length).set data.length 0
      have same : copied.slice 0 data.length = data := by
        refine (Memory.slice_congr fun index below => ?_).trans content
        have apart : 0 + index ≠ data.length := by omega
        refine (Memory.set_other _ 0 apart).trans ?_
        rw [Memory.memcpy, if_pos (by omega), Nat.sub_zero, Nat.zero_add]
        rfl
      have step (fuel : Nat) : readRecord usable addresses buf fresh (fuel + steps) offset =
          if data.length < usable data.length then
            some (⟨name, 1, data.length, copied⟩, offset + length + 10 + data.length)
          else none := by
        rw [readRecord, reads fuel, Option.bind_some]
        simp only [told, type, dataLen, decide_true, Bool.and_self, if_true]
        rfl
      refine ⟨steps, fun roomy => ?_, fun full fuel => ?_⟩
      · refine ⟨⟨name, 1, data.length, copied⟩, ⟨shown, rfl, rfl, same, Memory.set_self ..⟩, ?_⟩
        intro fuel
        rw [step, if_pos (roomy_iff.mp roomy)]
      · rw [step, if_neg fun room => full (roomy_iff.mpr room)]
  | name encoded fits typed other dataLen data dataFits =>
      rename_i length width type owner labels
      obtain ⟨steps, name, reads, shown⟩ :=
        readName_eq encoded fits.named fits.room (fresh offset)
      obtain ⟨more, rdata, continues, told⟩ :=
        readName_eq data dataFits.named dataFits.room (fresh (offset + length + 10))
      have first (fuel : Nat) : readName buf (fresh offset) (fuel + (steps + more)) offset =
          some (name, length) := by
        rw [Nat.add_comm steps, ← Nat.add_assoc]
        exact reads (fuel + more)
      have second (fuel : Nat) : readName buf (fresh (offset + length + 10))
          (fuel + (steps + more)) (offset + length + 10) = some (rdata, width) := by
        rw [← Nat.add_assoc]
        exact continues (fuel + steps)
      have copies : (addresses && decide (ntohs buf (offset + length) = 1)) = false := by
        rw [Bool.and_eq_false_imp]
        intro yes
        exact decide_eq_false (typed ▸ other yes)
      refine ⟨steps + more, fun _ => ⟨⟨name, type, width, rdata⟩, ⟨shown, rfl, told⟩, ?_⟩, ?_⟩
      · intro fuel
        rw [readRecord, first fuel, Option.bind_some]
        simp only [copies, Bool.false_eq_true, if_false, second fuel, Option.map_some]
        rw [typed, dataLen]
      · intro full
        exact absurd (fun bytes same => by cases same) full

theorem readSection_cases {meanings : List Meaning}
    (encoded : SectionAt addresses buf offset meanings stop) (fresh : Nat → Memory) {i : Nat}
    (few : i + meanings.length ≤ 20) : ∃ steps,
      ((∀ meaning ∈ meanings, meaning.Roomy usable) → ∃ records,
        List.Forall₂ Tells records meanings ∧ ∀ fuel,
          readSection usable addresses buf fresh (fuel + steps) meanings.length i offset =
            some (records, stop)) ∧
      (¬(∀ meaning ∈ meanings, meaning.Roomy usable) → ∀ fuel,
        readSection usable addresses buf fresh (fuel + steps) meanings.length i offset = none) := by
  induction encoded generalizing i with
  | nil offset =>
      exact ⟨0, fun _ => ⟨[], .nil, fun _ => rfl⟩, fun full => absurd (fun _ member =>
        absurd member List.not_mem_nil) full⟩
  | cons first onward ih =>
      rename_i offset middle stop meaning rest
      rw [List.length_cons] at few
      obtain ⟨steps, reads, stuck⟩ := @readRecord_cases usable _ _ _ _ _ first fresh
      obtain ⟨more, continues, stuckLater⟩ := ih (by omega : i + 1 + rest.length ≤ 20)
      have room : i < 20 := by omega
      have swap (fuel : Nat) : fuel + (steps + more) = fuel + more + steps := by omega
      have keep (fuel : Nat) : fuel + (steps + more) = fuel + steps + more := by omega
      refine ⟨steps + more, fun roomy => ?_, fun full fuel => ?_⟩
      · obtain ⟨head, later⟩ := List.forall_mem_cons.mp roomy
        obtain ⟨record, tells, read⟩ := reads head
        obtain ⟨records, told, readLater⟩ := continues later
        refine ⟨record :: records, .cons tells told, fun fuel => ?_⟩
        have one := read (fuel + more)
        have two := readLater (fuel + steps)
        rw [← swap] at one
        rw [← keep] at two
        rw [List.length_cons, readSection, if_pos room]
        simp only [one, Option.bind_some, two, Option.map_some]
      · rw [List.length_cons, readSection, if_pos room]
        by_cases head : meaning.Roomy usable
        · obtain ⟨record, -, read⟩ := reads head
          have later : ¬∀ meaning ∈ rest, meaning.Roomy usable :=
            fun all => full (List.forall_mem_cons.mpr ⟨head, all⟩)
          have one := read (fuel + more)
          have two := stuckLater later (fuel + steps)
          rw [← swap] at one
          rw [← keep] at two
          simp only [one, Option.bind_some, two, Option.map_none]
        · have one := stuck head (fuel + more)
          rw [← swap] at one
          rw [one, Option.bind_none]

theorem roomy_of_names {meanings : List Meaning}
    (encoded : SectionAt addresses buf offset meanings stop) (names : addresses = false) :
    ∀ meaning ∈ meanings, meaning.Roomy usable := by
  induction encoded with
  | nil => exact fun _ member => absurd member List.not_mem_nil
  | cons first onward ih =>
      refine List.forall_mem_cons.mpr ⟨?_, ih⟩
      cases first with
      | bytes told => exact absurd (told.symm.trans names) (by decide)
      | name => exact fun bytes same => by cases same

/-- All three sections arrive with their names and data, whatever is compressed, and the
reader comes to the end of the message, if and only if the block for every address has room
for one byte more. -/
theorem readResponse_tells_iff {asked : List Label} {answers auth addit : List Meaning}
    (message : MessageAt buf asked answers auth addit stop) (fresh : Nat → Memory)
    (few : answers.length ≤ 20 ∧ auth.length ≤ 20 ∧ addit.length ≤ 20) :
    (∃ steps response, (∀ fuel, readResponse usable buf fresh (fuel + steps) = some response) ∧
      List.Forall₂ Tells response.answers answers ∧ List.Forall₂ Tells response.auth auth ∧
      List.Forall₂ Tells response.addit addit ∧ response.reader = stop) ↔
    (∀ meaning ∈ answers, meaning.Roomy usable) ∧ ∀ meaning ∈ addit, meaning.Roomy usable := by
  obtain ⟨first, second, answered, authorities, additional⟩ := message.sections
  have zero {count : Nat} (small : count ≤ 20) : 0 + count ≤ 20 := by omega
  obtain ⟨one, reads, stuck⟩ :=
    @readSection_cases usable _ _ _ _ _ answered fresh 0 (zero few.1)
  obtain ⟨two, continues, -⟩ :=
    @readSection_cases usable _ _ _ _ _ authorities fresh 0 (zero few.2.1)
  obtain ⟨three, ends, stuckLast⟩ :=
    @readSection_cases usable _ _ _ _ _ additional fresh 0 (zero few.2.2)
  obtain ⟨named, telling, readAuth⟩ := continues (roomy_of_names authorities rfl)
  have short := message.short
  have length := message.question.strlen (by omega : (wireOf asked).length < 65536 - 12)
  have turn (fuel : Nat) : fuel + two + three + one = fuel + (one + two + three) ∧
      fuel + one + three + two = fuel + (one + two + three) ∧
      fuel + one + two + three = fuel + (one + two + three) := by omega
  constructor
  · rintro ⟨steps, response, defined, -⟩
    have ran := defined (one + two + three)
    rw [Nat.add_comm, readResponse, length, Option.bind_some, message.counts.1, message.counts.2.1,
      message.counts.2.2] at ran
    by_cases roomy : ∀ meaning ∈ answers, meaning.Roomy usable
    · refine ⟨roomy, ?_⟩
      by_contra full
      obtain ⟨found, -, read⟩ := reads roomy
      have here := read (steps + two + three)
      have next := readAuth (steps + one + three)
      have last := stuckLast full (steps + one + two)
      rw [(turn steps).1] at here
      rw [(turn steps).2.1] at next
      rw [(turn steps).2.2] at last
      rw [here, Option.bind_some] at ran
      simp only [next, Option.bind_some, last, Option.map_none] at ran
      cases ran
    · have here := stuck roomy (steps + two + three)
      rw [(turn steps).1] at here
      rw [here, Option.bind_none] at ran
      cases ran
  · rintro ⟨roomy, roomyLast⟩
    obtain ⟨found, told, read⟩ := reads roomy
    obtain ⟨added, tells, readLast⟩ := ends roomyLast
    refine ⟨one + two + three, ⟨found, named, added, stop⟩, fun fuel => ?_, told, telling, tells,
      rfl⟩
    have here := read (fuel + two + three)
    have next := readAuth (fuel + one + three)
    have last := readLast (fuel + one + two)
    rw [(turn fuel).1] at here
    rw [(turn fuel).2.1] at next
    rw [(turn fuel).2.2] at last
    rw [readResponse, length, Option.bind_some, message.counts.1, message.counts.2.1,
      message.counts.2.2, here, Option.bind_some]
    simp only [next, Option.bind_some, last, Option.map_some]

/-- `a.b` is another name for `b.a.b`, whose address follows; then the server of `b` and its
address. -/
def sampleMessage : Memory := fun offset =>
  [0, 1, 129, 128, 0, 1, 0, 2, 0, 1, 0, 1, 1, 97, 1, 98, 0, 0, 1, 0, 1,
    192, 12, 0, 5, 0, 1, 0, 0, 0, 60, 0, 4, 1, 98, 192, 12,
    192, 33, 0, 1, 0, 1, 0, 0, 0, 60, 0, 4, 10, 0, 0, 1,
    192, 14, 0, 2, 0, 1, 0, 0, 0, 60, 0, 4, 1, 97, 192, 14,
    192, 65, 0, 1, 0, 1, 0, 0, 0, 60, 0, 4, 10, 0, 0, 53].getD offset 0

def sampleAnswers : List Meaning :=
  [⟨[labelA, labelB], 5, .name [labelB, labelA, labelB]⟩,
    ⟨[labelB, labelA, labelB], 1, .bytes [10, 0, 0, 1]⟩]

def sampleAuth : List Meaning := [⟨[labelB], 2, .name [labelA, labelB]⟩]

def sampleAddit : List Meaning := [⟨[labelA, labelB], 1, .bytes [10, 0, 0, 53]⟩]

theorem asked_at : NameAt sampleMessage 12 [labelA, labelB] 5 :=
  .label labelA (by decide) (.label labelB (by decide) (.root (by decide)))

theorem zone_at : NameAt sampleMessage 14 [labelB] 3 :=
  .label labelB (by decide) (.root (by decide))

theorem pointing_at {offset target length : Nat} {labels : List Label}
    (marked : 192 ≤ sampleMessage offset)
    (goal : pointerTarget (sampleMessage offset) (sampleMessage (offset + 1)) = target)
    (there : NameAt sampleMessage target labels length) : NameAt sampleMessage offset labels 2 :=
  .pointer marked (goal ▸ there)

theorem alias_at : NameAt sampleMessage 33 [labelB, labelA, labelB] 4 :=
  .label labelB (by decide) (pointing_at (by decide) (by decide) asked_at)

theorem server_at : NameAt sampleMessage 65 [labelA, labelB] 4 :=
  .label labelA (by decide) (pointing_at (by decide) (by decide) zone_at)

theorem sampleMessage_at :
    MessageAt sampleMessage [labelA, labelB] sampleAnswers sampleAuth sampleAddit 85 where
  question := ⟨by decide, by decide, by decide⟩
  short := by decide
  counts := by decide
  sections := by
    have one : Fits [labelB] := ⟨by decide, by decide⟩
    have two : Fits [labelA, labelB] := ⟨by decide, by decide⟩
    have three : Fits [labelB, labelA, labelB] := ⟨by decide, by decide⟩
    have canonical : RecordAt true sampleMessage 21
        ⟨[labelA, labelB], 5, .name [labelB, labelA, labelB]⟩ 37 :=
      .name (pointing_at (by decide) (by decide) asked_at) two (by decide) (by decide) (by decide)
        alias_at three
    have address : RecordAt true sampleMessage 37
        ⟨[labelB, labelA, labelB], 1, .bytes [10, 0, 0, 1]⟩ 53 :=
      .bytes rfl (pointing_at (by decide) (by decide) alias_at) three (by decide) (by decide)
        (by decide)
    have server : RecordAt false sampleMessage 53
        ⟨[labelB], 2, .name [labelA, labelB]⟩ 69 :=
      .name (pointing_at (by decide) (by decide) zone_at) one (by decide) (by decide) (by decide)
        server_at two
    have glue : RecordAt true sampleMessage 69
        ⟨[labelA, labelB], 1, .bytes [10, 0, 0, 53]⟩ 85 :=
      .bytes rfl (pointing_at (by decide) (by decide) server_at) two (by decide) (by decide)
        (by decide)
    exact ⟨53, 69, .cons canonical (.cons address (.nil _)), .cons server (.nil _),
      .cons glue (.nil _)⟩

/-- The blocks of an allocator that keeps a word of each for itself and rounds up to sixteen. -/
def rounded (size : Nat) : Nat := max 24 ((size + 23) / 16 * 16 - 8)

theorem readResponse_tells_iff_sample :
    ∃ steps response, (∀ fuel, readResponse rounded sampleMessage (fun _ _ => 0) (fuel + steps) =
        some response) ∧
      List.Forall₂ Tells response.answers sampleAnswers ∧
      List.Forall₂ Tells response.auth sampleAuth ∧
      List.Forall₂ Tells response.addit sampleAddit ∧ response.reader = 85 := by
  refine (readResponse_tells_iff sampleMessage_at _ (by decide)).mpr ⟨?_, ?_⟩
  · simp [sampleAnswers, Meaning.Roomy, rounded]
  · simp [sampleAddit, Meaning.Roomy, rounded]

end Records

section Query

theorem length_header (id : Nat) : (header id).length = 12 := rfl

/-- The packet is the header, the host's labels and the type and class of the question. -/
theorem query_eq (buf : Memory) (id : Nat) {labels : List Label} (fits : Fits labels)
    (queryType : Nat) :
    query buf id (dotted labels) queryType =
      some (header id ++ (wireOf labels ++ [0]) ++ (htons queryType ++ htons 1)) := by
  have short := fits.room
  let laid := (buf.write 0 (header id)).write 12 (wireOf labels ++ [0])
  have length : (wireOf labels ++ [(0 : UInt8)]).length = (wireOf labels).length + 1 := by simp
  have name : laid.slice 12 ((wireOf labels).length + 1) = wireOf labels ++ [0] := by
    rw [← length]
    exact Memory.slice_write_self _ _ _
  have shown : laid.Shows 12 (wireOf labels) :=
    (Memory.shows_iff_slice (wireOf_nonzero labels)).mpr name
  have measured := shown.strlen (by omega : (wireOf labels).length < 65536 - 12)
  have front : laid.slice 0 12 = header id := by
    have apart : laid.slice 0 12 = (buf.write 0 (header id)).slice 0 12 :=
      Memory.slice_write_disjoint (by omega)
    exact apart.trans (Memory.slice_write_self _ _ _)
  let place := 12 + ((wireOf labels).length + 1)
  let question := htons queryType ++ htons 1
  have kept : (laid.write place question).slice 0 place = laid.slice 0 place :=
    Memory.slice_write_disjoint (by omega)
  have asked : (laid.write place question).slice place 4 = question :=
    Memory.slice_write_self laid place question
  have whole : query buf id (dotted labels) queryType =
      (laid.strlen 12 (65536 - 12)).map fun length =>
        (laid.write (12 + (length + 1)) question).slice 0 (12 + (length + 1) + 4) := by
    rw [query, changetoDnsNameFormat_dotted fits.named]
  rw [whole, measured, Option.map_some]
  refine congrArg some ?_
  calc (laid.write place question).slice 0 (place + 4)
      = (laid.write place question).slice 0 place ++
          (laid.write place question).slice place 4 := by
        rw [Memory.slice_append, Nat.zero_add]
    _ = laid.slice 0 place ++ question := by rw [kept, asked]
    _ = header id ++ (wireOf labels ++ [0]) ++ question := by
        rw [Memory.slice_append, front, Nat.zero_add, name]

/-- The packet that is sent for a host, wherever it arrives, is a message that asks for
this host, as the program's own reader sees it. -/
theorem query_read_back (buf : Memory) (id : Nat) {labels : List Label} (fits : Fits labels)
    (queryType : Nat) (fresh : Memory) :
    ∃ packet, query buf id (dotted labels) queryType = some packet ∧
      ∀ received : Memory, received.slice 0 packet.length = packet →
        MessageAt received labels [] [] [] packet.length ∧
        ntohs received 4 = 1 ∧ ntohs received (packet.length - 4) = queryType % 65536 ∧
        ∃ steps name, (∀ fuel, readName received fresh (fuel + steps) 12 =
          some (name, packet.length - 16)) ∧ name.Shows 0 (dotted labels) := by
  refine ⟨_, query_eq buf id fits queryType, fun received same => ?_⟩
  have total : (header id ++ (wireOf labels ++ [0]) ++ (htons queryType ++ htons 1)).length =
      12 + ((wireOf labels).length + 1) + 4 := by
    simp only [List.length_append, length_header, htons, List.length_cons, List.length_nil]
  rw [total] at same ⊢
  rw [Memory.slice_append, Nat.zero_add] at same
  obtain ⟨before, question⟩ := List.append_inj same (by simp [length_header])
  rw [Memory.slice_append, Nat.zero_add] at before
  obtain ⟨head, name⟩ := List.append_inj before (by simp [length_header])
  have shown : received.Shows 12 (wireOf labels) :=
    (Memory.shows_iff_slice (wireOf_nonzero labels)).mpr name
  have counts : ntohs received 4 = 1 ∧ ntohs received 6 = 0 ∧ ntohs received 8 = 0 ∧
      ntohs received 10 = 0 := by
    have expanded : header id = [UInt8.ofNat (id / 256), UInt8.ofNat id, 1, 0, 0, 1, 0, 0, 0, 0, 0,
        0] := rfl
    rw [expanded] at head
    simp only [Memory.slice, List.cons.injEq] at head
    obtain ⟨-, -, -, -, four, five, six, seven, eight, nine, ten, eleven, -⟩ := head
    simp only [ntohs]
    rw [four, five, six, seven, eight, nine, ten, eleven]
    decide
  refine ⟨⟨shown, fits.room, counts.2, _, _, .nil _, .nil _, .nil _⟩, counts.1, ?_, ?_⟩
  · have bytes : htons queryType ++ htons 1 =
        [UInt8.ofNat (queryType / 256), UInt8.ofNat queryType, 0, 1] := rfl
    rw [bytes] at question
    simp only [Memory.slice, List.cons.injEq] at question
    obtain ⟨high, low, -⟩ := question
    rw [Nat.add_sub_cancel, ntohs, high, low, UInt8.toNat_ofNat', UInt8.toNat_ofNat']
    omega
  · have encoded := nameAt_of_slice shown.content shown.ended
    obtain ⟨steps, text, reads, told⟩ := readName_eq encoded fits.named fits.room fresh
    have count : 12 + ((wireOf labels).length + 1) + 4 - 16 = (wireOf labels).length + 1 := by omega
    rw [count]
    exact ⟨steps, text, reads, told⟩

theorem query_read_back_sample :
    ∃ packet, query (fun _ => 0) 4242 (dotted [labelA, labelB]) 1 = some packet ∧
      ∀ received : Memory, received.slice 0 packet.length = packet →
        MessageAt received [labelA, labelB] [] [] [] packet.length ∧
        ntohs received 4 = 1 ∧ ntohs received (packet.length - 4) = 1 % 65536 ∧
        ∃ steps name, (∀ fuel, readName received (fun _ => 0) (fuel + steps) 12 =
          some (name, packet.length - 16)) ∧ name.Shows 0 (dotted [labelA, labelB]) :=
  query_read_back _ 4242 ⟨by decide, by decide⟩ 1 _

end Query

end DirtyCode.Dnsq
