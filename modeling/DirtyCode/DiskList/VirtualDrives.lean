import DirtyCode.DiskList.Sections
import DirtyCode.Lib.Format

/-!
`mega_ld_list` of `disklist.c`: the output of `megacli -ldpdinfo`, where the physical drives
stand inside the section of their virtual drive, into `raid_pd_depot`.
-/

namespace DirtyCode.DiskList

open Lib

def nrVdStr : List UInt8 := ascii "Number of Virtual Disks"

def vdTitleStr : List UInt8 := ascii "Virtual Drive"

def vdNrCompoStr : List UInt8 := ascii "Number Of Drives"

def nrSpanStr : List UInt8 := ascii "Number of Spans"

structure Heading where
  vdIdx : Int
  nrPd : Int
  nrSpan : Int
  nrDiskPerSpan : Int
  deriving DecidableEq

-- `sscanf(buf, "...%d", &value)`
def scanBehind (words : String) (line : List UInt8) (value : Int) : Int :=
  (sscanf (text words ++ [.int]) line).headD value

namespace Heading

def cleared (heading : Heading) : Heading := ⟨heading.vdIdx, -1, -1, -1⟩

def next (heading : Heading) (line : List UInt8) : Heading :=
  let titled :=
    if vdTitleStr <+: line then
      { heading.cleared with vdIdx := scanBehind "Virtual Drive: " line heading.vdIdx }
    else heading
  let composed :=
    if vdNrCompoStr <+: line then
      { titled with
        nrPd := scanBehind "Number Of Drives    : " line titled.nrPd
        nrDiskPerSpan := scanBehind "Number Of Drives per span:" line titled.nrDiskPerSpan }
    else titled
  let spanned :=
    if nrSpanStr <+: line then
      { composed with nrSpan := scanBehind "Number of Spans: " line composed.nrSpan }
    else composed
  if 1 < spanned.nrDiskPerSpan ∧ 0 < spanned.nrSpan then
    { spanned with nrPd := toInt32 (spanned.nrDiskPerSpan * spanned.nrSpan) }
  else spanned

end Heading

namespace PdList

-- `none`: an entry behind the table
def openDrive (vdIdx : Int) (j : Nat) (s : PdList) : Option PdList :=
  if s.raidLdPdIdx < maxDisk then
    let opened := { s with
      e := s.raidLdPdIdx
      raidLdPdIdx := s.raidLdPdIdx + 1
      raidPdDepot := initDiskEntry s.raidPdDepot s.raidLdPdIdx }
    some ((opened.store 8 (shortBytes vdIdx)).store 10 (shortBytes j))
  else none

def enclosureId (s : PdList) : Option PdList :=
  let ecId := scanNumber .ec s.line s.ecId
  some ({ s with ecId := ecId }.store 12 (shortBytes ecId))

def tellDrive (sizeGB : Memory → BitVec 32) (s : PdList) : Option PdList := do
  let s ← keyed .ec enclosureId s
  let s ← keyed .slot slot s
  let s ← keyed .did deviceId s
  let s ← keyed .wwn (copyText .wwn 5) s
  let s ← keyed .size (rawSize sizeGB) s
  let s ← keyed .firmver (copyText .ver 23) s
  let s ← keyed .sasaddr (copyText .peerAddr 18) s
  let s ← keyed .inq inquiry s
  keyed .type (copyText .pdType 12) s

/-- The lines up to one that starts with `stop`, and the output behind it. -/
def readUntil (stop : List UInt8) (act : PdList → Option PdList) :
    List (List UInt8) → PdList → Option (PdList × List (List UInt8))
  | [], s => some (s, [])
  | piece :: rest, s =>
      (s.receive piece).bind fun s =>
        (act s).bind fun told =>
          if stop <+: s.line then some (told, rest) else readUntil stop act rest told

def readDrives (sizeGB : Memory → BitVec 32) (vdIdx : Int) :
    Nat → Nat → List (List UInt8) → PdList → Option (PdList × List (List UInt8))
  | 0, _, output, s => some (s, output)
  | left + 1, j, output, s =>
      (s.openDrive vdIdx j).bind fun opened =>
        (readUntil Key.type.text (tellDrive sizeGB) output opened).bind fun (told, rest) =>
          readDrives sizeGB vdIdx left (j + 1) rest told

-- the bound is on the lines to come
def readVolumes (sizeGB : Memory → BitVec 32) :
    Nat → Heading → List (List UInt8) → PdList → Option PdList
  | 0, _, _, s => some s
  | _ + 1, _, [], s => some s
  | budget + 1, heading, piece :: rest, s =>
      (s.receive piece).bind fun s =>
        let told := heading.next s.line
        if 0 < told.nrPd then
          (readDrives sizeGB told.vdIdx told.nrPd.toNat 0 rest
            { s with ecId := -1, slotId := -1 }).bind fun (s, rest) =>
              readVolumes sizeGB budget told.cleared rest s
        else readVolumes sizeGB budget told rest s

def megaLdList (sizeGB : Memory → BitVec 32) (output : List UInt8) (s : PdList) : Option PdList :=
  (readUntil nrVdStr some (pieces 127 [] output) { s with did := -1 }).bind fun (s, rest) =>
    readVolumes sizeGB rest.length ⟨-1, -1, -1, -1⟩ rest s

end PdList

def behind (words : List UInt8) (lines : List (List UInt8)) : List (List UInt8) :=
  (lines.dropWhile fun line => ¬words <+: line).tail

theorem behind_suffix (words : List UInt8) (lines : List (List UInt8)) :
    behind words lines <:+ lines :=
  (List.tail_suffix _).trans (List.dropWhile_suffix _)

theorem behind_iterate_suffix (words : List UInt8) (count : Nat) (lines : List (List UInt8)) :
    (behind words)^[count] lines <:+ lines := by
  induction count generalizing lines with
  | zero => exact List.suffix_refl _
  | succ count ih => exact (ih (behind words lines)).trans (behind_suffix words lines)

def volumes (heading : Heading) : List (List UInt8) → List (Int × Nat)
  | [] => []
  | line :: rest =>
      let told := heading.next line
      if 0 < told.nrPd then
        (told.vdIdx, told.nrPd.toNat) ::
          volumes told.cleared ((behind Key.type.text)^[told.nrPd.toNat] rest)
      else volumes told rest
termination_by lines => lines.length
decreasing_by
  · exact Nat.lt_succ_of_le (behind_iterate_suffix _ _ _).length_le
  · exact Nat.lt_succ_self _

/-- The number of the virtual drive and their own numbers there, of so many drives. -/
def numbersFrom (vdIdx : Int) (j count : Nat) : List (Int × Int) :=
  (List.range' j count).map fun j : Nat => (vdIdx, (j : Int))

def numbersOf (volumes : List (Int × Nat)) : List (Int × Int) :=
  volumes.flatMap fun volume => numbersFrom volume.1 0 volume.2

theorem numbersOf_volumes (heading : Heading) (line : List UInt8) (rest : List (List UInt8)) :
    numbersOf (volumes heading (line :: rest)) =
      if 0 < (heading.next line).nrPd then
        numbersFrom (heading.next line).vdIdx 0 (heading.next line).nrPd.toNat ++
          numbersOf (volumes (heading.next line).cleared
            ((behind Key.type.text)^[(heading.next line).nrPd.toNat] rest))
      else numbersOf (volumes (heading.next line) rest) := by
  rw [volumes]
  by_cases drives : 0 < (heading.next line).nrPd
  · simp only [if_pos drives, numbersOf, List.flatMap_cons]
  · simp only [if_neg drives]

def driveNumbers (output : List UInt8) : List (Int × Int) :=
  numbersOf (volumes ⟨-1, -1, -1, -1⟩ (behind nrVdStr (splitLines (· = 10) output).1))

/-- A line that is long enough for what is copied of it. -/
def Legible (line : List UInt8) : Prop := ∀ key ∈ keyOf line, LegibleAs line key

instance (line : List UInt8) : Decidable (Legible line) := by
  unfold Legible
  infer_instance

namespace PdList

/-- All that changes is in the entry where `e` points, behind the numbers in it. -/
structure Keeps (s after : PdList) : Prop where
  buf : after.buf = s.buf
  e : after.e = s.e
  count : after.raidLdPdIdx = s.raidLdPdIdx
  outside : ∀ address, address < entrySize * s.e + 12 ∨ entrySize * (s.e + 1) ≤ address →
    after.raidPdDepot address = s.raidPdDepot address

def Fills (buf : Memory) (act : PdList → Option PdList) : Prop :=
  ∀ s : PdList, s.buf = buf → ∃ after, act s = some after ∧ Keeps s after

section

variable {buf : Memory} {s : PdList} {line : List UInt8}

theorem keeps_store {offset : Nat} {bytes : List UInt8} (numbered : 12 ≤ offset)
    (inside : offset + bytes.length ≤ entrySize) : Keeps s (s.store offset bytes) where
  buf := rfl
  e := rfl
  count := rfl
  outside address apart := by
    apply Memory.write_outside
    rw [Nat.mul_succ] at apart
    omega

theorem Keeps.trans {middle after : PdList} (first : Keeps s middle) (second : Keeps middle after) :
    Keeps s after where
  buf := second.buf.trans first.buf
  e := second.e.trans first.e
  count := second.count.trans first.count
  outside address apart :=
    (second.outside address (first.e ▸ apart)).trans (first.outside address apart)

theorem Fills.bind {act rest : PdList → Option PdList} (begins : Fills buf act)
    (ends : Fills buf rest) : Fills buf fun s => (act s).bind rest := by
  intro s same
  obtain ⟨middle, acted, first⟩ := begins s same
  obtain ⟨after, rested, second⟩ := ends middle (first.buf.trans same)
  refine ⟨after, ?_, first.trans second⟩
  show (act s).bind rest = some after
  rw [acted, Option.bind_some, rested]

theorem Fills.keyed {key : Key} {act : PdList → Option PdList} (shown : Memory.Shows buf 0 line)
    (short : line.length < bufSize) (acts : key.text <+: line → Fills buf act) :
    Fills buf (keyed key act) := by
  rintro s rfl
  by_cases here : key.text <+: line
  · rw [keyed_hit (line_eq shown short ▸ here)]
    exact acts here s rfl
  · rw [keyed_skip (line_eq shown short ▸ here)]
    exact ⟨s, rfl, rfl, rfl, rfl, fun _ _ => rfl⟩

theorem keeps_short {offset : Nat} (numbered : 12 ≤ offset) (inside : offset + 2 ≤ entrySize)
    (value : Int) : Keeps s (s.store offset (shortBytes value)) := keeps_store numbered inside

theorem fills_enclosureId : Fills buf enclosureId := fun s _ =>
  ⟨_, rfl, rfl, rfl, rfl, (@keeps_short { s with ecId := _ } 12 (by decide) (by decide) _).outside⟩

theorem fills_slot : Fills buf slot := fun s _ =>
  ⟨_, rfl, rfl, rfl, rfl, (@keeps_short { s with slotId := _ } 14 (by decide) (by decide)
    _).outside⟩

theorem fills_deviceId : Fills buf deviceId := fun s _ =>
  ⟨_, rfl, rfl, rfl, rfl, (@keeps_short { s with did := _ } 16 (by decide) (by decide) _).outside⟩

theorem fills_rawSize (sizeGB : Memory → BitVec 32) : Fills buf (rawSize sizeGB) := by
  intro s _
  refine ⟨_, rfl, keeps_store (by decide) ?_⟩
  rw [Memory.length_slice]
  decide

theorem fills_copyText (shown : Memory.Shows buf 0 line) (short : line.length < bufSize)
    {field : Field} (copied : field ≠ .raidInq) {skipped : Nat} (within : skipped ≤ line.length) :
    Fills buf (copyText field skipped) := by
  rintro s rfl
  have room : 12 ≤ field.offset ∧ field.offset + bufSize ≤ entrySize := by
    cases field <;> first | contradiction | decide
  refine ⟨_, copyText_within shown short field within, keeps_store room.1 ?_⟩
  rw [List.length_drop]
  omega

theorem fills_inquiry (shown : Memory.Shows buf 0 line) (short : line.length < bufSize)
    (readable : Readable (line.drop 14)) : Fills buf inquiry := by
  rintro s rfl
  obtain ⟨stored, -, small⟩ := inquiry_eq shown short readable
  refine ⟨_, stored, keeps_store (by decide) ?_⟩
  rw [List.length_append, List.length_singleton]
  have offset : Field.raidInq.offset = 440 := rfl
  have whole : entrySize = 556 := rfl
  omega

theorem fills_tellDrive (sizeGB : Memory → BitVec 32) (shown : Memory.Shows buf 0 line)
    (short : line.length < bufSize) (legible : Legible line) : Fills buf (tellDrive sizeGB) := by
  have holds {key : Key} (here : key.text <+: line) := legible key (keyOf_some.mpr here)
  have copied {key : Key} {field : Field} (different : field ≠ .raidInq) {skipped : Nat}
      (within : key.text <+: line → skipped ≤ line.length) :
      Fills buf (PdList.keyed key (copyText field skipped)) :=
    .keyed shown short fun here => fills_copyText shown short different (within here)
  refine .bind (.keyed shown short fun _ => fills_enclosureId) ?_
  refine .bind (.keyed shown short fun _ => fills_slot) ?_
  refine .bind (.keyed shown short fun _ => fills_deviceId) ?_
  refine .bind (copied (by decide) holds) ?_
  refine .bind (.keyed shown short fun _ => fills_rawSize sizeGB) ?_
  refine .bind (copied (by decide) holds) ?_
  refine .bind (copied (by decide) holds) ?_
  refine .bind (.keyed shown short fun here => fills_inquiry shown short (holds here)) ?_
  exact copied (by decide) holds

end

theorem readUntil_holds (reached : PdList → Prop) (act : PdList → Option PdList)
    (received : ∀ s buf, reached s → reached { s with buf := buf }) {good : List UInt8 → Prop}
    (acts : ∀ s line, reached s → good line → Memory.Shows s.buf 0 line → line.length < bufSize →
      ∃ after, act s = some after ∧ reached after)
    (stop : List UInt8) {lines : List (List UInt8)}
    (whole : ∀ line ∈ lines, WholeLine (line ++ [10]))
    (goods : ∀ line ∈ lines, good line) {s : PdList} (initially : reached s) :
    ∃ after, readUntil stop act (lines.map (· ++ [10])) s =
      some (after, (behind stop lines).map (· ++ [10])) ∧ reached after := by
  induction lines generalizing s with
  | nil => exact ⟨s, rfl, initially⟩
  | cons line rest ih =>
      obtain ⟨buf, arrived, shown, short⟩ := s.receive_whole (whole line List.mem_cons_self)
      rw [List.dropLast_concat] at shown short
      obtain ⟨told, acted, next⟩ := acts { s with buf := buf } line (received s buf initially)
        (goods line List.mem_cons_self) shown (Nat.lt_of_succ_lt short)
      rw [List.map_cons, readUntil, arrived, Option.bind_some, acted, Option.bind_some,
        line_eq shown (Nat.lt_of_succ_lt short), behind]
      by_cases ends : stop <+: line
      · rw [if_pos ends, List.dropWhile_cons_of_neg (by simp [ends]), List.tail_cons]
        exact ⟨told, rfl, next⟩
      · rw [if_neg ends, List.dropWhile_cons_of_pos (by simp [ends])]
        exact ih (fun other member => whole other (List.mem_cons_of_mem _ member))
          (fun other member => goods other (List.mem_cons_of_mem _ member)) next

end PdList

def numberBytes (numbers : Int × Int) : List UInt8 := shortBytes numbers.1 ++ shortBytes numbers.2

/-- The entries carry these numbers, of the virtual drive and inside it. -/
def Numbered (depot : Memory) (first : Nat) (numbers : List (Int × Int)) : Prop :=
  ∀ i (inside : i < numbers.length),
    depot.slice (entrySize * (first + i) + 8) 4 = numberBytes (numbers.get ⟨i, inside⟩)

/-- The table holds the drives with these numbers behind what was there before. -/
structure Counted (before : Memory) (first : Nat) (numbers : List (Int × Int)) (s : PdList) :
    Prop where
  count : s.raidLdPdIdx = first + numbers.length
  numbered : Numbered s.raidPdDepot first numbers
  kept : ∀ address < entrySize * first, s.raidPdDepot address = before address

section

variable {before : Memory} {first : Nat} {numbers : List (Int × Int)} {s after : PdList}

theorem Numbered.congr {depot other : Memory} (numbered : Numbered depot first numbers)
    (agree : ∀ i < numbers.length, ∀ offset < 12, other (entrySize * (first + i) + offset) =
      depot (entrySize * (first + i) + offset)) : Numbered other first numbers := by
  intro i inside
  refine Eq.trans (Memory.slice_congr fun offset below => ?_) (numbered i inside)
  rw [Nat.add_assoc]
  exact agree i inside _ (by omega)

theorem Numbered.snoc {depot : Memory} {last : Int × Int} (numbered : Numbered depot first numbers)
    (told : depot.slice (entrySize * (first + numbers.length) + 8) 4 = numberBytes last) :
    Numbered depot first (numbers ++ [last]) := by
  intro i below
  have lower := below
  rw [List.length_append, List.length_singleton] at lower
  rw [List.get_eq_getElem]
  rcases Nat.lt_or_ge i numbers.length with earlier | later
  · rw [List.getElem_append_left earlier]
    exact numbered i earlier
  · have same : i = numbers.length := by omega
    subst same
    rw [List.getElem_concat_length rfl]
    exact told

theorem Counted.congr (counted : Counted before first numbers s)
    (count : after.raidLdPdIdx = s.raidLdPdIdx) (agree : ∀ address, address < entrySize * first ∨
      address + entrySize < entrySize * (first + numbers.length) + 12 →
        after.raidPdDepot address = s.raidPdDepot address) :
    Counted before first numbers after where
  count := count.trans counted.count
  numbered := by
    refine counted.numbered.congr fun i inside offset below => agree _ (Or.inr ?_)
    unfold entrySize
    omega
  kept address below := (agree address (Or.inl below)).trans (counted.kept address below)

theorem Counted.keeps (counted : Counted before first numbers s) (keeps : s.Keeps after)
    (behind : first ≤ s.e) (last : s.raidLdPdIdx ≤ s.e + 1) :
    Counted before first numbers after := by
  refine counted.congr keeps.count fun address early => keeps.outside address (Or.inl ?_)
  have count := counted.count
  unfold entrySize at *
  omega

theorem slice_numbers (depot : Memory) (base : Nat) (vdIdx pdIdx : Int) :
    ((depot.write (base + 8) (shortBytes vdIdx)).write (base + 10) (shortBytes pdIdx)).slice
      (base + 8) 4 = numberBytes (vdIdx, pdIdx) := by
  have four : 4 = (shortBytes vdIdx).length + (shortBytes pdIdx).length := rfl
  have next : base + 10 = base + 8 + (shortBytes vdIdx).length := rfl
  rw [four, Memory.slice_append, next, Memory.slice_write_self,
    Memory.slice_write_disjoint (Or.inl le_rfl), Memory.slice_write_self, numberBytes]

theorem Counted.openDrive (counted : Counted before first numbers s)
    (room : first + numbers.length < maxDisk) (vdIdx : Int) (j : Nat) :
    ∃ after, s.openDrive vdIdx j = some after ∧
      Counted before first (numbers ++ [(vdIdx, (j : Int))]) after ∧
      after.e + 1 = after.raidLdPdIdx := by
  have count := counted.count
  have early : ∀ address < entrySize * s.raidLdPdIdx,
      (((initDiskEntry s.raidPdDepot s.raidLdPdIdx).write (entrySize * s.raidLdPdIdx + 8)
        (shortBytes vdIdx)).write (entrySize * s.raidLdPdIdx + 10) (shortBytes j)) address =
          s.raidPdDepot address := by
    intro address below
    rw [Memory.write_outside (Or.inl (by omega)), Memory.write_outside (Or.inl (by omega)),
      initDiskEntry_outside (Or.inl below)]
  refine ⟨_, if_pos (count ▸ room), ⟨?_, ?_, ?_⟩, rfl⟩
  · rw [List.length_append, List.length_singleton, ← Nat.add_assoc, ← count]
    rfl
  · refine Numbered.snoc (counted.numbered.congr fun i inside offset below => early _ ?_) ?_
    · rw [count]
      unfold entrySize
      omega
    · have told := slice_numbers (initDiskEntry s.raidPdDepot s.raidLdPdIdx)
        (entrySize * s.raidLdPdIdx) vdIdx j
      rw [← count]
      exact told
  · intro address below
    refine (early address ?_).trans (counted.kept address below)
    rw [count]
    unfold entrySize at *
    omega

theorem Counted.tellDrive (sizeGB : Memory → BitVec 32) {lines : List (List UInt8)}
    (whole : ∀ line ∈ lines, WholeLine (line ++ [10])) (legible : ∀ line ∈ lines, Legible line)
    (counted : Counted before first numbers s) (behind_ : first ≤ s.e)
    (last : s.raidLdPdIdx ≤ s.e + 1) :
    ∃ after, PdList.readUntil Key.type.text (PdList.tellDrive sizeGB) (lines.map (· ++ [10])) s =
      some (after, (behind Key.type.text lines).map (· ++ [10])) ∧
        Counted before first numbers after := by
  have acts : ∀ s line, (Counted before first numbers s ∧ first ≤ s.e ∧ s.raidLdPdIdx ≤ s.e + 1) →
      Legible line → Memory.Shows s.buf 0 line → line.length < bufSize →
      ∃ after, PdList.tellDrive sizeGB s = some after ∧
        Counted before first numbers after ∧ first ≤ after.e ∧ after.raidLdPdIdx ≤ after.e + 1 := by
    rintro s line ⟨counted, behind_, last⟩ readable shown short
    obtain ⟨after, told, keeps⟩ := PdList.fills_tellDrive sizeGB shown short readable s rfl
    refine ⟨after, told, counted.keeps keeps behind_ last, ?_⟩
    rw [keeps.e, keeps.count]
    exact ⟨behind_, last⟩
  obtain ⟨after, ran, reached⟩ := PdList.readUntil_holds _ _
    (fun s buf reached => ⟨⟨reached.1.count, reached.1.numbered, reached.1.kept⟩, reached.2⟩) acts
    Key.type.text whole legible ⟨counted, behind_, last⟩
  exact ⟨after, ran, reached.1⟩

theorem Counted.readDrives (sizeGB : Memory → BitVec 32) (vdIdx : Int) (left j : Nat)
    {lines : List (List UInt8)} (whole : ∀ line ∈ lines, WholeLine (line ++ [10]))
    (legible : ∀ line ∈ lines, Legible line) (counted : Counted before first numbers s)
    (room : first + numbers.length + left ≤ maxDisk) :
    ∃ after, PdList.readDrives sizeGB vdIdx left j (lines.map (· ++ [10])) s =
      some (after, ((behind Key.type.text)^[left] lines).map (· ++ [10])) ∧
        Counted before first (numbers ++ numbersFrom vdIdx j left) after := by
  induction left generalizing j numbers s lines with
  | zero =>
      refine ⟨s, rfl, ?_⟩
      rw [numbersFrom, List.range'_zero, List.map_nil, List.append_nil]
      exact counted
  | succ left ih =>
      obtain ⟨opened, ran, next, last⟩ := counted.openDrive (by omega) vdIdx j
      have count := next.count
      rw [List.length_append, List.length_singleton] at count
      obtain ⟨told, read, here⟩ := next.tellDrive sizeGB whole legible (by omega) (by omega)
      have rest : ∀ line ∈ behind Key.type.text lines, line ∈ lines :=
        fun line member => (behind_suffix _ _).subset member
      obtain ⟨after, later, all⟩ := ih (j + 1) (fun line member => whole line (rest line member))
        (fun line member => legible line (rest line member)) here (by
          rw [List.length_append, List.length_singleton]
          omega)
      refine ⟨after, ?_, ?_⟩
      · rw [PdList.readDrives, ran, Option.bind_some, read, Function.iterate_succ_apply]
        exact later
      · rw [List.append_assoc] at all
        exact all

theorem Counted.readVolumes (sizeGB : Memory → BitVec 32) {budget : Nat} {heading : Heading}
    {lines : List (List UInt8)} (whole : ∀ line ∈ lines, WholeLine (line ++ [10]))
    (legible : ∀ line ∈ lines, Legible line) (enough : lines.length ≤ budget)
    (counted : Counted before first numbers s)
    (room : first + (numbers ++ numbersOf (volumes heading lines)).length ≤ maxDisk) :
    ∃ after, PdList.readVolumes sizeGB budget heading (lines.map (· ++ [10])) s = some after ∧
      Counted before first (numbers ++ numbersOf (volumes heading lines)) after := by
  induction budget generalizing heading numbers s lines with
  | zero =>
      have none := List.eq_nil_of_length_eq_zero (Nat.le_zero.mp enough)
      subst none
      refine ⟨s, rfl, ?_⟩
      rw [volumes, numbersOf, List.flatMap_nil, List.append_nil]
      exact counted
  | succ budget ih =>
      cases lines with
      | nil =>
          refine ⟨s, rfl, ?_⟩
          rw [volumes, numbersOf, List.flatMap_nil, List.append_nil]
          exact counted
      | cons line rest =>
          obtain ⟨buf, arrived, shown, short⟩ := s.receive_whole (whole line List.mem_cons_self)
          rw [List.dropLast_concat] at shown short
          have later : ∀ other ∈ rest, WholeLine (other ++ [10]) ∧ Legible other :=
            fun other member =>
            ⟨whole other (List.mem_cons_of_mem _ member),
              legible other (List.mem_cons_of_mem _ member)⟩
          rw [List.length_cons] at enough
          rw [List.map_cons, PdList.readVolumes, arrived, Option.bind_some,
            PdList.line_eq shown (Nat.lt_of_succ_lt short)]
          rw [numbersOf_volumes] at room ⊢
          generalize heading.next line = told at room ⊢
          by_cases drives : 0 < told.nrPd
          · rw [if_pos drives, ← List.append_assoc] at room
            have size : (numbersFrom told.vdIdx 0 told.nrPd.toNat).length = told.nrPd.toNat := by
              rw [numbersFrom, List.length_map, List.length_range']
            have here : Counted before first numbers
                { s with buf := buf, ecId := -1, slotId := -1 } :=
              ⟨counted.count, counted.numbered, counted.kept⟩
            obtain ⟨read, ran, next⟩ := here.readDrives sizeGB told.vdIdx told.nrPd.toNat 0
              (fun other member => (later other member).1)
              (fun other member => (later other member).2) (by
                simp only [List.length_append, size] at room
                omega)
            have suffix := behind_iterate_suffix Key.type.text told.nrPd.toNat rest
            have shorter := suffix.length_le
            simp only [if_pos drives, ran, Option.bind_some]
            rw [← List.append_assoc]
            exact ih (fun other member => (later other (suffix.subset member)).1)
              (fun other member => (later other (suffix.subset member)).2) (by omega) next room
          · simp only [if_neg drives] at room ⊢
            refine ih (fun other member => (later other member).1)
              (fun other member => (later other member).2) (by omega) ?_ room
            exact ⟨counted.count, counted.numbered, counted.kept⟩

/-- For an output of whole and legible lines the table gets an entry for every drive, with the
number of its virtual drive and its own number there, and nothing of what it held is lost. -/
theorem megaLdList_counted (sizeGB : Memory → BitVec 32) {output : List UInt8}
    (whole : ∀ piece ∈ pieces 127 [] output, WholeLine piece)
    (legible : ∀ line ∈ (splitLines (· = 10) output).1, Legible line)
    (room : s.raidLdPdIdx + (driveNumbers output).length ≤ maxDisk) :
    ∃ after, PdList.megaLdList sizeGB output s = some after ∧
      Counted s.raidPdDepot s.raidLdPdIdx (driveNumbers output) after := by
  have lines := pieces_whole List.not_mem_nil fun piece member => (whole piece member).1
  rw [List.nil_append] at lines
  have wholeLine : ∀ line ∈ (splitLines (· = 10) output).1, WholeLine (line ++ [10]) := by
    intro line member
    refine whole _ ?_
    rw [lines]
    exact List.mem_map_of_mem member
  have start : Counted s.raidPdDepot s.raidLdPdIdx [] { s with did := -1 } :=
    ⟨rfl, fun i inside => absurd inside (Nat.not_lt_zero i), fun _ _ => rfl⟩
  obtain ⟨opened, read, next⟩ := PdList.readUntil_holds
    (Counted s.raidPdDepot s.raidLdPdIdx []) some
    (fun _ _ reached => ⟨reached.count, reached.numbered, reached.kept⟩)
    (fun s _ reached _ _ _ => ⟨s, rfl, reached⟩) nrVdStr wholeLine legible start
  have suffix := behind_suffix nrVdStr (splitLines (· = (10 : UInt8)) output).1
  obtain ⟨after, ran, all⟩ := next.readVolumes sizeGB
    (fun line member => wholeLine line (suffix.subset member))
    (fun line member => legible line (suffix.subset member)) (List.length_map _).ge room
  refine ⟨after, ?_, all⟩
  rw [PdList.megaLdList, lines, read]
  exact ran

end

end DirtyCode.DiskList
