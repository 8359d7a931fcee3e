import DirtyCode.DiskList.Matching
import DirtyCode.DiskList.VirtualDrives

/-!
`raid_pd_depot` after `mega_ld_list` and `mega_jbod_list` of `disklist.c`, and what
`list_sdevices` then takes from it for a volume.
-/

namespace DirtyCode.DiskList

open Lib

section

variable {before : Memory} {first : Nat} {numbers : List (Int × Int)} {s after : PdList}

/-- The entry behind those that count is open, and has no virtual drive. -/
structure Open (s : PdList) : Prop where
  here : s.e = s.raidLdPdIdx
  own : s.raidPdDepot.slice (entrySize * s.e + 8) 4 = numberBytes (-1, -1)

/-- While `mega_jbod_list` runs. -/
structure Passing (before : Memory) (first : Nat) (numbers : List (Int × Int)) (s : PdList) :
    Prop where
  counted : Counted before first numbers s
  current : 0 ≤ s.ecId → Open s

theorem Open.keeps (opened : Open s) (keeps : s.Keeps after) : Open after where
  here := by rw [keeps.e, keeps.count, opened.here]
  own := by
    rw [keeps.e]
    refine Eq.trans (Memory.slice_congr fun offset below => keeps.outside _ (Or.inl ?_)) opened.own
    omega

theorem Counted.filled (counted : Counted before first numbers s) (opened : Open s)
    (keeps : s.Keeps after) : Passing before first numbers after where
  counted := by
    have count := counted.count
    have here := opened.here
    exact counted.keeps keeps (by omega) (by omega)
  current _ := opened.keeps keeps

theorem open_initDiskEntry (here : s.e = s.raidLdPdIdx) {depot : Memory}
    (same : s.raidPdDepot = initDiskEntry depot s.raidLdPdIdx) : Open s where
  here := here
  own := by
    have all : numberBytes (-1, -1) = List.replicate 4 255 := by decide
    rw [all, same, here]
    refine Memory.slice_replicate fun offset below => ?_
    rw [Nat.add_assoc]
    exact initDiskEntry_number (by omega)

theorem Counted.fresh (counted : Counted before first numbers s)
    (count : after.raidLdPdIdx = s.raidLdPdIdx)
    (depot : after.raidPdDepot = initDiskEntry s.raidPdDepot s.raidLdPdIdx) :
    Counted before first numbers after := by
  refine counted.congr count fun address early => ?_
  rw [depot]
  refine initDiskEntry_outside (Or.inl ?_)
  rw [counted.count]
  unfold entrySize at *
  omega

theorem Counted.enclosure (counted : Counted before first numbers s)
    (ran : s.enclosure = some after) : Passing before first numbers after := by
  simp only [PdList.enclosure, Option.ite_none_right_eq_some, Option.some.injEq] at ran
  obtain ⟨-, rfl⟩ := ran
  have fresh : Counted before first numbers
      { s with
        ecId := scanNumber .ec s.line s.ecId
        e := s.raidLdPdIdx
        raidPdDepot := initDiskEntry s.raidPdDepot s.raidLdPdIdx } := counted.fresh rfl rfl
  exact fresh.filled (open_initDiskEntry rfl rfl) (PdList.keeps_short (by decide) (by decide) _)

theorem Counted.discard (counted : Counted before first numbers s) (opened : Open s) :
    Passing before first numbers s.discard where
  counted := counted.fresh rfl (by rw [← opened.here]; rfl)
  current impossible := absurd (show (0 : Int) ≤ -1 from impossible) (by decide)

theorem Counted.mediaType (counted : Counted before first numbers s) (opened : Open s)
    (fills : PdList.Fills s.buf (PdList.copyText .pdType 12)) (ran : s.mediaType = some after) :
    Passing before first (numbers ++ [(-1, -1)]) after := by
  obtain ⟨told, copied, keeps⟩ := fills s rfl
  obtain ⟨next, current⟩ := counted.filled opened keeps
  have own := (opened.keeps keeps).own
  rw [(opened.keeps keeps).here, next.count] at own
  rw [PdList.mediaType, copied, Option.map_some, Option.some.injEq] at ran
  subst ran
  refine ⟨⟨?_, next.numbered.snoc own, next.kept⟩, fun impossible => ?_⟩
  · rw [List.length_append, List.length_singleton, ← Nat.add_assoc, ← next.count]
  · exact absurd (show (0 : Int) ≤ -1 from impossible) (by decide)

theorem Passing.act (sizeGB : Memory → BitVec 32) {line : List UInt8} {key : Key}
    (passing : Passing before first numbers s) (opened : 0 ≤ s.ecId)
    (shown : Memory.Shows s.buf 0 line) (short : line.length < bufSize) (legible : Legible line)
    (found : keyOf line = some key) (ran : PdList.act sizeGB key s = some after) :
    ∃ more, Passing before first (numbers ++ List.replicate more (-1, -1)) after := by
  have holds := legible key found
  have same : ∀ {after}, Passing before first numbers after →
      ∃ more, Passing before first (numbers ++ List.replicate more (-1, -1)) after := by
    intro after reached
    exact ⟨0, by rwa [List.replicate_zero, List.append_nil]⟩
  have filled : ∀ {act}, PdList.Fills s.buf act → act s = some after →
      ∃ more, Passing before first (numbers ++ List.replicate more (-1, -1)) after := by
    intro act fills acted
    obtain ⟨other, done, keeps⟩ := fills s rfl
    rw [acted] at done
    cases done
    exact same (passing.counted.filled (passing.current opened) keeps)
  cases key with
  | ec => exact same (passing.counted.enclosure ran)
  | slot => exact filled PdList.fills_slot ran
  | did => exact filled PdList.fills_deviceId ran
  | size => exact filled (PdList.fills_rawSize sizeGB) ran
  | wwn => exact filled (PdList.fills_copyText shown short (by decide) holds) ran
  | firmver => exact filled (PdList.fills_copyText shown short (by decide) holds) ran
  | sasaddr => exact filled (PdList.fills_copyText shown short (by decide) holds) ran
  | inq => exact filled (PdList.fills_inquiry shown short holds) ran
  | state =>
      rw [PdList.act, Option.some.injEq] at ran
      split at ran
      · exact ran ▸ same passing
      · exact ran ▸ same (passing.counted.discard (passing.current opened))
  | type =>
      have fills : PdList.Fills s.buf (PdList.copyText .pdType 12) :=
        PdList.fills_copyText shown short (by decide) holds
      exact ⟨1, passing.counted.mediaType (passing.current opened) fills ran⟩

theorem Passing.parse (sizeGB : Memory → BitVec 32) {line : List UInt8}
    (passing : Passing before first numbers s) (shown : Memory.Shows s.buf 0 line)
    (short : line.length < bufSize) (legible : Legible line) (ran : s.parse sizeGB = some after) :
    ∃ more, Passing before first (numbers ++ List.replicate more (-1, -1)) after := by
  have same : Passing before first (numbers ++ List.replicate 0 (-1, -1)) s := by
    rwa [List.replicate_zero, List.append_nil]
  rw [PdList.parse_eq, PdList.line_eq shown short] at ran
  cases found : keyOf line with
  | none =>
      rw [found, Option.some.injEq] at ran
      exact ⟨0, ran ▸ same⟩
  | some key =>
      rw [found] at ran
      by_cases closed : s.ecId < 0
      · cases key with
        | ec =>
            refine ⟨0, ?_⟩
            rw [List.replicate_zero, List.append_nil]
            exact passing.counted.enclosure ran
        | _ =>
            simp only [if_pos closed, Option.some.injEq] at ran
            exact ⟨0, ran ▸ same⟩
      · have acted : PdList.act sizeGB key s = some after := by
          cases key with
          | ec => exact ran
          | _ =>
              simp only [if_neg closed] at ran
              exact ran
        exact passing.act sizeGB (Int.not_lt.mp closed) shown short legible found acted

/-- `mega_jbod_list` adds drives without a virtual drive, and leaves those that were there. -/
theorem megaJbodList_counted (sizeGB : Memory → BitVec 32) {output : List UInt8}
    (start : (megaJbodList sizeGB).init s) (counted : Counted before first numbers s)
    (whole : ∀ piece ∈ pieces 127 [] output, WholeLine piece)
    (legible : ∀ piece ∈ pieces 127 [] output, Legible piece.dropLast)
    (ran : (megaJbodList sizeGB).run s (pieces 127 [] output) = some after) :
    ∃ more, Counted before first (numbers ++ List.replicate more (-1, -1)) after := by
  have initially : Passing before first numbers s := by
    refine ⟨counted, fun opened => ?_⟩
    rw [start.1] at opened
    contradiction
  generalize pieces 127 [] output = labels at whole legible ran
  clear start counted
  induction labels generalizing numbers s with
  | nil =>
      rw [Machine.run, Option.some.injEq] at ran
      refine ⟨0, ?_⟩
      rw [List.replicate_zero, List.append_nil]
      exact ran ▸ initially.counted
  | cons piece rest ih =>
      obtain ⟨next, stepped, later⟩ := Option.bind_eq_some_iff.mp ran
      obtain ⟨buf, arrived, shown, short⟩ := s.receive_whole (whole piece List.mem_cons_self)
      have parsed : PdList.parse sizeGB { s with buf := buf } = some next := by
        have step : (s.receive piece).bind (PdList.parse sizeGB) = some next := stepped
        rwa [arrived] at step
      have received : Passing before first numbers { s with buf := buf } := by
        refine ⟨⟨?_, ?_, ?_⟩, fun opened => ⟨?_, ?_⟩⟩
        · exact initially.counted.count
        · exact initially.counted.numbered
        · exact initially.counted.kept
        · exact (initially.current opened).here
        · exact (initially.current opened).own
      obtain ⟨more, passing⟩ := received.parse sizeGB shown (Nat.lt_of_succ_lt short)
        (legible piece List.mem_cons_self) parsed
      obtain ⟨others, all⟩ := ih passing
        (fun other member => whole other (List.mem_cons_of_mem _ member))
        (fun other member => legible other (List.mem_cons_of_mem _ member)) later
      refine ⟨more + others, ?_⟩
      rw [← List.replicate_append_replicate, ← List.append_assoc]
      exact all

end

def loadShort (depot : Memory) (address : Nat) : Int :=
  (BitVec.ofNat 16 (Memory.ofLittleEndian (depot.slice address 2))).toInt

def loadText (depot : Memory) (address size : Nat) : List UInt8 :=
  (depot.slice address size).takeWhile (· ≠ 0)

/-- An entry of the table; `float` is the number that four bytes are. -/
def loadEntry (float : List UInt8 → Rat) (depot : Memory) (index : Nat) : DiskEntry :=
  let base := entrySize * index
  { host := loadShort depot (base + 0)
    bus := loadShort depot (base + 2)
    target := loadShort depot (base + 4)
    lun := loadShort depot (base + 6)
    vdIdx := loadShort depot (base + 8)
    pdIdx := loadShort depot (base + 10)
    ec := loadShort depot (base + 12)
    slot := loadShort depot (base + 14)
    did := loadShort depot (base + 16)
    sn := loadText depot (base + 18) 32
    ver := loadText depot (base + 50) 64
    model := loadText depot (base + 114) 64
    sizeGB := float (depot.slice (base + 180) 4)
    pcipath := loadText depot (base + 184) 16
    pdType := loadText depot (base + 200) 32
    wwn := loadText depot (base + 232) 64
    peerAddr := loadText depot (base + 296) 64
    ecAddr := loadText depot (base + 360) 32
    path := loadText depot (base + 392) 16
    sgpath := loadText depot (base + 408) 16
    diskType := loadText depot (base + 424) 16
    raidInq := loadText depot (base + 440) 96
    connectType := loadText depot (base + 536) 16
    typeUsb := loadShort depot (base + 552) }

def PdList.entries (float : List UInt8 → Rat) (s : PdList) : List DiskEntry :=
  (List.range s.raidLdPdIdx).map (loadEntry float s.raidPdDepot)

def toShort (value : Int) : Int := (BitVec.ofInt 16 value).toInt

theorem loadShort_shortBytes {depot : Memory} {address : Nat} {value : Int}
    (told : depot.slice address 2 = shortBytes value) :
    loadShort depot address = toShort value := by
  have small : (BitVec.ofInt 16 value).toNat < 65536 := (BitVec.ofInt 16 value).isLt
  have bits : Memory.ofLittleEndian (shortBytes value) = (BitVec.ofInt 16 value).toNat := by
    simp only [shortBytes, Memory.ofLittleEndian, UInt8.toNat_ofNat']
    omega
  rw [loadShort, told, bits, BitVec.ofNat_toNat, BitVec.setWidth_eq, toShort]

theorem Counted.entries {before : Memory} {numbers : List (Int × Int)} {s : PdList}
    (counted : Counted before 0 numbers s) (float : List UInt8 → Rat) :
    (s.entries float).map (fun entry => (entry.vdIdx, entry.pdIdx)) =
      numbers.map fun number => (toShort number.1, toShort number.2) := by
  apply List.ext_getElem
  · simp [PdList.entries, counted.count]
  · intro i inside within
    have below : i < numbers.length := by simpa using within
    have told := counted.numbered i below
    rw [Nat.zero_add, List.get_eq_getElem] at told
    have parts : s.raidPdDepot.slice (entrySize * i + 8) 4 =
        s.raidPdDepot.slice (entrySize * i + 8) 2 ++ s.raidPdDepot.slice (entrySize * i + 10) 2 :=
      Memory.slice_append _ _ 2 2
    rw [parts] at told
    obtain ⟨vd, pd⟩ := List.append_inj told (Memory.length_slice _ _ _)
    simp only [PdList.entries, List.map_map, List.getElem_map, List.getElem_range,
      Function.comp_apply,
      loadEntry, loadShort_shortBytes vd, loadShort_shortBytes pd]

section

variable {answers : Answers} {sys raid : List DiskEntry} {src : DiskEntry} {s after : Matched}

def placements : GrowingTable Matched Placement where
  capacity := maxDisk
  size s := s.finalDepot.length
  trace := Matched.finalDepot

theorem places_one (s : Matched) (placement : Placement) :
    placements.Adds s (s.place placement) 1 [placement] where
  room fits := ⟨_, if_pos fits, List.length_append, rfl⟩
  full _ exceeds := if_neg (Nat.not_lt_of_le (Nat.le_of_lt_succ exceeds))

def volumePlacements (raid : List DiskEntry) (src : DiskEntry) : List Placement :=
  (raid.zipIdx.filter fun pd => pd.1.vdIdx = src.target).map fun pd => raidPlacement src pd.1 pd.2

theorem places_volume (s : Matched) (raid : List DiskEntry) (src : DiskEntry) :
    placements.Adds s
      (raid.zipIdx.foldlM (fun s pd =>
        if pd.1.vdIdx = src.target then s.place (raidPlacement src pd.1 pd.2) else some s) s)
      (raid.zipIdx.filter fun pd => pd.1.vdIdx = src.target).length
        (volumePlacements raid src) := by
  rw [← sum_of_filter, volumePlacements, ← flatMap_of_filter]
  refine GrowingTable.Adds.foldlM (fun s pd => ?_) _ s
  by_cases member : pd.1.vdIdx = src.target
  · rw [if_pos member, if_pos member, if_pos member]
    exact places_one s _
  · rw [if_neg member, if_neg member, if_neg member]
    exact .nothing s

theorem matchDisk_volume (isRaid : src.IsRaid) : matchDisk answers sys raid s src =
    raid.zipIdx.foldlM (fun s pd =>
      if pd.1.vdIdx = src.target then s.place (raidPlacement src pd.1 pd.2) else some s) s := by
  have sized : ¬src.sizeGB < 0 := not_lt.mpr isRaid.1
  rw [matchDisk, if_neg (by simp [sized]), if_neg (by simp [sized]), if_neg (by simp [sized]),
    if_pos isRaid.2]

theorem finalDepot_of_adds {result : Option Matched} {count : Nat} {more : List Placement}
    (adds : placements.Adds s result count more) (within : s.finalDepot.length ≤ maxDisk)
    (ran : result = some after) :
    after.finalDepot = s.finalDepot ++ more ∧ after.finalDepot.length ≤ maxDisk := by
  have both := (adds.some_iff within (· = after.finalDepot)).mp ⟨after, ran, rfl⟩
  obtain ⟨fits, all⟩ := both
  obtain ⟨last, same, size, -⟩ := adds.room fits
  rw [ran, Option.some.injEq] at same
  exact ⟨all.symm, same ▸ size.trans_le fits⟩

theorem places_disk (answers : Answers) (sys raid : List DiskEntry) (s : Matched)
    (src : DiskEntry) :
    ∃ count more, placements.Adds s (matchDisk answers sys raid s src) count more := by
  unfold matchDisk
  split_ifs with absent unplugged raidDisk volume passed
  · exact ⟨0, [], .nothing s⟩
  · exact ⟨0, [], .nothing s⟩
  · exact ⟨1, _, (places_one s _).map (fun _ => rfl) fun _ => rfl⟩
  · exact ⟨_, _, places_volume s raid src⟩
  · cases raid.zipIdx.find? fun pd => pd.1.slot = src.target with
    | none => exact ⟨0, [], .nothing s⟩
    | some pd => exact ⟨1, _, places_one s _⟩
  · exact ⟨1, _, places_one s _⟩

theorem finalDepot_grows {disks : List DiskEntry} (within : s.finalDepot.length ≤ maxDisk)
    (ran : disks.foldlM (matchDisk answers sys raid) s = some after) :
    s.finalDepot <+: after.finalDepot ∧ after.finalDepot.length ≤ maxDisk := by
  induction disks generalizing s with
  | nil =>
      rw [List.foldlM_nil, Option.pure_def, Option.some.injEq] at ran
      exact ran ▸ ⟨List.prefix_rfl, within⟩
  | cons disk rest ih =>
      rw [List.foldlM_cons] at ran
      obtain ⟨next, matched, later⟩ := Option.bind_eq_some_iff.mp ran
      obtain ⟨count, more, adds⟩ := places_disk answers sys raid s disk
      obtain ⟨grown, still⟩ := finalDepot_of_adds adds within matched
      obtain ⟨front, bound⟩ := ih still later
      exact ⟨(grown ▸ List.prefix_append _ _).trans front, bound⟩

theorem volumePlacements_infix {last : Matched} (listed : src ∈ sys) (isRaid : src.IsRaid)
    (ran : listSdevices answers sys raid = some last) :
    volumePlacements raid src <:+: last.finalDepot := by
  obtain ⟨front, rest, split⟩ := List.append_of_mem listed
  have step : (front ++ src :: rest).foldlM (matchDisk answers sys raid) ⟨[], 0⟩ = some last := by
    rw [← split]
    exact ran
  rw [List.foldlM_append] at step
  obtain ⟨before, first, later⟩ := Option.bind_eq_some_iff.mp step
  rw [List.foldlM_cons] at later
  obtain ⟨after, matched, final⟩ := Option.bind_eq_some_iff.mp later
  obtain ⟨-, room⟩ := finalDepot_grows (Nat.zero_le _) first
  rw [matchDisk_volume isRaid] at matched
  obtain ⟨grown, still⟩ := finalDepot_of_adds (places_volume before raid src) room matched
  obtain ⟨tail, whole⟩ := (finalDepot_grows still final).1
  exact ⟨before.finalDepot, tail, by rw [← grown, whole]⟩

end

theorem raidPlacement_entry (src pd : DiskEntry) (p : Nat) :
    (raidPlacement src pd p).entry.vdIdx = pd.vdIdx ∧
      (raidPlacement src pd p).entry.pdIdx = pd.pdIdx ∧
      (raidPlacement src pd p).entry.path = src.path ∧
      (raidPlacement src pd p).entry.host = src.host := by
  simp only [raidPlacement]
  split_ifs
  all_goals exact ⟨rfl, rfl, rfl, rfl⟩

theorem volumePlacements_numbers (raid : List DiskEntry) (src : DiskEntry) :
    (volumePlacements raid src).map
      (fun placement => (placement.entry.vdIdx, placement.entry.pdIdx)) =
        (raid.map fun entry => (entry.vdIdx, entry.pdIdx)).filter fun number =>
          number.1 = src.target := by
  have plain : raid.zipIdx.map Prod.fst = raid := List.zipIdx_map_fst 0 raid
  have own : ∀ pd : DiskEntry × Nat, ((raidPlacement src pd.1 pd.2).entry.vdIdx,
      (raidPlacement src pd.1 pd.2).entry.pdIdx) = (pd.1.vdIdx, pd.1.pdIdx) := by
    intro pd
    obtain ⟨vd, number, -, -⟩ := raidPlacement_entry src pd.1 pd.2
    rw [vd, number]
  rw [volumePlacements, List.map_map, ← plain, List.map_map, List.filter_map, plain]
  exact List.map_congr_left fun pd _ => own pd

def PdList.restarted (s : PdList) : PdList := { s with e := 0, ecId := -1, slotId := -1, did := -1 }

/-- A mirror of two drives, a volume of another adapter, and a drive that is passed through. -/
def mirrorOutput : List UInt8 := printed ["Number of Virtual Disks: 1",
  "Virtual Drive: 0 (Target Id: 0)", "Number Of Drives    : 2", "PD: 0 Information",
  "Enclosure Device ID: 32", "Slot Number: 0", "Media Type: Hard Disk Device", "PD: 1 Information",
  "Enclosure Device ID: 32", "Slot Number: 1", "Media Type: Hard Disk Device",
  "Number of Virtual Disks: 1", "Virtual Drive: 0 (Target Id: 0)", "Number Of Drives    : 1",
  "PD: 0 Information", "Enclosure Device ID: 64", "Slot Number: 0", "Media Type: Hard Disk Device"]

example : driveNumbers mirrorOutput = [(0, 0), (0, 1), (0, 0)] := by decide +kernel

def passedOutput : List UInt8 := printed ["Enclosure Device ID: 32", "Slot Number: 2",
  "Firmware state: JBOD", "Media Type: Solid State Device"]

def noAnswers : Answers := ⟨fun _ => none, fun _ e => e.sizeGB⟩

end DirtyCode.DiskList
