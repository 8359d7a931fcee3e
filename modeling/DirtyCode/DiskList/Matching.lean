import DirtyCode.DiskList.Entry
import DirtyCode.Lib.Room
import DirtyCode.Lib.Text

/-!
How `list_sdevices` of `disklist.c` matches the disks of the system with the physical drives
behind the RAID controllers.
-/

namespace DirtyCode.DiskList

open Lib

/-- `struct disk_entry`, each text field as the C string in it. -/
structure DiskEntry where
  host : Int
  bus : Int
  target : Int
  lun : Int
  vdIdx : Int
  pdIdx : Int
  ec : Int
  slot : Int
  did : Int
  sn : List UInt8
  ver : List UInt8
  model : List UInt8
  sizeGB : Rat
  pcipath : List UInt8
  pdType : List UInt8
  wwn : List UInt8
  peerAddr : List UInt8
  ecAddr : List UInt8
  path : List UInt8
  sgpath : List UInt8
  diskType : List UInt8
  raidInq : List UInt8
  connectType : List UInt8
  typeUsb : Int

/-- What the devices answer: the byte that `queue/rotational` begins with, for the name of a
block device, and the size that `readCap` leaves. -/
structure Answers where
  rotational : List UInt8 → Option UInt8
  readCap : List UInt8 → DiskEntry → Rat

def charAt (text : List UInt8) (index : Nat) : UInt8 := text.getD index 0

def fillDiskType (answers : Answers) (e : DiskEntry) : DiskEntry :=
  if charAt e.path 5 = 110 ∧ charAt e.path 6 = 118 then { e with diskType := ascii "NVME SSD" }
  else if charAt e.diskType 0 = 72 ∨ charAt e.diskType 0 = 83 then e
  else
    match answers.rotational (e.path.drop 5) with
    | none => e
    | some byte =>
        if byte = 48 then { e with diskType := ascii "SSD" }
        else if byte = 49 then { e with diskType := ascii "HDD" }
        else e

-- cut at the last `n`
def fixNvmeNsSmartcmd (cmd : List UInt8) : List UInt8 := (cmd.rdropWhile (· ≠ 110)).dropLast

def smartctl (device : List UInt8) : List UInt8 :=
  ascii "/etc/sysop/healthd2/bin/smartctl -Ai " ++ device

def smartctlMegaraid (number : Int) : List UInt8 :=
  smartctl (ascii "-d megaraid," ++ ascii (toString number) ++ ascii " /dev")

structure Placement where
  entry : DiskEntry
  smartcmd : List UInt8
  -- the entry of `raid_pd_depot` that was copied
  drive : Option Nat

structure Matched where
  finalDepot : List Placement
  tmpMegasasRaidPdIdx : Nat

namespace Matched

-- `none`: an index behind `final_depot` and `smartcmd`
def place (s : Matched) (placement : Placement) : Option Matched :=
  if s.finalDepot.length < maxDisk then
    some { s with finalDepot := s.finalDepot ++ [placement] }
  else none

end Matched

def hbaRaid (answers : Answers) (sys : List DiskEntry) (pdIdx : Nat) (src : DiskEntry) :
    Placement :=
  let named :=
    match sys.find? fun disk => 32 ≤ disk.wwn.length with
    | some disk => { src with path := disk.path, sizeGB := disk.sizeGB }
    | none => src
  let typed := fillDiskType answers { named with connectType := ascii "SAS_HBA_RAID" }
  let numbered := { typed with vdIdx := 0, pdIdx := pdIdx }
  let dst := { numbered with sizeGB := answers.readCap numbered.sgpath numbered }
  { entry := dst, smartcmd := smartctl dst.sgpath, drive := none }

def addressed (src pd : DiskEntry) : DiskEntry :=
  { pd with
    path := src.path
    sgpath := src.sgpath
    pcipath := src.pcipath
    host := src.host
    bus := src.bus
    target := src.target
    lun := src.lun }

def raidPlacement (src pd : DiskEntry) (p : Nat) : Placement :=
  let named := { addressed src pd with connectType := ascii "RAID_RAID" }
  let dst :=
    if charAt pd.pdType 0 = 72 then { named with diskType := ascii "HDD" }
    else if charAt pd.pdType 0 = 83 then { named with diskType := ascii "SSD" }
    else named
  { entry := dst
    smartcmd := smartctlMegaraid (if -1 < dst.did ∧ dst.did ≠ dst.slot then dst.did else dst.slot)
    drive := some p }

def jbodPlacement (answers : Answers) (src pd : DiskEntry) (p : Nat) : Placement :=
  let named := { addressed src pd with model := src.model, ver := src.ver, sn := src.sn }
  let dst := fillDiskType answers
    { named with vdIdx := 999, pdIdx := 0, connectType := ascii "RAID_JBOD" }
  { entry := dst, smartcmd := smartctlMegaraid dst.slot, drive := some p }

def plainPlacement (answers : Answers) (src : DiskEntry) : Placement :=
  let dst := fillDiskType answers src
  let smartcmd :=
    if charAt dst.sgpath 0 = 47 then smartctl dst.sgpath
    else if dst.diskType = ascii "NVME SSD" then fixNvmeNsSmartcmd (smartctl dst.path)
    else smartctl dst.path
  { entry := dst, smartcmd := smartcmd, drive := none }

def matchDisk (answers : Answers) (sys raid : List DiskEntry) (s : Matched) (src : DiskEntry) :
    Option Matched :=
  -- an enclosure, an unplugged usb disk
  if src.sizeGB < 0 ∧ charAt src.pdType 0 ≠ 100 then some s
  else if src.sizeGB < 0 ∧ charAt src.pdType 0 = 100 ∧ charAt src.path 0 = 47 then some s
  else if src.sizeGB < 0 ∧ charAt src.pdType 0 = 100 then
    (s.place (hbaRaid answers sys s.tmpMegasasRaidPdIdx src)).map fun placed =>
      { placed with tmpMegasasRaidPdIdx := placed.tmpMegasasRaidPdIdx + 1 }
  else if 32 ≤ src.wwn.length then
    raid.zipIdx.foldlM (fun s pd =>
      if pd.1.vdIdx = src.target then s.place (raidPlacement src pd.1 pd.2) else some s) s
  else if src.ec < 0 ∧ src.slot < 0 ∧ charAt src.diskType 1 ≠ 86 then
    match raid.zipIdx.find? fun pd => pd.1.slot = src.target with
    | some pd => s.place (jbodPlacement answers src pd.1 pd.2)
    | none => some s
  else s.place (plainPlacement answers src)

def listSdevices (answers : Answers) (sys raid : List DiskEntry) : Option Matched :=
  sys.foldlM (matchDisk answers sys raid) ⟨[], 0⟩

/-- The physical drives that have been placed, in order. -/
def Matched.drives (s : Matched) : List Nat := s.finalDepot.filterMap Placement.drive

/-- No index leaves the tables and no physical drive is placed twice. -/
def PlacedOnce (answers : Answers) (sys raid : List DiskEntry) : Prop :=
  ∃ last, listSdevices answers sys raid = some last ∧ last.drives.Nodup

/-- A volume of a RAID controller; its drives have its target as their volume's number. -/
def DiskEntry.IsRaid (src : DiskEntry) : Prop := 0 ≤ src.sizeGB ∧ 32 ≤ src.wwn.length

/-- A disk that its controller passes through; its drive is the first in the slot of that number. -/
def DiskEntry.IsJbod (src : DiskEntry) : Prop :=
  0 ≤ src.sizeGB ∧ src.wwn.length < 32 ∧ src.ec < 0 ∧ src.slot < 0 ∧ charAt src.diskType 1 ≠ 86

instance (src : DiskEntry) : Decidable src.IsRaid := by
  unfold DiskEntry.IsRaid
  infer_instance

instance (src : DiskEntry) : Decidable src.IsJbod := by
  unfold DiskEntry.IsJbod
  infer_instance

/-- The physical drives that a disk of the system stands for. -/
def claimed (raid : List DiskEntry) (src : DiskEntry) : List Nat :=
  if src.IsRaid then
    (raid.zipIdx.filter fun pd => pd.1.vdIdx = src.target).map Prod.snd
  else if src.IsJbod then
    ((raid.zipIdx.find? fun pd => pd.1.slot = src.target).map Prod.snd).toList
  else []

/-- An enclosure or an unplugged disk. -/
def DiskEntry.IsAbsent (src : DiskEntry) : Prop :=
  src.sizeGB < 0 ∧ (charAt src.pdType 0 ≠ 100 ∨ charAt src.path 0 = 47)

instance (src : DiskEntry) : Decidable src.IsAbsent := by
  unfold DiskEntry.IsAbsent
  infer_instance

def places (raid : List DiskEntry) (src : DiskEntry) : Nat :=
  if src.IsAbsent then 0
  else if src.IsRaid ∨ src.IsJbod then (claimed raid src).length
  else 1

def finalTable : GrowingTable Matched Nat where
  capacity := maxDisk
  size s := s.finalDepot.length
  trace := Matched.drives

theorem adds_place (s : Matched) (placement : Placement) :
    finalTable.Adds s (s.place placement) 1 placement.drive.toList where
  room fits := by
    refine ⟨_, if_pos fits, List.length_append, ?_⟩
    show (s.finalDepot ++ [placement]).filterMap Placement.drive = _
    rw [List.filterMap_append]
    cases held : placement.drive with
    | none => simp [held, finalTable, Matched.drives]
    | some p => simp [held, finalTable, Matched.drives]
  full _ exceeds := if_neg (Nat.not_lt_of_le (Nat.le_of_lt_succ exceeds))

theorem sum_of_filter {ι : Type*} (wanted : ι → Prop) [DecidablePred wanted] (items : List ι) :
    (items.map fun item => if wanted item then 1 else 0).sum =
      (items.filter fun item => wanted item).length := by
  induction items with
  | nil => rfl
  | cons item rest ih =>
      by_cases here : wanted item
      · rw [List.map_cons, List.sum_cons, ih, if_pos here, List.filter_cons_of_pos (by simp [here]),
          List.length_cons, Nat.add_comm]
      · rw [List.map_cons, List.sum_cons, ih, if_neg here, List.filter_cons_of_neg (by simp [here]),
          Nat.zero_add]

theorem flatMap_of_filter {ι ν : Type*} (wanted : ι → Prop) [DecidablePred wanted] (name : ι → ν)
    (items : List ι) : (items.flatMap fun item => if wanted item then [name item] else []) =
      (items.filter fun item => wanted item).map name := by
  induction items with
  | nil => rfl
  | cons item rest ih =>
      by_cases here : wanted item
      · rw [List.flatMap_cons, ih, if_pos here, List.filter_cons_of_pos (by simp [here]),
          List.map_cons, List.singleton_append]
      · rw [List.flatMap_cons, ih, if_neg here, List.filter_cons_of_neg (by simp [here]),
          List.nil_append]

section

variable {answers : Answers} {sys raid : List DiskEntry} {src : DiskEntry}

theorem adds_volume (s : Matched) (raid : List DiskEntry) (src : DiskEntry) :
    finalTable.Adds s
      (raid.zipIdx.foldlM (fun s pd =>
        if pd.1.vdIdx = src.target then s.place (raidPlacement src pd.1 pd.2) else some s) s)
      (raid.zipIdx.filter fun pd => pd.1.vdIdx = src.target).length
      ((raid.zipIdx.filter fun pd => pd.1.vdIdx = src.target).map Prod.snd) := by
  rw [← sum_of_filter, ← flatMap_of_filter]
  refine GrowingTable.Adds.foldlM (fun s pd => ?_) _ s
  by_cases member : pd.1.vdIdx = src.target
  · rw [if_pos member, if_pos member, if_pos member]
    exact adds_place s (raidPlacement src pd.1 pd.2)
  · rw [if_neg member, if_neg member, if_neg member]
    exact .nothing s

theorem adds_matchDisk (answers : Answers) (sys raid : List DiskEntry) (s : Matched)
    (src : DiskEntry) :
    finalTable.Adds s (matchDisk answers sys raid s src) (places raid src) (claimed raid src) := by
  by_cases negative : src.sizeGB < 0
  · have noRaid : ¬src.IsRaid := fun isRaid => absurd isRaid.1 (not_le.mpr negative)
    have noJbod : ¬src.IsJbod := fun isJbod => absurd isJbod.1 (not_le.mpr negative)
    have none : claimed raid src = [] := by rw [claimed, if_neg noRaid, if_neg noJbod]
    by_cases disk : charAt src.pdType 0 = 100
    · by_cases left : charAt src.path 0 = 47
      · have absent : src.IsAbsent := ⟨negative, Or.inr left⟩
        rw [none, places, if_pos absent, matchDisk, if_neg (by simp [disk]),
          if_pos ⟨negative, disk, left⟩]
        exact .nothing s
      · have present : ¬src.IsAbsent := by simp [DiskEntry.IsAbsent, disk, left]
        rw [none, places, if_neg present, if_neg (not_or.mpr ⟨noRaid, noJbod⟩), matchDisk,
          if_neg (by simp [disk]), if_neg (by simp [left]), if_pos ⟨negative, disk⟩]
        exact (adds_place s (hbaRaid answers sys s.tmpMegasasRaidPdIdx src)).map
          (fun _ => rfl) (fun _ => rfl)
    · have absent : src.IsAbsent := ⟨negative, Or.inl disk⟩
      rw [none, places, if_pos absent, matchDisk, if_pos ⟨negative, disk⟩]
      exact .nothing s
  · have sized : 0 ≤ src.sizeGB := not_lt.mp negative
    have present : ¬src.IsAbsent := fun absent => negative absent.1
    rw [places, if_neg present, matchDisk, if_neg (by simp [negative]), if_neg (by simp [negative]),
      if_neg (by simp [negative])]
    by_cases volume : 32 ≤ src.wwn.length
    · have isRaid : src.IsRaid := ⟨sized, volume⟩
      rw [if_pos (Or.inl isRaid), claimed, if_pos isRaid, List.length_map, if_pos volume]
      exact adds_volume s raid src
    · have noRaid : ¬src.IsRaid := fun isRaid => volume isRaid.2
      rw [claimed, if_neg noRaid, if_neg volume]
      by_cases passed : src.ec < 0 ∧ src.slot < 0 ∧ charAt src.diskType 1 ≠ 86
      · have isJbod : src.IsJbod := ⟨sized, Nat.lt_of_not_le volume, passed⟩
        rw [if_pos (Or.inr isJbod), if_pos isJbod, if_pos passed]
        cases found : raid.zipIdx.find? fun pd => pd.1.slot = src.target with
        | none => exact .nothing s
        | some pd => exact adds_place s (jbodPlacement answers src pd.1 pd.2)
      · have noJbod : ¬src.IsJbod := fun isJbod => passed isJbod.2.2
        rw [if_neg (not_or.mpr ⟨noRaid, noJbod⟩), if_neg noJbod, if_neg passed]
        exact adds_place s (plainPlacement answers src)

end

theorem claimed_nodup (raid : List DiskEntry) (src : DiskEntry) : (claimed raid src).Nodup := by
  unfold claimed
  split
  · exact (List.nodup_zipIdx_map_snd raid).sublist (List.filter_sublist.map Prod.snd)
  · split
    · cases (raid.zipIdx.find? fun pd => pd.1.slot = src.target).map Prod.snd with
      | none => exact List.nodup_nil
      | some p => exact List.nodup_singleton p
    · exact List.nodup_nil

/-- Every physical drive is placed at most once and every index stays inside exactly when no two
disks of the system stand for the same drive and all their places are at most `MAX_DISK`. -/
theorem placedOnce_iff (answers : Answers) (sys raid : List DiskEntry) :
    PlacedOnce answers sys raid ↔ (sys.map (places raid)).sum ≤ maxDisk ∧
      sys.Pairwise fun src other => (claimed raid src).Disjoint (claimed raid other) := by
  have adds := GrowingTable.Adds.foldlM (adds_matchDisk answers sys raid) sys ⟨[], 0⟩
  refine (adds.some_iff (Nat.zero_le _) List.Nodup).trans ?_
  have size : finalTable.size ⟨[], 0⟩ = 0 := rfl
  have trace : finalTable.trace ⟨[], 0⟩ = [] := rfl
  rw [size, trace, Nat.zero_add, List.nil_append, List.nodup_flatMap]
  exact and_congr_right fun _ => and_iff_right fun src _ => claimed_nodup raid src

def blankEntry : DiskEntry where
  host := -1
  bus := -1
  target := -1
  lun := -1
  vdIdx := -1
  pdIdx := -1
  ec := -1
  slot := -1
  did := -1
  sn := na
  ver := na
  model := na
  sizeGB := -1
  pcipath := na
  pdType := na
  wwn := na
  peerAddr := na
  ecAddr := na
  path := na
  sgpath := na
  diskType := na
  raidInq := na
  connectType := na
  typeUsb := 0

def firstVolume (host : Int) : DiskEntry :=
  { blankEntry with host := host, target := 0, sizeGB := 500, wwn := List.replicate 32 54 }

def firstDrive : DiskEntry := { blankEntry with vdIdx := 0, slot := 1, sizeGB := 500 }

theorem two_controllers_placed_twice :
    ¬PlacedOnce ⟨fun _ => none, fun _ e => e.sizeGB⟩ [firstVolume 0, firstVolume 1]
      [firstDrive] := by
  rintro ⟨last, ran, once⟩
  have drives : (listSdevices ⟨fun _ => none, fun _ e => e.sizeGB⟩ [firstVolume 0, firstVolume 1]
      [firstDrive]).map Matched.drives = some [0, 0] := by decide
  rw [ran, Option.map_some, Option.some.injEq] at drives
  rw [drives] at once
  exact absurd once (by decide)

end DirtyCode.DiskList
